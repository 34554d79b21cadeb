import Confirmer.Lib.Text
import Confirmer.Lib.Net
import Confirmer.Message
import Confirmer.Peer
import Confirmer.Parse
import Confirmer.Codec
import Confirmer.Run
import Confirmer.Tally
import Confirmer.Step
import Confirmer.Broadcast.Count
import Confirmer.Broadcast.Totality
import Confirmer.Broadcast.Byzantine
import Confirmer.Broadcast.Origin
import Confirmer.Broadcast.Mixing
import Confirmer.Broadcast.Gate
import Confirmer.Confirm.Store
import Confirmer.Confirm.Agreement
import Confirmer.Confirm.Accuracy
import Confirmer.Confirm.Authenticity
import Confirmer.Confirm.Convergence
import Confirmer.Framing
import Confirmer.Broadcast.Content
import Confirmer.Broadcast.Record
import Confirmer.Ledger
import Confirmer.Confirm.Detection
import Confirmer.Lib.Drain
import Confirmer.Storm
import Confirmer.Confirm.Certificate
import Confirmer.Confirm.Matching
import Confirmer.Lib.Chain
import Confirmer.Lib.Lts
import Confirmer.Relay
import Confirmer.Leave
import Confirmer.Client
import Confirmer.Lib.Split
import Confirmer.Bounds
import Confirmer.Grammar
import Confirmer.Config
import Confirmer.Startup
import Confirmer.Merge
import Confirmer.Program
import Confirmer.Deployment
import Confirmer.Link
import Confirmer.Confirm.Accountability
import Confirmer.Confirm.Alone
import Confirmer.Liveness
import Confirmer.Confirm.Verdict
import Confirmer.Completion
import Confirmer.Confirm.Recycled
