import Confirmer.Serialize

/-!
# The handlers of a peer

The functions of `core.cpp` between the parser and the sockets. Each returns the peer it leaves
and the list of what it posted, in order; the text on the console is left out.

* Reliable broadcast: `broadcast`, `broadcastSend`, `deliverSend`, `deliverEcho`, `deliverReady`,
  `checkIfReady`.
* Accountable confirmer: `submit`, `submitMsgVerify`, `checkRecvMsg`, `confirm`,
  `generateAggSignature`, `checkRecvAggSignature`, `detectConflictAggSignature`.
-/

namespace Confirmer

open Text

variable {B : BLS}

/-! ## Reliable broadcast -/

/-- `Broadcast`. -/
def broadcast (msg : RBMessage) : List (Post B) := [.rb msg]

/-- `BroadcastSend`. -/
def broadcastSend (p : Peer B) : Peer B × List (Post B) :=
  let p := { p with rbMsg := { p.rbMsg with type := MessageType.send } }
  if p.rbMsg.pid ≠ p.id then (p, []) else (p, broadcast p.rbMsg)

/-- `DeliverSend`. -/
def deliverSend (p : Peer B) (recvMsg : RBMessage) : Peer B × List (Post B) :=
  if p.rb.sentecho = true then (p, []) else
    ({ p with rb := { p.rb with sentecho := true } },
      broadcast { recvMsg with type := MessageType.echo })

/-- `DeliverEcho`. -/
def deliverEcho (G : Globals) (p : Peer B) (recvMsg : RBMessage) : Peer B × List (Post B) :=
  let recvMsg := { recvMsg with type := MessageType.ready }
  let p := { p with rb := { p.rb with echos := p.rb.echos ++ [recvMsg] } }
  if p.rb.echos.length < sizeT (2 * G.NUMBER_OF_FAULTY_PROCESSES + 1).toInt then (p, [])
  else if p.rb.sentready = true then (p, [])
  else ({ p with rb := { p.rb with sentready := true } }, broadcast recvMsg)

/-- `DeliverReady`. -/
def deliverReady (G : Globals) (p : Peer B) (recvMsg : RBMessage) : Peer B × List (Post B) :=
  let p := { p with rb := { p.rb with readys := p.rb.readys ++ [recvMsg] } }
  if p.rb.readys.length ≤ sizeT G.NUMBER_OF_FAULTY_PROCESSES.toInt then (p, [])
  else if p.rb.sentready = true then (p, [])
  else ({ p with rb := { p.rb with sentready := true } }, broadcast recvMsg)

/-- The round of the loop of `CheckIfReady` that leaves it; the other rounds do nothing. -/
def checkIfReady (G : Globals) (p : Peer B) : Option (Peer B) :=
  if sizeT (2 * G.NUMBER_OF_FAULTY_PROCESSES).toInt < p.rb.readys.length ∧ p.rb.delivered = false then
    some { p with rb := { p.rb with delivered := true } }
  else none

/-! ## Accountable confirmer -/

/-- `FindPid`. -/
def findPid (pidVector : List Int32) (elem : Int32) : Bool := pidVector.contains elem

/-- `ShareSign`. -/
def shareSign (p : Peer B) : Peer B :=
  { p with msg := { p.msg with sig := B.blsSign p.keyPair.sec (decInt p.msg.value.toInt) } }

/-- `ShareVerify`. -/
def shareVerify (recvMsg : SubmitMsg B) : Bool :=
  B.blsVerify recvMsg.sig recvMsg.pub (decInt recvMsg.value.toInt)

/-- `GenerateAggSignature`; the count it passes on is the length of the printed value. -/
def generateAggSignature (p : Peer B) : Peer B :=
  let sigVec := p.ac.partialSignature.map SubmitMsg.sig
  let submitValue := p.ac.partialSignature.foldl (fun _ elem => elem.value) 0
  { p with aggSignMsg :=
    { type := MessageType.aggSign, pid := p.id, value := submitValue,
      aggSig := B.blsAggregateSignature sigVec (decInt submitValue.toInt).length } }

/-- `BroadcastAggregateSignature`. -/
def broadcastAggregateSignature (p : Peer B) (dest : Int32) : List (Post B) :=
  [.aggSign dest p.aggSignMsg]

/-- `Confirm`. -/
def confirm (p : Peer B) : Peer B × List (Post B) :=
  let p := generateAggSignature { p with ac := { p.ac with confirm := true } }
  (p, broadcastAggregateSignature p 0)

/-- `CheckRecvMsg`. -/
def checkRecvMsg (G : Globals) (p : Peer B) : Peer B × List (Post B) :=
  if sizeT (G.NUMBER_OF_PROCESSES - G.NUMBER_OF_FAULTY_PROCESSES).toInt ≤ p.ac.from.length then
    confirm p
  else (p, [])

/-- `SubmitMsgVerify`. -/
def submitMsgVerify (G : Globals) (p : Peer B) (recvMsg : SubmitMsg B) : Peer B × List (Post B) :=
  if shareVerify recvMsg = true then
    if p.ac.value = recvMsg.value then
      if findPid p.ac.from recvMsg.pid = false then
        checkRecvMsg G { p with ac := { p.ac with
          «from» := p.ac.from ++ [recvMsg.pid]
          partialSignature := p.ac.partialSignature ++ [recvMsg] } }
      else (p, [])
    else (p, [])
  else (p, [])

/-- `DetectConflictAggSignature`: every entry is compared with the first one. -/
def detectConflictAggSignature (p : Peer B) : Peer B :=
  match p.ac.obtainedAggSignature with
  | [] => p
  | tmp :: rest =>
    if rest.any (fun e => !e.eqv tmp && p.ac.confirm) = true then { p with detectConflict := true }
    else p

/-- `CheckRecvAggSignature`. -/
def checkRecvAggSignature (p : Peer B) : Peer B :=
  if 2 ≤ p.ac.obtainedAggSignature.length then detectConflictAggSignature p else p

/-- `BroadcastSubmitMessage` up to its waiting loop, or to its end where there is none. -/
def broadcastSubmitMessage (p : Peer B) (dest : Int32) : Peer B × List (Post B) :=
  if p.isReliableBroadcast ≠ 0 then
    let r := broadcastSend { p with
      rbMsg := ⟨MessageType.none, p.id, serializeSubmit dest p.msg⟩ }
    ({ r.1 with waiting := some (.submit dest p.msg) }, r.2)
  else (p, [.submit dest p.msg])

/-- `BroadcastSubmitMessage` from the end of its waiting loop on. -/
def leaveWaiting (p : Peer B) : Option (Peer B × List (Post B)) :=
  match p.waiting with
  | some m => if p.rb.delivered = true then some ({ p with waiting := none }, [m]) else none
  | none => none

/-- `Submit`. -/
def submit (p : Peer B) (value dest : Int32) : Peer B × List (Post B) :=
  let p := { p with msg := { p.msg with
    type := MessageType.submit, pid := p.id, value := value, pub := p.keyPair.pub } }
  let p := shareSign p
  let p := { p with ac := { p.ac with value := value } }
  broadcastSubmitMessage p dest

end Confirmer
