import Confirmer.Codec
import Confirmer.Lib.Net

/-!
# Peers on a network

* `Setup`: how the peers of a run are started; `faulty`, and the four thresholds of the handlers in
  terms of it (`echoQuorum_eq`, `readyQuorum_eq`, `deliverQuorum_eq`, `confirmQuorum_eq`).
* `Call`, `Item`, `peerMachine`: a peer as a reactive machine. Its main thread calls `Submit` and
  leaves the waiting loop, its other threads run `ParseMessage` and `CheckIfReady`. Every post
  reaches every peer through the server of its sender; `recvRawMessage` is merged with the wire,
  which delivers in any order.
-/

namespace Confirmer

open Text AsyncNet

variable {B : BLS}

/-! ## Thresholds -/

/-- The bound below which `DeliverEcho` returns. -/
abbrev Globals.echoQuorum (G : Globals) : ℕ := sizeT (2 * G.NUMBER_OF_FAULTY_PROCESSES + 1).toInt

/-- The bound up to which `DeliverReady` returns. -/
abbrev Globals.readyQuorum (G : Globals) : ℕ := sizeT G.NUMBER_OF_FAULTY_PROCESSES.toInt

/-- The bound above which `CheckIfReady` ends. -/
abbrev Globals.deliverQuorum (G : Globals) : ℕ := sizeT (2 * G.NUMBER_OF_FAULTY_PROCESSES).toInt

/-- The bound from which on `CheckRecvMsg` confirms. -/
abbrev Globals.confirmQuorum (G : Globals) : ℕ :=
  sizeT (G.NUMBER_OF_PROCESSES - G.NUMBER_OF_FAULTY_PROCESSES).toInt

namespace Globals

variable {G : Globals} {f : ℕ}

theorem echoQuorum_eq (hf : G.NUMBER_OF_FAULTY_PROCESSES.toInt = f) (hlt : f < 2 ^ 30) :
    G.echoQuorum = 2 * f + 1 := by
  have h : (2 * G.NUMBER_OF_FAULTY_PROCESSES + 1).toInt = 2 * f + 1 := by
    rw [Int32.toInt_add, Int32.toInt_mul, hf]
    show (((2 : ℤ) * f).bmod (2 ^ 32) + 1).bmod (2 ^ 32) = 2 * f + 1
    rw [Int.bmod_eq_of_le (n := 2 * (f : ℤ)) (by omega) (by omega),
      Int.bmod_eq_of_le (by omega) (by omega)]
  rw [echoQuorum, h, sizeT_of_nonneg (by omega) (by omega)]
  omega

theorem readyQuorum_eq (hf : G.NUMBER_OF_FAULTY_PROCESSES.toInt = f) (hlt : f < 2 ^ 30) :
    G.readyQuorum = f := by
  rw [readyQuorum, hf, sizeT_natCast (by omega)]

theorem deliverQuorum_eq (hf : G.NUMBER_OF_FAULTY_PROCESSES.toInt = f) (hlt : f < 2 ^ 30) :
    G.deliverQuorum = 2 * f := by
  have h : (2 * G.NUMBER_OF_FAULTY_PROCESSES).toInt = 2 * f := by
    rw [Int32.toInt_mul, hf]
    show ((2 : ℤ) * f).bmod (2 ^ 32) = 2 * f
    exact Int.bmod_eq_of_le (by omega) (by omega)
  rw [deliverQuorum, h, sizeT_of_nonneg (by omega) (by omega)]
  omega

end Globals

/-- How the peers of a run are started: their number, a positive `int`, their secret keys and the
flag that `main` passes to `InitPeer`. -/
structure Setup (B : BLS) where
  totalPeers : ℕ
  pos : 1 ≤ totalPeers
  lt : totalPeers < 2 ^ 31
  sec : Fin totalPeers → B.SecretKey
  isReliableBroadcast : Int32

namespace Setup

variable (S : Setup B)

instance : NeZero S.totalPeers := ⟨by have := S.pos; omega⟩

/-- The identities are `1, …, totalPeers`. -/
def pid (i : Fin S.totalPeers) : Int32 := Int32.ofNat (i + 1)

def globals : Globals := initGlobals (Int32.ofNat S.totalPeers)

/-- `NUMBER_OF_FAULTY_PROCESSES`. -/
def faulty : ℕ := (S.totalPeers - 1) / 3

/-- The public key of a peer. -/
def pub (i : Fin S.totalPeers) : B.PublicKey := B.blsGetPublicKey (S.sec i)

theorem pid_toInt (i : Fin S.totalPeers) : (S.pid i).toInt = i + 1 := by
  have := S.lt
  have := i.2
  rw [pid, ← Int32.ofInt_eq_ofNat, Int32.toInt_ofInt_of_le (by omega) (by omega)]
  rfl

theorem pid_injective : Function.Injective S.pid := fun i j h => by
  have := congrArg Int32.toInt h
  rw [pid_toInt, pid_toInt] at this
  exact Fin.ext (by omega)

theorem processes_toInt : S.globals.NUMBER_OF_PROCESSES.toInt = S.totalPeers := by
  have := S.lt
  change (Int32.ofNat S.totalPeers).toInt = _
  rw [← Int32.ofInt_eq_ofNat, Int32.toInt_ofInt_of_le (by omega) (by omega)]

theorem faulty_toInt : S.globals.NUMBER_OF_FAULTY_PROCESSES.toInt = S.faulty := by
  have h1 := S.lt
  have h2 := S.pos
  have h3 : S.globals.NUMBER_OF_FAULTY_PROCESSES =
      Int32.ofInt ((S.globals.NUMBER_OF_PROCESSES.toInt - 1).tdiv 3) := rfl
  have h4 : ((S.totalPeers : ℤ) - 1).tdiv 3 = S.faulty := by
    rw [Int.tdiv_eq_ediv_of_nonneg (by omega), faulty]
    omega
  have h5 : S.faulty ≤ S.totalPeers := by unfold faulty; omega
  rw [h3, processes_toInt, h4, Int32.toInt_ofInt_of_le (by omega) (by omega)]

theorem three_mul_faulty_lt : 3 * S.faulty < S.totalPeers := by
  have := S.pos
  unfold faulty
  omega

theorem faulty_lt : S.faulty < 2 ^ 30 := by
  have := S.lt
  unfold faulty
  omega

theorem echoQuorum_eq : S.globals.echoQuorum = 2 * S.faulty + 1 :=
  Globals.echoQuorum_eq S.faulty_toInt S.faulty_lt

theorem readyQuorum_eq : S.globals.readyQuorum = S.faulty :=
  Globals.readyQuorum_eq S.faulty_toInt S.faulty_lt

theorem deliverQuorum_eq : S.globals.deliverQuorum = 2 * S.faulty :=
  Globals.deliverQuorum_eq S.faulty_toInt S.faulty_lt

theorem confirmQuorum_eq : S.globals.confirmQuorum = S.totalPeers - S.faulty := by
  have h1 := S.lt
  have h2 := S.three_mul_faulty_lt
  have h : (S.globals.NUMBER_OF_PROCESSES - S.globals.NUMBER_OF_FAULTY_PROCESSES).toInt =
      S.totalPeers - S.faulty := by
    rw [Int32.toInt_sub, processes_toInt, faulty_toInt]
    exact Int.bmod_eq_of_le (by omega) (by omega)
  rw [Globals.confirmQuorum, h, sizeT_of_nonneg (by omega) (by omega)]
  omega

theorem confirmQuorum_pos : 0 < S.globals.confirmQuorum := by
  have := S.three_mul_faulty_lt
  rw [confirmQuorum_eq]
  omega

end Setup

/-- Peers over the stand-in for the library; peer `i` has the secret key `i + 1`. -/
def plainSetup (totalPeers : ℕ) (isReliableBroadcast : Int32) (pos : 1 ≤ totalPeers)
    (lt : totalPeers < 2 ^ 31) : Setup plainBLS where
  totalPeers := totalPeers
  pos := pos
  lt := lt
  sec i := (i.val + 1 : ℕ)
  isReliableBroadcast := isReliableBroadcast

/-- Four peers with the broadcast in front of every submission. -/
abbrev plainFour : Setup plainBLS := plainSetup 4 1 (by decide) (by decide)

/-- Four peers without it. -/
abbrev plainFourDirect : Setup plainBLS := plainSetup 4 0 (by decide) (by decide)

/-- Two peers with the broadcast in front of every submission. -/
abbrev plainTwo : Setup plainBLS := plainSetup 2 1 (by decide) (by decide)

/-- Two peers without it. -/
abbrev plainTwoDirect : Setup plainBLS := plainSetup 2 0 (by decide) (by decide)

/-! ## A peer as a machine -/

/-- What a peer does by itself. -/
inductive Call
  | submit (value dest : Int32)
  | leaveWaiting
  | checkIfReady
  deriving DecidableEq

/-- What is on the wire: the post of a peer, or any string that somebody else wrote. -/
inductive Item (B : BLS)
  | post (m : Post B)
  | raw (s : Bytes)

def Item.bytes : Item B → Bytes
  | .post m => m.bytes
  | .raw s => s

/-- A handler's result, its posts on the wire. -/
def onWire (r : Peer B × List (Post B)) : Peer B × List (Item B) := (r.1, r.2.map .post)

def peerAct (G : Globals) (p : Peer B) : Call → Option (Peer B × List (Post B))
  | .submit value dest => if p.waiting.isSome then none else some (submit p value dest)
  | .leaveWaiting => leaveWaiting p
  | .checkIfReady => (checkIfReady G p).map fun p => (p, [])

/-- **The peers of a run.** A string on which the parser faults is never processed, and `new` delivers the
same memory in every round. -/
def peerMachine (S : Setup B) : Machine (Fin S.totalPeers) (Peer B) Call (Item B) where
  init i := initPeer (S.pid i) S.isReliableBroadcast (S.sec i)
  act p a := (peerAct S.globals p a).map onWire
  recv p w := (parseMessage S.globals p w.bytes).toOption.map onWire

/-- The events of a run. -/
abbrev Ev (S : Setup B) := Event (Fin S.totalPeers) Call (Item B)

/-- The states of a run. -/
abbrev St (S : Setup B) := Net (Fin S.totalPeers) (Peer B) (Item B)

/-- The local history of a peer. -/
abbrev Hist (B : BLS) := List (Call ⊕ Item B)

end Confirmer
