import Confirmer.Peer

/-!
# The parser

`ParseMessage`, `ParseSubmitMessage` and `ParseAggSignature` of `core.cpp`. A `Fault` is an
uncaught exception or a copy beyond an array, after which the process has no defined state.

* `find`, `substr`, `nextField`, `memcpy`: the string operations, with the `int` positions in which
  `-1` stands for a missing delimiter.
* `SubmitFields`, `AggSignFields`: what stands in a confirmer message; `into`: what the parser makes of
  it in the memory it got.
* `parseMessage`: one round of the inner loop of `ParseMessage`.
* `decode`, `receive`, **`parseMessage_eq`**: what a string says, and what the peer does about it.
-/

namespace Confirmer

open Text

variable {B : BLS}

inductive Fault
  | outOfRange | memcpy
  deriving DecidableEq

/-- `(int)message.find("::", start)`. -/
def find (message : Bytes) (start : ℤ) : ℤ :=
  match findSub delim (message.drop start.toNat) with
  | some k => start + k
  | none => -1

/-- `message.substr(pos, len)`; a negative length, as a `size_t`, is longer than any string. -/
def substr (message : Bytes) (pos len : ℤ) : Except Fault Bytes :=
  if message.length < pos.toNat then .error .outOfRange
  else .ok ((message.drop pos.toNat).take (if len < 0 then message.length else len.toNat))

/-- `start = end+2; end = (int)message.find("::", start); message.substr(start, end-start)`. -/
def nextField (message : Bytes) (fin : ℤ) : Except Fault (Bytes × ℤ) := do
  let start := fin + 2
  let fin := find message start
  let str ← substr message start (fin - start)
  return (str, fin)

/-- `memcpy(buf, str.data(), sz)` into an array `buf` as long as `str`. -/
def memcpy (str : Bytes) (sz : Int32) : Except Fault Bytes :=
  if sz.toInt < 0 ∨ str.length < sz.toInt.toNat then .error .memcpy
  else .ok (str.take sz.toInt.toNat)

/-- The number in front of the first delimiter, and the position of the delimiter. -/
def firstField (message : Bytes) : Except Fault (Int32 × ℤ) := do
  let fin := find message 0
  let str ← substr message 0 fin
  return (atoi str, fin)

/-- The fields of an aggregate-signature message. -/
structure AggSignFields where
  pid : Int32
  value : Int32
  sig_byte : Bytes

/-- The fields of a submit message. -/
structure SubmitFields where
  pid : Int32
  value : Int32
  sig_byte : Bytes
  pub_byte : Bytes

/-- The strings that `ParseAggSignature` reads behind its test of the destination. -/
def aggSignFields (message : Bytes) (fin : ℤ) : Except Fault AggSignFields := do
  let (pid_str, fin) ← nextField message fin
  let (value_str, fin) ← nextField message fin
  let (sig_sz_str, fin) ← nextField message fin
  let (sig_str, _) ← nextField message fin
  let sig_byte ← memcpy sig_str (atoi sig_sz_str)
  return ⟨atoi pid_str, atoi value_str, sig_byte⟩

/-- The strings that `ParseSubmitMessage` reads behind its test of the destination. -/
def submitFields (message : Bytes) (fin : ℤ) : Except Fault SubmitFields := do
  let (pid_str, fin) ← nextField message fin
  let (value_str, fin) ← nextField message fin
  let (sig_sz_str, fin) ← nextField message fin
  let (sig_str, fin) ← nextField message fin
  let sig_byte ← memcpy sig_str (atoi sig_sz_str)
  let (pub_sz_str, fin) ← nextField message fin
  let (pub_str, _) ← nextField message fin
  let pub_byte ← memcpy pub_str (atoi pub_sz_str)
  return ⟨atoi pid_str, atoi value_str, sig_byte, pub_byte⟩

/-- What `ParseAggSignature` makes of the block it got from `new`. -/
def AggSignFields.into (f : AggSignFields) (recvAggSign : SubmitAggSign B) : SubmitAggSign B :=
  { recvAggSign with
    pid := f.pid
    value := f.value
    aggSig := (B.blsSignatureDeserialize f.sig_byte).getD recvAggSign.aggSig }

/-- What `ParseSubmitMessage` makes of the block it got from `new`: the result codes of the
deserializers are ignored, and nothing sets the `type`. -/
def SubmitFields.into (f : SubmitFields) (recvMsg : SubmitMsg B) : SubmitMsg B :=
  { recvMsg with
    pid := f.pid
    value := f.value
    sig := (B.blsSignatureDeserialize f.sig_byte).getD recvMsg.sig
    pub := (B.blsPublicKeyDeserialize f.pub_byte).getD recvMsg.pub }

/-- `ParseAggSignature` behind its test of the destination, up to the received message. -/
def readAggSign (mem : Memory B) (message : Bytes) (fin : ℤ) : Except Fault (SubmitAggSign B) := do
  return (← aggSignFields message fin).into mem.recvAggSign

/-- `ParseSubmitMessage` behind its test of the destination, up to the received message. -/
def readSubmitMsg (mem : Memory B) (message : Bytes) (fin : ℤ) : Except Fault (SubmitMsg B) := do
  return (← submitFields message fin).into mem.recvMsg

/-- `ParseAggSignature`. -/
def parseAggSignature (p : Peer B) (message : Bytes) (mem : Memory B := {}) :
    Except Fault (Peer B × List (Post B)) := do
  let (dest, fin) ← firstField message
  if dest = 0 ∨ dest = p.id then
    let recvAggSign ← readAggSign mem message fin
    return (checkRecvAggSignature { p with ac := { p.ac with
      obtainedAggSignature := p.ac.obtainedAggSignature ++ [recvAggSign] } }, [])
  else return (p, [])

/-- `ParseSubmitMessage`. -/
def parseSubmitMessage (G : Globals) (p : Peer B) (message : Bytes) (mem : Memory B := {}) :
    Except Fault (Peer B × List (Post B)) := do
  let (dest, fin) ← firstField message
  if dest = 0 ∨ dest = p.id then
    let recvMsg ← readSubmitMsg mem message fin
    return submitMsgVerify G p recvMsg
  else return (p, [])

/-- The reliable-broadcast message of a string whose type field has been read. -/
def readRBMessage (type : Int32) (message : Bytes) (fin : ℤ) : Except Fault RBMessage := do
  let (pid_str, fin) ← nextField message fin
  let (content_str, _) ← nextField message fin
  return ⟨type, atoi pid_str, content_str⟩

/-- The `switch` on the type of a reliable-broadcast message. -/
def dispatch (G : Globals) (p : Peer B) (recvMsg : RBMessage) : Peer B × List (Post B) :=
  if recvMsg.type = MessageType.send then deliverSend p recvMsg
  else if recvMsg.type = MessageType.echo then deliverEcho G p recvMsg
  else if recvMsg.type = MessageType.ready then deliverReady G p recvMsg
  else (p, [])

/-- One round of the inner loop of `ParseMessage`, on the string it takes from `recvRawMessage` and in
the memory `mem`. -/
def parseMessage (G : Globals) (p : Peer B) (message : Bytes) (mem : Memory B := {}) :
    Except Fault (Peer B × List (Post B)) := do
  let (type, fin) ← firstField message
  if type ≠ MessageType.submit ∧ type ≠ MessageType.aggSign then
    let recvMsg ← readRBMessage type message fin
    return dispatch G p recvMsg
  else
    let trim_message ← substr message (fin + 2) message.length
    if type = MessageType.submit then parseSubmitMessage G p trim_message mem
    else parseAggSignature p trim_message mem

/-! ## What a string says -/

/-- What a peer reads in a string. -/
inductive Incoming (B : BLS)
  | rb (m : RBMessage)
  | submit (m : SubmitMsg B)
  | aggSign (m : SubmitAggSign B)
  | ignored

/-- What the peer with identity `id` reads in a string. -/
def decode (B : BLS) (id : Int32) (message : Bytes) (mem : Memory B := {}) :
    Except Fault (Incoming B) := do
  let (type, fin) ← firstField message
  if type ≠ MessageType.submit ∧ type ≠ MessageType.aggSign then
    return .rb (← readRBMessage type message fin)
  else
    let trim_message ← substr message (fin + 2) message.length
    let (dest, fin) ← firstField trim_message
    if dest = 0 ∨ dest = id then
      if type = MessageType.submit then return .submit (← readSubmitMsg mem trim_message fin)
      else return .aggSign (← readAggSign mem trim_message fin)
    else return .ignored

/-- What a peer does about what it has read. -/
def receive (G : Globals) (p : Peer B) : Incoming B → Peer B × List (Post B)
  | .rb m => dispatch G p m
  | .submit m => submitMsgVerify G p m
  | .aggSign m => (checkRecvAggSignature { p with ac := { p.ac with
      obtainedAggSignature := p.ac.obtainedAggSignature ++ [m] } }, [])
  | .ignored => (p, [])

/-- **A round of the parser is a decoding and a reaction.** -/
theorem parseMessage_eq (G : Globals) (p : Peer B) (message : Bytes) (mem : Memory B) :
    parseMessage G p message mem = (decode B p.id message mem).map (receive G p) := by
  unfold parseMessage decode parseSubmitMessage parseAggSignature
  cases firstField message with
  | error e => rfl
  | ok r =>
    obtain ⟨type, fin⟩ := r
    simp only [bind, Except.bind, pure, Except.pure]
    by_cases ht : type ≠ MessageType.submit ∧ type ≠ MessageType.aggSign
    · rw [if_pos ht, if_pos ht]
      cases readRBMessage type message fin <;> rfl
    · rw [if_neg ht, if_neg ht]
      cases substr message (fin + 2) message.length with
      | error e => rfl
      | ok t =>
        cases hf : firstField t with
        | error e => by_cases hs : type = MessageType.submit <;> simp [hs, hf] <;> rfl
        | ok r =>
          obtain ⟨dest, fin'⟩ := r
          by_cases hs : type = MessageType.submit <;> by_cases hd : dest = 0 ∨ dest = p.id <;>
            simp only [hs, hd, hf, if_true, if_false]
          · cases readSubmitMsg mem t fin' <;> rfl
          · rfl
          · cases readAggSign mem t fin' <;> rfl
          · rfl

theorem parseMessage_eq_ok {G : Globals} {p : Peer B} {message : Bytes} {mem : Memory B}
    {r : Peer B × List (Post B)} (h : parseMessage G p message mem = .ok r) :
    ∃ inc, decode B p.id message mem = .ok inc ∧ r = receive G p inc := by
  rw [parseMessage_eq] at h
  cases hd : decode B p.id message mem with
  | error e => rw [hd] at h; cases h
  | ok inc =>
    rw [hd] at h
    cases h
    exact ⟨inc, rfl, rfl⟩

end Confirmer
