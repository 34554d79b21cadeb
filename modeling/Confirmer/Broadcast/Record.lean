import Confirmer.Tally

/-!
# The record of one peer

Any calls of the three handlers, and rounds of `CheckIfReady` between them, from a fresh record.

* `RBCall`, `runCalls`: a sequence of calls, with all it posts.
* `tally_runCalls`: the tally of such a sequence.
* **`record`**: what the record holds, in terms of the calls.
-/

namespace Confirmer

variable {B : BLS}

/-- A call of a handler, with the pid and the content of its message, or a round of
`CheckIfReady`. -/
inductive RBCall
  | send (pid : Int32) (content : Bytes)
  | echo (pid : Int32) (content : Bytes)
  | ready (pid : Int32) (content : Bytes)
  | check
  deriving DecidableEq

/-- The message that a handler is called with. -/
def RBCall.message : RBCall → Option RBMessage
  | .send pid content => some ⟨MessageType.send, pid, content⟩
  | .echo pid content => some ⟨MessageType.echo, pid, content⟩
  | .ready pid content => some ⟨MessageType.ready, pid, content⟩
  | .check => none

/-- The peer behind a round of `CheckIfReady`. -/
def checked (G : Globals) (p : Peer B) : Peer B := (checkIfReady G p).getD p

def RBCall.run (G : Globals) (p : Peer B) : RBCall → Peer B × List (Post B)
  | .send pid content => deliverSend p ⟨MessageType.send, pid, content⟩
  | .echo pid content => deliverEcho G p ⟨MessageType.echo, pid, content⟩
  | .ready pid content => deliverReady G p ⟨MessageType.ready, pid, content⟩
  | .check => (checked G p, [])

/-- The peer after all calls, and all that it has posted. -/
def runCalls (G : Globals) : Peer B → List RBCall → Peer B × List (Post B)
  | p, [] => (p, [])
  | p, c :: cs =>
    let r := c.run G p
    let q := runCalls G r.1 cs
    (q.1, r.2 ++ q.2)

/-- The messages of type `t` that the handlers were called with. -/
def processed (t : MessageType) (cs : List RBCall) : List RBMessage :=
  (cs.filterMap RBCall.message).filter (RBMessage.is t)

/-- The messages of type `t` among the posts. -/
def broadcasts (t : MessageType) (out : List (Post B)) : List RBMessage :=
  (rbPosts (out.map .post)).filter (RBMessage.is t)

section

variable {G : Globals} {p : Peer B}

theorem RBCall.run_eq (c : RBCall) (G : Globals) (p : Peer B) :
    c.run G p = match c.message with
      | some m => dispatch G p m
      | none => (checked G p, []) := by
  cases c with
  | send pid content => rfl
  | echo pid content => rfl
  | ready pid content => rfl
  | check => rfl

theorem checked_rb (G : Globals) (p : Peer B) : (checked G p).rb = { p.rb with
    delivered := p.rb.delivered || decide (G.deliverQuorum < p.rb.readys.length) } := by
  unfold checked checkIfReady
  by_cases hq : G.deliverQuorum < p.rb.readys.length
  · by_cases hd : p.rb.delivered = false
    · rw [if_pos ⟨hq, hd⟩, decide_eq_true hq, Bool.or_true]
      rfl
    · rw [if_neg fun h => hd h.2, Bool.not_eq_false _ |>.mp hd, Bool.true_or]
      rw [Bool.not_eq_false] at hd
      rw [← hd]
      rfl
  · rw [if_neg fun h => hq h.1, decide_eq_false hq, Bool.or_false]
    rfl

theorem Tally.run {ms : List RBMessage} {o : List (Item B)} (h : Tally G ms p.rb (rbPosts o))
    (c : RBCall) : Tally G (ms ++ c.message.toList) (c.run G p).1.rb
      (rbPosts (o ++ (c.run G p).2.map .post)) := by
  rw [RBCall.run_eq]
  cases c.message with
  | some m => exact h.dispatch m
  | none =>
    simp only [Option.toList_none, List.append_nil, List.map_nil, checked_rb]
    exact
      { h with
        delivered := fun hd => by
          rcases (Bool.or_eq_true _ _).mp hd with hd | hd
          · exact h.delivered hd
          · exact of_decide_eq_true hd }

theorem tally_runCalls {ms : List RBMessage} {o : List (Item B)} (h : Tally G ms p.rb (rbPosts o))
    (cs : List RBCall) : Tally G (ms ++ cs.filterMap RBCall.message) (runCalls G p cs).1.rb
      (rbPosts (o ++ (runCalls G p cs).2.map .post)) := by
  induction cs generalizing p ms o with
  | nil => simpa [runCalls] using h
  | cons c cs ih =>
    have hrun := ih (h.run c)
    have hcons : (c :: cs).filterMap RBCall.message =
        c.message.toList ++ cs.filterMap RBCall.message := by
      cases hm : c.message <;> simp [hm]
    rw [hcons, ← List.append_assoc, runCalls, List.map_append, ← List.append_assoc]
    exact hrun

/-! ## What the record holds -/

variable {f : ℕ}

/-- Pid and content. -/
def RBMessage.body (m : RBMessage) : Int32 × Bytes := (m.pid, m.content)

/-- **What a record holds** after the calls `cs` have posted `out`. -/
structure Recorded (f : ℕ) (cs : List RBCall) (rb : ReliableBroadcast) (out : List (Post B)) :
    Prop where
  echo_count : (broadcasts .echo out).length = if processed .send cs = [] then 0 else 1
  sentecho : (broadcasts .echo out).length = rb.sentecho.toNat
  echos : rb.echos.map RBMessage.body = (processed .echo cs).map RBMessage.body
  readys : rb.readys.map RBMessage.body = (processed .ready cs).map RBMessage.body
  sentready : rb.sentready = true ↔ 2 * f + 1 ≤ rb.echos.length ∨ f + 1 ≤ rb.readys.length
  ready_count : (broadcasts .ready out).length = if rb.sentready = true then 1 else 0

theorem Tally.recorded {cs : List RBCall} {rb : ReliableBroadcast} {out : List (Post B)}
    (hf : G.NUMBER_OF_FAULTY_PROCESSES.toInt = f) (hlt : f < 2 ^ 30)
    (h : Tally G (cs.filterMap RBCall.message) rb (rbPosts (out.map .post))) :
    Recorded f cs rb out where
  echo_count := by
    rw [broadcasts, ← List.countP_eq_length_filter, h.echo_count]
    by_cases hs : processed .send cs = []
    · have hecho : rb.sentecho = false := by
        rw [Bool.eq_false_iff]
        intro hecho
        obtain ⟨m, hm, ht⟩ := h.sentecho.mp hecho
        exact List.filter_eq_nil_iff.mp hs m hm ht
      rw [if_pos hs, hecho]
      rfl
    · obtain ⟨m, hm⟩ := List.exists_mem_of_ne_nil _ hs
      obtain ⟨hm, ht⟩ := List.mem_filter.mp hm
      rw [if_neg hs, h.sentecho.mpr ⟨m, hm, ht⟩]
      rfl
  sentecho := by rw [broadcasts, ← List.countP_eq_length_filter, h.echo_count]
  echos := by
    rw [h.echos, List.map_map]
    rfl
  readys := by rw [h.readys, processed]
  sentready := by
    rw [h.sentready, Globals.echoQuorum_eq hf hlt, Globals.readyQuorum_eq hf hlt,
      Nat.lt_iff_add_one_le]
  ready_count := by
    rw [broadcasts, ← List.countP_eq_length_filter, h.ready_count]
    cases rb.sentready <;> rfl

/-- **The record of a peer**: after any calls it holds what was processed, each of the two answers
was broadcast once at most, for the reason the code has, and after a round of `CheckIfReady` the gate
is open exactly with `2 * f + 1` `READY`s. -/
theorem record (hf : G.NUMBER_OF_FAULTY_PROCESSES.toInt = f) (hlt : f < 2 ^ 30) (hp : p.rb = {})
    (cs : List RBCall) :
    Recorded f cs (runCalls G p cs).1.rb (runCalls G p cs).2 ∧
    ((checked G (runCalls G p cs).1).rb.delivered = true ↔
      2 * f + 1 ≤ (runCalls G p cs).1.rb.readys.length) := by
  have hq : 0 < G.echoQuorum := by
    rw [Globals.echoQuorum_eq hf hlt]
    omega
  have hstart : Tally G [] p.rb (rbPosts ([] : List (Item B))) := hp ▸ tally_nil hq
  have h := tally_runCalls hstart cs
  refine ⟨Tally.recorded hf hlt h, ?_⟩
  have hdelivered := h.delivered
  rw [Globals.deliverQuorum_eq hf hlt] at hdelivered
  simp only [checked_rb, Globals.deliverQuorum_eq hf hlt, Bool.or_eq_true, decide_eq_true_eq]
  constructor
  · rintro (hd | hd)
    · exact hdelivered hd
    · exact hd
  · exact Or.inr

end

/-- A `SEND`, an `ECHO` and a `READY` with `f = 0`. -/
def threeCalls : List RBCall := [.send 1 [97], .echo 1 [97], .check, .ready 2 [98]]

theorem record_threeCalls :
    (broadcasts .echo (runCalls (initGlobals 2) (listener 1) threeCalls).2).length = 1 ∧
    (checked (initGlobals 2) (runCalls (initGlobals 2) (listener 1) threeCalls).1).rb.delivered =
      true := by
  have h := record (G := initGlobals 2) (p := listener 1) (f := 0) (by decide) (by decide) rfl threeCalls
  exact ⟨h.1.echo_count.trans (if_neg (by decide)), h.2.mpr (by decide +kernel)⟩

end Confirmer
