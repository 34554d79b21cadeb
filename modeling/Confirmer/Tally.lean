import Confirmer.Outbox

/-!
# The tallies of the reliable broadcast

* `rbOf`, `rbMsgs`, `rbPosts`: the reliable-broadcast messages of a string, a history, a list of
  posts.
* **`Tally`**: the record of a peer in terms of what it has received and broadcast; `tally_local`
  keeps it along the runs of a peer.
-/

namespace Confirmer

open Text AsyncNet

variable {B : BLS}

/-! ## Messages of histories -/

/-- The reliable-broadcast message that a string stands for. -/
def rbOf (message : Bytes) : Option RBMessage :=
  match firstField message with
  | .ok (type, fin) =>
    if type ≠ MessageType.submit ∧ type ≠ MessageType.aggSign then
      (readRBMessage type message fin).toOption
    else none
  | .error _ => none

theorem decode_rb_iff {id : Int32} {message : Bytes} {mem : Memory B} {m : RBMessage} :
    decode B id message mem = .ok (.rb m) ↔ rbOf message = some m := by
  unfold decode rbOf
  cases firstField message with
  | error e => simp [bind, Except.bind]
  | ok r =>
    obtain ⟨type, fin⟩ := r
    simp only [bind, Except.bind, pure, Except.pure]
    by_cases ht : type ≠ MessageType.submit ∧ type ≠ MessageType.aggSign
    · rw [if_pos ht, if_pos ht]
      cases readRBMessage type message fin <;> simp [Except.toOption]
    · rw [if_neg ht, if_neg ht]
      refine iff_of_false (fun h => ?_) (by simp)
      repeat' split at h
      all_goals simp at h

/-- The reliable-broadcast messages that a peer has received. -/
def rbMsgs (h : Hist B) : List RBMessage :=
  (h.filterMap Sum.getRight?).filterMap fun w => rbOf w.bytes

def rbPost : Item B → Option RBMessage
  | .post (.rb m) => some m
  | _ => none

/-- The reliable-broadcast messages among the posts of a peer. -/
def rbPosts (o : List (Item B)) : List RBMessage := o.filterMap rbPost

@[simp] theorem rbPost_eq_some {w : Item B} {m : RBMessage} :
    rbPost w = some m ↔ w = .post (.rb m) := by
  unfold rbPost
  split <;> simp_all

theorem rbMsgs_append (h h' : Hist B) : rbMsgs (h ++ h') = rbMsgs h ++ rbMsgs h' := by
  simp [rbMsgs]

theorem rbPosts_append (o o' : List (Item B)) : rbPosts (o ++ o') = rbPosts o ++ rbPosts o' := by
  simp [rbPosts]

/-! ## The invariant -/

/-- **The tally** of a record after the messages `ms` were delivered and `out` was broadcast. -/
structure Tally (G : Globals) (ms : List RBMessage) (rb : ReliableBroadcast)
    (out : List RBMessage) : Prop where
  echos : rb.echos = (ms.filter (RBMessage.is .echo)).map (RBMessage.as .ready)
  readys : rb.readys = ms.filter (RBMessage.is .ready)
  sentecho : rb.sentecho = true ↔ ∃ m ∈ ms, m.is .send = true
  sentready : rb.sentready = true ↔
    G.echoQuorum ≤ rb.echos.length ∨ G.readyQuorum < rb.readys.length
  delivered : rb.delivered = true → G.deliverQuorum < rb.readys.length
  echo_count : out.countP (RBMessage.is .echo) = rb.sentecho.toNat
  ready_count : out.countP (RBMessage.is .ready) = rb.sentready.toNat

section

variable {G : Globals} {ms out : List RBMessage} {p : Peer B} {m : RBMessage}

theorem tally_nil (hG : 0 < G.echoQuorum) : Tally G [] {} [] where
  echos := rfl
  readys := rfl
  sentecho := by simp
  sentready := by simp; omega
  delivered := by simp
  echo_count := rfl
  ready_count := rfl

theorem Tally.send {rb : ReliableBroadcast} (h : Tally G ms rb out)
    (hm : m.type = MessageType.send.toInt32) : Tally G ms rb (out ++ [m]) :=
  { h with
    echo_count := by simp [hm, h.echo_count, RBMessage.is]
    ready_count := by simp [hm, h.ready_count, RBMessage.is] }

theorem rbPosts_reply (o : List (Item B)) (c : Prop) [Decidable c] (m : RBMessage) :
    rbPosts (o ++ (if c then [] else [Post.rb m]).map .post) =
      rbPosts o ++ if c then [] else [m] := by
  rw [rbPosts_append]
  split_ifs <;> rfl

variable {o : List (Item B)}

theorem Tally.dispatch_send (h : Tally G ms p.rb (rbPosts o))
    (hm : m.type = MessageType.send.toInt32) :
    Tally G (ms ++ [m]) (dispatch G p m).1.rb (rbPosts (o ++ (dispatch G p m).2.map .post)) := by
  rw [Confirmer.dispatch_send hm, rbPosts_reply]
  exact
    { echos := by simp [h.echos, hm, RBMessage.is]
      readys := by simp [h.readys, hm, RBMessage.is]
      sentecho := by simp [hm]
      sentready := h.sentready
      delivered := h.delivered
      echo_count := by
        rw [List.countP_append, h.echo_count]
        cases p.rb.sentecho <;> rfl
      ready_count := by
        rw [List.countP_append, h.ready_count]
        cases p.rb.sentecho <;> rfl }

theorem Tally.dispatch_echo (h : Tally G ms p.rb (rbPosts o))
    (hm : m.type = MessageType.echo.toInt32) :
    Tally G (ms ++ [m]) (dispatch G p m).1.rb (rbPosts (o ++ (dispatch G p m).2.map .post)) := by
  rw [Confirmer.dispatch_echo hm, rbPosts_reply]
  exact
    { echos := by simp [h.echos, hm, RBMessage.is]
      readys := by simp [h.readys, hm, RBMessage.is]
      sentecho := by simp [h.sentecho, hm]
      sentready := by
        simp only [Bool.or_eq_true, decide_eq_true_eq, h.sentready, List.length_append,
          List.length_singleton]
        omega
      delivered := h.delivered
      echo_count := by
        rw [List.countP_append, h.echo_count]
        split_ifs <;> simp [RBMessage.is]
      ready_count := by
        rw [List.countP_append, h.ready_count]
        by_cases hq : p.rb.echos.length + 1 < G.echoQuorum
        · rw [if_pos (Or.inr hq), decide_eq_false (not_le.mpr hq), Bool.or_false]
          rfl
        · rw [decide_eq_true (not_lt.mp hq), Bool.or_true]
          cases p.rb.sentready <;> simp [hq, RBMessage.is] }

theorem Tally.dispatch_ready (h : Tally G ms p.rb (rbPosts o))
    (hm : m.type = MessageType.ready.toInt32) :
    Tally G (ms ++ [m]) (dispatch G p m).1.rb (rbPosts (o ++ (dispatch G p m).2.map .post)) := by
  rw [Confirmer.dispatch_ready hm, rbPosts_reply]
  exact
    { echos := by simp [h.echos, hm, RBMessage.is]
      readys := by simp [h.readys, hm, RBMessage.is]
      sentecho := by simp [h.sentecho, hm]
      sentready := by
        simp only [Bool.or_eq_true, decide_eq_true_eq, h.sentready, List.length_append,
          List.length_singleton]
        omega
      delivered := fun hd => (h.delivered hd).trans_le (by simp)
      echo_count := by
        rw [List.countP_append, h.echo_count]
        split_ifs <;> simp [RBMessage.is, hm]
      ready_count := by
        rw [List.countP_append, h.ready_count]
        by_cases hq : p.rb.readys.length + 1 ≤ G.readyQuorum
        · rw [if_pos (Or.inr hq), decide_eq_false (not_lt.mpr hq), Bool.or_false]
          rfl
        · rw [decide_eq_true (not_le.mp hq), Bool.or_true]
          cases p.rb.sentready <;> simp [hq, RBMessage.is, hm] }

theorem Tally.dispatch (h : Tally G ms p.rb (rbPosts o)) (m : RBMessage) :
    Tally G (ms ++ [m]) (dispatch G p m).1.rb (rbPosts (o ++ (dispatch G p m).2.map .post)) := by
  by_cases h₁ : m.type = MessageType.send.toInt32
  · exact h.dispatch_send h₁
  by_cases h₂ : m.type = MessageType.echo.toInt32
  · exact h.dispatch_echo h₂
  by_cases h₃ : m.type = MessageType.ready.toInt32
  · exact h.dispatch_ready h₃
  rw [dispatch_other h₁ h₂ h₃, List.map_nil, List.append_nil]
  have hi : ∀ t, m.type ≠ t.toInt32 → m.is t = false := fun t ht => by simpa [RBMessage.is] using ht
  exact
    { h with
      echos := by simp [h.echos, hi _ h₂]
      readys := by simp [h.readys, hi _ h₃]
      sentecho := by simp [h.sentecho, h₁] }

end

/-! ## Runs of a peer -/

section

variable {S : Setup B} {i : Fin S.totalPeers} {h : Hist B} {t t' : Peer B} {o out : List (Item B)}

theorem rbOf_eq_none {id : Int32} {message : Bytes} {inc : Incoming B}
    (hd : decode B id message = .ok inc) (hinc : ∀ m, inc ≠ .rb m) : rbOf message = none := by
  rw [Option.eq_none_iff_forall_ne_some]
  intro m hm
  rw [decode_rb_iff.mpr hm] at hd
  cases hd
  exact hinc m rfl

theorem rbMsgs_act (a : Call) : rbMsgs (h ++ [.inl a]) = rbMsgs h := by
  simp [rbMsgs]

theorem rbMsgs_recv (w : Item B) : rbMsgs (h ++ [.inr w]) = rbMsgs h ++ (rbOf w.bytes).toList := by
  rw [rbMsgs_append]
  cases hw : rbOf w.bytes <;> simp [rbMsgs, hw]

theorem Tally.skip {G : Globals} {x : Call ⊕ Item B} (ht : Tally G (rbMsgs h) t.rb (rbPosts o))
    (hx : rbMsgs (h ++ [x]) = rbMsgs h) (hrb : t'.rb = t.rb) (hout : rbPosts out = []) :
    Tally G (rbMsgs (h ++ [x])) t'.rb (rbPosts (o ++ out)) := by
  rwa [hx, hrb, rbPosts_append, hout, List.append_nil]

theorem Tally.step {x : Call ⊕ Item B} (ht : Tally S.globals (rbMsgs h) t.rb (rbPosts o))
    (hi : Outbox S i h t o) (hs : PeerStep S t x t' out) :
    Tally S.globals (rbMsgs (h ++ [x])) t'.rb (rbPosts (o ++ out)) := by
  cases hs with
  | submitDirect v d hw hb => exact ht.skip (rbMsgs_act _) rfl rfl
  | submitGated v d hw hb =>
    rw [rbMsgs_act, rbPosts_append]
    exact ht.send rfl
  | leaveWaiting m hm hd =>
    obtain ⟨v, d, rfl, -, -⟩ := hi.waiting m hm
    exact ht.skip (rbMsgs_act _) rfl rfl
  | checkIfReady hq hd =>
    rw [rbMsgs_act, List.append_nil]
    exact { ht with delivered := fun _ => hq }
  | deliver w m hd =>
    rw [rbMsgs_recv, decode_rb_iff.mp hd]
    exact ht.dispatch m
  | accept w m hd ha hq =>
    exact ht.skip (by rw [rbMsgs_recv, rbOf_eq_none hd (by simp)]; simp) rfl rfl
  | confirm w m hd ha hq =>
    exact ht.skip (by rw [rbMsgs_recv, rbOf_eq_none hd (by simp)]; simp) rfl rfl
  | reject w m hd ha =>
    exact ht.skip (by rw [rbMsgs_recv, rbOf_eq_none hd (by simp)]; simp) rfl rfl
  | obtain w m hd =>
    rw [checkRecvAggSignature_eq]
    exact ht.skip (by rw [rbMsgs_recv, rbOf_eq_none hd (by simp)]; simp) rfl rfl
  | ignore w hd =>
    exact ht.skip (by rw [rbMsgs_recv, rbOf_eq_none hd (by simp)]; simp) rfl rfl

theorem Setup.echoQuorum_pos (S : Setup B) : 0 < S.globals.echoQuorum := by
  rw [echoQuorum_eq]
  omega

theorem tally_local (hl : (peerMachine S).Local ((peerMachine S).init i) h t o) :
    Tally S.globals (rbMsgs h) t.rb (rbPosts o) := by
  induction hl with
  | nil => exact tally_nil S.echoQuorum_pos
  | snoc hl hs ih => exact ih.step (outbox_local hl) (peerStep hs)

end

end Confirmer
