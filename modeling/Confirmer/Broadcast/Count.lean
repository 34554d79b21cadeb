import Confirmer.Tally

/-!
# Counting the broadcasts of a run

* `isType`: the reliable-broadcast type of an item on the wire; `isType_posted`, `countP_posted`:
  it survives the trip through the text.
* `echos_length`, `readys_length`: a peer's tallies count the items that it has received.
* `countFrom_echo`, `countFrom_ready`: a peer broadcasts one `ECHO` and one `READY` at most.
* **`echos_length_le`**, **`readys_length_le`**: the tallies are bounded by the number of senders.
-/

namespace Confirmer

open Text AsyncNet Quorum

variable {B : BLS} {S : Setup B}

/-! ## Types on the wire -/

/-- Does the parser take the item for a reliable-broadcast message of type `t`? -/
def isType (t : MessageType) (w : Item B) : Bool := (rbOf w.bytes).any (RBMessage.is t)

theorem isType_iff {t : MessageType} {w : Item B} :
    isType t w = true ↔ ∃ m, rbOf w.bytes = some m ∧ m.type = t.toInt32 := by
  simp [isType, Option.any_eq_true]

theorem rbOf_acText {type dest : Int32} (body : Bytes)
    (ht : type = MessageType.submit ∨ type = MessageType.aggSign) :
    rbOf (acText type dest body) = none := by
  rw [Option.eq_none_iff_forall_ne_some]
  intro m hm
  obtain ⟨fin, s, -, hd⟩ := decode_acText (B := plainBLS) {} 0 dest ht body
  rw [decode_rb_iff.mpr hm] at hd
  split_ifs at hd
  · cases hr : readSubmitMsg (B := plainBLS) {} s fin <;> rw [hr] at hd <;> cases hd
  · cases hr : readAggSign (B := plainBLS) {} s fin <;> rw [hr] at hd <;> cases hd
  · cases hd

theorem rbOf_serializeRB {m : RBMessage} {t : MessageType} (hm : m.type = t.toInt32)
    (ht : t = .send ∨ t = .echo ∨ t = .ready) :
    rbOf (serializeRB m) = some { m with content := cut m.content } := by
  apply (@decode_rb_iff plainBLS 0 _ {} _).mp
  exact decode_serializeRB {} 0 (hm ▸ MessageType.rb_ne ht)

variable {i : Fin S.totalPeers} {h : Hist B}

/-- **What a peer posts arrives as what it is**, its content cut at the first delimiter. -/
theorem rbOf_posted {w : Item B} (hw : Posted S i h w) :
    rbOf w.bytes = (rbPost w).map fun m => { m with content := cut m.content } := by
  cases hw with
  | rb m t hm ht => exact rbOf_serializeRB hm ht
  | submit v d hv => exact rbOf_acText _ (Or.inl rfl)
  | aggSign m hm hp => exact rbOf_acText _ (Or.inr hm)

theorem isType_posted {w : Item B} (hw : Posted S i h w) (t : MessageType) :
    isType t w = (rbPost w).any (RBMessage.is t) := by
  rw [isType, rbOf_posted hw]
  cases rbPost w <;> rfl

theorem countP_posted {o : List (Item B)} (ho : ∀ w ∈ o, Posted S i h w) (t : MessageType) :
    o.countP (isType t) = (rbPosts o).countP (RBMessage.is t) := by
  rw [rbPosts, List.countP_filterMap]
  apply List.countP_congr
  intro w hw
  rw [isType_posted (ho w hw)]
  cases rbPost w <;> simp

theorem countP_rbMsgs (es : List (Ev S)) (s : St S) (i : Fin S.totalPeers) (t : MessageType) :
    (rbMsgs (hist es s i)).countP (RBMessage.is t) =
      (recvd es s i).countP fun x => isType t x.2 := by
  rw [rbMsgs, filterMap_hist, List.filterMap_map, List.countP_filterMap]
  apply List.countP_congr
  intro x _
  simp only [isType, Function.comp_apply]
  cases rbOf x.2.bytes <;> simp

/-! ## The peers of a run -/

section Run

variable {es : List (Ev S)} {s : St S} {j : Fin S.totalPeers}

theorem node_tally (hr : (peerMachine S).Reach es s) (hi : Honest es i) :
    Tally S.globals (rbMsgs (hist es s i)) (s.node i).rb (rbPosts (s.sent i)) :=
  tally_local (hr.hist_local hi)

theorem echos_length (hr : (peerMachine S).Reach es s) (hi : Honest es i) :
    (s.node i).rb.echos.length = (recvd es s i).countP fun x => isType .echo x.2 := by
  rw [(node_tally hr hi).echos, List.length_map, ← List.countP_eq_length_filter, countP_rbMsgs]

theorem readys_length (hr : (peerMachine S).Reach es s) (hi : Honest es i) :
    (s.node i).rb.readys.length = (recvd es s i).countP fun x => isType .ready x.2 := by
  rw [(node_tally hr hi).readys, ← List.countP_eq_length_filter, countP_rbMsgs]

theorem countFrom_echo (hr : (peerMachine S).Reach es s) (hj : Honest es j) :
    countFrom s.wire (isType .echo) j = (s.node j).rb.sentecho.toNat := by
  rw [countFrom_wire, countP_posted (node_outbox hr hj).posted, (node_tally hr hj).echo_count]

theorem countFrom_ready (hr : (peerMachine S).Reach es s) (hj : Honest es j) :
    countFrom s.wire (isType .ready) j = (s.node j).rb.sentready.toNat := by
  rw [countFrom_wire, countP_posted (node_outbox hr hj).posted, (node_tally hr hj).ready_count]

theorem mem_echo_senders (hr : (peerMachine S).Reach es s) (hj : Honest es j) :
    j ∈ senders s.wire (isType .echo) ↔ (s.node j).rb.sentecho = true := by
  rw [senders, Finset.mem_filter, countFrom_echo hr hj]
  cases (s.node j).rb.sentecho <;> simp

theorem mem_ready_senders (hr : (peerMachine S).Reach es s) (hj : Honest es j) :
    j ∈ senders s.wire (isType .ready) ↔ (s.node j).rb.sentready = true := by
  rw [senders, Finset.mem_filter, countFrom_ready hr hj]
  cases (s.node j).rb.sentready <;> simp

theorem sentready_iff (hr : (peerMachine S).Reach es s) (hi : Honest es i) :
    (s.node i).rb.sentready = true ↔
      2 * S.faulty + 1 ≤ (s.node i).rb.echos.length ∨ S.faulty < (s.node i).rb.readys.length := by
  rw [(node_tally hr hi).sentready, S.echoQuorum_eq, S.readyQuorum_eq]

theorem readys_of_delivered (hr : (peerMachine S).Reach es s) (hi : Honest es i)
    (hd : (s.node i).rb.delivered = true) : 2 * S.faulty < (s.node i).rb.readys.length := by
  rw [← S.deliverQuorum_eq]
  exact (node_tally hr hi).delivered hd

/-- **At most one `ECHO` each: the tally is a number of senders.** -/
theorem echos_length_le (hr : (peerMachine S).Reach es s) (hi : Honest es i)
    (h₁ : ∀ j, countFrom (recvd es s i) (isType .echo) j ≤ 1) :
    (s.node i).rb.echos.length ≤ (senders (recvd es s i) (isType .echo)).card := by
  rw [echos_length hr hi]
  exact countP_le_card h₁

/-- **At most one `READY` each: the tally is a number of senders.** -/
theorem readys_length_le (hr : (peerMachine S).Reach es s) (hi : Honest es i)
    (h₁ : ∀ j, countFrom (recvd es s i) (isType .ready) j ≤ 1) :
    (s.node i).rb.readys.length ≤ (senders (recvd es s i) (isType .ready)).card := by
  rw [readys_length hr hi]
  exact countP_le_card h₁

theorem countFrom_recvd_echo_le (hr : (peerMachine S).Reach es s) (hj : Honest es j)
    (hi : (got es i).Nodup) : countFrom (recvd es s i) (isType .echo) j ≤ 1 := by
  apply (countFrom_recvd_le hi s (isType .echo) j).trans
  rw [countFrom_echo hr hj]
  exact Bool.toNat_le _

theorem countFrom_recvd_ready_le (hr : (peerMachine S).Reach es s) (hj : Honest es j)
    (hi : (got es i).Nodup) : countFrom (recvd es s i) (isType .ready) j ≤ 1 := by
  apply (countFrom_recvd_le hi s (isType .ready) j).trans
  rw [countFrom_ready hr hj]
  exact Bool.toNat_le _

end Run

end Confirmer
