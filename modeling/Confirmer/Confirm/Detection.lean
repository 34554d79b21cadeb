import Confirmer.Confirm.Agreement
import Confirmer.Ledger

/-!
# When a conflict is detected

A peer looks for a conflict when it receives an aggregate signature, and only once it has confirmed.

* `confirm_of_detect`, `obtained_of_recv`: what a verdict presupposes, and what it is based on.
* `detect_of_own`: a peer that has received its own aggregate signature overlooks nothing.
* `Quiescent`, `Conflict`; **`detection_exact`**: in a quiescent state a peer has detected a conflict
  exactly if it has confirmed and there is one.
-/

namespace Confirmer

open AsyncNet

variable {B : BLS} {S : Setup B} {i : Fin S.totalPeers}

/-! ## The verdict of one peer -/

section

variable {h : Hist B} {t t' : Peer B} {o out : List (Item B)} {x : Call ⊕ Item B}

theorem confirm_of_detect (hl : (peerMachine S).Local ((peerMachine S).init i) h t o)
    (hd : t.detectConflict = true) : t.ac.confirm = true := by
  induction hl with
  | nil => cases hd
  | snoc hl hs ih =>
    rcases (peerStep hs).verdict with ⟨-, hdetect, hconfirm, -⟩ | ⟨w, a, -, -, rfl⟩
    · exact hconfirm (ih (hdetect ▸ hd))
    · rw [checkRecvAggSignature_eq] at hd ⊢
      rcases (Bool.or_eq_true _ _).mp hd with hd | hd
      · exact ih hd
      · exact ((Bool.and_eq_true _ _).mp hd).1

theorem obtained_of_recv (hl : (peerMachine S).Local ((peerMachine S).init i) h t o) {w : Item B}
    {a : SubmitAggSign B} (hw : Sum.inr w ∈ h)
    (hd : decode B (S.pid i) w.bytes = .ok (.aggSign a)) : a ∈ t.ac.obtainedAggSignature := by
  induction hl with
  | nil => cases hw
  | snoc hl hs ih =>
    have hid := (outbox_local hl).id
    rcases (peerStep hs).verdict with ⟨hobtained, -, -, hother⟩ | ⟨w', a', rfl, hd', rfl⟩
    · rw [hobtained]
      rcases List.mem_append.mp hw with hw | hw
      · exact ih hw
      · exact absurd (hid ▸ hd) (hother w a (List.mem_singleton.mp hw).symm)
    · rw [checkRecvAggSignature_eq]
      rcases List.mem_append.mp hw with hw | hw
      · exact List.mem_append_left _ (ih hw)
      · cases List.mem_singleton.mp hw
        rw [hid, hd] at hd'
        cases hd'
        exact List.mem_append_right _ (List.mem_singleton_self a)

theorem PeerStep.exists_decode {w : Item B} (hs : PeerStep S t (.inr w) t' out) :
    ∃ inc, decode B t.id w.bytes = .ok inc := by
  cases hs with
  | deliver w m hd => exact ⟨_, hd⟩
  | accept w m hd ha hq => exact ⟨_, hd⟩
  | confirm w m hd ha hq => exact ⟨_, hd⟩
  | reject w m hd ha => exact ⟨_, hd⟩
  | obtain w m hd => exact ⟨_, hd⟩
  | ignore w hd => exact ⟨_, hd⟩

/-- What a peer has received, its parser has read. -/
theorem decode_of_recv (hl : (peerMachine S).Local ((peerMachine S).init i) h t o) {w : Item B}
    (hw : Sum.inr w ∈ h) : ∃ inc, decode B (S.pid i) w.bytes = .ok inc := by
  induction hl with
  | nil => cases hw
  | snoc hl hs ih =>
    rcases List.mem_append.mp hw with hw | hw
    · exact ih hw
    · cases List.mem_singleton.mp hw
      rw [← (outbox_local hl).id]
      exact (peerStep hs).exists_decode

end

/-! ## The peers of a run -/

section

variable {es : List (Ev S)} {s : St S} {j : Fin S.totalPeers}

theorem obtained_of_recvd (hr : (peerMachine S).Reach es s) (hi : Honest es i) (hj : Honest es j)
    {d : Int32} {m : SubmitAggSign B} (hm : (j, Item.post (.aggSign d m)) ∈ recvd es s i) :
    ∃ a ∈ (s.node i).ac.obtainedAggSignature, a.value = m.value := by
  have hl := hr.hist_local hi
  obtain ⟨k, hk, hw⟩ := mem_recvd.mp hm
  have hh := mem_hist_recv.mpr ⟨j, k, hk, hw⟩
  obtain ⟨inc, hd⟩ := decode_of_recv hl hh
  obtain ⟨a, rfl, hval⟩ := (posted_of_wire hr hj (List.mem_of_getElem? hw)).decode_aggSign hd
  exact ⟨a, obtained_of_recv hl hh hd, hval⟩

/-- **A peer that has received its own aggregate signature overlooks no conflict**: it has confirmed
before every later look. -/
theorem detect_of_own (hr : (peerMachine S).Reach es s) (hi : Honest es i) {d : Int32}
    {m : SubmitAggSign B} (hm : (i, Item.post (.aggSign d m)) ∈ recvd es s i)
    (hc : conflicting (s.node i).ac.obtainedAggSignature = true) :
    (s.node i).detectConflict = true := by
  induction hr with
  | start => simp [recvd, got] at hm
  | @snoc es s e s' hr hs ih =>
    have hold : (i, Item.post (.aggSign d m)) ∈ s.wire := by
      rw [recvd_step hr hs] at hm
      exact recvd_subset_wire _ s i hm
    have hnew := mem_recvd_snoc hr hs hm
    rcases node_of_step hs i with ⟨hnode, hne⟩ | ⟨x, out, hx, hfrom⟩
    · rw [hnode] at hc ⊢
      refine ih hi.before (hnew.resolve_right ?_) hc
      rintro ⟨k, he, -⟩
      exact hne k he
    · rcases (peerStep hx).verdict with ⟨hobtained, hdetect, -, hother⟩ | ⟨w, a, -, -, heq⟩
      · rw [hobtained] at hc
        rw [hdetect]
        refine ih hi.before (hnew.resolve_right ?_) hc
        -- the step did not receive an aggregate signature
        rintro ⟨k, rfl, hk⟩
        rcases hfrom with ⟨a, he, -⟩ | ⟨k', y, he, hy, rfl⟩
        · cases he
        · cases he
          cases hk.symm.trans hy
          obtain ⟨inc, hd⟩ := (peerStep hx).exists_decode
          obtain ⟨a, rfl, -⟩ := (posted_of_wire hr hi.before hold).decode_aggSign hd
          exact hother _ a rfl hd
      · have hconfirm := confirm_of_cert hr hi.before hold
        rw [heq, checkRecvAggSignature_eq] at hc ⊢
        have hconfirm' : ((s.node i).obtain a).ac.confirm = true := hconfirm
        simp only at hc
        simp [hconfirm', hc]

theorem exists_cert (hr : (peerMachine S).Reach es s) (hi : Honest es i)
    (hc : (s.node i).ac.confirm = true) : ∃ a, (i, Item.post (.aggSign 0 a)) ∈ s.wire := by
  have hl := hr.hist_local hi
  have hcount : 0 < (s.sent i).countP (Item.is .aggSign) := by
    have hquorum := (store_local hl).confirm.mp hc
    rw [(ledger_local hl).aggSign]
    omega
  obtain ⟨w, hw, ha⟩ := List.countP_pos_iff.mp hcount
  have hwire := mem_sent.mp hw
  obtain ⟨a, rfl⟩ := (posted_of_wire hr hi hwire).of_is_aggSign ha
  exact ⟨a, hwire⟩

/-! ## Detection at rest -/

/-- **A quiescent state**: every peer that has not detected a conflict has processed everything on
the wire. -/
def Quiescent (es : List (Ev S)) (s : St S) : Prop :=
  ∀ i, (s.node i).detectConflict = true ∨ ∀ k < s.wire.length, Event.recv i k ∈ es

/-- Two aggregate signatures over different values were broadcast. -/
def Conflict (s : St S) : Prop := ∃ j j' d d' m m', (j, Item.post (.aggSign d m)) ∈ s.wire ∧
  (j', Item.post (.aggSign d' m')) ∈ s.wire ∧ m.value ≠ m'.value

theorem Quiescent.received (hq : Quiescent es s) (hn : ¬ (s.node i).detectConflict = true)
    {x : Fin S.totalPeers × Item B} (hx : x ∈ s.wire) : x ∈ recvd es s i := by
  obtain ⟨k, hk⟩ := List.mem_iff_getElem?.mp hx
  have hlt := (List.getElem?_eq_some_iff.mp hk).1
  exact mem_recvd.mpr ⟨k, (hq i).resolve_left hn k hlt, hk⟩

theorem obtained_wire (hr : (peerMachine S).Reach es s) (hcode : ∀ j, Honest es j)
    {a : SubmitAggSign B} (ha : a ∈ (s.node i).ac.obtainedAggSignature) :
    ∃ j d m, (j, Item.post (.aggSign d m)) ∈ s.wire ∧ a.value = m.value := by
  obtain ⟨w, hw, hd⟩ := (verdict_local (hr.hist_local (hcode i))).obtained a ha
  obtain ⟨j, hj⟩ := recvd_of_hist hw
  have hwire := recvd_subset_wire es s i hj
  obtain ⟨m, rfl, hval⟩ := (posted_of_wire hr (hcode j) hwire).of_decode_aggSign hd
  exact ⟨j, 0, m, hwire, hval⟩

/-- **Detection is exact.** When all peers run the code, a peer has detected a conflict in a
quiescent state exactly if it has confirmed and two aggregate signatures over different values were
broadcast. -/
theorem detection_exact (hr : (peerMachine S).Reach es s) (hcode : ∀ j, Honest es j)
    (hq : Quiescent es s) (i : Fin S.totalPeers) :
    (s.node i).detectConflict = true ↔ (s.node i).ac.confirm = true ∧ Conflict s := by
  have hl := hr.hist_local (hcode i)
  constructor
  · intro hdetect
    refine ⟨confirm_of_detect hl hdetect, ?_⟩
    obtain ⟨a, ha, b, hb, hne⟩ := (verdict_local hl).conflict hdetect
    obtain ⟨j, d, m, hm, hval⟩ := obtained_wire hr hcode ha
    obtain ⟨j', d', m', hm', hval'⟩ := obtained_wire hr hcode hb
    exact ⟨j, j', d, d', m, m', hm, hm', by rwa [← hval, ← hval']⟩
  · rintro ⟨hconfirm, j, j', d, d', m, m', hm, hm', hne⟩
    by_contra hn
    obtain ⟨own, hown⟩ := exists_cert hr (hcode i) hconfirm
    obtain ⟨a, ha, hval⟩ := obtained_of_recvd hr (hcode i) (hcode j) (hq.received hn hm)
    obtain ⟨b, hb, hval'⟩ := obtained_of_recvd hr (hcode i) (hcode j') (hq.received hn hm')
    refine hn (detect_of_own hr (hcode i) (hq.received hn hown) (conflicting_iff.mpr ?_))
    exact ⟨a, ha, b, hb, by rwa [hval, hval']⟩

end

/-- Two peers that submit two values each. Each counts one of them, and peer `1` receives the
aggregate signature of peer `0` before it confirms. -/
def crossRun : List (Ev plainTwoDirect) :=
  [.act 0 (.submit 6 2), .act 0 (.submit 5 1), .act 1 (.submit 5 1), .act 1 (.submit 6 2),
    .recv 0 0, .recv 0 1, .recv 0 2, .recv 0 3, .recv 1 4, .recv 1 0, .recv 1 1, .recv 1 2,
    .recv 1 3, .recv 0 4, .recv 0 5, .recv 1 5]

theorem crossRun_isSome : ((peerMachine _).run (peerMachine _).start crossRun).isSome := by
  decide +kernel

theorem detection_exact_crossRun :
    ((((peerMachine _).run _ crossRun).get crossRun_isSome).node 0).detectConflict = true ∧
    ((((peerMachine _).run _ crossRun).get crossRun_isSome).node 1).detectConflict = true := by
  have hcode : ∀ j, Honest crossRun j := by decide +kernel
  have hconfirm : ∀ j, ((((peerMachine _).run _ crossRun).get crossRun_isSome).node j).ac.confirm = true := by
    decide +kernel
  have hq : Quiescent crossRun (((peerMachine _).run _ crossRun).get crossRun_isSome) := by
    have hgot : ∀ i : Fin 2, ∀ k < 6, k ∈ got crossRun i := by decide +kernel
    exact fun i => Or.inr fun k hk => mem_got.mp (hgot i k hk)
  have hconflict : Conflict (((peerMachine _).run _ crossRun).get crossRun_isSome) :=
    ⟨0, 1, 0, 0, _, _, List.mem_of_getElem? (i := 4) rfl, List.mem_of_getElem? (i := 5) rfl, by decide⟩
  have h := detection_exact (reach_get crossRun_isSome) hcode hq
  exact ⟨(h 0).mpr ⟨hconfirm 0, hconflict⟩, (h 1).mpr ⟨hconfirm 1, hconflict⟩⟩

end Confirmer
