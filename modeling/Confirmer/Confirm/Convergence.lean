import Confirmer.Confirm.Agreement

/-!
# Convergence at quiescence

`SubmitMsgVerify` drops a submit message that does not carry the current value of the peer, and
nobody sends it again.

* `complete_local`: what a peer accepts, given when it has called `Submit` itself.
* `Converging`: a run at rest in which the peers in `R` have submitted one value.
* **`converging_confirm`**: a peer has confirmed exactly when enough messages came in time.
* **`dropped_early`**: a message that comes before the peer's own `Submit` call is lost.
-/

namespace Confirmer

open Text AsyncNet Quorum

variable {B : BLS} {S : Setup B} {i : Fin S.totalPeers}

/-! ## What a peer accepts -/

theorem from_prefix_of_step {t t' : Peer B} {x : Call ⊕ Item B} {out : List (Item B)}
    (hx : PeerStep S t x t' out) : t.ac.from <+: t'.ac.from := by
  cases hx.entry with
  | submit v d hv hf hp => rw [hf]
  | accept w m hd ha hv hf hp =>
    rw [hf]
    exact List.prefix_append _ _
  | skip x hsub hno hv hf hp => rw [hf]

theorem mem_from_of_step {t t' : Peer B} {w : Item B} {m : SubmitMsg B} {out : List (Item B)}
    (hx : PeerStep S t (.inr w) t' out) (hd : decode B t.id w.bytes = .ok (.submit m))
    (hverify : shareVerify m = true) (hval : t.ac.value = m.value) : m.pid ∈ t'.ac.from := by
  cases hx.entry with
  | accept w m' hd' ha hv hf hp =>
    rw [hd] at hd'
    cases hd'
    rw [hf]
    exact List.mem_append_right _ (List.mem_singleton_self _)
  | skip x hsub hno hv hf hp =>
    by_contra hfrom
    rw [hf] at hfrom
    exact hno w m rfl hd ⟨hverify, hval, hfrom⟩

/-- **What a peer accepts** that submits no other value than `v`: every message for `v` that verifies
and comes after its `Submit` call; for the initial value also those before. -/
theorem complete_local {h : Hist B} {t : Peer B} {o : List (Item B)}
    (hl : (peerMachine S).Local ((peerMachine S).init i) h t o) {v : Int32} (hv : Sole h v)
    {h₁ h₂ : Hist B} {w : Item B} (hh : h = h₁ ++ Sum.inr w :: h₂) {m : SubmitMsg B}
    (hd : decode B (S.pid i) w.bytes = .ok (.submit m)) (hverify : shareVerify m = true)
    (hval : m.value = v) (htime : Submits h₁ v ∨ v = 0) : m.pid ∈ t.ac.from := by
  induction hl generalizing h₂ with
  | nil => simp at hh
  | @snoc h t o x t' out hl hs ih =>
    have hx := peerStep hs
    rcases List.eq_nil_or_concat h₂ with rfl | ⟨h₃, y, rfl⟩
    · obtain ⟨rfl, hxw⟩ := List.append_inj' hh rfl
      cases hxw
      refine mem_from_of_step hx ((outbox_local hl).id ▸ hd) hverify ?_
      rw [hval]
      have hcur := (store_local hl).value
      rcases htime with htime | rfl
      · exact hcur.sole v hv.of_append htime
      · exact hcur.zero_or.elim id fun hsub => hv.of_append _ hsub
    · rw [List.concat_eq_append, ← List.cons_append, ← List.append_assoc] at hh
      obtain ⟨rfl, -⟩ := List.append_inj' hh rfl
      exact (from_prefix_of_step hx).subset (ih hv.of_append rfl)

/-! ## Runs at rest -/

/-- **A run at rest in which the peers in `R` have called `Submit` with `v`** and the others have sent
nothing. Every submit message on the wire has been processed by every peer in `R`; the signatures
verify. -/
structure Converging (S : Setup B) (R : Finset (Fin S.totalPeers)) (v : Int32) (es : List (Ev S))
    (s : St S) : Prop where
  enough : S.totalPeers - S.faulty ≤ R.card
  honest : ∀ i ∈ R, Honest es i
  silent : ∀ j w, j ∉ R → (j, w) ∉ s.wire
  once : ∀ i ∈ R, calls es i = [(v, 0)]
  processed : ∀ i ∈ R, ∀ k j d m, s.wire[k]? = some (j, Item.post (.submit d m)) →
    Event.recv i k ∈ es
  verifies : ∀ i ∈ R, ∀ j ∈ R, ∃ m,
    decode B (S.pid i) (serializeSubmit 0 (S.submission j v)) = .ok (.submit m) ∧
      shareVerify m = true

/-- The submit message of peer `j` is on the wire. -/
def Submitted (s : St S) (j : Fin S.totalPeers) (v : Int32) : Prop :=
  (j, Item.post (.submit 0 (S.submission j v))) ∈ s.wire

/-- The peer with history `h` has received the submit message of peer `j` after its own `Submit`
call. -/
def InTime (S : Setup B) (h : Hist B) (j : Fin S.totalPeers) (v : Int32) : Prop :=
  ∃ h₁ h₂, h = h₁ ++ h₂ ∧ Submits h₁ v ∧ Sum.inr (Item.post (.submit 0 (S.submission j v))) ∈ h₂

section

variable {R : Finset (Fin S.totalPeers)} {v : Int32} {es : List (Ev S)} {s : St S}
  {j : Fin S.totalPeers}

theorem Converging.sole (hc : Converging S R v es s) (hi : i ∈ R) : Sole (hist es s i) v := by
  intro v' hv'
  obtain ⟨d, hd⟩ := submits_hist.mp hv'
  rw [hc.once i hi, List.mem_singleton, Prod.mk.injEq] at hd
  exact hd.1

theorem Converging.counted (hr : (peerMachine S).Reach es s) (hc : Converging S R v es s)
    (hi : i ∈ R) (hj : j ∈ R) {h₁ h₂ : Hist B}
    (hh : hist es s i = h₁ ++ Sum.inr (Item.post (.submit 0 (S.submission j v))) :: h₂)
    (htime : Submits h₁ v ∨ v = 0) : S.pid j ∈ (s.node i).ac.from := by
  obtain ⟨m, hd, hverify⟩ := hc.verifies i hi j hj
  have hread : m.pid = S.pid j ∧ m.value = v := by
    rcases decode_serializeSubmit rfl hd with h | ⟨m', h, hp, hval⟩
    · cases h
    · cases h
      exact ⟨hp, hval⟩
  rw [← hread.1]
  exact complete_local (hr.hist_local (hc.honest i hi)) (hc.sole hi) hh hd hverify hread.2 htime

/-- What is counted came in time, unless the value is the initial one. -/
theorem Converging.inTime (hr : (peerMachine S).Reach es s) (hc : Converging S R v es s)
    (hi : i ∈ R) {p : Int32} (hp : p ∈ (s.node i).ac.from) :
    ∃ j ∈ R, p = S.pid j ∧ Submitted s j v ∧ (v = 0 ∨ InTime S (hist es s i) j v) := by
  have hs := node_store hr (hc.honest i hi)
  rw [hs.from_eq] at hp
  obtain ⟨m, hm, rfl⟩ := List.mem_map.mp hp
  obtain ⟨-, h₁, w, h₂, hh, hd, hcur⟩ := hs.entry m hm
  have hin : .inr w ∈ hist es s i := by rw [hh]; simp
  obtain ⟨j, hj⟩ := recvd_of_hist hin
  have hwire := recvd_subset_wire es s i hj
  have hjR : j ∈ R := by
    by_contra hjR
    exact hc.silent j w hjR hwire
  obtain ⟨hpid, d, rfl, hcall⟩ := (posted_of_wire hr (hc.honest j hjR) hwire).of_decode_submit hd
  rw [mem_hist_act, ← mem_calls, hc.once j hjR, List.mem_singleton, Prod.mk.injEq] at hcall
  obtain ⟨hval, rfl⟩ := hcall
  rw [hval] at hcur hh hwire
  exact ⟨j, hjR, hpid, hwire, hcur.zero_or.imp_right fun hsub =>
    ⟨h₁, _, hh, hsub, List.mem_cons_self⟩⟩

theorem Converging.exists_quorum (hr : (peerMachine S).Reach es s) (hc : Converging S R v es s)
    (hi : i ∈ R) : ∃ Q ⊆ R, Q.card = (s.node i).ac.from.length ∧
      ∀ j ∈ Q, Submitted s j v ∧ (v = 0 ∨ InTime S (hist es s i) j v) := by
  refine ⟨Finset.univ.filter fun j => S.pid j ∈ (s.node i).ac.from, ?_, ?_, ?_⟩
  · intro j hj
    obtain ⟨j', hj', hp, -⟩ := hc.inTime hr hi (Finset.mem_filter.mp hj).2
    exact S.pid_injective hp ▸ hj'
  · apply card_named S.pid_injective (node_store hr (hc.honest i hi)).nodup
    intro p hp
    obtain ⟨j, -, hj, -⟩ := hc.inTime hr hi hp
    exact ⟨j, hj⟩
  · intro j hj
    obtain ⟨j', -, hp, htime⟩ := hc.inTime hr hi (Finset.mem_filter.mp hj).2
    exact S.pid_injective hp ▸ htime

/-- What is on the wire of a run at rest has been counted, when it came in time. -/
theorem Converging.counted_of_inTime (hr : (peerMachine S).Reach es s) (hc : Converging S R v es s)
    (hi : i ∈ R) (hj : j ∈ R) (hwire : Submitted s j v)
    (htime : v = 0 ∨ InTime S (hist es s i) j v) : S.pid j ∈ (s.node i).ac.from := by
  rcases htime with rfl | ⟨h₁, h₂, hh, hsub, hmem⟩
  · obtain ⟨k, hk⟩ := List.mem_iff_getElem?.mp hwire
    have hmem := mem_hist_recv.mpr ⟨j, k, hc.processed i hi k j _ _ hk, hk⟩
    obtain ⟨h₁, h₂, hh⟩ := List.append_of_mem hmem
    exact hc.counted hr hi hj hh (Or.inr rfl)
  · obtain ⟨h₃, h₄, rfl⟩ := List.append_of_mem hmem
    rw [← List.append_assoc] at hh
    exact hc.counted hr hi hj hh (Or.inl (hsub.append h₃))

/-- **Convergence.** In a run at rest a peer has confirmed if and only if a quorum has posted its
submit messages and, unless the value is the initial one, the peer has received these after its own
`Submit` call. -/
theorem converging_confirm (hr : (peerMachine S).Reach es s) (hc : Converging S R v es s)
    (hi : i ∈ R) : (s.node i).ac.confirm = true ↔
      ∃ Q ⊆ R, S.totalPeers - S.faulty ≤ Q.card ∧
        ∀ j ∈ Q, Submitted s j v ∧ (v = 0 ∨ InTime S (hist es s i) j v) := by
  rw [(node_store hr (hc.honest i hi)).confirm, S.confirmQuorum_eq]
  constructor
  · intro hq
    obtain ⟨Q, hQR, hcard, htime⟩ := hc.exists_quorum hr hi
    exact ⟨Q, hQR, hcard ▸ hq, htime⟩
  · rintro ⟨Q, hQR, hq, htime⟩
    apply hq.trans (card_le_length S.pid_injective ?_)
    intro j hj
    exact hc.counted_of_inTime hr hi (hQR hj) (htime j hj).1 (htime j hj).2

end

/-- Peer `0` receives the submit message of peer `1` before it submits itself. -/
def earlyRun : List (Ev plainTwoDirect) :=
  [.act 1 (.submit 5 0), .recv 0 0, .recv 1 0, .act 0 (.submit 5 0), .recv 0 1, .recv 1 1,
    .recv 0 2, .recv 1 2]

theorem earlyRun_isSome : ((peerMachine _).run (peerMachine _).start earlyRun).isSome := by
  decide +kernel

theorem verifies_plainTwoDirect (id : Int32) (j : Fin plainTwoDirect.totalPeers) : ∃ m,
    decode plainBLS id (serializeSubmit 0 (plainTwoDirect.submission j 5)) = .ok (.submit m) ∧
      shareVerify m = true := by
  have hclean : ∀ j, Clean 58 (plainBLS.blsSignatureSerialize (plainTwoDirect.submission j 5).sig) ∧
      Clean 58 (plainBLS.blsPublicKeySerialize (plainTwoDirect.submission j 5).pub) := by
    decide +kernel
  refine ⟨_, decode_serializeSubmit_clean {} rfl (Or.inl rfl) (hclean j).1 (hclean j).2, ?_⟩
  revert j
  decide +kernel

theorem converging_earlyRun : Converging _ Finset.univ 5 earlyRun
    (((peerMachine _).run _ earlyRun).get earlyRun_isSome) where
  enough := by decide
  honest := by decide +kernel
  silent j w hj := absurd (Finset.mem_univ j) hj
  once := by decide +kernel
  processed i _ k j d m hk := by
    have hgot : ∀ i, ∀ k < 3, k ∈ got earlyRun i := by decide +kernel
    exact mem_got.mp (hgot i k (List.getElem?_eq_some_iff.mp hk).1)
  verifies i _ j _ := verifies_plainTwoDirect _ j

theorem submitted_earlyRun : ∀ j : Fin 2,
    Submitted (((peerMachine plainTwoDirect).run _ earlyRun).get earlyRun_isSome) j 5 :=
  Fin.forall_fin_two.mpr ⟨List.mem_of_getElem? (i := 1) rfl, List.mem_of_getElem? (i := 0) rfl⟩

theorem inTime_earlyRun : ∀ j : Fin 2, InTime plainTwoDirect
    (hist earlyRun (((peerMachine plainTwoDirect).run _ earlyRun).get earlyRun_isSome) 1) j 5 := by
  have hin : ∀ (h : Hist plainBLS) (j : Fin plainTwoDirect.totalPeers),
      .inr (.post (.submit 0 (plainTwoDirect.submission j 5))) ∈ h →
      InTime plainTwoDirect (.inl (.submit 5 0) :: h) j 5 :=
    fun h j hj => ⟨[.inl (.submit 5 0)], h, rfl, ⟨0, List.mem_singleton_self _⟩, hj⟩
  exact Fin.forall_fin_two.mpr ⟨hin _ 0 (List.mem_of_getElem? (i := 1) rfl),
    hin _ 1 (List.mem_of_getElem? (i := 0) rfl)⟩

theorem converging_confirm_earlyRun :
    ((((peerMachine _).run _ earlyRun).get earlyRun_isSome).node 1).ac.confirm = true :=
  (converging_confirm (reach_get earlyRun_isSome) converging_earlyRun (Finset.mem_univ 1)).mpr
    ⟨Finset.univ, Finset.Subset.refl _, by decide, fun j _ =>
      ⟨submitted_earlyRun j, Or.inr (inTime_earlyRun j)⟩⟩

/-- **An early message is lost.** All peers have submitted the same value and have processed every
message, and peer `0` has not confirmed. -/
theorem dropped_early : ∃ s, (peerMachine _).Reach earlyRun s ∧
    Converging _ Finset.univ 5 earlyRun s ∧ (∀ j, Submitted s j 5) ∧ (∀ i, (got earlyRun i).Nodup) ∧
    (s.node 0).ac.confirm = false :=
  ⟨_, reach_get earlyRun_isSome, converging_earlyRun, submitted_earlyRun, by decide +kernel,
    by decide +kernel⟩

end Confirmer
