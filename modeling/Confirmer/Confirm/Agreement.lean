import Confirmer.Confirm.Store

/-!
# Agreement of the confirmers

* `calls`, `Called`; `OneSubmission`: all but `faulty` peers run the code and submit once.
* `Genuine`: a value that a quorum of peers has submitted; **`Genuine.eq`**: there is only one.
* **`genuine_of_cert`**: what an aggregate signature of the code is made of.
* **`agreement`**: peers that submit once never confirm different values.
-/

namespace Confirmer

open Text AsyncNet Quorum

variable {B : BLS} {S : Setup B}

/-! ## Calls of `Submit` -/

/-- The `Submit` calls of peer `i`, with value and destination. -/
def calls (es : List (Ev S)) (i : Fin S.totalPeers) : List (Int32 × Int32) :=
  es.filterMap fun
    | .act j (.submit v d) => if j = i then some (v, d) else none
    | _ => none

/-- Peer `i` has called `Submit` with the value `v`. -/
def Called (es : List (Ev S)) (i : Fin S.totalPeers) (v : Int32) : Prop := ∃ d, (v, d) ∈ calls es i

section

variable {es : List (Ev S)} {s : St S} {i j : Fin S.totalPeers} {F : Finset (Fin S.totalPeers)}
  {v v' : Int32}

theorem mem_calls {d : Int32} : (v, d) ∈ calls es i ↔ Event.act i (.submit v d) ∈ es := by
  rw [calls, List.mem_filterMap]
  constructor
  · rintro ⟨e, he, h⟩
    split at h
    · rw [Option.ite_none_right_eq_some, Option.some.injEq, Prod.mk.injEq] at h
      obtain ⟨rfl, rfl, rfl⟩ := h
      exact he
    · cases h
  · intro h
    exact ⟨_, h, by simp⟩

instance : Decidable (Called es i v) :=
  decidable_of_iff (v ∈ (calls es i).map Prod.fst) (by simp [Called])

theorem submits_hist : Submits (hist es s i) v ↔ Called es i v := by
  simp only [Submits, Called, mem_hist_act, mem_calls]

/-- **All but `faulty` peers, those in `F`, run the code and submit once**, to all peers. -/
structure OneSubmission (S : Setup B) (F : Finset (Fin S.totalPeers)) (es : List (Ev S)) :
    Prop where
  few : F.card ≤ S.faulty
  honest : ∀ i, i ∉ F → Honest es i
  once : ∀ i, i ∉ F → ∃ v, calls es i <+: [(v, 0)]

theorem OneSubmission.eq (h : OneSubmission S F es) (hi : i ∉ F) (hv : Called es i v)
    (hv' : Called es i v') : v = v' := by
  obtain ⟨u, hu⟩ := h.once i hi
  obtain ⟨d, hd⟩ := hv
  obtain ⟨d', hd'⟩ := hv'
  have h₁ := List.mem_singleton.mp (hu.subset hd)
  have h₂ := List.mem_singleton.mp (hu.subset hd')
  rw [Prod.mk.injEq] at h₁ h₂
  rw [h₁.1, h₂.1]

theorem OneSubmission.sole (h : OneSubmission S F es) (hi : i ∉ F) :
    ∃ v, Sole (hist es s i) v := by
  obtain ⟨u, hu⟩ := h.once i hi
  refine ⟨u, fun v hv => ?_⟩
  obtain ⟨d, hd⟩ := submits_hist.mp hv
  have h₁ := List.mem_singleton.mp (hu.subset hd)
  rw [Prod.mk.injEq] at h₁
  exact h₁.1

/-! ## Genuine values -/

/-- A quorum of peers has submitted `v`, as far as they are not in `F`. -/
def Genuine (F : Finset (Fin S.totalPeers)) (es : List (Ev S)) (v : Int32) : Prop :=
  ∃ Q : Finset (Fin S.totalPeers), S.totalPeers - S.faulty ≤ Q.card ∧
    ∀ j ∈ Q, j ∉ F → Called es j v

/-- **There is one genuine value**: two quorums meet outside `F`. -/
theorem Genuine.eq (hF : OneSubmission S F es) (h : Genuine F es v) (h' : Genuine F es v') :
    v = v' := by
  obtain ⟨Q, hQ, hv⟩ := h
  obtain ⟨Q', hQ', hv'⟩ := h'
  obtain ⟨j, hj, hj', hjF⟩ := exists_common (Fintype.card_fin _) S.three_mul_faulty_lt hQ hQ' hF.few
  exact hF.eq hjF (hv j hj hjF) (hv' j hj' hjF)

theorem node_store (hr : (peerMachine S).Reach es s) (hi : Honest es i) :
    Store S i (hist es s i) (s.node i) (s.sent i) :=
  store_local (hr.hist_local hi)

theorem confirm_of_cert (hr : (peerMachine S).Reach es s) (hi : Honest es i) {d : Int32}
    {a : SubmitAggSign B} (ha : (i, Item.post (.aggSign d a)) ∈ s.wire) :
    (s.node i).ac.confirm = true := by
  have hs := node_store hr hi
  obtain ⟨ps, hps, hcert⟩ := hs.cert d a (mem_sent.mpr ha)
  rw [hs.confirm, hs.from_eq, List.length_map]
  exact hcert.quorum.trans hps.length_le

/-- **The aggregate signature of a peer is over a genuine value**, when the entries of the peer carry
pids of peers that are in `F` or have submitted the value of the entry, and none is for the initial
value unless the peer submits no other. -/
theorem genuine_of_cert (hr : (peerMachine S).Reach es s) (hF : OneSubmission S F es) (hi : i ∉ F)
    (hzero : ∀ m ∈ (s.node i).ac.partialSignature, m.value = 0 → ∀ v, Called es i v → v = 0)
    (hent : ∀ m ∈ (s.node i).ac.partialSignature,
      ∃ j, m.pid = S.pid j ∧ (j ∈ F ∨ Called es j m.value))
    {d : Int32} {a : SubmitAggSign B} (ha : (i, Item.post (.aggSign d a)) ∈ s.wire) :
    Genuine F es a.value := by
  have hs := node_store hr (hF.honest i hi)
  obtain ⟨ps, hps, hcert⟩ := hs.cert d a (mem_sent.mpr ha)
  obtain ⟨u, hsole⟩ := hF.sole (s := s) hi
  have hnodup : (ps.map SubmitMsg.pid).Nodup := by
    have hfrom := hs.nodup
    rw [hs.from_eq] at hfrom
    exact hfrom.sublist (hps.map _).sublist
  refine ⟨Finset.univ.filter fun j => S.pid j ∈ ps.map SubmitMsg.pid, ?_, ?_⟩
  · rw [card_named S.pid_injective hnodup, List.length_map, ← S.confirmQuorum_eq]
    · exact hcert.quorum
    · intro p hp
      obtain ⟨m, hm, rfl⟩ := List.mem_map.mp hp
      obtain ⟨j, hj, -⟩ := hent m (hps.subset hm)
      exact ⟨j, hj⟩
  · intro j hj hjF
    obtain ⟨m, hm, hp⟩ := List.mem_map.mp (Finset.mem_filter.mp hj).2
    obtain ⟨j', hj', hcall⟩ := hent m (hps.subset hm)
    have heq : j' = j := S.pid_injective (hj'.symm.trans hp)
    subst heq
    have hval : m.value = a.value := by
      by_cases h0 : m.value = 0
      · -- then the last entry is for the initial value, too
        obtain ⟨m', hlast, hval⟩ := hcert.last
        have hheard := (hs.entry m' (hps.subset (List.mem_of_getLast? hlast))).2
        rw [h0, ← hval]
        exact (hheard.submits.elim id fun hsub =>
          hzero m (hps.subset hm) h0 _ (submits_hist.mp hsub)).symm
      · exact hcert.agree u hsole m hm h0
    exact hval ▸ hcall.resolve_left hjF

/-! ## Agreement -/

/-- Nobody writes a submit message but by calling `Submit`. -/
def NoForeignSubmit (es : List (Ev S)) : Prop :=
  ∀ j w, Event.inject j w ∈ es → ∀ id m, decode B id w.bytes ≠ .ok (.submit m)

theorem entry_called (hr : (peerMachine S).Reach es s) (hi : Honest es i)
    (hsub : NoForeignSubmit es) {m : SubmitMsg B} (hm : m ∈ (s.node i).ac.partialSignature) :
    ∃ j, m.pid = S.pid j ∧ Called es j m.value := by
  obtain ⟨w, hw, hd⟩ := ((node_store hr hi).entry m hm).2.mem
  obtain ⟨j, hj⟩ := recvd_of_hist hw
  obtain ⟨o, t⟩ := hr.exists_trace j
  rcases t.wire w (recvd_subset_wire es s i hj) with ho | hinj
  · obtain ⟨hp, d, -, hcall⟩ := ((outbox_local t.loc).posted w ho).of_decode_submit hd
    exact ⟨j, hp, submits_hist.mp ⟨d, hcall⟩⟩
  · exact absurd hd (hsub j w hinj _ m)

/-- **Agreement.** When every submit message stems from a `Submit` call, no call has the initial
value, and all but `faulty` peers submit once and to all, no two of these peers broadcast aggregate
signatures over different values. -/
theorem agreement (hr : (peerMachine S).Reach es s) (hF : OneSubmission S F es)
    (hsub : NoForeignSubmit es) (hzero : ∀ j, ¬ Called es j 0) {d d' : Int32}
    {m m' : SubmitAggSign B} (hi : i ∉ F) (hj : j ∉ F)
    (hm : (i, Item.post (.aggSign d m)) ∈ s.wire) (hm' : (j, Item.post (.aggSign d' m')) ∈ s.wire) :
    m.value = m'.value := by
  have hgen : ∀ k, k ∉ F → ∀ d a, (k, Item.post (.aggSign d a)) ∈ s.wire →
      Genuine F es a.value := by
    intro k hk d a ha
    have hent := fun m => entry_called hr (hF.honest k hk) hsub (m := m)
    refine genuine_of_cert hr hF hk (fun m hm h0 => ?_) (fun m hm => ?_) ha
    · obtain ⟨j, -, hcall⟩ := hent m hm
      exact absurd (h0 ▸ hcall) (hzero j)
    · obtain ⟨j, hp, hcall⟩ := hent m hm
      exact ⟨j, hp, Or.inr hcall⟩
  exact (hgen i hi d m hm).eq hF (hgen j hj d' m' hm')

end

/-- Peer `3` submits one value to all and another one to peer `2`. -/
def splitRun : List (Ev plainFourDirect) :=
  [.act 0 (.submit 5 0), .act 1 (.submit 5 0), .act 2 (.submit 6 0), .act 3 (.submit 5 0),
    .act 3 (.submit 6 3), .recv 0 0, .recv 0 1, .recv 0 3, .recv 1 0, .recv 1 1, .recv 1 3,
    .recv 2 2, .recv 2 4]

theorem splitRun_isSome : ((peerMachine _).run (peerMachine _).start splitRun).isSome := by
  decide +kernel

theorem oneSubmission_splitRun : OneSubmission _ {3} splitRun where
  few := by decide
  honest := by decide +kernel
  once i hi := by
    have hcalls : ∀ i : Fin plainFourDirect.totalPeers, i ∉ ({3} : Finset _) →
        calls splitRun i = [(if i = 2 then 6 else 5, 0)] := by decide +kernel
    refine ⟨if i = 2 then 6 else 5, ?_⟩
    rw [hcalls i hi]

theorem agreement_splitRun : ∃ m m' : SubmitAggSign plainBLS,
    (0, Item.post (.aggSign 0 m)) ∈ (((peerMachine _).run _ splitRun).get splitRun_isSome).wire ∧
    (1, Item.post (.aggSign 0 m')) ∈ (((peerMachine _).run _ splitRun).get splitRun_isSome).wire ∧
    m.value = m'.value := by
  have h₀ : (0, Item.post (.aggSign 0 _)) ∈
      (((peerMachine _).run _ splitRun).get splitRun_isSome).wire := List.mem_of_getElem? (i := 5) rfl
  have h₁ : (1, Item.post (.aggSign 0 _)) ∈
      (((peerMachine _).run _ splitRun).get splitRun_isSome).wire := List.mem_of_getElem? (i := 6) rfl
  refine ⟨_, _, h₀, h₁, agreement (reach_get splitRun_isSome) oneSubmission_splitRun ?_ ?_
    (by decide) (by decide) h₀ h₁⟩
  · intro j w h
    simp [splitRun] at h
  · rintro j ⟨d, hd⟩
    rw [mem_calls] at hd
    simp [splitRun] at hd

end Confirmer
