import Confirmer.Broadcast.Origin

/-!
# Concurrent broadcasts share the tallies

A peer has one record for all broadcasts, so it counts messages of different originators together.

* `Backed`: the broadcasts that stand behind a `READY`: a quorum of any messages, one of them for
  the pid and content in question.
* **`ready_backed`**: every `READY` of a run of the code is backed by what was broadcast before it.
* **`ready_mixed`**: nothing more holds; a `READY` goes out with one `ECHO` of its own broadcast.
-/

namespace Confirmer

open Text AsyncNet Quorum

variable {B : BLS} {S : Setup B}

/-- **The broadcasts behind a `READY`.** -/
def Backed (S : Setup B) (L : List (Fin S.totalPeers × Item B)) (m : RBMessage) : Prop :=
  (2 * S.faulty + 1 ≤ (senders L (isType .echo)).card ∧
    ∃ j, (j, Item.post (.rb (m.as .echo))) ∈ L) ∨
  (S.faulty + 1 ≤ (senders L (isType .ready)).card ∧ ∃ j, (j, Item.post (.rb m)) ∈ L)

theorem Backed.mono {L L' : List (Fin S.totalPeers × Item B)} {m : RBMessage} (h : Backed S L m)
    (hL : L ⊆ L') : Backed S L' m := by
  rcases h with ⟨hq, j, hj⟩ | ⟨hq, j, hj⟩
  · exact Or.inl ⟨hq.trans (Finset.card_le_card (senders_mono hL _)), j, hL hj⟩
  · exact Or.inr ⟨hq.trans (Finset.card_le_card (senders_mono hL _)), j, hL hj⟩

section

variable {es : List (Ev S)} {s s' : St S} {e : Ev S} {i j : Fin S.totalPeers} {m : RBMessage}

/-- **A peer is ready for a reason.** -/
theorem ready_step (hr : (peerMachine S).Reach es s) (hs : (peerMachine S).step s e = some s')
    (hc : ∀ i, Honest (es ++ [e]) i) (ho : ∀ i, (got (es ++ [e]) i).Nodup) {k : ℕ}
    (hk : s'.wire[k]? = some (i, .post (.rb m))) (hlt : s.wire.length ≤ k)
    (hm : m.type = MessageType.ready.toInt32) : Backed S s.wire m := by
  have hr' := hr.snoc hs
  have hc' : ∀ i, Honest es i := fun i => (hc i).before
  have hwire : recvd (es ++ [e]) s' i ⊆ s.wire := by
    rw [recvd_step hr hs]
    exact recvd_subset_wire _ s i
  obtain ⟨x, out, hx, hout, hfrom⟩ := exists_peerStep hs (hc i) hk hlt
  rcases rbPost_of_step (node_outbox hr (hc' i)) hx hout with
    ⟨v, d, rfl⟩ | ⟨w, m', rfl, hw, hnode, hpost⟩
  · simp [Setup.announcement] at hm
  obtain ⟨j, hj⟩ := hfrom w rfl
  rcases mem_dispatch hpost with ⟨-, heq⟩ | ⟨ht, heq, hq⟩ | ⟨ht, heq, hq⟩
  · cases heq
    simp at hm
  · cases heq
    have hle := echos_length_le hr' (hc i) fun j => countFrom_recvd_echo_le hr' (hc j) (ho i)
    rw [hnode, dispatch_echo ht, List.length_append, List.length_singleton] at hle
    rw [S.echoQuorum_eq] at hq
    refine Or.inl ⟨(hq.trans hle).trans (Finset.card_le_card (senders_mono hwire _)), j, ?_⟩
    rw [post_of_received hr hc' hj hw (by simp [ht])] at hj
    have heq : (m'.as .ready).as .echo = m' := by rw [RBMessage.as, RBMessage.as, ← ht]
    rwa [heq]
  · cases heq
    have hle := readys_length_le hr' (hc i) fun j => countFrom_recvd_ready_le hr' (hc j) (ho i)
    rw [hnode, dispatch_ready ht, List.length_append, List.length_singleton] at hle
    rw [S.readyQuorum_eq] at hq
    refine Or.inr ⟨(Nat.succ_le_of_lt hq).trans
      (hle.trans (Finset.card_le_card (senders_mono hwire _))), j, ?_⟩
    rwa [post_of_received hr hc' hj hw (by simp [ht])] at hj

/-- **Every `READY` is backed by what was broadcast before it**, in a run of the code that hands no
item twice to a peer. -/
theorem ready_backed (hr : (peerMachine S).Reach es s) (hc : ∀ i, Honest es i)
    (ho : ∀ i, (got es i).Nodup) {k : ℕ} (hk : s.wire[k]? = some (i, .post (.rb m)))
    (hm : m.type = MessageType.ready.toInt32) : Backed S (s.wire.take k) m := by
  induction hr generalizing i m k with
  | start => simp [Machine.start] at hk
  | @snoc es s e s' hr hs ih =>
    have hpre := wire_prefix_of_step hs
    by_cases hlt : s.wire.length ≤ k
    · apply (ready_step hr hs hc ho hk hlt hm).mono
      exact (List.prefix_take_iff.mpr ⟨hpre, hlt⟩).subset
    · rw [not_le] at hlt
      obtain ⟨l, hl⟩ := hpre
      rw [← hl, List.getElem?_append_left hlt] at hk
      rw [← hl, List.take_append_of_le_length hlt.le]
      refine ih (fun i => (hc i).before) (fun i => ?_) hk hm
      have hnodup := ho i
      rw [got, List.filterMap_append] at hnodup
      exact hnodup.of_append_left

end

/-- Four peers, two of which submit; peer `3` counts two echoes for peer `0` and one for peer
`1`. -/
def mixedRun : List (Ev plainFour) :=
  [.act 0 (.submit 5 0), .act 1 (.submit 6 0), .recv 0 0, .recv 2 0, .recv 1 1,
    .recv 3 2, .recv 3 3, .recv 3 4]

theorem mixedRun_isSome : ((peerMachine _).run (peerMachine _).start mixedRun).isSome := by
  decide +kernel

theorem ready_backed_mixedRun :
    Backed plainFour ((((peerMachine _).run _ mixedRun).get mixedRun_isSome).wire.take 5)
      ⟨MessageType.ready, 2, [52]⟩ :=
  ready_backed (i := 3) (reach_get mixedRun_isSome) (by decide +kernel) (by decide +kernel) rfl rfl

/-- Is the item the message `m`? -/
def isMessage (m : RBMessage) (w : Item B) : Bool := rbOf w.bytes == some m

/-- **A `READY` with one `ECHO` of its own broadcast**, and no other `READY`. -/
theorem ready_mixed : ∃ s, (peerMachine _).Reach mixedRun s ∧ (∀ i, Honest mixedRun i) ∧
    (∀ i, (got mixedRun i).Nodup) ∧
    (3, Item.post (.rb ⟨MessageType.ready, 2, [52]⟩)) ∈ s.wire ∧
    (senders s.wire (isMessage ⟨MessageType.echo, 2, [52]⟩)).card < 2 * plainFour.faulty + 1 ∧
    (senders s.wire (isMessage ⟨MessageType.ready, 2, [52]⟩)).card < plainFour.faulty + 1 :=
  ⟨_, reach_get mixedRun_isSome, by decide +kernel, by decide +kernel,
    List.mem_of_getElem? (i := 5) rfl, by decide +kernel, by decide +kernel⟩

end Confirmer
