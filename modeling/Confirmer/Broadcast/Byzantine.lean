import Confirmer.Broadcast.Count

/-!
# Quorums against Byzantine peers

The wire carries the pid of the originator and not that of the voter, so a tally counts messages.

* `Corrupted`: up to `faulty` peers put anything on the wire.
* `VotesOnce`: every correct peer processes one `ECHO` and one `READY` at most of each of them.
* **`byzantine_quorum`**: then the tallies of correct peers are quorums of peers.
* **`byzantine_repeated`**: without the condition one peer opens a gate by itself.
-/

namespace Confirmer

open Text AsyncNet Quorum

variable {B : BLS} {S : Setup B}

/-- **At most `faulty` peers, those in `F`, put anything on the wire**; the others run the code, and
an item on the wire is processed by each of them once at most. -/
structure Corrupted (S : Setup B) (F : Finset (Fin S.totalPeers)) (es : List (Ev S)) : Prop where
  few : F.card ≤ S.faulty
  honest : ∀ i, i ∉ F → Honest es i
  once : ∀ i, i ∉ F → (got es i).Nodup

/-- Every correct peer processes one `ECHO` and one `READY` at most of each peer in `F`. -/
structure VotesOnce (F : Finset (Fin S.totalPeers)) (es : List (Ev S)) (s : St S) : Prop where
  echo : ∀ i, i ∉ F → ∀ j ∈ F, countFrom (recvd es s i) (isType .echo) j ≤ 1
  ready : ∀ i, i ∉ F → ∀ j ∈ F, countFrom (recvd es s i) (isType .ready) j ≤ 1

section

variable {F : Finset (Fin S.totalPeers)} {es : List (Ev S)} {s s' : St S} {e : Ev S}
  {i : Fin S.totalPeers}

theorem Corrupted.before (h : Corrupted S F (es ++ [e])) : Corrupted S F es where
  few := h.few
  honest i hi := (h.honest i hi).before
  once i hi := by
    have hnodup := h.once i hi
    rw [got, List.filterMap_append] at hnodup
    exact hnodup.of_append_left

theorem VotesOnce.before (hr : (peerMachine S).Reach es s) (hs : (peerMachine S).step s e = some s')
    (h : VotesOnce F (es ++ [e]) s') : VotesOnce F es s where
  echo i hi j hj := (recvd_mono hr hs i).sublist.countP_le.trans (h.echo i hi j hj)
  ready i hi j hj := (recvd_mono hr hs i).sublist.countP_le.trans (h.ready i hi j hj)

theorem echos_le_senders (hr : (peerMachine S).Reach es s) (hF : Corrupted S F es)
    (h : VotesOnce F es s) (hi : i ∉ F) :
    (s.node i).rb.echos.length ≤ (senders (recvd es s i) (isType .echo)).card := by
  apply echos_length_le hr (hF.honest i hi)
  intro j
  by_cases hj : j ∈ F
  · exact h.echo i hi j hj
  · exact countFrom_recvd_echo_le hr (hF.honest j hj) (hF.once i hi)

theorem readys_le_senders (hr : (peerMachine S).Reach es s) (hF : Corrupted S F es)
    (h : VotesOnce F es s) (hi : i ∉ F) :
    (s.node i).rb.readys.length ≤ (senders (recvd es s i) (isType .ready)).card := by
  apply readys_length_le hr (hF.honest i hi)
  intro j
  by_cases hj : j ∈ F
  · exact h.ready i hi j hj
  · exact countFrom_recvd_ready_le hr (hF.honest j hj) (hF.once i hi)

/-- The correct peers among the senders of what a peer has received have sent it. -/
theorem card_correct_ge (hF : Corrupted S F es) {t : MessageType} {k : ℕ}
    (hk : S.faulty + k ≤ (senders (recvd es s i) (isType t)).card) :
    k ≤ (senders s.wire (isType t) \ F).card := by
  have h₁ := card_sdiff_ge (senders (recvd es s i) (isType t)) F
  have h₂ := Finset.card_le_card
    (Finset.sdiff_subset_sdiff (senders_mono (recvd_subset_wire es s i) (isType t)) (le_refl F))
  have h₃ := hF.few
  omega

/-- **An open gate needs `faulty + 1` correct peers that are ready.** -/
theorem delivered_correct (hr : (peerMachine S).Reach es s) (hF : Corrupted S F es)
    (h : VotesOnce F es s) (hi : i ∉ F) (hd : (s.node i).rb.delivered = true) :
    S.faulty + 1 ≤ (senders s.wire (isType .ready) \ F).card := by
  have h₁ := readys_of_delivered hr (hF.honest i hi) hd
  have h₂ := readys_le_senders hr hF h hi
  apply card_correct_ge hF (i := i)
  omega

/-- **The first correct peer that is ready has counted `faulty + 1` echoes of correct peers**: it
has received a `READY` of at most `faulty` peers, all of them in `F`. -/
theorem ready_correct (hr : (peerMachine S).Reach es s) (hF : Corrupted S F es)
    (h : VotesOnce F es s) (hi : i ∉ F) (hm : i ∈ senders s.wire (isType .ready)) :
    S.faulty + 1 ≤ (senders s.wire (isType .echo) \ F).card := by
  induction hr generalizing i with
  | start => simp [senders, countFrom, Machine.start] at hm
  | @snoc es s e s' hr hs ih =>
    have hr' := hr.snoc hs
    by_cases hprev : ∃ j, j ∉ F ∧ j ∈ senders s.wire (isType .ready)
    · obtain ⟨j, hj, hjm⟩ := hprev
      apply (ih hF.before (h.before hr hs) hj hjm).trans
      apply Finset.card_le_card
      exact Finset.sdiff_subset_sdiff (senders_mono (wire_prefix_of_step hs).subset _) (le_refl F)
    · rw [mem_ready_senders hr' (hF.honest i hi), sentready_iff hr' (hF.honest i hi)] at hm
      rcases hm with hm | hm
      · have hle := echos_le_senders hr' hF h hi
        apply card_correct_ge hF (i := i)
        omega
      · have hle := readys_le_senders hr' hF h hi
        rw [recvd_step hr hs] at hle
        obtain ⟨j, hj, hjF⟩ := exists_notMem (lt_of_lt_of_le hm hle) hF.few
        exact absurd ⟨j, hjF, senders_mono (recvd_subset_wire _ s i) _ hj⟩ hprev

/-- **Byzantine quorums.** -/
theorem byzantine_quorum (hr : (peerMachine S).Reach es s) (hF : Corrupted S F es)
    (h : VotesOnce F es s) :
    (∀ i, i ∉ F → (s.node i).rb.delivered = true →
      S.faulty + 1 ≤ (senders s.wire (isType .ready) \ F).card) ∧
    (∀ i, i ∉ F → i ∈ senders s.wire (isType .ready) →
      S.faulty + 1 ≤ (senders s.wire (isType .echo) \ F).card) :=
  ⟨fun _ hi hd => delivered_correct hr hF h hi hd, fun _ hi hm => ready_correct hr hF h hi hm⟩

end

/-- Four peers; peer `3` echoes once without having received anything. -/
def echoRun : List (Ev plainFour) :=
  [.act 0 (.submit 5 0), .recv 0 0, .recv 1 0, .recv 2 0, .inject 3 (.raw (serializeRB ⟨2, 1, []⟩)),
    .recv 0 1, .recv 0 2, .recv 0 4, .recv 1 1, .recv 1 2, .recv 1 4, .recv 2 1, .recv 2 2, .recv 2 4,
    .recv 0 5, .recv 0 6, .recv 0 7, .act 0 .checkIfReady]

theorem echoRun_isSome : ((peerMachine _).run (peerMachine _).start echoRun).isSome := by
  decide +kernel

theorem corrupted_echoRun : Corrupted _ {3} echoRun where
  few := by decide
  honest := by decide +kernel
  once := by decide +kernel

theorem byzantine_quorum_echoRun :
    2 ≤ (senders (((peerMachine _).run _ echoRun).get echoRun_isSome).wire (isType .ready) \
      ({3} : Finset (Fin 4))).card :=
  (byzantine_quorum (reach_get echoRun_isSome) corrupted_echoRun
    ⟨by decide +kernel, by decide +kernel⟩).1 0 (by decide) (by decide +kernel)

/-- Four peers; peer `3` sends the same `READY` three times. -/
def readyRun : List (Ev plainFour) :=
  List.replicate 3 (.inject 3 (.raw (serializeRB ⟨3, 4, []⟩))) ++
    [.recv 0 0, .recv 0 1, .recv 0 2, .act 0 .checkIfReady]

theorem readyRun_isSome : ((peerMachine _).run (peerMachine _).start readyRun).isSome := by
  decide +kernel

theorem corrupted_readyRun : Corrupted _ {3} readyRun where
  few := by decide
  honest := by decide +kernel
  once := by decide +kernel

/-- **One peer opens a gate by itself.** Peer `0` has delivered, and only peer `0` and the corrupted
peer are ready; peer `0` is ready, and nobody has echoed. -/
theorem byzantine_repeated : ∃ s, (peerMachine _).Reach readyRun s ∧ Corrupted _ {3} readyRun ∧
    (s.node 0).rb.delivered = true ∧
    (senders s.wire (isType .ready) \ {3}).card < plainFour.faulty + 1 ∧
    0 ∈ senders s.wire (isType .ready) ∧
    (senders s.wire (isType .echo) \ {3}).card < plainFour.faulty + 1 :=
  ⟨_, reach_get readyRun_isSome, corrupted_readyRun, by decide +kernel, by decide +kernel,
    by decide +kernel, by decide +kernel⟩

end Confirmer
