import Confirmer.Broadcast.Count

/-!
# Validity and totality under crashes and omissions

* `Settled`: a run that has come to rest, in which up to `faulty` peers may have crashed at any
  moment and have had their posts reach only some of the peers.
* `Settled.countP_ge`: what many live peers have broadcast, every live peer has received.
* **`settled_delivered`**: one broadcast of a live peer opens the gate of every live peer, and one
  open gate of a live peer opens them all.
-/

namespace Confirmer

open Text AsyncNet Quorum

variable {B : BLS} {S : Setup B}

/-- **A run at rest**, with the crashed peers `C`. Nobody writes to the wire but by running the
code; a live peer processes no item twice and every reliable-broadcast message of a live peer, and
its `CheckIfReady` has nothing left to do. -/
structure Settled (S : Setup B) (C : Finset (Fin S.totalPeers)) (es : List (Ev S)) (s : St S) :
    Prop where
  code : ∀ i, Honest es i
  few : C.card ≤ S.faulty
  once : ∀ i, i ∉ C → (got es i).Nodup
  all : ∀ i j, i ∉ C → j ∉ C → ∀ k w, s.wire[k]? = some (j, w) → (rbOf w.bytes).isSome →
    Event.recv i k ∈ es
  checked : ∀ i, i ∉ C → checkIfReady S.globals (s.node i) = none

section

variable {C : Finset (Fin S.totalPeers)} {es : List (Ev S)} {s : St S} {i j : Fin S.totalPeers}

theorem Settled.received (h : Settled S C es s) (hi : i ∉ C) (hj : j ∉ C) {t : MessageType}
    (hs : j ∈ senders s.wire (isType t)) : j ∈ senders (recvd es s i) (isType t) := by
  obtain ⟨w, hw, ht⟩ := mem_senders.mp hs
  obtain ⟨k, hk⟩ := List.mem_iff_getElem?.mp hw
  obtain ⟨m, hm, -⟩ := isType_iff.mp ht
  have hrecv := h.all i j hi hj k w hk (by rw [hm]; rfl)
  exact mem_senders.mpr ⟨w, mem_recvd.mpr ⟨k, hrecv, hk⟩, ht⟩

theorem Settled.countP_ge (h : Settled S C es s) (hi : i ∉ C) {t : MessageType}
    {L : Finset (Fin S.totalPeers)} (hL : ∀ j ∈ L, j ∉ C ∧ j ∈ senders s.wire (isType t)) :
    L.card ≤ (recvd es s i).countP fun x => isType t x.2 := by
  apply card_le_countP
  intro j hj
  exact h.received hi (hL j hj).1 (hL j hj).2

theorem Settled.live_card (h : Settled S C es s) : 2 * S.faulty + 1 ≤ (Finset.univ \ C).card := by
  have h₁ := card_sdiff_ge Finset.univ C
  have h₂ := S.three_mul_faulty_lt
  have h₃ := h.few
  rw [Finset.card_univ, Fintype.card_fin] at h₁
  omega

theorem Settled.sentecho (h : Settled S C es s) (hr : (peerMachine S).Reach es s) (hi : i ∉ C)
    (hj : j ∉ C) (hs : j ∈ senders s.wire (isType .send)) :
    (s.node i).rb.sentecho = true := by
  rw [(node_tally hr (h.code i)).sentecho]
  have hcount : 0 < (rbMsgs (hist es s i)).countP (RBMessage.is .send) := by
    rw [countP_rbMsgs]
    exact h.countP_ge (L := {j}) hi fun j' hj' => by
      rw [Finset.mem_singleton.mp hj']
      exact ⟨hj, hs⟩
  exact List.countP_pos_iff.mp hcount

theorem Settled.sentready (h : Settled S C es s) (hr : (peerMachine S).Reach es s)
    (he : ∀ j, j ∉ C → (s.node j).rb.sentecho = true) (hi : i ∉ C) :
    (s.node i).rb.sentready = true := by
  rw [sentready_iff hr (h.code i), echos_length hr (h.code i)]
  refine Or.inl (h.live_card.trans (h.countP_ge hi ?_))
  intro j hj
  have hj' := (Finset.mem_sdiff.mp hj).2
  exact ⟨hj', (mem_echo_senders hr (h.code j)).mpr (he j hj')⟩

theorem Settled.delivered (h : Settled S C es s) (hr : (peerMachine S).Reach es s)
    (he : ∀ j, j ∉ C → (s.node j).rb.sentready = true) (hi : i ∉ C) :
    (s.node i).rb.delivered = true := by
  have hlen : 2 * S.faulty + 1 ≤ (s.node i).rb.readys.length := by
    rw [readys_length hr (h.code i)]
    apply h.live_card.trans (h.countP_ge hi ?_)
    intro j hj
    have hj' := (Finset.mem_sdiff.mp hj).2
    exact ⟨hj', (mem_ready_senders hr (h.code j)).mpr (he j hj')⟩
  have hc := h.checked i hi
  have hq : sizeT (2 * S.globals.NUMBER_OF_FAULTY_PROCESSES).toInt = 2 * S.faulty :=
    S.deliverQuorum_eq
  unfold checkIfReady at hc
  split_ifs at hc with hd
  rw [not_and, Bool.not_eq_false] at hd
  apply hd
  omega

/-- One open gate of a live peer makes every live peer ready. -/
theorem Settled.sentready_of_delivered (h : Settled S C es s) (hr : (peerMachine S).Reach es s)
    (hj : j ∉ C) (hd : (s.node j).rb.delivered = true) (hi : i ∉ C) :
    (s.node i).rb.sentready = true := by
  have hlen := readys_of_delivered hr (h.code j) hd
  have hle := readys_length_le hr (h.code j) fun j' =>
    countFrom_recvd_ready_le hr (h.code j') (h.once j hj)
  have hcard := card_sdiff_ge (senders (recvd es s j) (isType .ready)) C
  have hfew := h.few
  have hrecv : (senders (recvd es s j) (isType .ready) \ C).card ≤ (s.node i).rb.readys.length := by
    rw [readys_length hr (h.code i)]
    apply h.countP_ge hi
    intro j' hj'
    obtain ⟨hm, hC⟩ := Finset.mem_sdiff.mp hj'
    exact ⟨hC, senders_mono (recvd_subset_wire es s j) _ hm⟩
  rw [sentready_iff hr (h.code i)]
  right
  omega

/-- **Validity and totality.** In a run at rest, one `SEND` broadcast by a live peer has opened the
gate of every live peer, and so has one open gate of a live peer. -/
theorem settled_delivered (hr : (peerMachine S).Reach es s) (h : Settled S C es s) :
    ((∃ j m, j ∉ C ∧ (j, Item.post (.rb m)) ∈ s.wire ∧ m.type = MessageType.send) →
      ∀ i, i ∉ C → (s.node i).rb.delivered = true) ∧
    ((∃ j, j ∉ C ∧ (s.node j).rb.delivered = true) →
      ∀ i, i ∉ C → (s.node i).rb.delivered = true) := by
  constructor
  · rintro ⟨j, m, hj, hm, ht⟩ i hi
    have hs : j ∈ senders s.wire (isType .send) := by
      refine mem_senders.mpr ⟨_, hm, ?_⟩
      rw [isType_posted (posted_of_wire hr (h.code j) hm)]
      simp [rbPost, ht]
    have he : ∀ j', j' ∉ C → (s.node j').rb.sentecho = true := fun j' hj' => h.sentecho hr hj' hj hs
    exact h.delivered hr (fun j' hj' => h.sentready hr he hj') hi
  · rintro ⟨j, hj, hd⟩ i hi
    exact h.delivered hr (fun j' hj' => h.sentready_of_delivered hr hj hd hj') hi

end

/-- Four peers; peer `3` has crashed. Peer `0` submits, the three others echo and are ready. -/
def crashRun : List (Ev plainFour) :=
  [.act 0 (.submit 5 0), .recv 0 0, .recv 1 0, .recv 2 0,
    .recv 0 1, .recv 0 2, .recv 0 3, .recv 1 1, .recv 1 2, .recv 1 3, .recv 2 1, .recv 2 2, .recv 2 3,
    .recv 0 4, .recv 0 5, .recv 0 6, .recv 1 4, .recv 1 5, .recv 1 6, .recv 2 4, .recv 2 5, .recv 2 6,
    .act 0 .checkIfReady, .act 1 .checkIfReady, .act 2 .checkIfReady]

theorem crashRun_isSome : ((peerMachine _).run (peerMachine _).start crashRun).isSome := by
  decide +kernel

theorem settled_crashRun :
    Settled _ {3} crashRun (((peerMachine _).run _ crashRun).get crashRun_isSome) where
  code := by decide +kernel
  few := by decide
  once := by decide +kernel
  all i j hi hj k w hk hw := by
    have hgot : ∀ i, i ∉ ({3} : Finset (Fin 4)) → ∀ k < 7, k ∈ got crashRun i := by decide +kernel
    have hlt : k < 7 := (List.getElem?_eq_some_iff.mp hk).1
    exact mem_got.mp (hgot i hi k hlt)
  checked := by decide +kernel

/-- The crashed peer does not keep the others from delivering. -/
theorem settled_delivered_crashRun :
    ((((peerMachine _).run _ crashRun).get crashRun_isSome).node 0).rb.delivered = true ∧
    ((((peerMachine _).run _ crashRun).get crashRun_isSome).node 1).rb.delivered = true ∧
    ((((peerMachine _).run _ crashRun).get crashRun_isSome).node 2).rb.delivered = true := by
  have h := (settled_delivered (reach_get crashRun_isSome) settled_crashRun).1
    ⟨0, _, by decide, List.mem_of_getElem? (i := 0) rfl, rfl⟩
  exact ⟨h 0 (by decide), h 1 (by decide), h 2 (by decide)⟩

end Confirmer
