import Confirmer.Broadcast.Origin

/-!
# The gate in front of a submission

`BroadcastSubmitMessage` waits for one flag of the peer, which no later call resets.

* `submitPost_of_step`: a gated submission leaves when the flag is set, and was announced.
* **`gate_open`**: then more than `2 * faulty` `READY`s are recorded, each of them for a peer that has
  broadcast a `SEND`.
* **`gate_foreign`**: none of them need be for the submission that leaves.
-/

namespace Confirmer

open Text AsyncNet

variable {B : BLS} {S : Setup B}

/-- **A gated submission was announced, and leaves when the flag is set.** -/
theorem submitPost_of_step {i : Fin S.totalPeers} {h : Hist B} {t t' : Peer B}
    {o out : List (Item B)} {x : Call ⊕ Item B} {d : Int32} {m : SubmitMsg B}
    (hi : Outbox S i h t o) (hb : S.isReliableBroadcast ≠ 0) (hs : PeerStep S t x t' out)
    (hm : Item.post (.submit d m) ∈ out) :
    t.rb.delivered = true ∧
      Item.post (.rb ⟨MessageType.send, S.pid i, serializeSubmit d m⟩) ∈ o := by
  cases hs with
  | submitDirect v d' hw hf => exact absurd (hi.flag.symm.trans hf) hb
  | submitGated v d' hw hf => simp at hm
  | leaveWaiting m' hw hd =>
    obtain ⟨v, d', rfl, -, ho⟩ := hi.waiting m' hw
    simp only [List.mem_singleton, Item.post.injEq, Post.submit.injEq] at hm
    obtain ⟨rfl, rfl⟩ := hm
    exact ⟨hd, ho⟩
  | checkIfReady hq hd => cases hm
  | deliver w m' hd =>
    obtain ⟨m'', heq⟩ := rb_of_mem_dispatch hm
    cases heq
  | accept w m' hd ha hq => cases hm
  | confirm w m' hd ha hq => simp at hm
  | reject w m' hd ha => cases hm
  | obtain w m' hd => cases hm
  | ignore w hd => cases hm

section

variable {es : List (Ev S)} {s s' : St S} {e : Ev S} {i : Fin S.totalPeers}

theorem readys_origin (hr : (peerMachine S).Reach es s) (hc : ∀ i, Honest es i) {r : RBMessage}
    (h : r ∈ (s.node i).rb.readys) : r.type = MessageType.ready.toInt32 ∧ Stems S s r := by
  rw [(node_tally hr (hc i)).readys, List.mem_filter, RBMessage.is_iff] at h
  obtain ⟨hmem, ht⟩ := h
  refine ⟨ht, ?_⟩
  rw [rbMsgs, filterMap_hist, List.mem_filterMap] at hmem
  obtain ⟨w, hw, hrb⟩ := hmem
  obtain ⟨⟨j, w'⟩, hj, rfl⟩ := List.mem_map.mp hw
  have hwire := recvd_subset_wire es s i hj
  have hpost := post_of_received hr hc hwire hrb (by simp [ht])
  rw [hpost] at hwire
  exact rb_origin hr hc hwire

/-- **The gate.** When a peer posts a submit message, it has recorded more than `2 * faulty` `READY`s,
each with the pid of a peer that has broadcast a `SEND`; its own `SEND` for this very message is
among those broadcast. -/
theorem gate_open (hr : (peerMachine S).Reach es s) (hs : (peerMachine S).step s e = some s')
    (hc : ∀ i, Honest (es ++ [e]) i) (hb : S.isReliableBroadcast ≠ 0) {k : ℕ} {d : Int32}
    {m : SubmitMsg B} (hk : s'.wire[k]? = some (i, .post (.submit d m))) (hlt : s.wire.length ≤ k) :
    2 * S.faulty < (s.node i).rb.readys.length ∧
    (∀ r ∈ (s.node i).rb.readys, r.type = MessageType.ready ∧
      ∃ j m', (j, Item.post (.rb m')) ∈ s.wire ∧ m'.type = MessageType.send ∧
        m'.pid = S.pid j ∧ r.pid = S.pid j) ∧
    (i, Item.post (.rb ⟨MessageType.send, S.pid i, serializeSubmit d m⟩)) ∈ s.wire := by
  have hc' : ∀ i, Honest es i := fun i => (hc i).before
  obtain ⟨x, out, hx, hout, -⟩ := exists_peerStep hs (hc i) hk hlt
  obtain ⟨hd, hann⟩ := submitPost_of_step (node_outbox hr (hc' i)) hb hx hout
  refine ⟨readys_of_delivered hr (hc' i) hd, ?_, mem_sent.mp hann⟩
  intro r hrm
  obtain ⟨ht, j, v, d', hj, hp, -⟩ := readys_origin hr hc' hrm
  exact ⟨ht, j, _, hj, rfl, rfl, hp⟩

end

/-- Peer `0` submits; its broadcast opens the gate of peer `1`, which submits something else. -/
def gateRun : List (Ev plainTwo) :=
  [.act 0 (.submit 5 0), .recv 0 0, .recv 0 1, .recv 1 2, .act 1 .checkIfReady,
    .act 1 (.submit 6 0)]

theorem gateRun_isSome : ((peerMachine _).run (peerMachine _).start gateRun).isSome := by
  decide +kernel

theorem gateRun_leave_isSome : ((peerMachine _).step (((peerMachine _).run _ gateRun).get
    gateRun_isSome) (.act 1 .leaveWaiting)).isSome := by
  decide +kernel

theorem gate_open_gateRun :
    2 * plainTwo.faulty < ((((peerMachine _).run _ gateRun).get gateRun_isSome).node 1).rb.readys.length :=
  (gate_open (k := 5) (reach_get gateRun_isSome) (Option.some_get gateRun_leave_isSome).symm
    (by decide +kernel) (by decide) rfl (by decide +kernel)).1

/-- **A gate opened by others.** Peer `1` posts its submission, and no `READY` that it has recorded
carries its pid. -/
theorem gate_foreign : ∃ s s', (peerMachine _).Reach gateRun s ∧
    (peerMachine _).step s (.act 1 .leaveWaiting) = some s' ∧
    (∀ i, Honest (gateRun ++ [.act 1 .leaveWaiting]) i) ∧ plainTwo.isReliableBroadcast ≠ 0 ∧
    s'.wire[5]? = some (1, .post (.submit 0 (plainTwo.submission 1 6))) ∧ s.wire.length = 5 ∧
    (s.node 1).rb.readys.countP (fun r => decide (r.pid = plainTwo.pid 1)) = 0 :=
  ⟨_, _, reach_get gateRun_isSome, (Option.some_get gateRun_leave_isSome).symm,
    by decide +kernel, by decide, rfl, by decide +kernel, by decide +kernel⟩

end Confirmer
