import Confirmer.Broadcast.Count

/-!
# Where a broadcast message comes from

* `rbPost_of_step`: a peer posts a reliable-broadcast message when it submits, or as the answer to
  one that it has received.
* **`rb_origin`**: in a run of the code every reliable-broadcast message carries the pid of a peer
  that has broadcast a `SEND`, and the content of that `SEND` up to its first delimiter.
-/

namespace Confirmer

open Text AsyncNet

variable {B : BLS} {S : Setup B}

/-- **Why a peer posts a reliable-broadcast message.** -/
theorem rbPost_of_step {i : Fin S.totalPeers} {h : Hist B} {t t' : Peer B} {o out : List (Item B)}
    {x : Call ⊕ Item B} {m : RBMessage} (hi : Outbox S i h t o) (hs : PeerStep S t x t' out)
    (hm : Item.post (.rb m) ∈ out) :
    (∃ v d, m = S.announcement i v d) ∨
    ∃ w m', x = .inr w ∧ rbOf w.bytes = some m' ∧ t' = (dispatch S.globals t m').1 ∧
      Post.rb m ∈ (dispatch S.globals t m').2 := by
  cases hs with
  | submitDirect v d hw hb => simp at hm
  | submitGated v d hw hb =>
    refine Or.inl ⟨v, d, ?_⟩
    rw [List.mem_singleton, Item.post.injEq, Post.rb.injEq] at hm
    rw [hm, hi.announcement]
  | leaveWaiting m' hm' hd =>
    obtain ⟨v, d, rfl, -⟩ := hi.waiting m' hm'
    simp at hm
  | checkIfReady hq hd => cases hm
  | deliver w m' hd =>
    obtain ⟨w', hw', heq⟩ := List.mem_map.mp hm
    cases heq
    exact Or.inr ⟨w, m', rfl, decode_rb_iff.mp hd, rfl, hw'⟩
  | accept w m' hd ha hq => cases hm
  | confirm w m' hd ha hq => simp at hm
  | reject w m' hd ha => cases hm
  | obtain w m' hd => cases hm
  | ignore w hd => cases hm

theorem answer_of_dispatch {G : Globals} {p : Peer B} {m m' : RBMessage}
    (h : Post.rb m ∈ (dispatch G p m').2) :
    m.pid = m'.pid ∧ m.content = m'.content ∧ m.type ≠ MessageType.send.toInt32 := by
  rcases mem_dispatch h with ⟨-, hm⟩ | ⟨-, hm, -⟩ | ⟨ht, hm, -⟩
  · cases hm
    exact ⟨rfl, rfl, by simp⟩
  · cases hm
    exact ⟨rfl, rfl, by simp⟩
  · cases hm
    exact ⟨rfl, rfl, by simp [ht]⟩

/-- The message `m` stems from a `SEND` on the wire. -/
def Stems (S : Setup B) (s : St S) (m : RBMessage) : Prop :=
  ∃ j v d, (j, Item.post (.rb (S.announcement j v d))) ∈ s.wire ∧ m.pid = S.pid j ∧
    (m = S.announcement j v d ∨
      m.type ≠ MessageType.send.toInt32 ∧ m.content = cut (S.announcement j v d).content)

theorem Stems.mono {s s' : St S} {m : RBMessage} (h : Stems S s m) (hw : s.wire <+: s'.wire) :
    Stems S s' m := by
  obtain ⟨j, v, d, hj, hp, hc⟩ := h
  exact ⟨j, v, d, hw.subset hj, hp, hc⟩

section

variable {es : List (Ev S)} {s : St S} {i : Fin S.totalPeers}

/-- **Every message of the broadcast stems from a `SEND`.** -/
theorem rb_origin (hr : (peerMachine S).Reach es s) (hc : ∀ i, Honest es i) {m : RBMessage}
    (hm : (i, Item.post (.rb m)) ∈ s.wire) : Stems S s m := by
  induction hr generalizing i m with
  | start => cases hm
  | @snoc es s e s' hr hs ih =>
    have hc' : ∀ i, Honest es i := fun i => (hc i).before
    have hpre := wire_prefix_of_step hs
    obtain ⟨k, hk⟩ := List.mem_iff_getElem?.mp hm
    by_cases hlt : s.wire.length ≤ k
    · obtain ⟨x, out, hx, hout, hwire⟩ := exists_peerStep hs (hc i) hk hlt
      rcases rbPost_of_step (node_outbox hr (hc' i)) hx hout with
        ⟨v, d, rfl⟩ | ⟨w, m', rfl, hw, -, hpost⟩
      · exact ⟨i, v, d, hm, rfl, Or.inl rfl⟩
      · obtain ⟨j, hj⟩ := hwire w rfl
        obtain ⟨hp, hcont, htype⟩ := answer_of_dispatch hpost
        -- the item received is itself the post of a peer, with its content cut on the way
        rw [rbOf_posted (posted_of_wire hr (hc' j) hj), Option.map_eq_some_iff] at hw
        obtain ⟨m₀, hm₀, rfl⟩ := hw
        rw [rbPost_eq_some.mp hm₀] at hj
        obtain ⟨j', v, d, hj', hp', hc₀⟩ := ih hc' hj
        refine ⟨j', v, d, hpre.subset hj', hp.trans hp', Or.inr ⟨htype, hcont.trans ?_⟩⟩
        rcases hc₀ with hc₀ | ⟨-, hc₀⟩
        · simp only [hc₀]
        · simp only [hc₀]
          exact cut_of_clean (clean_cut _)
    · rw [not_le] at hlt
      obtain ⟨l, hl⟩ := hpre
      rw [← hl, List.getElem?_append_left hlt] at hk
      exact (ih hc' (List.mem_of_getElem? hk)).mono ⟨l, hl⟩

/-- An answer goes over the wire unchanged. -/
theorem post_of_received (hr : (peerMachine S).Reach es s) (hc : ∀ i, Honest es i) {w : Item B}
    {m : RBMessage} (hw : (i, w) ∈ s.wire) (hm : rbOf w.bytes = some m)
    (ht : m.type ≠ MessageType.send.toInt32) : w = .post (.rb m) := by
  rw [rbOf_posted (posted_of_wire hr (hc i) hw), Option.map_eq_some_iff] at hm
  obtain ⟨m₀, hm₀, rfl⟩ := hm
  have hw₀ := rbPost_eq_some.mp hm₀
  rw [hw₀] at hw
  obtain ⟨j', v, d, -, -, rfl | ⟨-, hcont⟩⟩ := rb_origin hr hc hw
  · exact absurd rfl ht
  · rw [hw₀, hcont, cut_of_clean (clean_cut _), ← hcont]

end

end Confirmer
