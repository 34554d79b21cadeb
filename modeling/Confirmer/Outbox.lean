import Confirmer.Step

/-!
# What a peer posts

* `Setup.submission`, `Setup.announcement`: the submit message of a peer for a value, and the
  `SEND` in front of it.
* **`Posted`**: the form of everything that a peer posts; **`Outbox`**, `outbox_local`: the
  invariant of a peer's run that gives it.
* `Posted.of_decode_submit`, `Posted.of_decode_aggSign`, `Posted.decode_aggSign`: what a peer posts
  is read as what it is.
* `Honest`: the peers of a run that write nothing but what the code posts.
-/

namespace Confirmer

open Text AsyncNet

variable {B : BLS} {S : Setup B} {i : Fin S.totalPeers}

/-- The submit message of peer `i` for `value`. -/
def Setup.submission (S : Setup B) (i : Fin S.totalPeers) (value : Int32) : SubmitMsg B :=
  ⟨MessageType.submit, S.pid i, value, B.blsSign (S.sec i) (decInt value.toInt), S.pub i⟩

/-- The `SEND` that announces the submit message of peer `i` for `value`. -/
def Setup.announcement (S : Setup B) (i : Fin S.totalPeers) (value dest : Int32) : RBMessage :=
  ⟨MessageType.send, S.pid i, serializeSubmit dest (S.submission i value)⟩

/-- The form of an item that peer `i` posts after the history `h`. -/
inductive Posted (S : Setup B) (i : Fin S.totalPeers) (h : Hist B) : Item B → Prop
  | rb (m : RBMessage) (t : MessageType) : m.type = t.toInt32 →
      t = .send ∨ t = .echo ∨ t = .ready → Posted S i h (.post (.rb m))
  | submit (v d : Int32) : Sum.inl (.submit v d) ∈ h →
      Posted S i h (.post (.submit d (S.submission i v)))
  | aggSign (m : SubmitAggSign B) : m.type = MessageType.aggSign → m.pid = S.pid i →
      Posted S i h (.post (.aggSign 0 m))

theorem Posted.mono {h h' : Hist B} {w : Item B} (hw : Posted S i h w) (hh : h ⊆ h') :
    Posted S i h' w := by
  cases hw with
  | rb m t hm ht => exact .rb m t hm ht
  | submit v d hv => exact .submit v d (hh hv)
  | aggSign m hm hp => exact .aggSign m hm hp

/-- **The outbox** of peer `i`: who it is, and what it has posted or is waiting to post. -/
structure Outbox (S : Setup B) (i : Fin S.totalPeers) (h : Hist B) (t : Peer B)
    (o : List (Item B)) : Prop where
  id : t.id = S.pid i
  keyPair : t.keyPair = keyGen (S.sec i)
  flag : t.isReliableBroadcast = S.isReliableBroadcast
  waiting : ∀ m, t.waiting = some m → ∃ v d, m = .submit d (S.submission i v) ∧
    Sum.inl (.submit v d) ∈ h ∧ Item.post (.rb (S.announcement i v d)) ∈ o
  posted : ∀ w ∈ o, Posted S i h w

theorem Outbox.submission {h : Hist B} {t : Peer B} {o : List (Item B)} (hi : Outbox S i h t o)
    (v : Int32) : t.submission v = S.submission i v := by
  rw [Peer.submission, hi.id, hi.keyPair]
  rfl

theorem Outbox.announcement {h : Hist B} {t : Peer B} {o : List (Item B)} (hi : Outbox S i h t o)
    (v d : Int32) : t.announcement v d = S.announcement i v d := by
  rw [Peer.announcement, hi.submission, hi.id]
  rfl

theorem Outbox.keep {h h' : Hist B} {t t' : Peer B} {o out : List (Item B)}
    (hi : Outbox S i h t o) (hh : h ⊆ h') (h₁ : t'.id = t.id) (h₂ : t'.keyPair = t.keyPair)
    (h₃ : t'.isReliableBroadcast = t.isReliableBroadcast) (h₄ : t'.waiting = t.waiting)
    (hout : ∀ w ∈ out, Posted S i h' w) : Outbox S i h' t' (o ++ out) where
  id := h₁.trans hi.id
  keyPair := h₂.trans hi.keyPair
  flag := h₃.trans hi.flag
  waiting m hm := by
    obtain ⟨v, d, rfl, hv, ho⟩ := hi.waiting m (h₄ ▸ hm)
    exact ⟨v, d, rfl, hh hv, List.mem_append_left _ ho⟩
  posted w hw := by
    rcases List.mem_append.mp hw with hw | hw
    · exact (hi.posted w hw).mono hh
    · exact hout w hw

theorem posted_dispatch {h : Hist B} {t : Peer B} {m : RBMessage} {w : Item B}
    (hw : w ∈ (dispatch S.globals t m).2.map .post) : Posted S i h w := by
  obtain ⟨w', hw', rfl⟩ := List.mem_map.mp hw
  rcases mem_dispatch hw' with ⟨-, rfl⟩ | ⟨-, rfl, -⟩ | ⟨hm, rfl, -⟩
  · exact .rb _ .echo rfl (by simp)
  · exact .rb _ .ready rfl (by simp)
  · exact .rb _ .ready hm (by simp)

theorem Outbox.step {h : Hist B} {t t' : Peer B} {o out : List (Item B)} {x : Call ⊕ Item B}
    (hi : Outbox S i h t o) (hs : PeerStep S t x t' out) :
    Outbox S i (h ++ [x]) t' (o ++ out) := by
  have hh : h ⊆ h ++ [x] := List.subset_append_left _ _
  cases hs with
  | submitDirect v d hw hb =>
    refine hi.keep hh rfl rfl rfl rfl fun w hw => ?_
    rw [List.mem_singleton.mp hw, hi.submission]
    exact .submit v d (by simp)
  | submitGated v d hw hb =>
    have hp : ∀ w ∈ [Item.post (.rb (t.announcement v d))],
        Posted S i (h ++ [.inl (.submit v d)]) w := by
      intro w hw
      rw [List.mem_singleton.mp hw]
      exact .rb _ .send rfl (by simp)
    have hk : Outbox S i _ (t.submitted v) _ := hi.keep hh rfl rfl rfl rfl hp
    refine { hk with waiting := fun m hm => ⟨v, d, ?_, by simp, by simp [hi.announcement]⟩ }
    rw [← hi.submission]
    exact (Option.some.inj hm).symm
  | leaveWaiting m hm hd =>
    have hp : ∀ w ∈ [Item.post m], Posted S i (h ++ [.inl .leaveWaiting]) w := by
      intro w hw
      obtain ⟨v, d, rfl, hv, -⟩ := hi.waiting m hm
      rw [List.mem_singleton.mp hw]
      exact .submit v d (hh hv)
    have hk : Outbox S i _ t _ := hi.keep hh rfl rfl rfl rfl hp
    exact { hk with waiting := fun m hm => by cases hm }
  | checkIfReady hq hd => exact hi.keep hh rfl rfl rfl rfl (by simp)
  | deliver w m hd =>
    obtain ⟨rb, hrb⟩ := dispatch_frame (G := S.globals) (p := t) (m := m)
    exact hi.keep hh (by rw [hrb]) (by rw [hrb]) (by rw [hrb]) (by rw [hrb])
      fun w hw => posted_dispatch hw
  | accept w m hd ha hq => exact hi.keep hh rfl rfl rfl rfl (by simp)
  | confirm w m hd ha hq =>
    refine hi.keep hh rfl rfl rfl rfl fun w hw => ?_
    rw [List.mem_singleton.mp hw]
    exact .aggSign _ rfl hi.id
  | reject w m hd ha => exact hi.keep hh rfl rfl rfl rfl (by simp)
  | obtain w m hd =>
    rw [checkRecvAggSignature_eq]
    exact hi.keep hh rfl rfl rfl rfl (by simp)
  | ignore w hd => exact hi.keep hh rfl rfl rfl rfl (by simp)

theorem outbox_local {h : Hist B} {t : Peer B} {o : List (Item B)}
    (hl : (peerMachine S).Local ((peerMachine S).init i) h t o) : Outbox S i h t o := by
  induction hl with
  | nil => exact ⟨rfl, rfl, rfl, fun m hm => (by cases hm), by simp⟩
  | snoc hl hs ih => exact ih.step (peerStep hs)

/-! ## Reading what was posted -/

theorem MessageType.rb_ne {t : MessageType} (ht : t = .send ∨ t = .echo ∨ t = .ready) :
    t.toInt32 ≠ MessageType.submit ∧ t.toInt32 ≠ MessageType.aggSign := by
  rcases ht with rfl | rfl | rfl <;> decide

/-- **A submit message of the code names its sender and a value that it has submitted.** -/
theorem Posted.of_decode_submit {h : Hist B} {w : Item B} {id : Int32} {m : SubmitMsg B}
    (hw : Posted S i h w) (hd : decode B id w.bytes = .ok (.submit m)) :
    m.pid = S.pid i ∧ ∃ d, w = .post (.submit d (S.submission i m.value)) ∧
      Sum.inl (.submit m.value d) ∈ h := by
  cases hw with
  | rb m' t hm ht =>
    rw [Item.bytes, Post.bytes, decode_serializeRB _ id (hm ▸ MessageType.rb_ne ht)] at hd
    cases hd
  | submit v d hv =>
    rcases decode_serializeSubmit rfl hd with h | ⟨m', h, hp, hval⟩
    · cases h
    · cases h
      rw [hval]
      exact ⟨hp, d, rfl, hv⟩
  | aggSign m' hm hp =>
    rcases decode_serializeAggSign hm hd with h | ⟨a, h, -⟩ <;> cases h

/-- An aggregate signature of the code arrives with its value. -/
theorem Posted.of_decode_aggSign {h : Hist B} {w : Item B} {id : Int32} {a : SubmitAggSign B}
    (hw : Posted S i h w) (hd : decode B id w.bytes = .ok (.aggSign a)) :
    ∃ m, w = .post (.aggSign 0 m) ∧ a.value = m.value := by
  cases hw with
  | rb m' t hm ht =>
    rw [Item.bytes, Post.bytes, decode_serializeRB _ id (hm ▸ MessageType.rb_ne ht)] at hd
    cases hd
  | submit v d hv =>
    rcases decode_serializeSubmit rfl hd with h | ⟨m', h, -⟩ <;> cases h
  | aggSign m' hm hp =>
    rcases decode_serializeAggSign hm hd with h | ⟨a', h, -, hval⟩
    · cases h
    · cases h
      exact ⟨m', rfl, hval⟩

theorem Posted.decode_aggSign {h : Hist B} {d id : Int32} {m : SubmitAggSign B} {inc : Incoming B}
    (hw : Posted S i h (.post (.aggSign d m)))
    (hd : decode B id (Item.post (.aggSign d m)).bytes = .ok inc) :
    ∃ a, inc = .aggSign a ∧ a.value = m.value := by
  cases hw with
  | aggSign m hm hp =>
    rcases decode_serializeAggSign hm hd with rfl | ⟨a, rfl, -, hval⟩
    · exact absurd hd (decode_serializeAggSign_ne_ignored hm (Or.inl rfl))
    · exact ⟨a, rfl, hval⟩

/-! ## The peers of a run -/

/-- Peer `i` runs the code and nothing else. -/
def Honest (es : List (Ev S)) (i : Fin S.totalPeers) : Prop := ∀ w, Event.inject i w ∉ es

theorem honest_iff {es : List (Ev S)} : Honest es i ↔ ∀ e ∈ es, e.author ≠ some i := by
  simp only [Honest, ne_eq, Event.author_eq_some, not_exists]
  exact ⟨fun h e he w hw => h w (hw ▸ he), fun h w hw => h _ hw w rfl⟩

instance (es : List (Ev S)) (i : Fin S.totalPeers) : Decidable (Honest es i) :=
  decidable_of_iff _ honest_iff.symm

theorem Honest.before {es : List (Ev S)} {e : Ev S} (h : Honest (es ++ [e]) i) : Honest es i :=
  fun w hw => h w (List.mem_append_left _ hw)

section

variable {es : List (Ev S)} {s : St S} {j : Fin S.totalPeers}

theorem node_outbox (hr : (peerMachine S).Reach es s) (hi : Honest es i) :
    Outbox S i (hist es s i) (s.node i) (s.sent i) :=
  outbox_local (hr.hist_local hi)

theorem posted_of_wire (hr : (peerMachine S).Reach es s) (hj : Honest es j) {w : Item B}
    (hw : (j, w) ∈ s.wire) : Posted S j (hist es s j) w :=
  (node_outbox hr hj).posted w (mem_sent.mpr hw)

/-- **What a peer that runs the code puts on the wire is the outcome of one of its steps.** -/
theorem exists_peerStep {s' : St S} {e : Ev S} (hs : (peerMachine S).step s e = some s')
    (hi : Honest (es ++ [e]) i) {k : ℕ} {w : Item B} (hk : s'.wire[k]? = some (i, w))
    (hlt : s.wire.length ≤ k) : ∃ x out, PeerStep S (s.node i) x (s'.node i) out ∧ w ∈ out ∧
      ∀ w', x = .inr w' → ∃ j, (j, w') ∈ s.wire := by
  rcases post_of_step hs hk hlt with rfl | ⟨x, out, hx, hout, hfrom⟩
  · exact absurd (List.mem_append_right es (List.mem_singleton_self _)) (hi w)
  · exact ⟨x, out, peerStep hx, hout, hfrom⟩

end

end Confirmer
