import Confirmer.Tally

/-!
# How much a peer posts

* `Post.type`, `Item.is`: posts by type; `countP_length`: every post has one of five types.
* `submissions`: the `Submit` calls of a history.
* **`Ledger`**, `ledger_local`: the posts of a peer, counted by type, in terms of its calls and of
  what it has recorded.
-/

namespace Confirmer

open AsyncNet

variable {B : BLS} {S : Setup B} {i : Fin S.totalPeers} {h : Hist B} {t t' : Peer B}
  {o out : List (Item B)}

/-! ## Posts by type -/

/-- The type that a post carries. -/
def Post.type : Post B → Int32
  | .rb m => m.type
  | .submit _ m => m.type
  | .aggSign _ m => m.type

/-- Is the item a post of type `k`? -/
def Item.is (k : MessageType) : Item B → Bool
  | .post m => m.type == k.toInt32
  | .raw _ => false

theorem Item.is_post {k : MessageType} {m : Post B} :
    (Item.post m).is k = true ↔ m.type = k.toInt32 := beq_iff_eq

theorem Posted.type_eq {m : Post B} (hw : Posted S i h (.post m)) :
    ∃ k : MessageType, m.type = k.toInt32 ∧ k ≠ .none := by
  cases hw with
  | rb m k hm hk => exact ⟨k, hm, by rcases hk with rfl | rfl | rfl <;> decide⟩
  | submit v d hv => exact ⟨.submit, rfl, by decide⟩
  | aggSign m hm hp => exact ⟨.aggSign, hm, by decide⟩

theorem Posted.is_eq {w : Item B} {k : MessageType} (hw : Posted S i h w)
    (hk : k = .send ∨ k = .echo ∨ k = .ready) : w.is k = (rbPost w).any (RBMessage.is k) := by
  cases hw with
  | rb m k' hm hk' => rfl
  | submit v d hv => rcases hk with rfl | rfl | rfl <;> rfl
  | aggSign m hm hp =>
    have htype : (Post.aggSign 0 m).type = MessageType.aggSign.toInt32 := hm
    rw [Item.is, htype]
    rcases hk with rfl | rfl | rfl <;> rfl

theorem Posted.of_is_aggSign {w : Item B} (hw : Posted S i h w) (ha : w.is .aggSign = true) :
    ∃ a, w = .post (.aggSign 0 a) := by
  cases hw with
  | rb m k hm hk => exact absurd (hm.symm.trans (Item.is_post.mp ha)) (MessageType.rb_ne hk).2
  | submit v d hv => cases ha
  | aggSign m hm hp => exact ⟨m, rfl⟩

theorem countP_length (ho : ∀ w ∈ o, Posted S i h w) :
    o.length = o.countP (Item.is .send) + o.countP (Item.is .echo) + o.countP (Item.is .ready) +
      o.countP (Item.is .submit) + o.countP (Item.is .aggSign) := by
  induction o with
  | nil => rfl
  | cons w o ih =>
    have ih := ih fun w' hw' => ho w' (List.mem_cons_of_mem _ hw')
    have hw := ho w List.mem_cons_self
    have hpost : ∃ m, w = .post m := by cases hw <;> exact ⟨_, rfl⟩
    obtain ⟨m, rfl⟩ := hpost
    obtain ⟨k, hk, hne⟩ := hw.type_eq
    simp only [List.countP_cons, Item.is, hk, beq_iff_eq, MessageType.toInt32_inj, List.length_cons]
    cases k with
    | none => exact absurd rfl hne
    | send => simp; omega
    | echo => simp; omega
    | ready => simp; omega
    | submit => simp; omega
    | aggSign => simp; omega

/-! ## Submissions -/

def isSubmit : Call ⊕ Item B → Bool
  | .inl (.submit _ _) => true
  | _ => false

/-- The number of `Submit` calls. -/
def submissions (h : Hist B) : ℕ := h.countP isSubmit

theorem submissions_append (h h' : Hist B) :
    submissions (h ++ h') = submissions h + submissions h' := List.countP_append

/-! ## The invariant -/

/-- **The ledger** of a peer: one `SEND` and one submit message at most for every `Submit` call, one
aggregate signature for every entry from the quorum on. -/
structure Ledger (S : Setup B) (h : Hist B) (t : Peer B) (o : List (Item B)) : Prop where
  send : o.countP (Item.is .send) ≤ submissions h
  submit : o.countP (Item.is .submit) + t.waiting.isSome.toNat ≤ submissions h
  aggSign : o.countP (Item.is .aggSign) = t.ac.from.length + 1 - S.globals.confirmQuorum

theorem ledger_nil : Ledger S [] ((peerMachine S).init i) [] where
  send := Nat.le_refl _
  submit := Nat.le_refl _
  aggSign := by
    have := S.confirmQuorum_pos
    simp only [peerMachine, initPeer, List.countP_nil, List.length_nil]
    omega

theorem Ledger.add (hl : Ledger S h t o) (x : Call ⊕ Item B)
    (h₁ : out.countP (Item.is .send) ≤ submissions [x])
    (h₂ : out.countP (Item.is .submit) + t'.waiting.isSome.toNat ≤
      submissions [x] + t.waiting.isSome.toNat)
    (h₃ : t'.ac.from.length + 1 - S.globals.confirmQuorum =
      t.ac.from.length + 1 - S.globals.confirmQuorum + out.countP (Item.is .aggSign)) :
    Ledger S (h ++ [x]) t' (o ++ out) where
  send := by
    rw [List.countP_append, submissions_append]
    exact Nat.add_le_add hl.send h₁
  submit := by
    have hsub := hl.submit
    rw [List.countP_append, submissions_append]
    omega
  aggSign := by rw [List.countP_append, hl.aggSign, h₃]

theorem Ledger.keep (hl : Ledger S h t o) (x : Call ⊕ Item B) (h₁ : t'.waiting = t.waiting)
    (h₂ : t'.ac.from = t.ac.from)
    (hout : ∀ w ∈ out, w.is .send = false ∧ w.is .submit = false ∧ w.is .aggSign = false) :
    Ledger S (h ++ [x]) t' (o ++ out) := by
  have hz : ∀ k, (∀ w ∈ out, w.is k = false) → out.countP (Item.is k) = 0 := fun k hk =>
    List.countP_eq_zero.mpr fun w hw => by simp [hk w hw]
  refine hl.add x ?_ ?_ ?_
  · rw [hz .send fun w hw => (hout w hw).1]
    exact Nat.zero_le _
  · rw [hz .submit fun w hw => (hout w hw).2.1, h₁, Nat.zero_add]
    exact Nat.le_add_left _ _
  · rw [hz .aggSign fun w hw => (hout w hw).2.2, h₂]
    rfl

/-- What the broadcast answers is neither a `SEND` nor a message of the confirmer. -/
theorem is_dispatch {G : Globals} {p : Peer B} {m : RBMessage} {w : Item B}
    (hw : w ∈ (dispatch G p m).2.map .post) :
    w.is .send = false ∧ w.is .submit = false ∧ w.is .aggSign = false := by
  obtain ⟨w', hw', rfl⟩ := List.mem_map.mp hw
  have htype : w'.type = MessageType.echo.toInt32 ∨ w'.type = MessageType.ready.toInt32 := by
    rcases mem_dispatch hw' with ⟨-, rfl⟩ | ⟨-, rfl, -⟩ | ⟨hm, rfl, -⟩
    · exact Or.inl rfl
    · exact Or.inr rfl
    · exact Or.inr hm
  rcases htype with htype | htype <;> simp [Item.is, htype]

theorem Ledger.step {x : Call ⊕ Item B} (hl : Ledger S h t o) (hi : Outbox S i h t o)
    (hs : PeerStep S t x t' out) : Ledger S (h ++ [x]) t' (o ++ out) := by
  have hlen : ∀ m, (t.accept m).ac.from.length = t.ac.from.length + 1 := fun m => by simp [Peer.accept]
  cases hs with
  | submitDirect v d hw hb =>
    refine hl.add _ (Nat.zero_le _) ?_ rfl
    rw [hw, show (t.submitted v).waiting = none from hw]
    exact Nat.le_refl 1
  | submitGated v d hw hb =>
    refine hl.add _ (Nat.le_refl 1) ?_ rfl
    rw [hw]
    exact Nat.le_refl 1
  | leaveWaiting m hm hd =>
    obtain ⟨v, d, rfl, -⟩ := hi.waiting m hm
    refine hl.add _ (Nat.zero_le _) ?_ rfl
    rw [hm]
    exact Nat.le_refl 1
  | checkIfReady hq hd => exact hl.keep _ rfl rfl (by simp)
  | deliver w m hd =>
    obtain ⟨rb, hrb⟩ := dispatch_frame (G := S.globals) (p := t) (m := m)
    exact hl.keep _ (by rw [hrb]) (by rw [hrb]) fun w' hw' => is_dispatch hw'
  | accept w m hd ha hq =>
    refine hl.add _ (Nat.zero_le _) (by simp [Peer.accept]) ?_
    rw [hlen, List.countP_nil]
    omega
  | confirm w m hd ha hq =>
    have hone : [Item.post (.aggSign 0 (t.accept m).certificate)].countP (Item.is .aggSign) = 1 := rfl
    refine hl.add _ (Nat.zero_le _) (Nat.le_refl (0 + t.waiting.isSome.toNat)) ?_
    rw [show (t.accept m).confirmed.ac.from.length = t.ac.from.length + 1 from hlen m, hone]
    omega
  | reject w m hd ha => exact hl.keep _ rfl rfl (by simp)
  | obtain w m hd =>
    rw [checkRecvAggSignature_eq]
    exact hl.keep _ rfl rfl (by simp)
  | ignore w hd => exact hl.keep _ rfl rfl (by simp)

theorem ledger_local (hl : (peerMachine S).Local ((peerMachine S).init i) h t o) :
    Ledger S h t o := by
  induction hl with
  | nil => exact ledger_nil
  | snoc hl hs ih => exact ih.step (outbox_local hl) (peerStep hs)

end Confirmer
