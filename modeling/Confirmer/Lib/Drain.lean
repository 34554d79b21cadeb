import Confirmer.Lib.Net

/-!
# Draining a network

* `Event.isRecv`, `Delivers`: continuations by deliveries; `Drained`: nothing more can be delivered.
* `got_length_le`, `countP_isRecv`, `countP_isRecv_le`: under at-most-once delivery there are no more
  deliveries than items and nodes.
* `Proceeds`, `Halted`: continuations in which some nodes also take some actions of their own;
  `countP_isAct`: the actions, counted node by node.
* **`exists_halted`**: when no continuation is longer than some bound, one comes to a halt;
  **`exists_drained`**: a wire that stays bounded under deliveries is drained by some of them.
-/

namespace AsyncNet

variable {ι σ α ω : Type} [DecidableEq ι] {M : Machine ι σ α ω} {es : List (Event ι α ω)}
  {s : Net ι σ ω}

def Event.isRecv : Event ι α ω → Bool
  | .recv _ _ => true
  | _ => false

/-- The run `es` goes on with the deliveries `es'`, no node receives an item twice, and the state is
`s'` in the end. -/
structure Machine.Delivers (M : Machine ι σ α ω) (es es' : List (Event ι α ω)) (s' : Net ι σ ω) :
    Prop where
  isRecv : ∀ e ∈ es', e.isRecv = true
  reach : M.Reach (es ++ es') s'
  once : ∀ i, (got (es ++ es') i).Nodup

/-- **Every item on the wire has been delivered to every node**, as far as the node can take it. -/
def Machine.Drained (M : Machine ι σ α ω) (es : List (Event ι α ω)) (s : Net ι σ ω) : Prop :=
  ∀ i, ∀ k < s.wire.length, Event.recv i k ∈ es ∨ M.step s (.recv i k) = none

theorem got_length_le (hr : M.Reach es s) {i : ι} (hi : (got es i).Nodup) :
    (got es i).length ≤ s.wire.length := by
  have hsub : got es i ⊆ List.range s.wire.length := fun k hk =>
    List.mem_range.mpr (hr.lt_wire (mem_got.mp hk))
  have hle := (List.subperm_of_subset hi hsub).length_le
  rwa [List.length_range] at hle

theorem got_recv_self (es : List (Event ι α ω)) (i : ι) (k : ℕ) :
    got (es ++ [.recv i k]) i = got es i ++ [k] := by
  rw [got, List.filterMap_append]
  simp [got]

theorem got_recv_ne (es : List (Event ι α ω)) {i j : ι} (h : i ≠ j) (k : ℕ) :
    got (es ++ [.recv i k]) j = got es j := by
  rw [got, List.filterMap_append]
  simp [got, h]

variable [Fintype ι]

theorem sum_got_recv (es : List (Event ι α ω)) (i : ι) (k : ℕ) :
    ∑ j, (got (es ++ [.recv i k]) j).length = ∑ j, (got es j).length + 1 := by
  have hone : ∀ j, (got (es ++ [.recv i k]) j).length = (got es j).length + if i = j then 1 else 0 := by
    intro j
    split_ifs with h
    · subst h
      rw [got_recv_self, List.length_append, List.length_singleton]
    · rw [got_recv_ne es h, Nat.add_zero]
  simp only [hone, Finset.sum_add_distrib, Finset.sum_ite_eq, Finset.mem_univ, if_true]

/-- The deliveries, counted node by node. -/
theorem countP_isRecv (es : List (Event ι α ω)) :
    es.countP Event.isRecv = ∑ i, (got es i).length := by
  induction es using List.reverseRecOn with
  | nil => simp [got]
  | append_singleton es e ih =>
    rw [List.countP_append, ih]
    cases e with
    | recv i k => rw [sum_got_recv]; rfl
    | act i a => simp [got, Event.isRecv]
    | inject i w => simp [got, Event.isRecv]

/-- **At-most-once deliveries are bounded by the wire.** -/
theorem countP_isRecv_le (hr : M.Reach es s) (hi : ∀ i, (got es i).Nodup) {N : ℕ}
    (hN : s.wire.length ≤ N) : es.countP Event.isRecv ≤ Fintype.card ι * N := by
  rw [countP_isRecv]
  refine (Finset.sum_le_sum fun i _ => (got_length_le hr (hi i)).trans hN).trans (le_of_eq ?_)
  exact Finset.sum_const_nat fun _ _ => rfl

theorem Machine.Delivers.length_le {es' : List (Event ι α ω)} {s' : Net ι σ ω}
    (h : M.Delivers es es' s') {N : ℕ} (hN : s'.wire.length ≤ N) :
    es'.length ≤ Fintype.card ι * N := by
  have hle := countP_isRecv_le h.reach h.once hN
  rw [List.countP_append, List.countP_eq_length.mpr h.isRecv] at hle
  omega

/-! ## Nodes that go on by themselves -/

def Event.isAct (I : α → Bool) : Event ι α ω → Bool
  | .act _ a => I a
  | _ => false

/-- A node in `L` receives, or takes an action in `I`. -/
inductive Event.Internal (L : ι → Prop) (I : α → Bool) : Event ι α ω → Prop
  | recv {i : ι} (k : ℕ) : L i → Internal L I (.recv i k)
  | act {i : ι} {a : α} : L i → I a = true → Internal L I (.act i a)

/-- The nodes in `L` go on from the run `es` with the events `es'`, no node receives an item twice, and the
state is `s'` in the end. -/
structure Machine.Proceeds (M : Machine ι σ α ω) (L : ι → Prop) (I : α → Bool)
    (es es' : List (Event ι α ω)) (s' : Net ι σ ω) : Prop where
  internal : ∀ e ∈ es', e.Internal L I
  reach : M.Reach (es ++ es') s'
  once : ∀ i, (got (es ++ es') i).Nodup

/-- **The nodes in `L` have come to a halt**: each has received what those in `L` have sent, as far as it can
take it, and has no action in `I` left. -/
structure Machine.Halted (M : Machine ι σ α ω) (L : ι → Prop) (I : α → Bool)
    (es : List (Event ι α ω)) (s : Net ι σ ω) : Prop where
  drained : ∀ i k x, L i → L x.1 → s.wire[k]? = some x →
    Event.recv i k ∈ es ∨ M.step s (.recv i k) = none
  idle : ∀ i a, L i → I a = true → M.act (s.node i) a = none

section

variable {L : ι → Prop} {I : α → Bool} {es' : List (Event ι α ω)} {s' : Net ι σ ω}

omit [Fintype ι] in
theorem Machine.Proceeds.nil (hr : M.Reach es s) (hi : ∀ i, (got es i).Nodup) :
    M.Proceeds L I es [] s where
  internal _ he := absurd he List.not_mem_nil
  reach := (List.append_nil es).symm ▸ hr
  once := (List.append_nil es).symm ▸ hi

omit [Fintype ι] in
theorem Machine.Proceeds.recv (h : M.Proceeds L I es es' s') {i : ι} {k : ℕ} (hi : L i)
    (hk : Event.recv i k ∉ es ++ es') {s₁ : Net ι σ ω} (hs : M.step s' (.recv i k) = some s₁) :
    M.Proceeds L I es (es' ++ [.recv i k]) s₁ where
  internal e he := by
    rcases List.mem_append.mp he with he | he
    · exact h.internal e he
    · rw [List.mem_singleton.mp he]
      exact .recv k hi
  reach := by
    rw [← List.append_assoc]
    exact h.reach.snoc hs
  once j := by
    rw [← List.append_assoc]
    by_cases hj : i = j
    · subst hj
      rw [got_recv_self]
      exact (h.once i).append (List.nodup_singleton k) (by simpa [mem_got] using hk)
    · rw [got_recv_ne _ hj]
      exact h.once j

omit [Fintype ι] in
theorem Machine.Proceeds.act (h : M.Proceeds L I es es' s') {i : ι} {a : α} (hi : L i)
    (ha : I a = true) {s₁ : Net ι σ ω} (hs : M.step s' (.act i a) = some s₁) :
    M.Proceeds L I es (es' ++ [.act i a]) s₁ where
  internal e he := by
    rcases List.mem_append.mp he with he | he
    · exact h.internal e he
    · rw [List.mem_singleton.mp he]
      exact .act hi ha
  reach := by
    rw [← List.append_assoc]
    exact h.reach.snoc hs
  once j := by
    have hgot : got (es ++ es' ++ [.act i a]) j = got (es ++ es') j := by
      rw [got, List.filterMap_append]
      exact List.append_nil _
    rw [← List.append_assoc, hgot]
    exact h.once j

omit [Fintype ι] [DecidableEq ι] in
/-- Lists of bounded length with a property cannot all be extended. -/
theorem exists_maximal {β : Type} {P : List β → Prop} {N : ℕ} (h : P []) (hN : ∀ l, P l → l.length ≤ N) :
    ∃ l, P l ∧ ∀ x, ¬ P (l ++ [x]) := by
  by_contra! hext
  have hlong : ∀ n, ∃ l, P l ∧ l.length = n := by
    intro n
    induction n with
    | zero => exact ⟨[], h, rfl⟩
    | succ n ih =>
      obtain ⟨l, hl, rfl⟩ := ih
      obtain ⟨x, hx⟩ := hext l hl
      exact ⟨l ++ [x], hx, List.length_append⟩
  obtain ⟨l, hl, hlen⟩ := hlong (N + 1)
  have hle := hN l hl
  omega

omit [Fintype ι] in
/-- **A network that can go on only so long comes to a halt.** -/
theorem exists_halted {N : ℕ} (hr : M.Reach es s) (hi : ∀ i, (got es i).Nodup)
    (hN : ∀ es' s', M.Proceeds L I es es' s' → es'.length ≤ N) :
    ∃ es' s', M.Proceeds L I es es' s' ∧ M.Halted L I (es ++ es') s' := by
  obtain ⟨es', ⟨s', h⟩, hmax⟩ := exists_maximal (P := fun es' => ∃ s', M.Proceeds L I es es' s')
    ⟨s, .nil hr hi⟩ fun es' ⟨s', h⟩ => hN es' s' h
  refine ⟨es', s', h, ⟨?_, ?_⟩⟩
  · intro i k x hi hx hk
    by_contra hn
    rw [not_or] at hn
    obtain ⟨s₁, hs⟩ := Option.ne_none_iff_exists'.mp hn.2
    exact hmax _ ⟨s₁, h.recv hi hn.1 hs⟩
  · intro i a hi ha
    by_contra hn
    obtain ⟨r, hact⟩ := Option.ne_none_iff_exists'.mp hn
    have hs : M.step s' (.act i a) = some (s'.after i r) := by
      show (M.act (s'.node i) a).map (s'.after i) = _
      rw [hact]
      rfl
    exact hmax _ ⟨_, h.act hi ha hs⟩

theorem countP_isAct (I : α → Bool) (es : List (Event ι α ω)) (s : Net ι σ ω) :
    es.countP (Event.isAct I) = ∑ i, (hist es s i).countP (Sum.elim I fun _ => false) := by
  induction es with
  | nil => simp [hist]
  | cons e es ih =>
    have hcons : ∀ i, hist (e :: es) s i = (e.toLocal s.wire i).toList ++ hist es s i := by
      intro i
      cases he : e.toLocal s.wire i <;> simp [hist, he]
    simp only [hcons, List.countP_append, Finset.sum_add_distrib, ← ih]
    rw [List.countP_cons, Nat.add_comm]
    congr 1
    cases e with
    | act j a =>
      rw [Finset.sum_eq_single j]
      · by_cases ha : I a = true <;> simp [Event.toLocal, Event.isAct, ha]
      · intro i _ hij
        simp [Event.toLocal, Ne.symm hij]
      · intro hj
        exact absurd (Finset.mem_univ j) hj
    | recv j k =>
      refine (Finset.sum_eq_zero fun i _ => ?_).symm
      by_cases hj : j = i
      · cases hk : s.wire[k]? <;> simp [Event.toLocal, hj, hk]
      · simp [Event.toLocal, hj]
    | inject j w => simp [Event.toLocal, Event.isAct]

omit [Fintype ι] [DecidableEq ι] in
theorem length_internal (h : ∀ e ∈ es, e.Internal L I) :
    es.length = es.countP Event.isRecv + es.countP (Event.isAct I) := by
  induction es with
  | nil => rfl
  | cons e es ih =>
    rw [List.length_cons, ih fun e' he' => h e' (List.mem_cons_of_mem _ he')]
    cases h e List.mem_cons_self with
    | recv k hi =>
      rw [List.countP_cons_of_pos rfl, List.countP_cons_of_neg Bool.false_ne_true]
      omega
    | @act i a hi ha =>
      have hact : (Event.act i a : Event ι α ω).isAct I = true := ha
      rw [List.countP_cons_of_neg Bool.false_ne_true, List.countP_cons_of_pos hact]
      omega

/-- A continuation is no longer than the deliveries and the actions there can be. -/
theorem Machine.Proceeds.length_le (h : M.Proceeds L I es es' s') {N K : ℕ}
    (hN : s'.wire.length ≤ N) (hK : (es ++ es').countP (Event.isAct I) ≤ K) :
    es'.length ≤ Fintype.card ι * N + K := by
  have hrecv := countP_isRecv_le h.reach h.once hN
  have hlen := length_internal h.internal
  rw [List.countP_append] at hrecv hK
  omega

end

/-- **A network whose wire stays bounded is drained by deliveries.** Every delivery uses up one of the
finitely many there can be. -/
theorem exists_drained {N : ℕ} (hr : M.Reach es s) (hi : ∀ i, (got es i).Nodup)
    (hN : ∀ es' s', M.Delivers es es' s' → s'.wire.length ≤ N) :
    ∃ es' s', M.Delivers es es' s' ∧ M.Drained (es ++ es') s' := by
  have hdelivers : ∀ es' s', M.Proceeds (fun _ => True) (fun _ => false) es es' s' →
      M.Delivers es es' s' := by
    intro es' s' h
    refine ⟨fun e he => ?_, h.reach, h.once⟩
    cases h.internal e he with
    | recv k _ => rfl
    | act _ ha => cases ha
  obtain ⟨es', s', h, hhalt⟩ := exists_halted hr hi fun es' s' h =>
    (hdelivers es' s' h).length_le (hN es' s' (hdelivers es' s' h))
  refine ⟨es', s', hdelivers es' s' h, fun i k hk => ?_⟩
  exact hhalt.drained i k _ trivial trivial (List.getElem?_eq_getElem hk)

end AsyncNet
