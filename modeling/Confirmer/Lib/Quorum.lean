import Mathlib.Data.Fintype.Card
import Mathlib.Data.Finset.Card
import Mathlib.Algebra.BigOperators.Group.Finset.Basic
import Mathlib.Algebra.BigOperators.Group.Finset.Piecewise
import Mathlib.Algebra.Order.BigOperators.Group.Finset

/-!
# Quorums, and counting tagged items

* **`exists_common`**: with `3 * f < n`, two sets of `n - f` out of `n` members share a member
  outside any set of `f`, `card_inter_ge`: and `n - 2 * f` members in all; `exists_notMem`,
  `card_sdiff_ge`: what a quorum keeps outside it; `card_named`.
* Lists of items tagged with a sender: `countP_eq_sum` splits a count by sender;
  **`countP_le_card`** and **`card_le_countP`** turn a count of items into a count of senders.
-/

namespace Quorum

variable {ι : Type} [DecidableEq ι]

section Sets

variable {P Q F : Finset ι} {n f : ℕ}

omit [DecidableEq ι] in
theorem exists_notMem (hP : f < P.card) (hF : F.card ≤ f) : ∃ i ∈ P, i ∉ F :=
  Finset.exists_mem_notMem_of_card_lt_card (lt_of_le_of_lt hF hP)

theorem card_sdiff_ge (P F : Finset ι) : P.card ≤ (P \ F).card + F.card := by
  rw [← Finset.card_sdiff_add_card_inter P F]
  exact Nat.add_le_add_left (Finset.card_le_card Finset.inter_subset_right) _

/-- Two quorums share all but `2 * f` members. -/
theorem card_inter_ge [Fintype ι] (hn : Fintype.card ι = n) (hP : n - f ≤ P.card)
    (hQ : n - f ≤ Q.card) : n - 2 * f ≤ (P ∩ Q).card := by
  have hU : (P ∪ Q).card ≤ n := hn ▸ Finset.card_le_univ _
  have hI := Finset.card_union_add_card_inter P Q
  omega

/-- **Quorum intersection.** -/
theorem exists_common [Fintype ι] (hn : Fintype.card ι = n) (hf : 3 * f < n)
    (hP : n - f ≤ P.card) (hQ : n - f ≤ Q.card) (hF : F.card ≤ f) :
    ∃ i, i ∈ P ∧ i ∈ Q ∧ i ∉ F := by
  have hI := card_inter_ge hn hP hQ
  obtain ⟨i, hi, hiF⟩ := exists_notMem (P := P ∩ Q) (F := F) (f := f) (by omega) hF
  exact ⟨i, Finset.mem_of_mem_inter_left hi, Finset.mem_of_mem_inter_right hi, hiF⟩

omit [DecidableEq ι] in
theorem card_le_length {α : Type} [DecidableEq α] {name : ι → α}
    (hname : Function.Injective name) {L : List α} (h : ∀ i ∈ Q, name i ∈ L) : Q.card ≤ L.length := by
  rw [← Finset.card_image_of_injective Q hname]
  refine le_trans (Finset.card_le_card fun a ha => ?_) L.toFinset_card_le
  obtain ⟨i, hi, rfl⟩ := Finset.mem_image.mp ha
  exact List.mem_toFinset.mpr (h i hi)

omit [DecidableEq ι] in
theorem card_named [Fintype ι] {α : Type} [DecidableEq α] {name : ι → α}
    (hname : Function.Injective name) {L : List α} (hL : L.Nodup) (h : ∀ a ∈ L, ∃ i, a = name i) :
    (Finset.univ.filter fun i => name i ∈ L).card = L.length := by
  rw [← List.toFinset_card_of_nodup hL, ← Finset.card_image_of_injective _ hname]
  congr 1
  ext a
  simp only [Finset.mem_image, Finset.mem_filter, Finset.mem_univ, true_and, List.mem_toFinset]
  constructor
  · rintro ⟨i, hi, rfl⟩
    exact hi
  · intro ha
    obtain ⟨i, rfl⟩ := h a ha
    exact ⟨i, ha, rfl⟩

end Sets

/-! ## Counting items by sender -/

section Senders

variable [Fintype ι] {ω : Type}

/-- The number of items with `q` that `j` sent. -/
def countFrom (L : List (ι × ω)) (q : ω → Bool) (j : ι) : ℕ :=
  L.countP fun x => decide (x.1 = j) && q x.2

theorem countP_eq_sum (L : List (ι × ω)) (q : ω → Bool) :
    L.countP (fun x => q x.2) = ∑ j, countFrom L q j := by
  induction L with
  | nil => simp [countFrom]
  | cons x L ih =>
    simp only [countFrom, List.countP_cons] at ih ⊢
    rw [Finset.sum_add_distrib, ih]
    congr 1
    cases hq : q x.2 <;> simp

omit [Fintype ι] in
theorem countFrom_pos {L : List (ι × ω)} {q : ω → Bool} {j : ι} :
    0 < countFrom L q j ↔ ∃ w, (j, w) ∈ L ∧ q w = true := by
  simp only [countFrom, List.countP_pos_iff, Bool.and_eq_true, decide_eq_true_eq]
  constructor
  · rintro ⟨⟨i, w⟩, hm, rfl, hq⟩; exact ⟨w, hm, hq⟩
  · rintro ⟨w, hm, hq⟩; exact ⟨(j, w), hm, rfl, hq⟩

/-- The members that sent an item with `q`. -/
def senders (L : List (ι × ω)) (q : ω → Bool) : Finset ι :=
  Finset.univ.filter fun j => 0 < countFrom L q j

theorem mem_senders {L : List (ι × ω)} {q : ω → Bool} {j : ι} :
    j ∈ senders L q ↔ ∃ w, (j, w) ∈ L ∧ q w = true := by
  simp [senders, countFrom_pos]

theorem senders_mono {L L' : List (ι × ω)} (h : L ⊆ L') (q : ω → Bool) :
    senders L q ⊆ senders L' q := fun j hj => by
  obtain ⟨w, hw, hq⟩ := mem_senders.mp hj
  exact mem_senders.mpr ⟨w, h hw, hq⟩

/-- **At most one item each: many items come from many members.** -/
theorem countP_le_card {L : List (ι × ω)} {q : ω → Bool} (h : ∀ j, countFrom L q j ≤ 1) :
    L.countP (fun x => q x.2) ≤ (senders L q).card := by
  rw [countP_eq_sum, Finset.card_eq_sum_ones, senders, Finset.sum_filter]
  refine Finset.sum_le_sum fun j _ => ?_
  have := h j
  split_ifs <;> omega

/-- **Every member sent one: there are as many items as members.** -/
theorem card_le_countP {L : List (ι × ω)} {q : ω → Bool} {S : Finset ι} (h : S ⊆ senders L q) :
    S.card ≤ L.countP (fun x => q x.2) := by
  refine (Finset.card_le_card h).trans ?_
  rw [countP_eq_sum, Finset.card_eq_sum_ones, senders, Finset.sum_filter]
  refine Finset.sum_le_sum fun j _ => ?_
  split_ifs <;> omega

end Senders

end Quorum
