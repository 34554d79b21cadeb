import Confirmer.Lib.Text

/-!
# Splitting strings

* `parts d s`: the parts of `s` between its doubled delimiters `[d, d]`; **`parts_eq`**: the first part
  ends where a search for the delimiter does.
* `left`, `nthField`: the fields that a reader meets who starts again behind the first character when
  there are no more parts.
* `parts_append`, **`nthField_append`**: what is appended to a string does not change the fields that end
  in a delimiter; `length_parts_append`: a delimiter makes a part.
* `getlines d s`: the lines of `s` up to the delimiter `d`, which the last one may lack; **`getlines_join`**:
  joined lines are read back.
-/

namespace Text

variable {α : Type} [DecidableEq α] {d : α}

/-! ## Parts -/

/-- The parts between doubled delimiters. -/
def parts (d : α) : List α → List (List α)
  | [] => [[]]
  | [a] => [[a]]
  | a :: b :: s =>
    if a = d ∧ b = d then [] :: parts d s
    else match parts d (b :: s) with
      | [] => []
      | p :: ps => (a :: p) :: ps

/-- **The first part ends at the first delimiter.** -/
theorem parts_eq (d : α) (s : List α) : parts d s =
    match findSub [d, d] s with
    | some k => s.take k :: parts d (s.drop (k + 2))
    | none => [s] := by
  fun_induction parts d s with
  | case1 => rfl
  | case2 a => simp [findSub]
  | case3 a b s h =>
    obtain ⟨rfl, rfl⟩ := h
    simp [findSub]
  | case4 a b s h hnil ih =>
    rw [hnil] at ih
    split at ih <;> cases ih
  | case5 a b s h p ps hcons ih =>
    have hpre : ¬ [d, d] <+: a :: b :: s := by
      simp only [List.cons_prefix_cons, List.nil_prefix, and_true]
      exact fun hd => h ⟨hd.1.symm, hd.2.symm⟩
    rw [findSub, if_neg hpre]
    rw [hcons] at ih
    cases hf : findSub [d, d] (b :: s) with
    | none =>
      rw [hf] at ih
      cases ih
      rfl
    | some k =>
      rw [hf] at ih
      cases ih
      rfl

theorem parts_of_find {s : List α} {k : ℕ} (h : findSub [d, d] s = some k) :
    parts d s = s.take k :: parts d (s.drop (k + 2)) := by
  rw [parts_eq, h]

theorem parts_of_find_none {s : List α} (h : findSub [d, d] s = none) : parts d s = [s] := by
  rw [parts_eq, h]

theorem parts_ne_nil (s : List α) : parts d s ≠ [] := by
  rw [parts_eq]
  split <;> simp

/-- What is left to read of `s` behind `n` fields: the parts of `s`, and whenever there are no more of
them the parts of `s` without its first character. -/
def left (d : α) (s : List α) : ℕ → List (List α)
  | 0 => parts d s
  | n + 1 => if (left d s n).tail = [] then parts d s.tail else (left d s n).tail

/-- The field behind `n` others. -/
def nthField (d : α) (s : List α) (n : ℕ) : List α := (left d s n).head?.getD []

/-! ## What stands in front of more -/

theorem parts_cons_cons {a b : α} {s : List α} (h : ¬ (a = d ∧ b = d)) :
    ∃ p ps, parts d (b :: s) = p :: ps ∧ parts d (a :: b :: s) = (a :: p) :: ps := by
  obtain ⟨p, ps, hp⟩ := List.exists_cons_of_ne_nil (parts_ne_nil (d := d) (b :: s))
  exact ⟨p, ps, hp, by rw [parts, if_neg h, hp]⟩

/-- One more character in front makes at most one more part. -/
theorem length_parts_cons (d x : α) (t : List α) :
    (parts d t).length ≤ (parts d (x :: t)).length ∧
    (parts d (x :: t)).length ≤ (parts d t).length + 1 := by
  induction t generalizing x with
  | nil => simp [parts]
  | cons y t ih =>
    by_cases h : x = d ∧ y = d
    · rw [parts, if_pos h, List.length_cons]
      have := ih y
      omega
    · obtain ⟨p, ps, hp, hq⟩ := parts_cons_cons (s := t) h
      rw [hp, hq]
      simp

/-- **A delimiter makes a part**, whatever stands in front of it. -/
theorem length_parts_append (a t : List α) :
    (parts d t).length + 1 ≤ (parts d (a ++ d :: d :: t)).length := by
  induction a with
  | nil => simp [parts]
  | cons x a ih => exact ih.trans (length_parts_cons d x _).1

/-- **All parts but the last one stay as they are** when something is appended, and there are at least as
many. -/
theorem parts_append (s r : List α) : (parts d s).dropLast <+: parts d (s ++ r) ∧
    (parts d s).length ≤ (parts d (s ++ r)).length := by
  fun_induction parts d s with
  | case1 => exact ⟨List.nil_prefix, List.length_pos_of_ne_nil (parts_ne_nil _)⟩
  | case2 a => exact ⟨List.nil_prefix, List.length_pos_of_ne_nil (parts_ne_nil _)⟩
  | case3 a b s h ih =>
    rw [List.cons_append, List.cons_append, parts, if_pos h, List.dropLast_cons_of_ne_nil (parts_ne_nil _)]
    exact ⟨List.cons_prefix_cons.mpr ⟨rfl, ih.1⟩, Nat.succ_le_succ ih.2⟩
  | case4 a b s h hnil ih => exact absurd hnil (parts_ne_nil _)
  | case5 a b s h p ps hcons ih =>
    obtain ⟨q, qs, hq, hqs⟩ := parts_cons_cons (s := s ++ r) h
    rw [hcons, List.cons_append, hq] at ih
    rw [List.cons_append, List.cons_append, hqs]
    refine ⟨?_, by simpa using ih.2⟩
    cases ps with
    | nil => exact List.nil_prefix
    | cons p' ps =>
      obtain ⟨rfl, hpre⟩ := List.cons_prefix_cons.mp ih.1
      exact List.cons_prefix_cons.mpr ⟨rfl, hpre⟩

theorem left_eq_drop {s : List α} {n : ℕ} (h : n < (parts d s).length) : left d s n = (parts d s).drop n := by
  induction n with
  | zero => rfl
  | succ n ih =>
    have htail : ((parts d s).drop n).tail = (parts d s).drop (n + 1) := by rw [List.tail_drop]
    rw [left, ih (by omega), htail, if_neg]
    exact List.ne_nil_of_length_pos (by rw [List.length_drop]; omega)

/-- **A field that ends in a delimiter is read the same** whatever is appended. -/
theorem nthField_append {s : List α} {n : ℕ} (h : n + 1 < (parts d s).length) (r : List α) :
    nthField d (s ++ r) n = nthField d s n := by
  obtain ⟨hpre, hlen⟩ := parts_append (d := d) s r
  have hn : n < (parts d s).dropLast.length := by rw [List.length_dropLast]; omega
  have hsame : (parts d s).dropLast[n]? = (parts d (s ++ r))[n]? := by
    rw [List.getElem?_eq_getElem hn, hpre.getElem hn, List.getElem?_eq_getElem]
  rw [nthField, nthField, left_eq_drop (by omega), left_eq_drop (by omega), List.head?_drop, List.head?_drop,
    ← hsame, List.getElem?_dropLast, if_pos (by omega)]

theorem findSub_append_right {pat s : List α} {k : ℕ} (h : findSub pat s = some k) (r : List α) :
    findSub pat (s ++ r) = some k := by
  obtain ⟨hk, hpre, hmin⟩ := findSub_eq_some_iff.mp h
  rw [findSub_eq_some_iff, List.drop_append_of_le_length hk]
  refine ⟨by rw [List.length_append]; omega, hpre.trans (List.prefix_append _ r), fun j hj hj' => ?_⟩
  rw [List.drop_append_of_le_length (by omega)] at hj'
  refine hmin j hj (List.prefix_of_prefix_length_le hj' (List.prefix_append _ r) ?_)
  have := hpre.length_le
  rw [List.length_drop] at this ⊢
  omega

/-! ## Lines -/

/-- The lines of a text; the last one need not end in the delimiter, which is no part of a line. -/
def getlines (d : α) : List α → List (List α)
  | [] => []
  | a :: s =>
    if a = d then [] :: getlines d s
    else match getlines d s with
      | [] => [[a]]
      | l :: ls => (a :: l) :: ls

theorem getlines_eq_nil {s : List α} : getlines d s = [] ↔ s = [] := by
  cases s with
  | nil => exact iff_of_true rfl rfl
  | cons a s =>
    refine iff_of_false (fun h => ?_) (List.cons_ne_nil a s)
    rw [getlines] at h
    split_ifs at h
    split at h <;> cases h

theorem getlines_append {l : List α} (hl : d ∉ l) (s : List α) :
    getlines d (l ++ d :: s) = l :: getlines d s := by
  induction l with
  | nil => rw [List.nil_append, getlines, if_pos rfl]
  | cons a l ih =>
    rw [List.mem_cons, not_or] at hl
    rw [List.cons_append, getlines, if_neg (Ne.symm hl.1), ih hl.2]

theorem getlines_line {l : List α} (hl : d ∉ l) (hne : l ≠ []) : getlines d l = [l] := by
  induction l with
  | nil => exact absurd rfl hne
  | cons a l ih =>
    rw [List.mem_cons, not_or] at hl
    rw [getlines, if_neg (Ne.symm hl.1)]
    by_cases h : l = []
    · subst h
      rfl
    · rw [ih hl.2 h]

/-- **Lines joined by the delimiter are read back**, if they are not empty. -/
theorem getlines_join {l : List α} {ls : List (List α)} (hl : d ∉ l) (hne : l ≠ [])
    (h : ∀ l' ∈ ls, d ∉ l' ∧ l' ≠ []) : getlines d (l ++ ls.flatMap (d :: ·)) = l :: ls := by
  induction ls generalizing l with
  | nil => rw [List.flatMap_nil, List.append_nil, getlines_line hl hne]
  | cons l' ls ih =>
    obtain ⟨⟨hl', hne'⟩, hls⟩ := List.forall_mem_cons.mp h
    rw [List.flatMap_cons, List.cons_append, getlines_append hl, ih hl' hne' hls]

theorem getlines_replicate (j : ℕ) : getlines d (List.replicate j d) = List.replicate j [] := by
  induction j with
  | zero => rfl
  | succ j ih => rw [List.replicate_succ, getlines, if_pos rfl, ih, List.replicate_succ]

end Text
