import Mathlib.Data.Nat.Digits.Lemmas
import Mathlib.Data.List.Infix
import Mathlib.Data.List.TakeWhile

/-!
# Byte strings: searching, and decimal numbers

* `findSub pat s`: the first position at which `pat` occurs in `s` (`findSub_eq_some_iff`,
  `findSub_eq_none_iff`, `not_infix_take_of_findSub`).
* A doubled delimiter `[d, d]` after a field: `Clean d a` says that the search for it in
  `a ++ [d, d] ++ r` ends at `a` (**`findSub_append_iff`**), whatever comes after;
  a field that was cut out by a search is clean (`clean_take`).
* `decInt`, `strtol`, `atoi`: decimal output and the C reader; **`strtol_decInt`**,
  **`atoi_decInt`**.
-/

namespace Text

/-! ## Substring search -/

section Search

variable {α : Type} [DecidableEq α]

/-- The position of the first occurrence of `pat` in `s`. -/
def findSub (pat : List α) : List α → Option ℕ
  | [] => if pat = [] then some 0 else none
  | a :: s => if pat <+: a :: s then some 0 else (findSub pat s).map (· + 1)

theorem findSub_eq_some_iff {pat s : List α} {k : ℕ} : findSub pat s = some k ↔
    k ≤ s.length ∧ pat <+: s.drop k ∧ ∀ j < k, ¬ pat <+: s.drop j := by
  induction s generalizing k with
  | nil =>
    by_cases hp : pat = []
    · simp only [findSub, if_pos hp, Option.some.injEq, List.length_nil, List.drop_nil]
      constructor
      · rintro rfl; exact ⟨le_rfl, by simp [hp], fun j hj => absurd hj (by omega)⟩
      · rintro ⟨h, _⟩; omega
    · simp [findSub, hp]
  | cons a s ih =>
    by_cases hp : pat <+: a :: s
    · simp only [findSub, if_pos hp, Option.some.injEq]
      constructor
      · rintro rfl; exact ⟨Nat.zero_le _, hp, fun j hj => absurd hj (by omega)⟩
      · rintro ⟨_, _, h⟩
        by_contra hk
        exact h 0 (by omega) hp
    · simp only [findSub, if_neg hp, Option.map_eq_some_iff]
      constructor
      · rintro ⟨k, hk, rfl⟩
        obtain ⟨h1, h2, h3⟩ := ih.mp hk
        refine ⟨by simpa using h1, h2, fun j hj => ?_⟩
        cases j with
        | zero => exact hp
        | succ j => exact h3 j (by omega)
      · rintro ⟨h1, h2, h3⟩
        cases k with
        | zero => exact absurd h2 hp
        | succ k =>
          exact ⟨k, ih.mpr ⟨by simpa using h1, h2, fun j hj => h3 (j + 1) (by omega)⟩, rfl⟩

theorem findSub_eq_none_iff {pat s : List α} : findSub pat s = none ↔ ¬ pat <:+: s := by
  induction s with
  | nil => by_cases hp : pat = [] <;> simp [findSub, hp]
  | cons a s ih =>
    rw [List.infix_cons_iff, not_or, ← ih]
    by_cases hp : pat <+: a :: s <;> simp [findSub, hp]

omit [DecidableEq α] in
theorem infix_iff_exists_drop {pat s : List α} : pat <:+: s ↔ ∃ j ≤ s.length, pat <+: s.drop j := by
  constructor
  · rintro ⟨u, v, rfl⟩
    exact ⟨u.length, by simp, by simp⟩
  · rintro ⟨j, -, h⟩
    exact h.isInfix.trans (List.drop_suffix j s).isInfix

/-- **No occurrence fits in front of the first one.** -/
theorem not_infix_take_of_findSub {pat s : List α} {k : ℕ} (hp : pat ≠ [])
    (h : findSub pat s = some k) : ¬ pat <:+: s.take k := by
  obtain ⟨hk, -, hmin⟩ := findSub_eq_some_iff.mp h
  rw [infix_iff_exists_drop]
  rintro ⟨j, hj, hpre⟩
  have hlen := hpre.length_le
  rw [List.length_drop, List.length_take] at hlen
  have hpos : 0 < pat.length := List.length_pos_of_ne_nil hp
  refine hmin j (by omega) (hpre.trans ?_)
  rw [List.drop_take]
  exact List.take_prefix _ _

end Search

/-! ## A field followed by a doubled delimiter -/

section Delim

variable {α : Type} [DecidableEq α] {d : α}

/-- A field in which the search for `[d, d]` cannot stop: it holds no `[d, d]` and does not end
in `d`. -/
def Clean (d : α) (a : List α) : Prop := ¬ [d, d] <:+: a ∧ a.getLast? ≠ some d

instance (d : α) (a : List α) : Decidable (Clean d a) := by unfold Clean; infer_instance

omit [DecidableEq α] in
theorem clean_nil : Clean d ([] : List α) := by simp [Clean]

omit [DecidableEq α] in
theorem clean_of_notMem {a : List α} (h : d ∉ a) : Clean d a := by
  refine ⟨fun hi => h (hi.subset (by simp)), fun hl => h ?_⟩
  exact List.mem_of_getLast? hl

theorem clean_cons {x : α} {a : List α} :
    Clean d (x :: a) ↔ Clean d a ∧ (x = d → a ≠ [] ∧ a.head? ≠ some d) := by
  cases a with
  | nil => by_cases hx : x = d <;> simp [Clean, List.infix_cons_iff, hx]
  | cons y a =>
    simp only [Clean, List.infix_cons_iff, List.getLast?_cons_cons, List.cons_prefix_cons,
      List.nil_prefix, and_true, List.head?_cons, ne_eq, Option.some.injEq, reduceCtorEq,
      not_false_eq_true, true_and]
    constructor
    · rintro ⟨h1, h2⟩
      push Not at h1
      exact ⟨⟨fun h => (h.elim (fun h => h1.2.1 h.1 h.2) h1.2.2), h2⟩, fun hx hy => h1.1 hx.symm hy.symm⟩
    · rintro ⟨⟨h1, h2⟩, h3⟩
      exact ⟨fun h => h.elim (fun h => h3 h.1.symm h.2.symm) h1, h2⟩

/-- **The search ends at the field if and only if the field is clean.** -/
theorem findSub_append_iff (a r : List α) :
    findSub [d, d] (a ++ d :: d :: r) = some a.length ↔ Clean d a := by
  induction a with
  | nil => simp [findSub, clean_nil]
  | cons x a ih =>
    rw [clean_cons, List.cons_append, findSub]
    have hpre : [d, d] <+: x :: (a ++ d :: d :: r) ↔ d = x ∧ (a = [] ∨ a.head? = some d) := by
      rw [List.cons_prefix_cons]
      cases a with
      | nil => simp
      | cons y a => simp [eq_comm]
    by_cases h : d = x ∧ (a = [] ∨ a.head? = some d)
    · rw [if_pos (hpre.mpr h)]
      simp only [List.length_cons, Option.some.injEq, right_eq_add]
      constructor
      · intro h'; omega
      · rintro ⟨-, h'⟩
        obtain ⟨h1, h2⟩ := h' h.1.symm
        exact (h.2.elim h1 h2).elim
    · rw [if_neg (fun h' => h (hpre.mp h'))]
      have hx : x = d → a ≠ [] ∧ a.head? ≠ some d := fun hx => by
        by_contra h'
        exact h ⟨hx.symm, by tauto⟩
      rw [← ih]
      simp only [Option.map_eq_some_iff, List.length_cons, Nat.add_right_cancel_iff,
        exists_eq_right]
      exact ⟨fun h => ⟨h, hx⟩, And.left⟩

theorem findSub_append {a : List α} (ha : Clean d a) (r : List α) :
    findSub [d, d] (a ++ d :: d :: r) = some a.length :=
  (findSub_append_iff a r).mpr ha

/-- The search stops at the latest behind the field. -/
theorem findSub_append_le (a r : List α) :
    ∃ k ≤ a.length, findSub [d, d] (a ++ d :: d :: r) = some k := by
  cases hf : findSub [d, d] (a ++ d :: d :: r) with
  | none => exact absurd ⟨a, r, by simp⟩ (findSub_eq_none_iff.mp hf)
  | some k =>
    refine ⟨k, ?_, rfl⟩
    by_contra hk
    exact (findSub_eq_some_iff.mp hf).2.2 a.length (by omega) (by simp)

/-- **A field cut out by a search is clean.** -/
theorem clean_take {s : List α} {k : ℕ} (h : findSub [d, d] s = some k) : Clean d (s.take k) := by
  refine ⟨not_infix_take_of_findSub (by simp) h, fun hl => ?_⟩
  obtain ⟨hk, ⟨r, hr⟩, hmin⟩ := findSub_eq_some_iff.mp h
  obtain ⟨u, hu⟩ := List.getLast?_eq_some_iff.mp hl
  have hs : s = u ++ d :: d :: d :: r := by
    rw [← List.take_append_drop k s, ← hr, hu]; simp
  have hlen : u.length + 1 = k := by
    have := congrArg List.length hu
    simp at this; omega
  exact hmin u.length (by omega) (by rw [hs]; simp)

end Delim

/-! ## Decimal numbers -/

/-- The decimal digits of `n` as ASCII characters. -/
def decNat (n : ℕ) : List UInt8 :=
  if n = 0 then [48] else (Nat.digits 10 n).reverse.map fun k => UInt8.ofNat (48 + k)

/-- The decimal text of `z`, with a minus sign where it needs one. -/
def decInt (z : ℤ) : List UInt8 := if z < 0 then 45 :: decNat z.natAbs else decNat z.natAbs

/-- `isspace` of the C locale. -/
def isSpace (c : UInt8) : Bool := c = 32 || (9 ≤ c && c ≤ 13)

def isDigit (c : UInt8) : Bool := 48 ≤ c && c ≤ 57

/-- The value of a string of digits. -/
def digitsVal (s : List UInt8) : ℕ := s.foldl (fun n c => 10 * n + (c.toNat - 48)) 0

/-- `strtol` in base ten, before the result is brought into the range of `long`: white space, a
sign, and the digits up to the first other character. -/
def strtol (s : List UInt8) : ℤ :=
  let t := s.dropWhile isSpace
  if t.head? = some 45 then -(digitsVal (t.tail.takeWhile isDigit) : ℤ)
  else if t.head? = some 43 then digitsVal (t.tail.takeWhile isDigit)
  else digitsVal (t.takeWhile isDigit)

/-- `atoi`: `strtol` saturated to `long` and converted to `int`. -/
def atoi (s : List UInt8) : Int32 := Int32.ofInt (max (-2 ^ 63) (min (strtol s) (2 ^ 63 - 1)))

theorem toNat_digit {k : ℕ} (hk : k < 10) : (UInt8.ofNat (48 + k)).toNat = 48 + k := by
  rw [UInt8.toNat_ofNat']; omega

theorem isDigit_iff {c : UInt8} : isDigit c = true ↔ 48 ≤ c.toNat ∧ c.toNat ≤ 57 := by
  simp [isDigit, UInt8.le_iff_toNat_le]

theorem isDigit_digit {k : ℕ} (hk : k < 10) : isDigit (UInt8.ofNat (48 + k)) = true := by
  rw [isDigit_iff, toNat_digit hk]; omega

theorem mem_decNat {n : ℕ} {c : UInt8} (h : c ∈ decNat n) : isDigit c = true := by
  unfold decNat at h
  split_ifs at h with hn
  · rw [List.mem_singleton] at h; subst h; decide
  · obtain ⟨k, hk, rfl⟩ := List.mem_map.mp h
    exact isDigit_digit (Nat.digits_lt_base (by decide) (List.mem_reverse.mp hk))

theorem foldl_digits (l : List ℕ) (hl : ∀ k ∈ l, k < 10) :
    digitsVal (l.reverse.map fun k => UInt8.ofNat (48 + k)) = Nat.ofDigits 10 l := by
  induction l with
  | nil => rfl
  | cons k l ih =>
    have h := ih fun j hj => hl j (List.mem_cons_of_mem _ hj)
    simp only [digitsVal, List.reverse_cons, List.map_append, List.foldl_append, List.map_cons,
      List.map_nil, List.foldl_cons, List.foldl_nil] at h ⊢
    rw [h, toNat_digit (hl k List.mem_cons_self), Nat.ofDigits_cons]
    omega

theorem digitsVal_decNat (n : ℕ) : digitsVal (decNat n) = n := by
  unfold decNat
  split_ifs with hn
  · rw [hn]; rfl
  · rw [foldl_digits _ fun k hk => Nat.digits_lt_base (by decide) hk, Nat.ofDigits_digits]

theorem takeWhile_decNat (n : ℕ) : (decNat n).takeWhile isDigit = decNat n :=
  List.takeWhile_eq_self_iff.mpr fun _ h => mem_decNat h

theorem head?_decNat_ne {n : ℕ} {c : UInt8} (hc : isDigit c = false) : (decNat n).head? ≠ some c :=
  fun h => by
    have := mem_decNat (List.mem_of_head? h)
    rw [hc] at this; exact Bool.noConfusion this

theorem dropWhile_decNat (n : ℕ) : (decNat n).dropWhile isSpace = decNat n := by
  cases h : decNat n with
  | nil => rfl
  | cons c s =>
    have hd : isDigit c = true := mem_decNat (by rw [h]; exact List.mem_cons_self)
    have hs : isSpace c = false := by
      rw [isDigit_iff] at hd
      simp only [isSpace, Bool.or_eq_false_iff, decide_eq_false_iff_not, Bool.and_eq_false_iff,
        UInt8.le_iff_toNat_le]
      refine ⟨fun e => ?_, Or.inr ?_⟩
      · rw [e] at hd; exact absurd hd.1 (by decide)
      · have : (13 : UInt8).toNat = 13 := rfl
        omega
    rw [List.dropWhile_cons_of_neg (by simp [hs])]

/-- **Reading back a printed number.** -/
theorem strtol_decInt (z : ℤ) : strtol (decInt z) = z := by
  unfold decInt strtol
  split_ifs with hz
  · have hd : (45 :: decNat z.natAbs).dropWhile isSpace = 45 :: decNat z.natAbs :=
      List.dropWhile_cons_of_neg (by decide)
    simp only [hd, List.head?_cons, if_true, List.tail_cons, takeWhile_decNat, digitsVal_decNat]
    omega
  · simp only [dropWhile_decNat, head?_decNat_ne (show isDigit 45 = false by decide),
      head?_decNat_ne (show isDigit 43 = false by decide), if_false, takeWhile_decNat,
      digitsVal_decNat]
    omega

/-- **`atoi` undoes `to_string` on every `int`.** -/
theorem atoi_decInt (v : Int32) : atoi (decInt v.toInt) = v := by
  have h1 := v.le_toInt
  have h2 := v.toInt_lt
  unfold atoi
  rw [strtol_decInt, min_eq_left (by omega), max_eq_right (by omega), Int32.ofInt_toInt]

theorem atoi_decNat {n : ℕ} (hn : n < 2 ^ 31) : (atoi (decNat n)).toInt = n := by
  have h : decNat n = decInt n := by simp [decInt]
  unfold atoi
  rw [h, strtol_decInt, min_eq_left (by omega), max_eq_right (by omega),
    Int32.toInt_ofInt_of_le (by omega) (by omega)]

theorem notMem_decInt {c : UInt8} (hc : isDigit c = false) (hm : c ≠ 45) (z : ℤ) : c ∉ decInt z := by
  intro h
  have hn : c ∉ decNat z.natAbs := fun h => by
    have := mem_decNat h
    rw [hc] at this; exact Bool.noConfusion this
  unfold decInt at h
  split_ifs at h
  · exact (List.mem_cons.mp h).elim hm hn
  · exact hn h

end Text
