import Mathlib.Data.List.Basic

/-!
# Lines

A line is a list that ends in a delimiter and has no other one.

* **`flatten_inj`**: a list of lines is determined by its concatenation.
* `Ends`: the lists that end in the delimiter; `eq_nil_of_ends`, `length_lt_of_ends`: what can stand in a
  concatenation of these without a delimiter: nothing at its end, and less than one of them anywhere.
-/

namespace Lines

variable {α : Type} {d : α}

/-- A list that ends in `d` and has no other `d`. -/
def Line (d : α) (m : List α) : Prop := ∃ b, d ∉ b ∧ m = b ++ [d]

/-- Behind a part without delimiter, a segment makes a line when its only delimiter is its last
entry. -/
theorem line_append_iff {b c : List α} (hb : d ∉ b) (hc : d ∈ c) :
    Line d (b ++ c) ↔ d ∉ c.dropLast := by
  obtain ⟨c, x, rfl⟩ := (List.eq_nil_or_concat c).resolve_left (List.ne_nil_of_mem hc)
  rw [List.concat_eq_append, List.dropLast_concat, ← List.append_assoc]
  rw [List.concat_eq_append] at hc
  constructor
  · rintro ⟨b', hb', heq⟩ hmem
    obtain ⟨rfl, -⟩ := List.append_inj' heq rfl
    exact hb' (List.mem_append_right _ hmem)
  · intro hnot
    have hx : d = x := by simpa [hnot] using hc
    subst hx
    exact ⟨b ++ c, by simp [hb, hnot], rfl⟩

theorem cut_unique {a b x y : List α} (ha : d ∉ a) (hb : d ∉ b) (h : a ++ d :: x = b ++ d :: y) :
    a = b ∧ x = y := by
  rcases List.append_eq_append_iff.mp h with ⟨c, hc, hd⟩ | ⟨c, hc, hd⟩
  · cases c with
    | nil =>
      rw [List.append_nil] at hc
      exact ⟨hc.symm, (List.cons.inj hd).2⟩
    | cons z c =>
      obtain ⟨rfl, -⟩ := List.cons.inj hd
      exact absurd (hc ▸ List.mem_append_right a List.mem_cons_self) hb
  · cases c with
    | nil =>
      rw [List.append_nil] at hc
      exact ⟨hc, (List.cons.inj hd).2.symm⟩
    | cons z c =>
      obtain ⟨rfl, -⟩ := List.cons.inj hd
      exact absurd (hc ▸ List.mem_append_right b List.mem_cons_self) ha

/-- **Lines are determined by their concatenation.** -/
theorem flatten_inj {L M : List (List α)} (hL : ∀ m ∈ L, Line d m) (hM : ∀ m ∈ M, Line d m)
    (h : L.flatten = M.flatten) : L = M := by
  induction L generalizing M with
  | nil =>
    cases M with
    | nil => rfl
    | cons m M =>
      obtain ⟨b, -, rfl⟩ := hM m List.mem_cons_self
      simp at h
  | cons l L ih =>
    obtain ⟨a, ha, rfl⟩ := hL l List.mem_cons_self
    cases M with
    | nil => simp at h
    | cons m M =>
      obtain ⟨b, hb, rfl⟩ := hM m List.mem_cons_self
      simp only [List.flatten_cons, List.append_assoc, List.singleton_append] at h
      obtain ⟨rfl, htail⟩ := cut_unique ha hb h
      rw [ih (fun m hm => hL m (List.mem_cons_of_mem _ hm))
        (fun m hm => hM m (List.mem_cons_of_mem _ hm)) htail]

/-! ## Lists that end in the delimiter -/

/-- A list that ends in `d`. -/
def Ends (d : α) (m : List α) : Prop := ∃ b, m = b ++ [d]

theorem Line.ends {m : List α} (h : Line d m) : Ends d m := by
  obtain ⟨b, -, rfl⟩ := h
  exact ⟨b, rfl⟩

theorem Ends.mem {m p c : List α} (hm : Ends d m) (h : m = p ++ c) (hc : c ≠ []) : d ∈ c := by
  obtain ⟨a, rfl⟩ := hm
  obtain ⟨c, x, rfl⟩ := (List.eq_nil_or_concat c).resolve_left hc
  rw [List.concat_eq_append, ← List.append_assoc] at h
  rw [List.singleton_inj.mp (List.append_inj' h rfl).2]
  simp

theorem eq_nil_of_ends {L : List (List α)} (hL : ∀ m ∈ L, Ends d m) {p b : List α}
    (h : L.flatten = p ++ b) (hb : d ∉ b) : b = [] := by
  by_contra hne
  induction L generalizing p with
  | nil => exact hne (List.append_eq_nil_iff.mp h.symm).2
  | cons m L ih =>
    rw [List.flatten_cons] at h
    rcases List.append_eq_append_iff.mp h with ⟨c, hc, hd⟩ | ⟨c, hc, hd⟩
    · exact ih (fun m hm => hL m (List.mem_cons_of_mem _ hm)) hd
    · by_cases hcn : c = []
      · rw [hcn, List.nil_append] at hd
        exact ih (fun m hm => hL m (List.mem_cons_of_mem _ hm)) (p := []) hd.symm
      · apply hb
        rw [hd]
        exact List.mem_append_left _ ((hL m List.mem_cons_self).mem hc hcn)

/-- **A part without delimiter is shorter than one of the lists.** -/
theorem length_lt_of_ends {L : List (List α)} (hL : ∀ m ∈ L, Ends d m) {n : ℕ} (hn : 0 < n)
    (hlen : ∀ m ∈ L, m.length ≤ n) {p b q : List α} (h : L.flatten = p ++ (b ++ q)) (hb : d ∉ b) :
    b.length < n := by
  induction L generalizing p with
  | nil =>
    have hnil := (List.append_eq_nil_iff.mp (List.append_eq_nil_iff.mp h.symm).2).1
    rwa [hnil]
  | cons m L ih =>
    have ih' := fun {p} => ih (p := p) (fun m hm => hL m (List.mem_cons_of_mem _ hm))
      (fun m hm => hlen m (List.mem_cons_of_mem _ hm))
    rw [List.flatten_cons] at h
    rcases List.append_eq_append_iff.mp h with ⟨c, hc, hd⟩ | ⟨c, hc, hd⟩
    · -- the part begins behind the first list
      exact ih' hd
    · by_cases hcn : c = []
      · rw [hcn, List.nil_append] at hd
        exact ih' (p := []) hd.symm
      · -- it begins inside of the first list, and has to end there
        have hlt : b.length < c.length := by
          by_contra hle
          have hpre : c <+: b := List.prefix_of_prefix_length_le (List.prefix_append c _)
            (hd ▸ List.prefix_append b q) (Nat.le_of_not_lt hle)
          exact hb (hpre.subset ((hL m List.mem_cons_self).mem hc hcn))
        have hm := hlen m List.mem_cons_self
        rw [hc, List.length_append] at hm
        omega

theorem eq_nil_of_flatten {L : List (List α)} (hL : ∀ m ∈ L, Line d m) {p b : List α}
    (h : L.flatten = p ++ b) (hb : d ∉ b) : b = [] :=
  eq_nil_of_ends (fun m hm => (hL m hm).ends) h hb

theorem length_lt_of_flatten {L : List (List α)} (hL : ∀ m ∈ L, Line d m) {n : ℕ} (hn : 0 < n)
    (hlen : ∀ m ∈ L, m.length ≤ n) {p b q : List α} (h : L.flatten = p ++ (b ++ q)) (hb : d ∉ b) :
    b.length < n :=
  length_lt_of_ends (fun m hm => (hL m hm).ends) hn hlen h hb

end Lines
