import Confirmer.Message
import Confirmer.Lib.Split

/-!
# The configuration file

`LoadConfig` and `ParseConfigParam` read the words of each line as numbers into a row of their own, and
`main` takes its values out of the rows by position. An `Access` is one beyond an array, after which the
process has no defined state.

* `ConfigParam`, `parseConfigParam`, `loadConfig`; `column`, `mainConfig`, `readConfig`.
* `rowOf`, `LinesFit`, `loadConfig_ok`: what the rows hold.
* `ColumnsFit`, `configOf`, `mainConfig_ok`: what `main` takes from them; **`ConfigFits`**: no access of
  the two is beyond its array (`readConfig_ok`, `readConfig_error`).
* **`config_roundTrip_iff`**: a written configuration is read back if its values can be counted.
-/

namespace Confirmer

open Text

/-- An access beyond its array: the rows, one of the rows, or the clients of a peer. -/
inductive Access
  | row (index : Int32)
  | column (row : ℕ) (index : Int32)
  | client (index : Int32)
  deriving DecidableEq

abbrev NUMBER_OF_CONFIG_VAR : ℕ := 4

/-- `configParam`. -/
abbrev ConfigParam := Vector (List Int32) NUMBER_OF_CONFIG_VAR

/-- The rows of a process that has just started. -/
def emptyConfig : ConfigParam := Vector.replicate NUMBER_OF_CONFIG_VAR []

/-- `configParam[index].push_back(x)`. -/
def pushParam (configParam : ConfigParam) (index x : Int32) : Except Access ConfigParam :=
  if h : 0 ≤ index.toInt ∧ index.toInt.toNat < NUMBER_OF_CONFIG_VAR then
    .ok (configParam.set index.toInt.toNat (configParam[index.toInt.toNat] ++ [x]))
  else .error (.row index)

/-- `ParseConfigParam`. -/
def parseConfigParam (configParam : ConfigParam) (index : Int32) (str : Bytes) :
    Except Access ConfigParam :=
  (getlines 32 str).foldlM (fun configParam str => pushParam configParam index (atoi str)) configParam

/-- The loop of `LoadConfig` over the lines of the file. -/
def loadLines (configParam : ConfigParam) (index : Int32) : List Bytes → Except Access ConfigParam
  | [] => .ok configParam
  | str :: rest => do
    let configParam ← parseConfigParam configParam index str
    loadLines configParam (index + 1) rest

/-- `LoadConfig`, on the text of the file or on a file that cannot be opened; `main` does not look at its
result. -/
def loadConfig (configParam : ConfigParam) (file : Option Bytes) : Except Access ConfigParam :=
  match file with
  | some text => loadLines (configParam.set 0 []) 0 (getlines 10 text)
  | none => .ok configParam

/-- `configParam[row][index]`, where the row holds `xs`. -/
def column (row : ℕ) (xs : List Int32) (index : Int32) : Except Access Int32 :=
  if h : 0 ≤ index.toInt ∧ index.toInt.toNat < xs.length then .ok xs[index.toInt.toNat]
  else .error (.column row index)

/-- The loop of `main` that collects `configParam[row][i+offset]`, in its round `i` with `k` rounds to
go. -/
def collect (row : ℕ) (xs : List Int32) (offset i : Int32) : ℕ → Except Access (List Int32)
  | 0 => .ok []
  | k + 1 => do
    let value ← column row xs (i + offset)
    let values ← collect row xs offset (i + 1) k
    return value :: values

/-- The configuration variables of `main`. -/
structure Config where
  totalPeers : Int32
  id : Int32
  submitValue : List Int32
  sendto : List Int32

/-- The part of `main` that stores the configuration variables. -/
def mainConfig (configParam : ConfigParam) : Except Access Config := do
  let totalPeers ← column 0 configParam[0] 1
  let id ← column 1 configParam[1] 1
  let size ← column 2 configParam[2] 1
  let submitValue ← collect 2 configParam[2] 2 0 size.toInt.toNat
  let sendto ← collect 3 configParam[3] 1 0 size.toInt.toNat
  return ⟨totalPeers, id, submitValue, sendto⟩

/-- `LoadConfig`, and what `main` makes of it. -/
def readConfig (file : Option Bytes) : Except Access Config := do
  let configParam ← loadConfig emptyConfig file
  mainConfig configParam

/-! ## Rows -/

/-- The words of a line as numbers. -/
def words (str : Bytes) : List Int32 := (getlines 32 str).map atoi

/-- Line `index` belongs to the row `r`; the number of a line is an `int`. -/
def InRow (r index : ℕ) : Prop := (Int32.ofNat index).toInt = r

instance (r index : ℕ) : Decidable (InRow r index) := inferInstanceAs (Decidable (_ = _))

/-- What the lines from number `m` on add to the row `r`. -/
def rowFrom (m r : ℕ) (lines : List Bytes) : List Int32 :=
  (lines.zipIdx m).flatMap fun line => if InRow r line.2 then words line.1 else []

/-- **Row `r` of a text**: the words of its line `r`. -/
def rowOf (r : ℕ) (text : Bytes) : List Int32 := rowFrom 0 r (getlines 10 text)

/-- Only lines that belong to one of the rows hold words, from number `m` on. -/
def LinesFit (m : ℕ) (lines : List Bytes) : Prop :=
  ∀ line ∈ lines.zipIdx m, line.1 ≠ [] → ∃ r < NUMBER_OF_CONFIG_VAR, InRow r line.2

theorem words_eq_nil {str : Bytes} : words str = [] ↔ str = [] := by
  rw [words, List.map_eq_nil_iff, getlines_eq_nil]

theorem InRow.eq {r r' index : ℕ} (h : InRow r index) (h' : InRow r' index) : r = r' :=
  Int.ofNat_inj.mp (h.symm.trans h')

theorem pushParam_of_inRow {configParam : ConfigParam} {m r : ℕ} (hm : InRow r m)
    (hr : r < NUMBER_OF_CONFIG_VAR) (x : Int32) : pushParam configParam (Int32.ofNat m) x =
      .ok (configParam.set r (configParam[r] ++ [x])) := by
  unfold InRow at hm
  have h : 0 ≤ (Int32.ofNat m).toInt ∧ (Int32.ofNat m).toInt.toNat < NUMBER_OF_CONFIG_VAR := by omega
  have hr' : (Int32.ofNat m).toInt.toNat = r := by omega
  rw [pushParam, dif_pos h]
  simp only [hr']

theorem parseConfigParam_of_inRow {configParam : ConfigParam} {m r : ℕ} (hm : InRow r m)
    (hr : r < NUMBER_OF_CONFIG_VAR) (str : Bytes) : parseConfigParam configParam (Int32.ofNat m) str =
      .ok (configParam.set r (configParam[r] ++ words str)) := by
  unfold parseConfigParam words
  induction getlines 32 str generalizing configParam with
  | nil => simp [pure, Except.pure]
  | cons l ls ih =>
    rw [List.foldlM_cons, pushParam_of_inRow hm hr]
    simp only [bind, Except.bind, ih]
    simp

theorem parseConfigParam_nil (configParam : ConfigParam) (index : Int32) :
    parseConfigParam configParam index [] = .ok configParam := rfl

/-- A word in a line that belongs to no row is written beyond the rows. -/
theorem parseConfigParam_error {m : ℕ} (hm : ¬ ∃ r < NUMBER_OF_CONFIG_VAR, InRow r m) {str : Bytes}
    (hstr : str ≠ []) (configParam : ConfigParam) :
    ∃ e, parseConfigParam configParam (Int32.ofNat m) str = .error e := by
  obtain ⟨l, ls, hls⟩ := List.exists_cons_of_ne_nil (mt (getlines_eq_nil (d := 32)).mp hstr)
  refine ⟨.row (Int32.ofNat m), ?_⟩
  have hout : ¬ (0 ≤ (Int32.ofNat m).toInt ∧ (Int32.ofNat m).toInt.toNat < NUMBER_OF_CONFIG_VAR) :=
    fun h => hm ⟨(Int32.ofNat m).toInt.toNat, h.2, by unfold InRow; omega⟩
  rw [parseConfigParam, hls, List.foldlM_cons, pushParam, dif_neg hout]
  rfl

theorem parseConfigParam_ok {m : ℕ} {str : Bytes}
    (h : str ≠ [] → ∃ r < NUMBER_OF_CONFIG_VAR, InRow r m) (configParam : ConfigParam) :
    ∃ configParam', parseConfigParam configParam (Int32.ofNat m) str = .ok configParam' ∧
      ∀ r (hr : r < NUMBER_OF_CONFIG_VAR), configParam'[r] =
        configParam[r] ++ if InRow r m then words str else [] := by
  by_cases hstr : str = []
  · subst hstr
    refine ⟨configParam, parseConfigParam_nil _ _, fun r hr => ?_⟩
    rw [words_eq_nil.mpr rfl, ite_self, List.append_nil]
  · obtain ⟨r₀, hr₀, hm⟩ := h hstr
    refine ⟨_, parseConfigParam_of_inRow hm hr₀ str, fun r hr => ?_⟩
    by_cases hrow : InRow r m
    · obtain rfl := hm.eq hrow
      rw [if_pos hrow, Vector.getElem_set_self]
    · have hne : r₀ ≠ r := fun he => hrow (he ▸ hm)
      rw [if_neg hrow, List.append_nil, Vector.getElem_set_ne hr₀ hr hne]

theorem rowFrom_cons (m r : ℕ) (str : Bytes) (rest : List Bytes) :
    rowFrom m r (str :: rest) = (if InRow r m then words str else []) ++ rowFrom (m + 1) r rest := rfl

theorem linesFit_cons {m : ℕ} {str : Bytes} {rest : List Bytes} : LinesFit m (str :: rest) ↔
    (str ≠ [] → ∃ r < NUMBER_OF_CONFIG_VAR, InRow r m) ∧ LinesFit (m + 1) rest :=
  List.forall_mem_cons

/-- **The rows after loading**: their lines, if no other line holds words. -/
theorem loadLines_ok {m : ℕ} {lines : List Bytes} (h : LinesFit m lines) (configParam : ConfigParam) :
    ∃ configParam', loadLines configParam (Int32.ofNat m) lines = .ok configParam' ∧
      ∀ r (hr : r < NUMBER_OF_CONFIG_VAR), configParam'[r] = configParam[r] ++ rowFrom m r lines := by
  induction lines generalizing m configParam with
  | nil => exact ⟨configParam, rfl, fun r hr => (List.append_nil _).symm⟩
  | cons str rest ih =>
    obtain ⟨hstr, hrest⟩ := linesFit_cons.mp h
    obtain ⟨cp₁, h₁, hrow₁⟩ := parseConfigParam_ok hstr configParam
    obtain ⟨cp₂, h₂, hrow₂⟩ := ih hrest cp₁
    rw [Int32.ofNat_add] at h₂
    refine ⟨cp₂, ?_, fun r hr => ?_⟩
    · simp only [loadLines, h₁, bind, Except.bind]
      exact h₂
    · rw [hrow₂ r hr, hrow₁ r hr, rowFrom_cons, List.append_assoc]

theorem loadLines_error {m : ℕ} {lines : List Bytes} (h : ¬ LinesFit m lines)
    (configParam : ConfigParam) : ∃ e, loadLines configParam (Int32.ofNat m) lines = .error e := by
  induction lines generalizing m configParam with
  | nil => exact absurd (fun line hl => by cases hl) h
  | cons str rest ih =>
    by_cases hstr : str ≠ [] → ∃ r < NUMBER_OF_CONFIG_VAR, InRow r m
    · obtain ⟨cp₁, h₁, -⟩ := parseConfigParam_ok hstr configParam
      obtain ⟨e, he⟩ := ih (fun hrest => h (linesFit_cons.mpr ⟨hstr, hrest⟩)) cp₁
      rw [Int32.ofNat_add] at he
      refine ⟨e, ?_⟩
      simp only [loadLines, h₁, bind, Except.bind]
      exact he
    · obtain ⟨hne, hno⟩ := Classical.not_imp.mp hstr
      obtain ⟨e, he⟩ := parseConfigParam_error hno hne configParam
      exact ⟨e, by simp only [loadLines, he, bind, Except.bind]⟩

/-! ## Columns -/

/-- The first `k` elements of a row can be read with `int` positions. -/
def Readable (xs : List Int32) (k : ℕ) : Prop := k ≤ xs.length ∧ k ≤ 2 ^ 31

instance (xs : List Int32) (k : ℕ) : Decidable (Readable xs k) := inferInstanceAs (Decidable (_ ∧ _))

theorem toInt_ofNat_neg {j : ℕ} (h₁ : 2 ^ 31 ≤ j) (h₂ : j < 2 ^ 32) : (Int32.ofNat j).toInt < 0 := by
  rw [Int32.toInt_ofNat', show Int32.size = 2 ^ 32 from rfl, Int.bmod]
  have hmod : (j : ℤ) % (2 ^ 32 : ℕ) = j := Int.emod_eq_of_lt (by omega) (by exact_mod_cast h₂)
  rw [hmod, if_neg (by omega)]
  omega

theorem column_ok {row j : ℕ} {xs : List Int32} (h : Readable xs (j + 1)) :
    column row xs (Int32.ofNat j) = .ok (xs.get ⟨j, h.1⟩) := by
  have hj : (Int32.ofNat j).toInt = j := Int32.toInt_ofNat_of_lt h.2
  have hnat : (Int32.ofNat j).toInt.toNat = j := by omega
  rw [column, dif_pos ⟨by omega, by rw [hnat]; exact h.1⟩]
  simp only [hnat, List.get_eq_getElem]

theorem column_error {row j : ℕ} {xs : List Int32} (hj : j < 2 ^ 32) (h : ¬ Readable xs (j + 1)) :
    column row xs (Int32.ofNat j) = .error (.column row (Int32.ofNat j)) := by
  rw [column, dif_neg]
  rintro ⟨hpos, hlen⟩
  by_cases hlt : j < 2 ^ 31
  · have hj : (Int32.ofNat j).toInt = j := Int32.toInt_ofNat_of_lt hlt
    exact h ⟨by omega, hlt⟩
  · have := toInt_ofNat_neg (not_lt.mp hlt) hj
    omega

/-- **A loop of `main` collects a part of a row**, if the row is long enough and the positions are
`int`s. -/
theorem collect_ok {row offset i k : ℕ} {xs : List Int32} (h : Readable xs (i + offset + k)) :
    collect row xs (Int32.ofNat offset) (Int32.ofNat i) k = .ok ((xs.drop (i + offset)).take k) := by
  induction k generalizing i with
  | zero => simp [collect]
  | succ k ih =>
    have hrest := ih (i := i + 1) (by rwa [show i + 1 + offset + k = i + offset + (k + 1) by omega])
    rw [Int32.ofNat_add] at hrest
    have hread : Readable xs (i + offset + 1) := ⟨by have := h.1; omega, by have := h.2; omega⟩
    have hcol : column row xs (Int32.ofNat (i + offset)) = _ := column_ok hread
    rw [Int32.ofNat_add] at hcol
    simp only [collect, hcol, bind, Except.bind]
    rw [show (1 : Int32) = Int32.ofNat 1 from rfl, hrest]
    simp only [pure, Except.pure, Except.ok.injEq]
    rw [List.get_eq_getElem, List.drop_eq_getElem_cons hread.1, List.take_succ_cons,
      show i + 1 + offset = i + offset + 1 by omega]

theorem collect_error {row offset i k : ℕ} {xs : List Int32} (hk : k ≠ 0)
    (hlt : i + offset + k ≤ 2 ^ 32) (h : ¬ Readable xs (i + offset + k)) :
    ∃ e, collect row xs (Int32.ofNat offset) (Int32.ofNat i) k = .error e := by
  induction k generalizing i with
  | zero => exact absurd rfl hk
  | succ k ih =>
    by_cases hread : Readable xs (i + offset + 1)
    · have hcol : column row xs (Int32.ofNat (i + offset)) = _ := column_ok hread
      rw [Int32.ofNat_add] at hcol
      have hk' : k ≠ 0 := by
        rintro rfl
        exact h hread
      obtain ⟨e, he⟩ := ih (i := i + 1) hk' (by omega)
        (by rwa [show i + 1 + offset + k = i + offset + (k + 1) by omega])
      rw [Int32.ofNat_add, show Int32.ofNat 1 = 1 from rfl] at he
      refine ⟨e, ?_⟩
      simp only [collect, hcol, he, bind, Except.bind]
    · have hcol : column row xs (Int32.ofNat (i + offset)) = _ := column_error (by omega) hread
      rw [Int32.ofNat_add] at hcol
      exact ⟨_, by simp only [collect, hcol, bind, Except.bind]; rfl⟩

/-! ## The variables of `main` -/

section

variable {row : ℕ → List Int32} {configParam : ConfigParam}

/-- The count in the row of the values, as the rounds of a loop. -/
def sizeOf (row : ℕ → List Int32) : ℕ := ((row 2)[1]?.getD 0).toInt.toNat

/-- **The columns fit**: the first three rows have a number behind their name, and the rows of the values
and of the destinations as many more as the count says. -/
def ColumnsFit (row : ℕ → List Int32) : Prop :=
  2 ≤ (row 0).length ∧ 2 ≤ (row 1).length ∧ 2 ≤ (row 2).length ∧
  (sizeOf row ≠ 0 → Readable (row 2) (sizeOf row + 2) ∧ Readable (row 3) (sizeOf row + 1))

instance (row : ℕ → List Int32) : Decidable (ColumnsFit row) :=
  inferInstanceAs (Decidable (_ ∧ _ ∧ _ ∧ (_ → _ ∧ _)))

/-- What `main` takes from the rows. -/
def configOf (row : ℕ → List Int32) : Config where
  totalPeers := (row 0)[1]?.getD 0
  id := (row 1)[1]?.getD 0
  submitValue := ((row 2).drop 2).take (sizeOf row)
  sendto := ((row 3).drop 1).take (sizeOf row)

theorem column_one {r : ℕ} {xs : List Int32} (h : 2 ≤ xs.length) :
    column r xs 1 = .ok (xs[1]?.getD 0) := by
  have hread : Readable xs (1 + 1) := ⟨h, by decide⟩
  rw [show (1 : Int32) = Int32.ofNat 1 from rfl, column_ok hread, List.get_eq_getElem,
    List.getElem?_eq_getElem hread.1, Option.getD_some]

theorem column_one_error {r : ℕ} {xs : List Int32} (h : ¬ 2 ≤ xs.length) :
    column r xs 1 = .error (.column r 1) := column_error (j := 1) (by decide) fun hr => h hr.1

theorem collect_zero_ok {r offset k : ℕ} {xs : List Int32} (h : k ≠ 0 → Readable xs (k + offset)) :
    collect r xs (Int32.ofNat offset) 0 k = .ok ((xs.drop offset).take k) := by
  by_cases hk : k = 0
  · subst hk
    simp [collect]
  · have hread : Readable xs (0 + offset + k) := by
      rw [Nat.zero_add, Nat.add_comm]
      exact h hk
    have hcol : collect r xs (Int32.ofNat offset) (Int32.ofNat 0) k = _ := collect_ok hread
    rwa [Nat.zero_add] at hcol

theorem collect_zero_error {r offset k : ℕ} {xs : List Int32} (hlt : k + offset ≤ 2 ^ 32)
    (h : ¬ (k ≠ 0 → Readable xs (k + offset))) :
    ∃ e, collect r xs (Int32.ofNat offset) 0 k = .error e := by
  obtain ⟨hk, hn⟩ := Classical.not_imp.mp h
  refine collect_error (i := 0) hk (by omega) ?_
  rwa [Nat.zero_add, Nat.add_comm]

theorem sizeOf_lt (row : ℕ → List Int32) : sizeOf row < 2 ^ 31 := by
  have := ((row 2)[1]?.getD 0).toInt_lt
  unfold sizeOf
  omega

theorem mainConfig_ok (hrow : ∀ r (hr : r < NUMBER_OF_CONFIG_VAR), configParam[r] = row r)
    (h : ColumnsFit row) : mainConfig configParam = .ok (configOf row) := by
  obtain ⟨h₀, h₁, h₂, hsize⟩ := h
  have hvalues : collect 2 (row 2) (Int32.ofNat 2) 0 (sizeOf row) = _ :=
    collect_zero_ok fun hk => (hsize hk).1
  have hsendto : collect 3 (row 3) (Int32.ofNat 1) 0 (sizeOf row) = _ :=
    collect_zero_ok fun hk => (hsize hk).2
  simp only [mainConfig, hrow, column_one h₀, column_one h₁, column_one h₂, bind, Except.bind]
  rw [← sizeOf, show (2 : Int32) = Int32.ofNat 2 from rfl, show (1 : Int32) = Int32.ofNat 1 from rfl,
    hvalues, hsendto]
  rfl

theorem mainConfig_error (hrow : ∀ r (hr : r < NUMBER_OF_CONFIG_VAR), configParam[r] = row r)
    (h : ¬ ColumnsFit row) : ∃ e, mainConfig configParam = .error e := by
  have hlt := sizeOf_lt row
  simp only [mainConfig, hrow, bind, Except.bind]
  by_cases h₀ : 2 ≤ (row 0).length
  swap
  · exact ⟨_, by rw [column_one_error h₀]⟩
  by_cases h₁ : 2 ≤ (row 1).length
  swap
  · exact ⟨_, by rw [column_one h₀, column_one_error h₁]⟩
  by_cases h₂ : 2 ≤ (row 2).length
  swap
  · exact ⟨_, by rw [column_one h₀, column_one h₁, column_one_error h₂]⟩
  simp only [column_one h₀, column_one h₁, column_one h₂]
  rw [← sizeOf, show (2 : Int32) = Int32.ofNat 2 from rfl, show (1 : Int32) = Int32.ofNat 1 from rfl]
  by_cases hvalues : sizeOf row ≠ 0 → Readable (row 2) (sizeOf row + 2)
  · rw [collect_zero_ok hvalues]
    by_cases hsendto : sizeOf row ≠ 0 → Readable (row 3) (sizeOf row + 1)
    · exact absurd ⟨h₀, h₁, h₂, fun hk => ⟨hvalues hk, hsendto hk⟩⟩ h
    · obtain ⟨e, he⟩ : ∃ e, collect 3 (row 3) (Int32.ofNat 1) 0 (sizeOf row) = .error e :=
        collect_zero_error (by omega) hsendto
      exact ⟨e, by simp only [he]⟩
  · obtain ⟨e, he⟩ : ∃ e, collect 2 (row 2) (Int32.ofNat 2) 0 (sizeOf row) = .error e :=
      collect_zero_error (by omega) hvalues
    exact ⟨e, by simp only [he]⟩

end

/-- The text of a file; one that cannot be opened is as good as an empty one. -/
def textOf (file : Option Bytes) : Bytes := file.getD []

/-- **A configuration fits**: its words stand in the lines of the four rows, and the columns fit. -/
def ConfigFits (file : Option Bytes) : Prop :=
  LinesFit 0 (getlines 10 (textOf file)) ∧ ColumnsFit fun r => rowOf r (textOf file)

theorem loadConfig_ok {file : Option Bytes} (h : LinesFit 0 (getlines 10 (textOf file))) :
    ∃ configParam, loadConfig emptyConfig file = .ok configParam ∧
      ∀ r (hr : r < NUMBER_OF_CONFIG_VAR), configParam[r] = rowOf r (textOf file) := by
  cases file with
  | none => exact ⟨emptyConfig, rfl, fun r hr => Vector.getElem_replicate hr⟩
  | some text =>
    obtain ⟨cp, hload, hrow⟩ := loadLines_ok h (emptyConfig.set 0 [])
    refine ⟨cp, hload, fun r hr => (hrow r hr).trans ?_⟩
    have hempty : (emptyConfig.set 0 [])[r] = [] := by
      rw [Vector.getElem_set, emptyConfig, Vector.getElem_replicate, ite_self]
    rw [hempty, List.nil_append]
    rfl

theorem loadConfig_error {file : Option Bytes} (h : ¬ LinesFit 0 (getlines 10 (textOf file))) :
    ∃ e, loadConfig emptyConfig file = .error e := by
  cases file with
  | none => exact absurd (fun line hl => by cases hl) h
  | some text => exact loadLines_error h (emptyConfig.set 0 [])

/-- **The configuration that fits is what stands in the rows.** -/
theorem readConfig_ok {file : Option Bytes} (h : ConfigFits file) :
    readConfig file = .ok (configOf fun r => rowOf r (textOf file)) := by
  obtain ⟨cp, hload, hrow⟩ := loadConfig_ok h.1
  simp only [readConfig, hload, bind, Except.bind]
  exact mainConfig_ok hrow h.2

theorem readConfig_error {file : Option Bytes} (h : ¬ ConfigFits file) :
    ∃ e, readConfig file = .error e := by
  by_cases hlines : LinesFit 0 (getlines 10 (textOf file))
  · obtain ⟨cp, hload, hrow⟩ := loadConfig_ok hlines
    obtain ⟨e, he⟩ := mainConfig_error hrow fun hcol => h ⟨hlines, hcol⟩
    exact ⟨e, by simp only [readConfig, hload, bind, Except.bind, he]⟩
  · obtain ⟨e, he⟩ := loadConfig_error hlines
    exact ⟨e, by simp only [readConfig, he, bind, Except.bind]⟩

/-! ## A written configuration -/

/-- `"TOTAL_PEERS"`. -/
def totalPeersName : Bytes := [84, 79, 84, 65, 76, 95, 80, 69, 69, 82, 83]

/-- `"ID"`. -/
def idName : Bytes := [73, 68]

/-- `"VALUE"`. -/
def valueName : Bytes := [86, 65, 76, 85, 69]

/-- `"SEND_TO"`. -/
def sendtoName : Bytes := [83, 69, 78, 68, 95, 84, 79]

/-- A line of a configuration: the name of a variable, and each number behind a space. -/
def paramLine (name : Bytes) (xs : List ℤ) : Bytes := name ++ (xs.map decInt).flatMap (32 :: ·)

/-- A configuration as the files under `config` have it, with `j` empty lines at its end. -/
def configText (n id : Int32) (vs ds : List Int32) (j : ℕ) : Bytes :=
  paramLine totalPeersName [n.toInt] ++ 10 :: (paramLine idName [id.toInt] ++ 10 ::
    (paramLine valueName (vs.length :: vs.map Int32.toInt) ++ 10 ::
      (paramLine sendtoName (ds.map Int32.toInt) ++ 10 :: List.replicate j 10)))

theorem decInt_ne_nil (z : ℤ) : decInt z ≠ [] := by
  have hnat : decNat z.natAbs ≠ [] := by
    unfold decNat
    split_ifs with h
    · exact List.cons_ne_nil _ _
    · simpa [Nat.digits_ne_nil_iff_ne_zero] using h
  unfold decInt
  split_ifs
  · exact List.cons_ne_nil _ _
  · exact hnat

theorem words_paramLine {name : Bytes} (h : 32 ∉ name) (hne : name ≠ []) (xs : List ℤ) :
    words (paramLine name xs) = atoi name :: xs.map fun x => atoi (decInt x) := by
  have hxs : ∀ w ∈ xs.map decInt, 32 ∉ w ∧ w ≠ [] := by
    intro w hw
    obtain ⟨x, -, rfl⟩ := List.mem_map.mp hw
    exact ⟨notMem_decInt (by decide) (by decide) x, decInt_ne_nil x⟩
  rw [words, paramLine, getlines_join h hne hxs, List.map_cons, List.map_map]
  rfl

theorem notMem_paramLine {name : Bytes} (h : 10 ∉ name) (xs : List ℤ) : 10 ∉ paramLine name xs := by
  rw [paramLine, List.mem_append, not_or]
  refine ⟨h, fun hmem => ?_⟩
  obtain ⟨w, hw, hmem⟩ := List.mem_flatMap.mp hmem
  obtain ⟨x, -, rfl⟩ := List.mem_map.mp hw
  rcases List.mem_cons.mp hmem with h | h
  · exact absurd h (by decide)
  · exact notMem_decInt (by decide) (by decide) x h

theorem map_atoi_decInt (xs : List Int32) :
    (xs.map Int32.toInt).map (fun x => atoi (decInt x)) = xs := by
  rw [List.map_map]
  exact (List.map_congr_left fun x _ => atoi_decInt x).trans xs.map_id

/-- Empty lines hold no words, wherever they stand. -/
theorem rowFrom_replicate (m r j : ℕ) : rowFrom m r (List.replicate j []) = [] := by
  induction j generalizing m with
  | zero => rfl
  | succ j ih => rw [List.replicate_succ, rowFrom_cons, words_eq_nil.mpr rfl, ite_self, ih,
      List.append_nil]

theorem linesFit_replicate (m j : ℕ) : LinesFit m (List.replicate j []) := by
  induction j generalizing m with
  | zero => exact fun line hl => by cases hl
  | succ j ih => exact linesFit_cons.mpr ⟨fun h => absurd rfl h, ih (m + 1)⟩

section

variable {n id : Int32} {vs ds : List Int32} {j : ℕ}

theorem getlines_configText : getlines 10 (configText n id vs ds j) =
    paramLine totalPeersName [n.toInt] :: paramLine idName [id.toInt] ::
      paramLine valueName (vs.length :: vs.map Int32.toInt) ::
        paramLine sendtoName (ds.map Int32.toInt) :: List.replicate j [] := by
  rw [configText, getlines_append (notMem_paramLine (by decide) _),
    getlines_append (notMem_paramLine (by decide) _),
    getlines_append (notMem_paramLine (by decide) _),
    getlines_append (notMem_paramLine (by decide) _), getlines_replicate]

theorem linesFit_configText : LinesFit 0 (getlines 10 (configText n id vs ds j)) := by
  rw [getlines_configText]
  refine linesFit_cons.mpr ⟨fun _ => ⟨0, by decide, by decide⟩, ?_⟩
  refine linesFit_cons.mpr ⟨fun _ => ⟨1, by decide, by decide⟩, ?_⟩
  refine linesFit_cons.mpr ⟨fun _ => ⟨2, by decide, by decide⟩, ?_⟩
  exact linesFit_cons.mpr ⟨fun _ => ⟨3, by decide, by decide⟩, linesFit_replicate _ j⟩

/-- The number that is read where a count was written. -/
def readCount (k : ℕ) : Int32 := atoi (decInt k)

theorem readCount_toInt {k : ℕ} (h : k < 2 ^ 31) : (readCount k).toInt = k := by
  rw [readCount, ← Int32.toInt_ofNat_of_lt h, atoi_decInt, Int32.toInt_ofNat_of_lt h]

theorem rowOf_configText (r : ℕ) : rowOf r (configText n id vs ds j) =
    match r with
    | 0 => [atoi totalPeersName, n]
    | 1 => [atoi idName, id]
    | 2 => atoi valueName :: readCount vs.length :: vs
    | 3 => atoi sendtoName :: ds
    | _ => [] := by
  have hin : ∀ m < NUMBER_OF_CONFIG_VAR, InRow r m ↔ m = r := by
    intro m hm
    have hm' : m < 2 ^ 31 := lt_trans hm (by decide)
    rw [InRow, Int32.toInt_ofNat_of_lt hm', Int.ofNat_inj]
  rw [rowOf, getlines_configText, rowFrom_cons, rowFrom_cons, rowFrom_cons, rowFrom_cons,
    rowFrom_replicate, words_paramLine (by decide) (by decide), words_paramLine (by decide) (by decide),
    words_paramLine (by decide) (by decide), words_paramLine (by decide) (by decide)]
  simp only [hin 0 (by decide), hin 1 (by decide), hin 2 (by decide), hin 3 (by decide),
    List.map_cons, map_atoi_decInt, List.map_nil, atoi_decInt, List.append_nil]
  rcases r with _ | _ | _ | _ | r <;> simp [readCount]

theorem columnsFit_configText (hlen : vs.length = ds.length) (h : vs.length + 2 ≤ 2 ^ 31) :
    ColumnsFit fun r => rowOf r (configText n id vs ds j) := by
  have hsize : sizeOf (fun r => rowOf r (configText n id vs ds j)) = vs.length := by
    have hcount := readCount_toInt (k := vs.length) (by omega)
    simp only [sizeOf, rowOf_configText, List.getElem?_cons_succ, List.getElem?_cons_zero,
      Option.getD_some]
    omega
  rw [ColumnsFit, hsize]
  simp only [rowOf_configText, Readable, List.length_cons, List.length_nil]
  omega

theorem configOf_configText (hlen : vs.length = ds.length) (h : vs.length < 2 ^ 31) :
    configOf (fun r => rowOf r (configText n id vs ds j)) = ⟨n, id, vs, ds⟩ := by
  have hcount := readCount_toInt h
  have hsize : (readCount vs.length).toInt.toNat = vs.length := by omega
  simp only [configOf, sizeOf, rowOf_configText, List.getElem?_cons_succ, List.getElem?_cons_zero,
    Option.getD_some, hsize, List.drop_succ_cons, List.drop_zero, List.take_length]
  rw [hlen, List.take_length]

/-- A count beyond the positions of an `int` is not read back. -/
theorem length_of_readConfig
    (h : readConfig (some (configText n id vs ds j)) = .ok ⟨n, id, vs, ds⟩) :
    vs.length + 2 ≤ 2 ^ 31 := by
  by_cases hfits : ConfigFits (some (configText n id vs ds j))
  swap
  · obtain ⟨e, he⟩ := readConfig_error hfits
    rw [he] at h
    cases h
  rw [readConfig_ok hfits, Except.ok.injEq] at h
  have hvs : vs.length ≤ sizeOf fun r => rowOf r (configText n id vs ds j) := by
    have hval := congrArg (fun c => c.submitValue.length) h
    simp only [configOf, List.length_take] at hval
    exact hval ▸ min_le_left _ _
  obtain ⟨-, -, -, hsize⟩ := hfits.2
  by_cases hzero : vs.length = 0
  · omega
  · have hread := (hsize (show sizeOf (fun r => rowOf r (configText n id vs ds j)) ≠ 0 by omega)).1.2
    have hcount : sizeOf (fun r => rowOf r (configText n id vs ds j)) + 2 ≤ 2 ^ 31 := hread
    omega

/-- **The configuration round trip**: what is written is read back, without an access beyond a row,
exactly if an `int` counts the positions of the values. -/
theorem config_roundTrip_iff (hlen : vs.length = ds.length) :
    readConfig (some (configText n id vs ds j)) = .ok ⟨n, id, vs, ds⟩ ↔ vs.length + 2 ≤ 2 ^ 31 := by
  refine ⟨length_of_readConfig, fun h => ?_⟩
  have hfits : ConfigFits (some (configText n id vs ds j)) :=
    ⟨linesFit_configText, columnsFit_configText hlen h⟩
  rw [readConfig_ok hfits, ← configOf_configText (j := j) hlen (by omega)]
  rfl

end

theorem config_roundTrip_two :
    readConfig (some (configText 4 3 [111111, -222222] [1, 2] 1)) =
      .ok ⟨4, 3, [111111, -222222], [1, 2]⟩ := by
  have hlen : [111111, -222222].length = ([1, 2] : List Int32).length := rfl
  have hcount : ([111111, -222222] : List Int32).length + 2 ≤ 2 ^ 31 := by decide
  exact (config_roundTrip_iff hlen).mpr hcount

/-- `2 ^ 31 - 1` values: their count is an `int`, the position of the last one is not. -/
theorem config_positions :
    ¬ ∀ (n id : Int32) (vs ds : List Int32) (j : ℕ), vs.length = ds.length →
      readConfig (some (configText n id vs ds j)) = .ok ⟨n, id, vs, ds⟩ := by
  intro h
  have hread := length_of_readConfig (h 4 1 (List.replicate (2 ^ 31 - 1) 0)
    (List.replicate (2 ^ 31 - 1) 0) 0 rfl)
  rw [List.length_replicate] at hread
  omega

end Confirmer
