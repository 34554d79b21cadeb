import Confirmer.Codec
import Confirmer.Lib.Split

/-!
# The parser on any string

A string that a reader has handed over holds a newline, and nothing else is known of it. The parser
steps from delimiter to delimiter, and from the end of the string back behind its first character.

* `ReadTo`, **`nextField_read`**: the parser meets the fields `nthField` of the string.
* `SizeOk`, `Fits`, `content`: the sizes that fit, and what a string says then.
* `decode_of_fits`, `decode_of_not_fits`; **`parser_in_bounds_iff`**: the parser stays in bounds exactly on
  the strings whose sizes fit.
* `parser_overrun`: strings on which it does not.
-/

namespace Confirmer

open Text

variable {B : BLS}

/-! ## Fields of any string -/

/-- The parser has read `n` fields of `s`, and the last delimiter was found at `fin`. -/
structure ReadTo (s : Bytes) (n : ℕ) (fin : ℤ) : Prop where
  lower : -2 ≤ fin
  inside : (fin + 2).toNat ≤ s.length
  parts_eq : parts 58 (s.drop (fin + 2).toNat) = left 58 s n

theorem readTo_start (s : Bytes) : ReadTo s 0 (-2) := ⟨le_rfl, Nat.zero_le _, rfl⟩

/-- **One field after the other**, whatever the string is. -/
theorem nextField_read {s : Bytes} (hs : s ≠ []) {n : ℕ} {fin : ℤ} (h : ReadTo s n fin) :
    ∃ fin', nextField s fin = .ok (nthField 58 s n, fin') ∧ ReadTo s (n + 1) fin' := by
  obtain ⟨hlow, hin, hparts⟩ := h
  have hlen : 0 < s.length := List.length_pos_of_ne_nil hs
  cases hf : findSub delim (s.drop (fin + 2).toNat) with
  | none =>
    -- no more delimiters: the last field, and back to the second character
    have hone := parts_of_find_none hf
    rw [hparts] at hone
    refine ⟨-1, ?_, ⟨by omega, by rw [show ((-1 : ℤ) + 2).toNat = 1 from rfl]; exact hlen, ?_⟩⟩
    · simp only [nextField, find, hf, substr, if_neg (not_lt.mpr hin), bind, Except.bind, pure,
        Except.pure, nthField, hone]
      rw [if_pos (by omega), List.take_of_length_le (by rw [List.length_drop]; omega)]
      rfl
    · rw [left, hone, List.tail_cons, if_pos rfl, ← List.drop_one]
      rfl
  | some k =>
    have hcons := parts_of_find hf
    rw [hparts] at hcons
    have hpre := (findSub_eq_some_iff.mp hf).2.1.length_le
    rw [List.length_drop, List.length_drop] at hpre
    change 2 ≤ _ at hpre
    have hpos : (fin + 2 + k + 2).toNat = (fin + 2).toNat + (k + 2) := by omega
    refine ⟨fin + 2 + k, ?_, ⟨by omega, by omega, ?_⟩⟩
    · simp only [nextField, find, hf, substr, if_neg (not_lt.mpr hin), bind, Except.bind, pure,
        Except.pure, nthField, hcons]
      rw [if_neg (by omega), show (fin + 2 + (k : ℤ) - (fin + 2)).toNat = k by omega]
      rfl
    · rw [left, hcons, List.tail_cons, if_neg (parts_ne_nil _), hpos, ← List.drop_drop]

theorem firstField_read {s : Bytes} (hs : s ≠ []) :
    firstField s = .ok (atoi (nthField 58 s 0), find s 0) ∧ ReadTo s 1 (find s 0) := by
  obtain ⟨fin, hn, hr⟩ := nextField_read hs (readTo_start s)
  simp only [nextField, bind, Except.bind, pure, Except.pure, neg_add_cancel, sub_zero] at hn
  cases hsub : substr s 0 (find s 0) with
  | error e => rw [hsub] at hn; cases hn
  | ok str =>
    rw [hsub] at hn
    cases hn
    refine ⟨?_, hr⟩
    simp only [firstField, hsub, bind, Except.bind, pure, Except.pure]

/-- The text behind the first delimiter, or behind the first character if there is none. -/
def behind (s : Bytes) : Bytes :=
  match findSub delim s with
  | some k => s.drop (k + 2)
  | none => s.tail

theorem substr_behind {s : Bytes} (hs : s ≠ []) : substr s (find s 0 + 2) s.length = .ok (behind s) := by
  have hr := (firstField_read hs).2
  have hdrop : s.drop (find s 0 + 2).toNat = behind s := by
    have hzero : s.drop (0 : ℤ).toNat = s := rfl
    unfold find behind
    rw [hzero]
    cases findSub delim s with
    | none => exact List.drop_one
    | some k => exact congrArg s.drop (show (0 + (k : ℤ) + 2).toNat = k + 2 by omega)
  rw [substr, if_neg (not_lt.mpr hr.inside), if_neg (by omega), hdrop, Int.toNat_natCast,
    List.take_of_length_le (by rw [← hdrop, List.length_drop]; omega)]

/-! ## What fits -/

/-- Field `n` of `t` holds a size that the field behind it has. -/
def SizeOk (t : Bytes) (n : ℕ) : Prop :=
  0 ≤ (atoi (nthField 58 t n)).toInt ∧ (atoi (nthField 58 t n)).toInt ≤ (nthField 58 t (n + 1)).length

instance (t : Bytes) (n : ℕ) : Decidable (SizeOk t n) := inferInstanceAs (Decidable (_ ∧ _))

/-- The bytes that are copied for the size in field `n`. -/
def copied (t : Bytes) (n : ℕ) : Bytes :=
  (nthField 58 t (n + 1)).take (atoi (nthField 58 t n)).toInt.toNat

theorem memcpy_of_sizeOk {t : Bytes} {n : ℕ} (h : SizeOk t n) :
    memcpy (nthField 58 t (n + 1)) (atoi (nthField 58 t n)) = .ok (copied t n) := by
  unfold SizeOk at h
  rw [memcpy, if_neg (by omega)]
  rfl

theorem memcpy_of_not_sizeOk {t : Bytes} {n : ℕ} (h : ¬ SizeOk t n) :
    memcpy (nthField 58 t (n + 1)) (atoi (nthField 58 t n)) = .error .memcpy := by
  unfold SizeOk at h
  rw [memcpy, if_pos (by omega)]

/-- The sizes in the rest of a submit message fit. An empty rest has no second character to start from
again. -/
def SubmitFits (t : Bytes) : Prop := t ≠ [] ∧ SizeOk t 3 ∧ SizeOk t 5

/-- The size in the rest of an aggregate-signature message fits. -/
def AggSignFits (t : Bytes) : Prop := t ≠ [] ∧ SizeOk t 3

instance (t : Bytes) : Decidable (SubmitFits t) := inferInstanceAs (Decidable (_ ∧ _ ∧ _))

instance (t : Bytes) : Decidable (AggSignFits t) := inferInstanceAs (Decidable (_ ∧ _))

/-- The submit message in the rest of a string. -/
def submitOf (t : Bytes) : SubmitFields :=
  ⟨atoi (nthField 58 t 1), atoi (nthField 58 t 2), copied t 3, copied t 5⟩

/-- The aggregate-signature message in the rest of a string. -/
def aggSignOf (t : Bytes) : AggSignFields :=
  ⟨atoi (nthField 58 t 1), atoi (nthField 58 t 2), copied t 3⟩

theorem nextField_nil : nextField [] (find [] 0) = .error .outOfRange := rfl

theorem submitFields_eq (t : Bytes) :
    (SubmitFits t → submitFields t (find t 0) = .ok (submitOf t)) ∧
    (¬ SubmitFits t → ∃ e, submitFields t (find t 0) = .error e) := by
  by_cases ht : t = []
  · subst ht
    refine ⟨fun h => absurd rfl h.1, fun _ => ⟨.outOfRange, ?_⟩⟩
    simp only [submitFields, nextField_nil, bind, Except.bind]
  obtain ⟨f1, e1, h⟩ := nextField_read ht (firstField_read ht).2
  obtain ⟨f2, e2, h⟩ := nextField_read ht h
  obtain ⟨f3, e3, h⟩ := nextField_read ht h
  obtain ⟨f4, e4, h⟩ := nextField_read ht h
  obtain ⟨f5, e5, h⟩ := nextField_read ht h
  obtain ⟨f6, e6, h⟩ := nextField_read ht h
  simp only [submitFields, bind, Except.bind, pure, Except.pure, e1, e2, e3, e4, e5, e6]
  by_cases h3 : SizeOk t 3
  · rw [memcpy_of_sizeOk h3]
    by_cases h5 : SizeOk t 5
    · simp only [memcpy_of_sizeOk h5]
      exact ⟨fun _ => rfl, fun hn => absurd ⟨ht, h3, h5⟩ hn⟩
    · simp only [memcpy_of_not_sizeOk h5]
      exact ⟨fun hf => absurd hf.2.2 h5, fun _ => ⟨_, rfl⟩⟩
  · rw [memcpy_of_not_sizeOk h3]
    exact ⟨fun hf => absurd hf.2.1 h3, fun _ => ⟨_, rfl⟩⟩

theorem aggSignFields_eq (t : Bytes) :
    (AggSignFits t → aggSignFields t (find t 0) = .ok (aggSignOf t)) ∧
    (¬ AggSignFits t → ∃ e, aggSignFields t (find t 0) = .error e) := by
  by_cases ht : t = []
  · subst ht
    refine ⟨fun h => absurd rfl h.1, fun _ => ⟨.outOfRange, ?_⟩⟩
    simp only [aggSignFields, nextField_nil, bind, Except.bind]
  obtain ⟨f1, e1, h⟩ := nextField_read ht (firstField_read ht).2
  obtain ⟨f2, e2, h⟩ := nextField_read ht h
  obtain ⟨f3, e3, h⟩ := nextField_read ht h
  obtain ⟨f4, e4, h⟩ := nextField_read ht h
  simp only [aggSignFields, bind, Except.bind, pure, Except.pure, e1, e2, e3, e4]
  by_cases h3 : SizeOk t 3
  · rw [memcpy_of_sizeOk h3]
    exact ⟨fun _ => rfl, fun hn => absurd ⟨ht, h3⟩ hn⟩
  · rw [memcpy_of_not_sizeOk h3]
    exact ⟨fun hf => absurd hf.2 h3, fun _ => ⟨_, rfl⟩⟩

/-! ## Any string -/

/-- The number in front of the first delimiter. -/
def typeOf (message : Bytes) : Int32 := atoi (nthField 58 message 0)

/-- Is the string a confirmer message? -/
def IsConfirmer (message : Bytes) : Prop :=
  typeOf message = MessageType.submit ∨ typeOf message = MessageType.aggSign

instance (message : Bytes) : Decidable (IsConfirmer message) := inferInstanceAs (Decidable (_ ∨ _))

/-- The destination of a confirmer message. -/
def destOf (message : Bytes) : Int32 := atoi (nthField 58 (behind message) 0)

/-- Is a confirmer message for the peer `id`? -/
def Addressed (id : Int32) (message : Bytes) : Prop := destOf message = 0 ∨ destOf message = id

instance (id : Int32) (message : Bytes) : Decidable (Addressed id message) :=
  inferInstanceAs (Decidable (_ ∨ _))

/-- **The sizes in a string fit**, if it is a confirmer message for the peer `id`. -/
def Fits (id : Int32) (message : Bytes) : Prop := IsConfirmer message → Addressed id message →
  if typeOf message = MessageType.submit then SubmitFits (behind message)
  else AggSignFits (behind message)

instance (id : Int32) (message : Bytes) : Decidable (Fits id message) := by
  unfold Fits
  infer_instance

/-- **What a string says** whose sizes fit. -/
def content (id : Int32) (message : Bytes) (mem : Memory B) : Incoming B :=
  if ¬ IsConfirmer message then
    .rb ⟨typeOf message, atoi (nthField 58 message 1), nthField 58 message 2⟩
  else if ¬ Addressed id message then .ignored
  else if typeOf message = MessageType.submit then
    .submit ((submitOf (behind message)).into mem.recvMsg)
  else .aggSign ((aggSignOf (behind message)).into mem.recvAggSign)

section

variable {id : Int32} {message : Bytes} {mem : Memory B}

theorem not_isConfirmer : ¬ IsConfirmer message ↔
    typeOf message ≠ MessageType.submit ∧ typeOf message ≠ MessageType.aggSign := not_or

theorem decode_rb (hm : message ≠ []) (hc : ¬ IsConfirmer message) : decode B id message mem =
    .ok (.rb ⟨typeOf message, atoi (nthField 58 message 1), nthField 58 message 2⟩) := by
  obtain ⟨hfirst, h⟩ := firstField_read hm
  obtain ⟨f1, e1, h⟩ := nextField_read hm h
  obtain ⟨f2, e2, h⟩ := nextField_read hm h
  rw [← typeOf] at hfirst
  simp only [decode, hfirst, bind, Except.bind, pure, Except.pure]
  rw [if_pos (not_isConfirmer.mp hc)]
  simp only [readRBMessage, e1, e2, bind, Except.bind, pure, Except.pure]

theorem decode_confirmer (hm : message ≠ []) (hc : IsConfirmer message) : decode B id message mem =
    if Addressed id message then
      if typeOf message = MessageType.submit then
        (readSubmitMsg mem (behind message) (find (behind message) 0)).map .submit
      else (readAggSign mem (behind message) (find (behind message) 0)).map .aggSign
    else .ok .ignored := by
  have hfirst : firstField message = .ok (typeOf message, find message 0) := (firstField_read hm).1
  have hdest : firstField (behind message) =
      .ok (destOf message, find (behind message) 0) := by
    unfold destOf
    by_cases ht : behind message = []
    · rw [ht]
      rfl
    · exact (firstField_read ht).1
  simp only [decode, hfirst, substr_behind hm, hdest, bind, Except.bind, pure, Except.pure]
  rw [if_neg fun h => not_isConfirmer.mpr h hc]
  by_cases ha : Addressed id message
  · have hd : destOf message = 0 ∨ destOf message = id := ha
    rw [if_pos hd, if_pos ha]
    split_ifs with ht
    · cases readSubmitMsg mem (behind message) _ <;> rfl
    · cases readAggSign mem (behind message) _ <;> rfl
  · have hd : ¬ (destOf message = 0 ∨ destOf message = id) := ha
    rw [if_neg hd, if_neg ha]

theorem decode_of_fits (hm : message ≠ []) (h : Fits id message) :
    decode B id message mem = .ok (content id message mem) := by
  unfold content
  by_cases hc : IsConfirmer message
  · rw [decode_confirmer hm hc, if_neg (not_not.mpr hc)]
    by_cases ha : Addressed id message
    · rw [if_pos ha, if_neg (not_not.mpr ha)]
      have hfits := h hc ha
      split_ifs at hfits ⊢ with ht
      · rw [readSubmitMsg, (submitFields_eq _).1 hfits]
        rfl
      · rw [readAggSign, (aggSignFields_eq _).1 hfits]
        rfl
    · rw [if_neg ha, if_pos ha]
  · rw [decode_rb hm hc, if_pos hc]

theorem decode_of_not_fits (mem : Memory B) (hm : message ≠ []) (h : ¬ Fits id message) :
    ∃ e, decode B id message mem = .error e := by
  unfold Fits at h
  push Not at h
  obtain ⟨hc, ha, hn⟩ := h
  rw [decode_confirmer hm hc, if_pos ha]
  split_ifs at hn ⊢ with ht
  · obtain ⟨e, he⟩ := (submitFields_eq _).2 hn
    exact ⟨e, by rw [readSubmitMsg, he]; rfl⟩
  · obtain ⟨e, he⟩ := (aggSignFields_eq _).2 hn
    exact ⟨e, by rw [readAggSign, he]; rfl⟩

/-- A round of `ParseMessage` stays in bounds: no `substr` starts beyond its string, and no copy has a
negative size or one beyond its field. -/
def InBounds (G : Globals) (p : Peer B) (message : Bytes) (mem : Memory B := {}) : Prop :=
  ∃ r, parseMessage G p message mem = .ok r

theorem inBounds_iff_fits (G : Globals) (p : Peer B) (hm : message ≠ []) :
    InBounds G p message mem ↔ Fits p.id message := by
  unfold InBounds
  rw [parseMessage_eq]
  by_cases h : Fits p.id message
  · rw [decode_of_fits hm h]
    exact iff_of_true ⟨_, rfl⟩ h
  · obtain ⟨e, he⟩ := decode_of_not_fits mem hm h
    rw [he]
    refine iff_of_false ?_ h
    rintro ⟨r, hr⟩
    cases hr

/-- **The parser stays in bounds** on a string with a newline, whatever `new` delivers, if and only if the
string is no confirmer message for the peer, or there is something behind its type and each of its sizes
is that of a part of the field behind it. -/
theorem parser_in_bounds_iff (G : Globals) (p : Peer B) (mem : Memory B) (hm : (10 : UInt8) ∈ message) :
    InBounds G p message mem ↔ Fits p.id message :=
  inBounds_iff_fits G p (List.ne_nil_of_mem hm)

end

/-- `"4::0::1::5::2::ab::2::cd::\n"`. -/
def fittingText : Bytes :=
  acText MessageType.submit 0 (submitBody 1 5 [97, 98] [99, 100])

theorem parser_in_bounds_fitting : InBounds (initGlobals 4) (listener 2) fittingText :=
  (parser_in_bounds_iff (initGlobals 4) (listener 2) {} (by decide +kernel)).mpr (by decide +kernel)

/-- `"5::0::1::5::96::ab::\n"`. -/
def longSizeText : Bytes :=
  field [53] ++ field [48] ++ field [49] ++ field [53] ++ field [57, 54] ++ field [97, 98] ++ newline

/-- `"4\n::"`, which has nothing behind its type. -/
def nothingBehindText : Bytes := [52, 10, 58, 58]

/-- **A size of 96 for a field of two bytes, and a `substr` beyond the end of an empty string.** -/
theorem parser_overrun :
    ((10 : UInt8) ∈ longSizeText ∧
      parseMessage (initGlobals 4) (listener 2) longSizeText = .error .memcpy) ∧
    (10 : UInt8) ∈ nothingBehindText ∧
      parseMessage (initGlobals 4) (listener 2) nothingBehindText = .error .outOfRange :=
  ⟨⟨by decide, rfl⟩, by decide, rfl⟩

end Confirmer
