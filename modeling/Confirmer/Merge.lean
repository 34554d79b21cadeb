import Confirmer.Bounds
import Confirmer.Outbox

/-!
# Several messages in one string

`onRead` hands over all that the buffer holds, and `ParseMessage` looks for the fields of one message in
it, from the front.

* `Complete`: every field that the parser reads of a string ends in a delimiter; `decode_append`,
  `parseMessage_append`: then nothing behind it matters.
* `Posted.complete`: what a peer posts is complete.
* **`first_only`**: of a string that begins with a posted message, the parser processes this message and
  drops the rest.
-/

namespace Confirmer

open Text AsyncNet

variable {B : BLS}

/-! ## Strings that go on -/

/-- The number of fields that the parser reads of a string. -/
def fieldCount (message : Bytes) : ℕ :=
  if ¬ IsConfirmer message then 3 else if typeOf message = MessageType.submit then 8 else 6

/-- Every field that the parser reads ends in a delimiter. -/
def Complete (message : Bytes) : Prop := fieldCount message < (parts 58 message).length

instance (message : Bytes) : Decidable (Complete message) := Nat.decLt _ _

section

variable {s t : Bytes} {id : Int32}

theorem typeOf_append (h : 1 < (parts 58 s).length) (r : Bytes) : typeOf (s ++ r) = typeOf s := by
  rw [typeOf, nthField_append h, typeOf]

theorem behind_append (h : 1 < (parts 58 s).length) (r : Bytes) :
    behind (s ++ r) = behind s ++ r ∧ (parts 58 (behind s)).length + 1 = (parts 58 s).length := by
  unfold behind
  cases hf : findSub delim s with
  | none =>
    rw [parts_of_find_none hf] at h
    exact absurd h (lt_irrefl 1)
  | some k =>
    have hlen := (findSub_eq_some_iff.mp hf).2.1.length_le
    rw [List.length_drop] at hlen
    change 2 ≤ s.length - k at hlen
    rw [findSub_append_right hf, parts_of_find hf]
    exact ⟨List.drop_append_of_le_length (by omega), rfl⟩

theorem sizeOk_append {n : ℕ} (h : n + 2 < (parts 58 t).length) (r : Bytes) :
    SizeOk (t ++ r) n ↔ SizeOk t n := by
  unfold SizeOk
  rw [nthField_append (by omega), nthField_append (by omega)]

theorem copied_append {n : ℕ} (h : n + 2 < (parts 58 t).length) (r : Bytes) :
    copied (t ++ r) n = copied t n := by
  unfold copied
  rw [nthField_append (by omega), nthField_append (by omega)]

theorem append_ne_nil_iff (h : 1 < (parts 58 t).length) (r : Bytes) : t ++ r ≠ [] ↔ t ≠ [] := by
  have ht : t ≠ [] := by
    rintro rfl
    exact absurd h (lt_irrefl 1)
  simp [ht]

theorem submitFits_append (h : 7 < (parts 58 t).length) (r : Bytes) :
    SubmitFits (t ++ r) ↔ SubmitFits t := by
  unfold SubmitFits
  rw [append_ne_nil_iff (by omega), sizeOk_append (by omega), sizeOk_append (by omega)]

theorem aggSignFits_append (h : 5 < (parts 58 t).length) (r : Bytes) :
    AggSignFits (t ++ r) ↔ AggSignFits t := by
  unfold AggSignFits
  rw [append_ne_nil_iff (by omega), sizeOk_append (by omega)]

theorem submitOf_append (h : 7 < (parts 58 t).length) (r : Bytes) :
    submitOf (t ++ r) = submitOf t := by
  unfold submitOf
  rw [nthField_append (by omega), nthField_append (by omega), copied_append (by omega),
    copied_append (by omega)]

theorem aggSignOf_append (h : 5 < (parts 58 t).length) (r : Bytes) :
    aggSignOf (t ++ r) = aggSignOf t := by
  unfold aggSignOf
  rw [nthField_append (by omega), nthField_append (by omega), copied_append (by omega)]

/-- **Nothing behind a complete message matters**: neither what is read, nor whether it fits. -/
theorem fits_append (h : Complete s) (r : Bytes) (mem : Memory B) :
    (Fits id (s ++ r) ↔ Fits id s) ∧ content id (s ++ r) mem = content id s mem := by
  unfold Complete fieldCount at h
  have hparts : 3 < (parts 58 s).length := by split_ifs at h <;> omega
  obtain ⟨hbehind, hlen⟩ := behind_append (s := s) (by omega) r
  have htype := typeOf_append (s := s) (by omega) r
  have hconf : IsConfirmer (s ++ r) ↔ IsConfirmer s := by rw [IsConfirmer, htype, IsConfirmer]
  have haddr : Addressed id (s ++ r) ↔ Addressed id s := by
    rw [Addressed, destOf, hbehind, nthField_append (by omega), Addressed, destOf]
  have hpid := nthField_append (n := 1) (d := (58 : UInt8)) (s := s) (by omega) r
  have hrest := nthField_append (n := 2) (d := (58 : UInt8)) (s := s) (by omega) r
  unfold Fits content
  simp only [hconf, haddr, htype, hbehind, hpid, hrest]
  by_cases hc : IsConfirmer s
  · rw [if_neg (not_not.mpr hc)] at h
    by_cases ht : typeOf s = MessageType.submit
    · rw [if_pos ht] at h
      simp only [if_pos ht, submitFits_append (t := behind s) (by omega) r,
        submitOf_append (t := behind s) (by omega) r, and_self]
    · rw [if_neg ht] at h
      simp only [if_neg ht, aggSignFits_append (t := behind s) (by omega) r,
        aggSignOf_append (t := behind s) (by omega) r, and_self]
  · simp only [hc, false_imp_iff, not_false_eq_true, if_true, and_self]

theorem decode_append (h : Complete s) (r : Bytes) (mem : Memory B) :
    (decode B id (s ++ r) mem).toOption = (decode B id s mem).toOption := by
  have hs : s ≠ [] := by
    rintro rfl
    unfold Complete fieldCount at h
    split_ifs at h <;> simp [parts] at h
  have hsr : s ++ r ≠ [] := by simp [hs]
  have hfits : Fits id (s ++ r) ↔ Fits id s := (fits_append h r mem).1
  have hcontent : content id (s ++ r) mem = content id s mem := (fits_append h r mem).2
  by_cases hf : Fits id s
  · rw [decode_of_fits hs hf, decode_of_fits hsr (hfits.mpr hf), hcontent]
  · obtain ⟨e, he⟩ := decode_of_not_fits mem hs hf
    obtain ⟨e', he'⟩ := decode_of_not_fits mem hsr (mt hfits.mp hf)
    rw [he, he']
    rfl

theorem parseMessage_append (h : Complete s) (G : Globals) (p : Peer B) (r : Bytes) (mem : Memory B) :
    (parseMessage G p (s ++ r) mem).toOption = (parseMessage G p s mem).toOption := by
  have hmap : ∀ x : Except Fault (Incoming B),
      (x.map (receive G p)).toOption = x.toOption.map (receive G p) := by
    intro x
    cases x <;> rfl
  rw [parseMessage_eq, parseMessage_eq, hmap, hmap, decode_append h]

end

/-! ## What a peer posts -/

theorem lt_parts_field {k : ℕ} {t : Bytes} (h : k < (parts 58 t).length) (a : Bytes) :
    k + 1 < (parts 58 (field a ++ t)).length := by
  have hfield : field a ++ t = a ++ 58 :: 58 :: t := by simp [field, delim]
  have hlen := length_parts_append (d := (58 : UInt8)) a t
  rw [hfield]
  omega

theorem typeOf_field (v : Int32) (t : Bytes) : typeOf (field (decInt v.toInt) ++ t) = v := by
  have hne : field (decInt v.toInt) ++ t ≠ [] := by simp [field, delim]
  obtain ⟨fin, hfirst, -⟩ := firstField_clean (clean_decInt v.toInt) t
  rw [(firstField_read hne).1, Except.ok.injEq, Prod.mk.injEq, atoi_decInt] at hfirst
  exact hfirst.1

theorem lt_parts_newline : 0 < (parts (58 : UInt8) newline).length := by decide

theorem complete_rb {m : RBMessage} (hm : m.type ≠ MessageType.submit ∧ m.type ≠ MessageType.aggSign) :
    Complete (serializeRB m) := by
  have htype : typeOf (serializeRB m) = m.type := typeOf_field m.type _
  have hc : ¬ IsConfirmer (serializeRB m) := not_isConfirmer.mpr (by rwa [htype])
  rw [Complete, fieldCount, if_pos hc]
  exact lt_parts_field (lt_parts_field (lt_parts_field lt_parts_newline _) _) _

theorem complete_submit (dest pid value : Int32) (vSig vPub : Bytes) :
    Complete (acText MessageType.submit dest (submitBody pid value vSig vPub)) := by
  have htype : typeOf (acText MessageType.submit dest (submitBody pid value vSig vPub)) =
      MessageType.submit := typeOf_field _ _
  have hc : IsConfirmer (acText MessageType.submit dest (submitBody pid value vSig vPub)) := Or.inl htype
  rw [Complete, fieldCount, if_neg (not_not.mpr hc), if_pos htype]
  have hbody : 6 < (parts 58 (submitBody pid value vSig vPub)).length :=
    lt_parts_field (lt_parts_field (lt_parts_field (lt_parts_field (lt_parts_field
      (lt_parts_field lt_parts_newline _) _) _) _) _) _
  exact lt_parts_field (lt_parts_field hbody _) _

theorem complete_aggSign (dest pid value : Int32) (vSig : Bytes) :
    Complete (acText MessageType.aggSign dest (aggSignBody pid value vSig)) := by
  have htype : typeOf (acText MessageType.aggSign dest (aggSignBody pid value vSig)) =
      MessageType.aggSign := typeOf_field _ _
  have hne : ¬ typeOf (acText MessageType.aggSign dest (aggSignBody pid value vSig)) =
      MessageType.submit := by
    rw [htype]
    decide
  have hc : IsConfirmer (acText MessageType.aggSign dest (aggSignBody pid value vSig)) := Or.inr htype
  rw [Complete, fieldCount, if_neg (not_not.mpr hc), if_neg hne]
  have hbody : 4 < (parts 58 (aggSignBody pid value vSig)).length :=
    lt_parts_field (lt_parts_field (lt_parts_field (lt_parts_field lt_parts_newline _) _) _) _
  exact lt_parts_field (lt_parts_field hbody _) _

section

variable {S : Setup B} {i : Fin S.totalPeers} {h : Hist B} {w : Item B}

theorem Posted.complete (hw : Posted S i h w) : Complete w.bytes := by
  cases hw with
  | rb m t hm ht => exact complete_rb (hm ▸ MessageType.rb_ne ht)
  | submit v d hv => exact complete_submit d _ _ _ _
  | aggSign m hm hp =>
    rw [Item.bytes, Post.bytes, serializeAggSign, hm]
    exact complete_aggSign 0 _ _ _

/-- **Only the first message counts.** Whatever follows a message that a peer has posted in the same
string, every peer does what it does on this message alone. -/
theorem first_only {t : Peer B} {o : List (Item B)}
    (hl : (peerMachine S).Local ((peerMachine S).init i) h t o) (hw : w ∈ o) (G : Globals) (p : Peer B)
    (rest : Bytes) (mem : Memory B) :
    (parseMessage G p (w.bytes ++ rest) mem).toOption = (parseMessage G p w.bytes mem).toOption :=
  parseMessage_append ((outbox_local hl).posted w hw).complete G p rest mem

end

theorem first_only_twice : (parseMessage plainFourDirect.globals (listener 2)
      ((Item.post (.submit 0 (plainFourDirect.submission 0 5))).bytes ++
        (Item.post (.submit 0 (plainFourDirect.submission 0 6))).bytes)).toOption =
    (parseMessage plainFourDirect.globals (listener 2)
      (Item.post (.submit 0 (plainFourDirect.submission 0 5))).bytes).toOption := by
  have hs : (peerMachine plainFourDirect).localStep ((peerMachine plainFourDirect).init 0)
      (.inl (.submit 5 0)) = some (((peerMachine plainFourDirect).init 0).submitted 5,
        [.post (.submit 0 (plainFourDirect.submission 0 5))]) := rfl
  exact first_only (.snoc .nil hs) (by simp) _ _ _ _

end Confirmer
