import Confirmer.Parse

/-!
# Decoding what was encoded

* `Cursor`: the text that the parser has still to read; `nextField_spec`, `nextField_clean`.
* `decode_serializeRB`: a reliable-broadcast string gives back its type and pid, and its content up
  to the first delimiter (`cut`, `clean_cut`).
* `decode_serializeSubmit`, `decode_serializeAggSign`: pid and value always survive.
* `decode_submit_clean`, `decode_submit_unclean` and their like for aggregate signatures: a clean
  signature and key survive, one that is not clean makes the parser overrun an array.
* **`roundTrip_iff`**: when decoding undoes encoding, at every peer that is addressed.
-/

namespace Confirmer

open Text

variable {B : BLS} {mem : Memory B}

/-! ## Reading fields -/

/-- `r` is the text behind the delimiter at position `fin` of `s`. -/
def Cursor (s : Bytes) (fin : ℤ) (r : Bytes) : Prop :=
  -2 ≤ fin ∧ (fin + 2).toNat ≤ s.length ∧ s.drop (fin + 2).toNat = r

/-- **A field is read up to the first delimiter**, which may stand inside it. -/
theorem nextField_spec {s a r : Bytes} {fin : ℤ} (hc : Cursor s fin (field a ++ r)) :
    ∃ k ≤ a.length, findSub delim (field a ++ r) = some k ∧
      nextField s fin = .ok (a.take k, fin + 2 + k) := by
  obtain ⟨h1, h2, h3⟩ := hc
  have hd : field a ++ r = a ++ 58 :: 58 :: r := by simp [field, delim]
  obtain ⟨k, hk, hf⟩ := findSub_append_le (d := (58 : UInt8)) a r
  refine ⟨k, hk, by rw [hd]; exact hf, ?_⟩
  have hfind : find s (fin + 2) = fin + 2 + k := by
    rw [find, h3, hd, show delim = [58, 58] from rfl, hf]
  simp only [nextField, hfind, substr, if_neg (not_lt.mpr h2), h3, bind, Except.bind, pure,
    Except.pure]
  rw [if_neg (by omega), hd, show (fin + 2 + (k : ℤ) - (fin + 2)).toNat = k by omega,
    List.take_append_of_le_length hk]

/-- **A clean field is read as it was written.** -/
theorem nextField_clean {s a r : Bytes} {fin : ℤ} (hc : Cursor s fin (field a ++ r))
    (ha : Clean 58 a) : ∃ fin', nextField s fin = .ok (a, fin') ∧ Cursor s fin' r := by
  obtain ⟨k, -, hf, hn⟩ := nextField_spec hc
  have hd : field a ++ r = a ++ 58 :: 58 :: r := by simp [field, delim]
  have hka : k = a.length := by
    have := findSub_append ha r
    rw [hd, show delim = [58, 58] from rfl, this] at hf
    exact (Option.some.inj hf).symm
  refine ⟨fin + 2 + k, by rw [hn, hka, List.take_length], ?_⟩
  obtain ⟨h1, h2, h3⟩ := hc
  have hlen : (field a ++ r).length = s.length - (fin + 2).toNat := by rw [← h3, List.length_drop]
  simp only [field, delim, List.length_append, List.length_cons, List.length_nil] at hlen
  refine ⟨by omega, by omega, ?_⟩
  have hk : (fin + 2 + k + 2).toNat = (fin + 2).toNat + (a.length + 2) := by omega
  rw [hk, ← List.drop_drop, h3, hd, show a.length + 2 = (a ++ [58, 58]).length by simp]
  simp

theorem firstField_clean {a : Bytes} (ha : Clean 58 a) (r : Bytes) :
    ∃ fin, firstField (field a ++ r) = .ok (atoi a, fin) ∧ Cursor (field a ++ r) fin r := by
  have hc : Cursor (field a ++ r) (-2) (field a ++ r) := ⟨le_rfl, by simp, by simp⟩
  obtain ⟨fin, hn, hc'⟩ := nextField_clean hc ha
  refine ⟨fin, ?_, hc'⟩
  simp only [nextField, bind, Except.bind, pure, Except.pure, neg_add_cancel, sub_zero] at hn
  simp only [firstField, bind, Except.bind, pure, Except.pure]
  cases hs : substr (field a ++ r) 0 (find (field a ++ r) 0) with
  | error e => rw [hs] at hn; cases hn
  | ok str =>
    rw [hs] at hn
    cases hn
    rfl

theorem substr_cursor {s r : Bytes} {fin : ℤ} (hc : Cursor s fin r) :
    substr s (fin + 2) s.length = .ok r := by
  obtain ⟨h1, h2, h3⟩ := hc
  rw [substr, if_neg (not_lt.mpr h2), if_neg (by omega), h3]
  have hlen : r.length ≤ s.length := by rw [← h3, List.length_drop]; omega
  rw [List.take_of_length_le (by omega)]

theorem clean_decInt (z : ℤ) : Clean 58 (decInt z) :=
  clean_of_notMem (notMem_decInt (by decide) (by decide) z)

theorem clean_decNat (k : ℕ) : Clean 58 (decNat k) := by
  have h : decNat k = decInt k := by simp [decInt]
  rw [h]; exact clean_decInt _

/-! ## Reliable-broadcast messages -/

/-- The content that the parser reads where `content` was written. -/
def cut (content : Bytes) : Bytes :=
  content.take ((findSub delim (field content ++ newline)).getD content.length)

theorem clean_cut (content : Bytes) : Clean 58 (cut content) := by
  have hd : field content ++ newline = content ++ 58 :: 58 :: newline := by simp [field, delim]
  obtain ⟨k, hk, hf⟩ := findSub_append_le (d := (58 : UInt8)) content newline
  rw [cut, hd, show delim = [58, 58] from rfl, hf, Option.getD_some]
  have := clean_take hf
  rwa [List.take_append_of_le_length hk] at this

theorem cut_of_clean {content : Bytes} (h : Clean 58 content) : cut content = content := by
  have hd : field content ++ newline = content ++ 58 :: 58 :: newline := by simp [field, delim]
  rw [cut, hd, show delim = [58, 58] from rfl, findSub_append h, Option.getD_some, List.take_length]

/-- **Type and pid of a reliable-broadcast message survive, its content up to a delimiter.** -/
theorem decode_serializeRB (mem : Memory B) (id : Int32) {m : RBMessage}
    (ht : m.type ≠ MessageType.submit ∧ m.type ≠ MessageType.aggSign) :
    decode B id (serializeRB m) mem = .ok (.rb { m with content := cut m.content }) := by
  obtain ⟨fin, h1, hc⟩ := firstField_clean (clean_decInt m.type.toInt)
    (field (decInt m.pid.toInt) ++ (field m.content ++ newline))
  obtain ⟨fin', h2, hc'⟩ := nextField_clean hc (clean_decInt _)
  obtain ⟨k, hk, hf, h3⟩ := nextField_spec hc'
  rw [atoi_decInt] at h1
  have hcut : m.content.take k = cut m.content := by rw [cut, hf, Option.getD_some]
  simp only [decode, serializeRB, h1, bind, Except.bind, if_pos ht, readRBMessage, h2, h3, pure,
    Except.pure, atoi_decInt, hcut]

/-! ## Confirmer messages -/

/-- The destination test, and what lies behind it. -/
theorem decode_acText (mem : Memory B) (id dest : Int32) {type : Int32}
    (ht : type = MessageType.submit ∨ type = MessageType.aggSign)
    (body : Bytes) : ∃ fin s, Cursor s fin body ∧
      decode B id (acText type dest body) mem =
        if dest = 0 ∨ dest = id then
          if type = MessageType.submit then (readSubmitMsg mem s fin).map .submit
          else (readAggSign mem s fin).map .aggSign
        else .ok .ignored := by
  obtain ⟨fin, h1, hc⟩ := firstField_clean (clean_decInt type.toInt) (field (decInt dest.toInt) ++ body)
  obtain ⟨fin', h2, hc'⟩ := firstField_clean (clean_decInt dest.toInt) body
  rw [atoi_decInt] at h1 h2
  refine ⟨fin', _, hc', ?_⟩
  have hn : ¬ (type ≠ MessageType.submit ∧ type ≠ MessageType.aggSign) := by tauto
  simp only [decode, acText, h1, bind, Except.bind, if_neg hn, substr_cursor hc, h2, pure, Except.pure]
  split_ifs with h3 h4
  · cases readSubmitMsg mem _ fin' <;> rfl
  · cases readAggSign mem _ fin' <;> rfl
  · rfl

theorem memcpy_length {s : Bytes} (h : s.length < 2 ^ 31) : memcpy s (atoi (decNat s.length)) = .ok s := by
  rw [memcpy, atoi_decNat h, if_neg (by omega)]
  simp

theorem memcpy_take {s : Bytes} {k : ℕ} (h : s.length < 2 ^ 31) (hk : k < s.length) :
    memcpy (s.take k) (atoi (decNat s.length)) = .error .memcpy := by
  rw [memcpy, atoi_decNat h, if_pos]
  simp only [List.length_take]
  omega

theorem submitFields_clean {s vSig vPub : Bytes} {fin : ℤ} {pid value : Int32}
    (hc : Cursor s fin (submitBody pid value vSig vPub)) (hs : vSig.length < 2 ^ 31)
    (hp : vPub.length < 2 ^ 31) (h1 : Clean 58 vSig) (h2 : Clean 58 vPub) :
    submitFields s fin = .ok ⟨pid, value, vSig, vPub⟩ := by
  obtain ⟨f1, e1, hc⟩ := nextField_clean hc (clean_decInt _)
  obtain ⟨f2, e2, hc⟩ := nextField_clean hc (clean_decInt _)
  obtain ⟨f3, e3, hc⟩ := nextField_clean hc (clean_decNat _)
  obtain ⟨f4, e4, hc⟩ := nextField_clean hc h1
  obtain ⟨f5, e5, hc⟩ := nextField_clean hc (clean_decNat _)
  obtain ⟨f6, e6, hc⟩ := nextField_clean hc h2
  simp only [submitFields, bind, Except.bind, pure, Except.pure, e1, e2, e3, e4, e5, e6,
    memcpy_length hs, memcpy_length hp, atoi_decInt]

theorem nextField_unclean {s a r : Bytes} {fin : ℤ} (hc : Cursor s fin (field a ++ r))
    (ha : ¬ Clean 58 a) : ∃ k < a.length, ∃ fin', nextField s fin = .ok (a.take k, fin') := by
  obtain ⟨k, hk, hf, hn⟩ := nextField_spec hc
  refine ⟨k, lt_of_le_of_ne hk fun e => ha ?_, _, hn⟩
  rw [← findSub_append_iff a r, ← e, ← hf]
  simp [field, delim]

/-- A field that is not clean is cut short, and the copy that follows it overruns. -/
theorem submitFields_unclean {s vSig vPub : Bytes} {fin : ℤ} {pid value : Int32}
    (hc : Cursor s fin (submitBody pid value vSig vPub)) (hs : vSig.length < 2 ^ 31)
    (hp : vPub.length < 2 ^ 31) (h : ¬ (Clean 58 vSig ∧ Clean 58 vPub)) :
    submitFields s fin = .error .memcpy := by
  obtain ⟨f1, e1, hc⟩ := nextField_clean hc (clean_decInt _)
  obtain ⟨f2, e2, hc⟩ := nextField_clean hc (clean_decInt _)
  obtain ⟨f3, e3, hc⟩ := nextField_clean hc (clean_decNat _)
  by_cases h1 : Clean 58 vSig
  · obtain ⟨f4, e4, hc⟩ := nextField_clean hc h1
    obtain ⟨f5, e5, hc⟩ := nextField_clean hc (clean_decNat _)
    obtain ⟨k, hk, f6, e6⟩ := nextField_unclean hc fun h2 => h ⟨h1, h2⟩
    simp only [submitFields, bind, Except.bind, e1, e2, e3, e4, e5, e6, memcpy_length hs,
      memcpy_take hp hk]
  · obtain ⟨k, hk, f4, e4⟩ := nextField_unclean hc h1
    simp only [submitFields, bind, Except.bind, e1, e2, e3, e4, memcpy_take hs hk]

theorem aggSignFields_clean {s vSig : Bytes} {fin : ℤ} {pid value : Int32}
    (hc : Cursor s fin (aggSignBody pid value vSig)) (hs : vSig.length < 2 ^ 31)
    (h : Clean 58 vSig) :
    aggSignFields s fin = .ok ⟨pid, value, vSig⟩ := by
  obtain ⟨f1, e1, hc⟩ := nextField_clean hc (clean_decInt _)
  obtain ⟨f2, e2, hc⟩ := nextField_clean hc (clean_decInt _)
  obtain ⟨f3, e3, hc⟩ := nextField_clean hc (clean_decNat _)
  obtain ⟨f4, e4, hc⟩ := nextField_clean hc h
  simp only [aggSignFields, bind, Except.bind, pure, Except.pure, e1, e2, e3, e4,
    memcpy_length hs, atoi_decInt]

theorem aggSignFields_unclean {s vSig : Bytes} {fin : ℤ} {pid value : Int32}
    (hc : Cursor s fin (aggSignBody pid value vSig)) (hs : vSig.length < 2 ^ 31)
    (h : ¬ Clean 58 vSig) : aggSignFields s fin = .error .memcpy := by
  obtain ⟨f1, e1, hc⟩ := nextField_clean hc (clean_decInt _)
  obtain ⟨f2, e2, hc⟩ := nextField_clean hc (clean_decInt _)
  obtain ⟨f3, e3, hc⟩ := nextField_clean hc (clean_decNat _)
  obtain ⟨k, hk, f4, e4⟩ := nextField_unclean hc h
  simp only [aggSignFields, bind, Except.bind, e1, e2, e3, e4, memcpy_take hs hk]

/-! ## Decoding the text of a confirmer message -/

section Text

variable {id dest pid value : Int32} {vSig vPub : Bytes}

theorem decode_submit_ignored (h : ¬ (dest = 0 ∨ dest = id)) :
    decode B id (acText MessageType.submit dest (submitBody pid value vSig vPub)) mem = .ok .ignored := by
  obtain ⟨fin, s, -, hd⟩ := decode_acText mem id dest (Or.inl rfl)
    (submitBody pid value vSig vPub)
  rw [hd, if_neg h]

theorem decode_submit_clean (h : dest = 0 ∨ dest = id) (hs : vSig.length < 2 ^ 31)
    (hp : vPub.length < 2 ^ 31) (h1 : Clean 58 vSig) (h2 : Clean 58 vPub) :
    decode B id (acText MessageType.submit dest (submitBody pid value vSig vPub)) mem =
      .ok (.submit (SubmitFields.into ⟨pid, value, vSig, vPub⟩ mem.recvMsg)) := by
  obtain ⟨fin, s, hc, hd⟩ := decode_acText mem id dest (Or.inl rfl)
    (submitBody pid value vSig vPub)
  rw [hd, if_pos h, if_pos rfl, readSubmitMsg, submitFields_clean hc hs hp h1 h2]
  rfl

theorem decode_submit_unclean (h : dest = 0 ∨ dest = id) (hs : vSig.length < 2 ^ 31)
    (hp : vPub.length < 2 ^ 31) (hn : ¬ (Clean 58 vSig ∧ Clean 58 vPub)) :
    decode B id (acText MessageType.submit dest (submitBody pid value vSig vPub)) mem =
      .error .memcpy := by
  obtain ⟨fin, s, hc, hd⟩ := decode_acText mem id dest (Or.inl rfl)
    (submitBody pid value vSig vPub)
  rw [hd, if_pos h, if_pos rfl, readSubmitMsg, submitFields_unclean hc hs hp hn]
  rfl

theorem decode_aggSign_ignored (h : ¬ (dest = 0 ∨ dest = id)) :
    decode B id (acText MessageType.aggSign dest (aggSignBody pid value vSig)) mem = .ok .ignored := by
  obtain ⟨fin, s, -, hd⟩ := decode_acText mem id dest (Or.inr rfl)
    (aggSignBody pid value vSig)
  rw [hd, if_neg h]

theorem decode_aggSign_clean (h : dest = 0 ∨ dest = id) (hs : vSig.length < 2 ^ 31)
    (h1 : Clean 58 vSig) :
    decode B id (acText MessageType.aggSign dest (aggSignBody pid value vSig)) mem =
      .ok (.aggSign (AggSignFields.into ⟨pid, value, vSig⟩ mem.recvAggSign)) := by
  obtain ⟨fin, s, hc, hd⟩ := decode_acText mem id dest (Or.inr rfl)
    (aggSignBody pid value vSig)
  rw [hd, if_pos h, if_neg (by decide), readAggSign, aggSignFields_clean hc hs h1]
  rfl

theorem decode_aggSign_unclean (h : dest = 0 ∨ dest = id) (hs : vSig.length < 2 ^ 31)
    (hn : ¬ Clean 58 vSig) :
    decode B id (acText MessageType.aggSign dest (aggSignBody pid value vSig)) mem = .error .memcpy := by
  obtain ⟨fin, s, hc, hd⟩ := decode_acText mem id dest (Or.inr rfl)
    (aggSignBody pid value vSig)
  rw [hd, if_pos h, if_neg (by decide), readAggSign, aggSignFields_unclean hc hs hn]
  rfl

end Text

/-- **A submit message of the code with clean bytes** arrives, its signature and its key as far as they
deserialize. -/
theorem decode_serializeSubmit_clean (mem : Memory B) {id dest : Int32} {m : SubmitMsg B}
    (ht : m.type = MessageType.submit) (hd : dest = 0 ∨ dest = id)
    (hsig : Clean 58 (B.blsSignatureSerialize m.sig)) (hpub : Clean 58 (B.blsPublicKeySerialize m.pub)) :
    decode B id (serializeSubmit dest m) mem = .ok (.submit (SubmitFields.into
      ⟨m.pid, m.value, B.blsSignatureSerialize m.sig, B.blsPublicKeySerialize m.pub⟩ mem.recvMsg)) := by
  have hs := B.signature_length m.sig
  have hp := B.publicKey_length m.pub
  rw [serializeSubmit, ht]
  exact decode_submit_clean hd (by omega) (by omega) hsig hpub

/-- **What a submit message of the code can be read as.** -/
theorem decode_serializeSubmit {id dest : Int32} {m : SubmitMsg B} (ht : m.type = MessageType.submit)
    {inc : Incoming B} (h : decode B id (serializeSubmit dest m) mem = .ok inc) :
    inc = .ignored ∨ ∃ m', inc = .submit m' ∧ m'.pid = m.pid ∧ m'.value = m.value := by
  have hs := B.signature_length m.sig
  have hp := B.publicKey_length m.pub
  rw [serializeSubmit, ht] at h
  by_cases hd : dest = 0 ∨ dest = id
  · by_cases hc : Clean 58 (B.blsSignatureSerialize m.sig) ∧ Clean 58 (B.blsPublicKeySerialize m.pub)
    · rw [decode_submit_clean hd (by omega) (by omega) hc.1 hc.2] at h
      cases h
      exact Or.inr ⟨_, rfl, rfl, rfl⟩
    · rw [decode_submit_unclean hd (by omega) (by omega) hc] at h
      cases h
  · rw [decode_submit_ignored hd] at h
    cases h
    exact Or.inl rfl

/-- **What an aggregate-signature message of the code can be read as.** -/
theorem decode_serializeAggSign {id dest : Int32} {m : SubmitAggSign B}
    (ht : m.type = MessageType.aggSign) {inc : Incoming B}
    (h : decode B id (serializeAggSign dest m) mem = .ok inc) :
    inc = .ignored ∨ ∃ m', inc = .aggSign m' ∧ m'.pid = m.pid ∧ m'.value = m.value := by
  have hs := B.signature_length m.aggSig
  rw [serializeAggSign, ht] at h
  by_cases hd : dest = 0 ∨ dest = id
  · by_cases hc : Clean 58 (B.blsSignatureSerialize m.aggSig)
    · rw [decode_aggSign_clean hd (by omega) hc] at h
      cases h
      exact Or.inr ⟨_, rfl, rfl, rfl⟩
    · rw [decode_aggSign_unclean hd (by omega) hc] at h
      cases h
  · rw [decode_aggSign_ignored hd] at h
    cases h
    exact Or.inl rfl

theorem decode_serializeAggSign_ne_ignored {id dest : Int32} {m : SubmitAggSign B}
    (ht : m.type = MessageType.aggSign) (hd : dest = 0 ∨ dest = id) :
    decode B id (serializeAggSign dest m) mem ≠ .ok .ignored := by
  have hs := B.signature_length m.aggSig
  rw [serializeAggSign, ht]
  by_cases hc : Clean 58 (B.blsSignatureSerialize m.aggSig)
  · rw [decode_aggSign_clean hd (by omega) hc]
    simp
  · rw [decode_aggSign_unclean hd (by omega) hc]
    simp

/-! ## The round trip -/

/-- `ParseMessage` with `ParseSubmitMessage` recovers pid and value, and hands the signature bytes
and the key bytes to the deserializers, at every peer that the destination addresses and in whatever
memory. -/
def SubmitRoundTrip (pid value dest : Int32) (vSig vPub : Bytes) : Prop :=
  ∀ (B : BLS) (G : Globals) (p : Peer B) (mem : Memory B), dest = 0 ∨ dest = p.id →
    parseMessage G p (acText MessageType.submit dest (submitBody pid value vSig vPub)) mem =
      .ok (submitMsgVerify G p (SubmitFields.into ⟨pid, value, vSig, vPub⟩ mem.recvMsg))

/-- `ParseMessage` with `ParseAggSignature` recovers pid and value, and hands the signature bytes to
the deserializer, at every peer that the destination addresses and in whatever memory. -/
def AggSignRoundTrip (pid value dest : Int32) (vSig : Bytes) : Prop :=
  ∀ (B : BLS) (G : Globals) (p : Peer B) (mem : Memory B), dest = 0 ∨ dest = p.id →
    parseMessage G p (acText MessageType.aggSign dest (aggSignBody pid value vSig)) mem =
      .ok (receive G p (.aggSign (AggSignFields.into ⟨pid, value, vSig⟩ mem.recvAggSign)))

/-- A peer that listens to `id`. -/
def listener (id : Int32) : Peer plainBLS := initPeer id 0 (1 : ℕ)

theorem not_submitRoundTrip {pid value dest : Int32} {vSig vPub : Bytes} (hs : vSig.length ≤ 128)
    (hp : vPub.length ≤ 128) (h : ¬ (Clean 58 vSig ∧ Clean 58 vPub)) :
    ¬ SubmitRoundTrip pid value dest vSig vPub := fun hr => by
  have hd : dest = 0 ∨ dest = (listener dest).id := Or.inr rfl
  have h1 := hr plainBLS (initGlobals 4) (listener dest) {} hd
  rw [parseMessage_eq, decode_submit_unclean hd (by omega) (by omega) h] at h1
  cases h1

theorem not_aggSignRoundTrip {pid value dest : Int32} {vSig : Bytes} (hs : vSig.length ≤ 128)
    (h : ¬ Clean 58 vSig) : ¬ AggSignRoundTrip pid value dest vSig := fun hr => by
  have hd : dest = 0 ∨ dest = (listener dest).id := Or.inr rfl
  have h1 := hr plainBLS (initGlobals 4) (listener dest) {} hd
  rw [parseMessage_eq, decode_aggSign_unclean hd (by omega) h] at h1
  cases h1

/-- **Decoding undoes encoding if and only if the raw bytes are clean.** -/
theorem roundTrip_iff (pid value dest : Int32) (vSig vPub : Bytes) (hs : vSig.length ≤ 128)
    (hp : vPub.length ≤ 128) :
    (SubmitRoundTrip pid value dest vSig vPub ↔ Clean 58 vSig ∧ Clean 58 vPub) ∧
      (AggSignRoundTrip pid value dest vSig ↔ Clean 58 vSig) := by
  refine ⟨⟨fun h => ?_, fun h B G p mem hd => ?_⟩, ⟨fun h => ?_, fun h B G p mem hd => ?_⟩⟩
  · by_contra hn
    exact not_submitRoundTrip hs hp hn h
  · rw [parseMessage_eq, decode_submit_clean hd (by omega) (by omega) h.1 h.2]
    rfl
  · by_contra hn
    exact not_aggSignRoundTrip hs hn h
  · rw [parseMessage_eq, decode_aggSign_clean hd (by omega) h]
    rfl

/-- A signature with single colons only, and a key. -/
def plainSig : Bytes := [160, 7, 58, 7]

def plainPub : Bytes := [130, 5]

theorem roundTrip_iff_plain :
    (SubmitRoundTrip 1 111111 0 plainSig plainPub ↔ Clean 58 plainSig ∧ Clean 58 plainPub) ∧
      (AggSignRoundTrip 1 111111 0 plainSig ↔ Clean 58 plainSig) :=
  roundTrip_iff 1 111111 0 plainSig plainPub (by decide) (by decide)

/-- A signature of the library's length with the delimiter inside. -/
def colonSig : Bytes := 160 :: List.replicate 40 7 ++ [58, 58] ++ List.replicate 53 7

theorem colonSig_not_clean : ¬ Clean 58 colonSig := by decide

/-- **A delimiter among the signature bytes breaks both round trips.** -/
theorem roundTrip_colonSig : colonSig.length = 96 ∧
    ¬ SubmitRoundTrip 1 111111 0 colonSig (130 :: List.replicate 47 7) ∧
    ¬ AggSignRoundTrip 1 111111 0 colonSig :=
  ⟨rfl, not_submitRoundTrip (by decide) (by decide) fun h => colonSig_not_clean h.1,
    not_aggSignRoundTrip (by decide) colonSig_not_clean⟩

end Confirmer
