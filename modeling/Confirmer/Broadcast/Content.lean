import Confirmer.Broadcast.Origin

/-!
# The content of a broadcast

`Broadcast` writes the content of a message between two delimiters, and the content is a submit
message with delimiters of its own.

* `cut_serializeSubmit`: what is left of such a content is the number of its type.
* **`content_lost`**: so no broadcast of a submission survives its trip, not even to the first hop.
* `content_lost_submission`: a submission of which nothing but `"4"` arrives.
-/

namespace Confirmer

open Text AsyncNet

variable {B : BLS}

/-- Decoding undoes encoding: the parser of the peer `id` rebuilds the message that was written. -/
def RBRoundTrip (B : BLS) (id : Int32) (m : RBMessage) : Prop :=
  decode B id (serializeRB m) = .ok (.rb m)

theorem cut_field_append {a : Bytes} (ha : Clean 58 a) (r : Bytes) : cut (field a ++ r) = a := by
  have hd : field (field a ++ r) ++ newline = a ++ 58 :: 58 :: (r ++ 58 :: 58 :: newline) := by
    simp [field, delim]
  rw [cut, hd, show delim = [58, 58] from rfl, findSub_append ha, Option.getD_some, field,
    List.append_assoc, List.take_left]

/-- The first delimiter of a submit message is the one behind its type. -/
theorem cut_serializeSubmit (dest : Int32) (msg : SubmitMsg B) :
    cut (serializeSubmit dest msg) = decInt msg.type.toInt :=
  cut_field_append (clean_decInt _) _

theorem cut_serializeSubmit_ne (dest : Int32) (msg : SubmitMsg B) :
    cut (serializeSubmit dest msg) ≠ serializeSubmit dest msg := by
  intro h
  have hlen := congrArg List.length h
  rw [cut_serializeSubmit] at hlen
  simp only [serializeSubmit, acText, field, delim, List.length_append, List.length_cons,
    List.length_nil] at hlen
  omega

theorem not_rbRoundTrip {t : MessageType} (ht : t = .send ∨ t = .echo ∨ t = .ready) (B' : BLS)
    (id pid dest : Int32) (msg : SubmitMsg B) :
    ¬ RBRoundTrip B' id ⟨t, pid, serializeSubmit dest msg⟩ := by
  intro h
  rw [RBRoundTrip, decode_serializeRB _ id (MessageType.rb_ne ht)] at h
  simp only [Except.ok.injEq, Incoming.rb.injEq, RBMessage.mk.injEq, true_and] at h
  exact cut_serializeSubmit_ne dest msg h

/-- An answer of the broadcast does not carry the content of any `SEND`. -/
theorem answer_content_ne {S : Setup B} {es : List (Ev S)} {s : St S}
    (hr : (peerMachine S).Reach es s) (hc : ∀ i, Honest es i) {i j : Fin S.totalPeers}
    {m m₀ : RBMessage} (hm : (i, Item.post (.rb m)) ∈ s.wire) (ht : m.type ≠ MessageType.send.toInt32)
    (hm₀ : (j, Item.post (.rb m₀)) ∈ s.wire) (ht₀ : m₀.type = MessageType.send.toInt32) :
    m.content ≠ m₀.content := by
  obtain ⟨k, v, d, -, -, rfl | ⟨-, hcont⟩⟩ := rb_origin hr hc hm
  · exact absurd rfl ht
  obtain ⟨k₀, v₀, d₀, -, -, rfl | ⟨hne, -⟩⟩ := rb_origin hr hc hm₀
  · rw [hcont, Setup.announcement, Setup.announcement, cut_serializeSubmit]
    have h := cut_serializeSubmit_ne d₀ (S.submission k₀ v₀)
    rw [cut_serializeSubmit] at h
    exact h
  · exact absurd ht₀ hne

/-- **The content is lost.** No peer rebuilds a broadcast of a submit message as it was written, and in
no run of the code does an `ECHO` or a `READY` carry the content of a `SEND`. -/
theorem content_lost {t : MessageType} (ht : t = .send ∨ t = .echo ∨ t = .ready) (B' : BLS)
    (id pid dest : Int32) (msg : SubmitMsg B) :
    ¬ RBRoundTrip B' id ⟨t, pid, serializeSubmit dest msg⟩ ∧
    ∀ (S : Setup B) (es : List (Ev S)) (s : St S), (peerMachine S).Reach es s →
      (∀ i, Honest es i) → ∀ i j m m₀, (i, Item.post (.rb m)) ∈ s.wire →
      m.type ≠ MessageType.send → (j, Item.post (.rb m₀)) ∈ s.wire →
      m₀.type = MessageType.send → m.content ≠ m₀.content :=
  ⟨not_rbRoundTrip ht B' id pid dest msg, fun _ _ _ hr hc _ _ _ _ hm hne hm₀ ht₀ =>
    answer_content_ne hr hc hm hne hm₀ ht₀⟩

theorem content_lost_echo :
    ¬ RBRoundTrip plainBLS 2 ⟨MessageType.echo, 1, serializeSubmit 0 (plainFour.submission 0 5)⟩ :=
  (content_lost (Or.inr (Or.inl rfl)) plainBLS 2 1 0 (plainFour.submission 0 5)).1

/-- **Nothing but `"4"` arrives of a submission.** -/
theorem content_lost_submission :
    decode plainBLS 2 (serializeRB ⟨MessageType.send, 1, serializeSubmit 0 (plainFour.submission 0 5)⟩) =
      .ok (.rb ⟨MessageType.send, 1, [52]⟩) ∧
    ¬ RBRoundTrip plainBLS 2 ⟨MessageType.send, 1, serializeSubmit 0 (plainFour.submission 0 5)⟩ := by
  refine ⟨?_, not_rbRoundTrip (Or.inl rfl) plainBLS 2 1 0 _⟩
  rw [decode_serializeRB _ 2 (MessageType.rb_ne (Or.inl rfl)), cut_serializeSubmit]
  rfl

end Confirmer
