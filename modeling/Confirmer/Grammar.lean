import Confirmer.Bounds
import Confirmer.Step

/-!
# What the dispatcher accepts

* `WellFormed`: the messages as `Broadcast`, `BroadcastSubmitMessage` and `BroadcastAggregateSignature`
  write them.
* `Peer.Heeds`, `receive_eq_self_iff`: what a peer does something about.
* `Inert`, **`grammar_iff`**: the strings that leave a peer as it is; a malformed string does so only if it
  is one of them.
* `grammar_fragments`: fragments that are counted.
-/

namespace Confirmer

open Text

variable {B : BLS}

/-- **A message as the code writes it**, with raw bytes that fit the buffers of the serializers. -/
inductive WellFormed : Bytes → Prop
  | rb (m : RBMessage) : m.type = MessageType.send ∨ m.type = MessageType.echo ∨
      m.type = MessageType.ready → WellFormed (serializeRB m)
  | submit (dest pid value : Int32) (vSig vPub : Bytes) : vSig.length ≤ 128 → vPub.length ≤ 128 →
      WellFormed (acText MessageType.submit dest (submitBody pid value vSig vPub))
  | aggSign (dest pid value : Int32) (vSig : Bytes) : vSig.length ≤ 128 →
      WellFormed (acText MessageType.aggSign dest (aggSignBody pid value vSig))

theorem suffix_field {a t : Bytes} (h : a <:+ t) (s : Bytes) : a <:+ field s ++ t :=
  h.trans (List.suffix_append (field s) t)

theorem WellFormed.suffix {message : Bytes} (h : WellFormed message) : delim ++ newline <:+ message := by
  have hlast : ∀ s : Bytes, delim ++ newline <:+ field s ++ newline := fun s => ⟨s, by simp [field]⟩
  cases h with
  | rb m hm => exact suffix_field (suffix_field (hlast _) _) _
  | submit dest pid value vSig vPub hs hp =>
    have hbody : delim ++ newline <:+ submitBody pid value vSig vPub :=
      suffix_field (suffix_field (suffix_field (suffix_field (suffix_field (hlast _) _) _) _) _) _
    exact suffix_field (suffix_field hbody _) _
  | aggSign dest pid value vSig hs =>
    have hbody : delim ++ newline <:+ aggSignBody pid value vSig :=
      suffix_field (suffix_field (suffix_field (hlast _) _) _) _
    exact suffix_field (suffix_field hbody _) _

/-! ## Who is heeded -/

section

variable {G : Globals} {p : Peer B} {mem : Memory B}

/-- The peer does something about what it has read. -/
def Peer.Heeds (p : Peer B) : Incoming B → Prop
  | .rb m => (m.type = MessageType.send ∧ p.rb.sentecho = false) ∨ m.type = MessageType.echo ∨
      m.type = MessageType.ready
  | .submit m => p.Accepts m
  | .aggSign _ => True
  | .ignored => False

theorem dispatch_eq_self_iff (m : RBMessage) : dispatch G p m = (p, []) ↔ ¬ p.Heeds (.rb m) := by
  by_cases h₁ : m.type = MessageType.send
  · rw [dispatch_send h₁]
    cases hs : p.rb.sentecho with
    | false => simp [Peer.Heeds, h₁, hs]
    | true =>
      refine iff_of_true ?_ (by simp [Peer.Heeds, h₁, hs])
      rw [if_pos rfl, ← hs]
  by_cases h₂ : m.type = MessageType.echo
  · rw [dispatch_echo h₂]
    refine iff_of_false (fun h => ?_) (by simp [Peer.Heeds, h₂])
    have hlen := congrArg (fun r => r.1.rb.echos.length) h
    simp at hlen
  by_cases h₃ : m.type = MessageType.ready
  · rw [dispatch_ready h₃]
    refine iff_of_false (fun h => ?_) (by simp [Peer.Heeds, h₃])
    have hlen := congrArg (fun r => r.1.rb.readys.length) h
    simp at hlen
  rw [dispatch_other h₁ h₂ h₃]
  exact iff_of_true rfl (by simp [Peer.Heeds, h₁, h₂, h₃])

/-- **A peer stays as it is and posts nothing** exactly about what it does not heed. -/
theorem receive_eq_self_iff (inc : Incoming B) : receive G p inc = (p, []) ↔ ¬ p.Heeds inc := by
  cases inc with
  | rb m => exact dispatch_eq_self_iff m
  | submit m =>
    rw [receive, submitMsgVerify_eq]
    by_cases ha : p.Accepts m
    · rw [if_pos ha, checkRecvMsg_eq]
      refine iff_of_false (fun h => ?_) (not_not.mpr ha)
      have hlen := congrArg (fun r => r.1.ac.partialSignature.length) h
      split_ifs at hlen <;> simp [Peer.accept, Peer.confirmed] at hlen
    · rw [if_neg ha]
      exact iff_of_true rfl ha
  | aggSign m =>
    refine iff_of_false (fun h => ?_) (not_not.mpr trivial)
    have hlen := congrArg (fun r => r.1.ac.obtainedAggSignature.length) h
    rw [receive, checkRecvAggSignature_eq] at hlen
    simp at hlen
  | ignored => exact iff_of_true rfl not_false

/-! ## Which strings are heeded -/

/-- **The strings that leave a peer as it is**: there is a first character to start from again, and the
number in front says neither `ECHO` nor `READY`, nor `SEND` to a peer that has not echoed; it does not say
aggregate signature for this peer, nor submission for this peer except for one whose sizes fit and that
the peer does not accept. -/
def Inert (p : Peer B) (message : Bytes) (mem : Memory B := {}) : Prop :=
  message ≠ [] ∧
  if IsConfirmer message then
    Addressed p.id message → typeOf message = MessageType.submit ∧ SubmitFits (behind message) ∧
      ¬ p.Accepts ((submitOf (behind message)).into mem.recvMsg)
  else
    ¬ ((typeOf message = MessageType.send ∧ p.rb.sentecho = false) ∨
      typeOf message = MessageType.echo ∨ typeOf message = MessageType.ready)

theorem parseMessage_eq_self_iff (message : Bytes) :
    parseMessage G p message mem = .ok (p, []) ↔ Inert p message mem := by
  by_cases hm : message = []
  · subst hm
    refine iff_of_false (fun h => ?_) fun h => h.1 rfl
    cases h
  have hmap : parseMessage G p message mem = .ok (p, []) ↔
      Fits p.id message ∧ ¬ p.Heeds (content p.id message mem) := by
    rw [parseMessage_eq]
    by_cases hf : Fits p.id message
    · rw [decode_of_fits hm hf, Except.map, Except.ok.injEq, receive_eq_self_iff, and_iff_right hf]
    · obtain ⟨e, he⟩ := decode_of_not_fits mem hm hf
      rw [he]
      refine iff_of_false (fun h => ?_) fun h => hf h.1
      cases h
  rw [hmap, Inert, and_iff_right hm]
  by_cases hc : IsConfirmer message
  · rw [if_pos hc]
    by_cases ha : Addressed p.id message
    · by_cases ht : typeOf message = MessageType.submit
      · simp [Fits, content, Peer.Heeds, hc, ha, ht]
      · simp [Fits, content, Peer.Heeds, hc, ha, ht]
    · simp [Fits, content, Peer.Heeds, hc, ha]
  · rw [if_neg hc]
    simp [Fits, content, Peer.Heeds, hc]

/-- Only a well-formed message changes the peer or makes it broadcast; any other string leaves it as it
is. -/
def OnlyGrammar (G : Globals) (p : Peer B) (message : Bytes) (mem : Memory B := {}) : Prop :=
  WellFormed message ∨ parseMessage G p message mem = .ok (p, [])

/-- **The dispatcher keeps to its grammar** on a string, whatever `new` delivers, if and only if the string
is well formed or one of those that leave the peer as it is. -/
theorem grammar_iff (G : Globals) (p : Peer B) (message : Bytes) (mem : Memory B) :
    OnlyGrammar G p message mem ↔ WellFormed message ∨ Inert p message mem := by
  rw [OnlyGrammar, parseMessage_eq_self_iff]

end

/-- `"2\n"`: a type without a delimiter. -/
def echoFragment : Bytes := [50, 10]

/-- `"5\n"`. -/
def aggSignFragment : Bytes := [53, 10]

/-- **A fragment of an `ECHO` is counted as an `ECHO`, and one of an aggregate signature as an aggregate
signature over `0`.** -/
theorem grammar_fragments :
    (¬ WellFormed echoFragment ∧ ∃ p, parseMessage (initGlobals 4) (listener 2) echoFragment = .ok (p, []) ∧
      p.rb.echos = [⟨MessageType.ready, 0, [10]⟩]) ∧
    ¬ WellFormed aggSignFragment ∧
      ∃ p, parseMessage (initGlobals 4) (listener 2) aggSignFragment = .ok (p, []) ∧
        p.ac.obtainedAggSignature.map SubmitAggSign.value = [0] :=
  ⟨⟨fun h => absurd h.suffix (by decide), _, rfl, rfl⟩, fun h => absurd h.suffix (by decide), _, rfl, rfl⟩

end Confirmer
