import Confirmer.Relay

/-!
# Connections that leave

A read and a write of one connection can both end with an error, in any order and also after its socket
was closed. All of these errors come to the one error handler.

* `ServerEvent.failed`: the connection that an event is an error of.
* `step_error`: what an error does.
* `Members`, `members_run`: who is in `_connections`, and who has left.
* `TCPServer.Gone`, `TCPServer.Gone.exec`: nobody comes back.
* **`leave_once`**: a connection leaves once, at its first error.
-/

namespace Confirmer

open Lts

/-- The connection that an event is an error of. -/
def ServerEvent.failed : ServerEvent → Option ℕ
  | .readError c => some c
  | .writeError c => some c
  | _ => none

/-- Every connection of the run was accepted successfully. -/
def Accepting (es : List ServerEvent) : Prop :=
  ∀ error connected, ServerEvent.accept error connected ∈ es → error = false ∧ connected = true

theorem Accepting.of_append {es es' : List ServerEvent} (h : Accepting (es ++ es')) : Accepting es :=
  fun error connected he => h error connected (List.mem_append_left es' he)

section

variable {es : List ServerEvent} {e : ServerEvent} {s s' : TCPServer} {c : ℕ}

/-! ## One event -/

/-- **An error is an end of an operation, followed by the error handler.** -/
theorem step_error (hs : s.step e = some s') (he : e.failed = some c) :
    (0 < (s.connection c).reads ∨ 0 < (s.connection c).writes) ∧
    ∃ f : TCPConnection → TCPConnection, (∀ x, (f x).started = x.started) ∧
      s' = (s.update c f).errorHandler c := by
  cases serverStep hs with
  | readError d hr =>
    cases he
    exact ⟨Or.inl hr, fun x => { x with reads := x.reads - 1 }, fun x => rfl, rfl⟩
  | writeError d hw =>
    cases he
    exact ⟨Or.inr hw, fun x => { x with writes := x.writes - 1 }, fun x => rfl, rfl⟩
  | accept error connected => cases he
  | read d message hr => cases he
  | write d hw => cases he

theorem errorHandler_started (hc : (s.connection c).started = true) :
    s.errorHandler c = { s with
      connections := s.connections.erase c
      left := s.left ++ if c ∈ s.connections then [c] else [] } := by
  unfold TCPServer.errorHandler
  rw [if_pos hc]
  split_ifs with hmem
  · rfl
  · rw [Finset.erase_eq_of_notMem hmem, List.append_nil]

theorem post_started (x : TCPConnection) (message : Bytes) :
    (x.post message).started = x.started := by
  unfold TCPConnection.post
  dsimp only
  split_ifs <;> rfl

theorem onWrite_started (x : TCPConnection) : x.onWrite.started = x.started := by
  unfold TCPConnection.onWrite
  dsimp only
  split_ifs <;> rfl

theorem update_started (s : TCPServer) {f : TCPConnection → TCPConnection}
    (hf : ∀ x, (f x).started = x.started) (c c' : ℕ) :
    ((s.update c f).connection c').started = (s.connection c').started := by
  by_cases h : c' = c
  · subst h
    rw [TCPServer.update_self, hf]
  · rw [TCPServer.update_ne s h]

theorem broadcast_started (s : TCPServer) (message : Bytes) (c : ℕ) :
    ((s.broadcast message).connection c).started = (s.connection c).started := by
  unfold TCPServer.broadcast
  dsimp only
  split_ifs with h
  · exact post_started _ message
  · rfl

/-! ## Who is there and who has left -/

/-- **The members** after the events `es`: a connection is in `_connections` from its acceptance to its
first error, and has left from then on. -/
structure Members (es : List ServerEvent) (s : TCPServer) : Prop where
  mem_iff : ∀ c, c ∈ s.connections ↔ c < s.accepted ∧ ∀ e ∈ es, e.failed ≠ some c
  left_iff : ∀ c, c ∈ s.left ↔ ∃ e ∈ es, e.failed = some c
  nodup : s.left.Nodup
  known : ∀ c ∈ s.left, c < s.accepted
  started : ∀ c < s.accepted, (s.connection c).started = true

theorem members_start : Members [] {} where
  mem_iff := by simp
  left_iff := by simp
  nodup := List.nodup_nil
  known := by simp
  started := by simp

theorem Members.quiet (h : Members es s) (he : e.failed = none) : Members (es ++ [e]) s :=
  { h with
    mem_iff := fun c => by simp [h.mem_iff c, or_imp, forall_and, he]
    left_iff := fun c => by simp [h.left_iff c, or_and_right, exists_or, he] }

theorem Members.update (h : Members es s) {f : TCPConnection → TCPConnection}
    (hf : ∀ x, (f x).started = x.started) (c : ℕ) : Members es (s.update c f) :=
  { h with started := fun c' hc' => (update_started s hf c c').trans (h.started c' hc') }

theorem Members.broadcast (h : Members es s) (message : Bytes) : Members es (s.broadcast message) :=
  { h with started := fun c hc => (broadcast_started s message c).trans (h.started c hc) }

/-- A connection that has left is not in the set, and the other way round. -/
theorem Members.mem_iff_left (h : Members es s) (hc : c < s.accepted) :
    c ∈ s.connections ↔ c ∉ s.left := by
  rw [h.mem_iff, h.left_iff]
  push Not
  exact and_iff_right hc

theorem Members.onAccept (h : Members es s) : Members es (s.onAccept false true) where
  mem_iff c := by
    have hnew : ∀ e ∈ es, e.failed ≠ some s.accepted := fun e he hf =>
      absurd (h.known _ ((h.left_iff _).mpr ⟨e, he, hf⟩)) (lt_irrefl _)
    change c ∈ insert s.accepted s.connections ↔ c < s.accepted + 1 ∧ _
    rw [Finset.mem_insert, h.mem_iff, Nat.lt_succ_iff_lt_or_eq]
    constructor
    · rintro (rfl | ⟨hlt, hno⟩)
      · exact ⟨Or.inr rfl, hnew⟩
      · exact ⟨Or.inl hlt, hno⟩
    · rintro ⟨hlt | rfl, hno⟩
      · exact Or.inr ⟨hlt, hno⟩
      · exact Or.inl rfl
  left_iff := h.left_iff
  nodup := h.nodup
  known c hc := (h.known c hc).trans (Nat.lt_succ_self _)
  started c hc := by
    change ((TCPServer.update _ s.accepted TCPConnection.start).connection c).started = true
    by_cases hne : c = s.accepted
    · subst hne
      rw [TCPServer.update_self]
      rfl
    · rw [TCPServer.update_ne _ hne]
      exact h.started c (lt_of_le_of_ne (Nat.lt_succ_iff.mp hc) hne)

/-- **The first error takes the connection out of the set, any other one changes nothing.** -/
theorem Members.errorHandler (h : Members es s) (hc : c < s.accepted) (he : e.failed = some c) :
    Members (es ++ [e]) (s.errorHandler c) := by
  rw [errorHandler_started (h.started c hc)]
  have hout := h.mem_iff_left hc
  refine { h with mem_iff := fun c' => ?_, left_iff := fun c' => ?_, nodup := ?_, known := ?_ }
  · simp only [Finset.mem_erase, h.mem_iff, List.mem_append, List.mem_singleton, or_imp, forall_and,
      forall_eq, he, ne_eq, Option.some.injEq, eq_comm (a := c)]
    tauto
  · simp only [List.mem_append, List.mem_singleton, or_and_right, exists_or, exists_eq_left, he,
      Option.some.injEq, ← h.left_iff, eq_comm (a := c)]
    by_cases hmem : c ∈ s.connections
    · rw [if_pos hmem, List.mem_singleton]
    · have hl : c ∈ s.left := not_not.mp fun hl => hmem (hout.mpr hl)
      rw [if_neg hmem]
      constructor
      · exact fun hc' => Or.inl (hc'.resolve_right List.not_mem_nil)
      · rintro (hc' | rfl)
        · exact Or.inl hc'
        · exact Or.inl hl
  · refine List.nodup_append.mpr ⟨h.nodup, ?_, ?_⟩
    · split_ifs <;> simp
    · intro a ha b hb hab
      split_ifs at hb with hmem
      · rw [List.mem_singleton.mp hb] at hab
        exact hout.mp hmem (hab ▸ ha)
      · cases hb
  · intro c' hc'
    rcases List.mem_append.mp hc' with hc' | hc'
    · exact h.known c' hc'
    · split_ifs at hc' with hmem
      · rw [List.mem_singleton.mp hc']
        exact hc
      · cases hc'

theorem Members.step (h : Members es s) (hrel : Relaying es s) (ha : Accepting (es ++ [e]))
    (hs : s.step e = some s') : Members (es ++ [e]) s' := by
  cases hf : e.failed with
  | some c =>
    obtain ⟨hout, f, hstart, rfl⟩ := step_error hs hf
    exact (h.update hstart c).errorHandler (hrel.lt hout) hf
  | none =>
    cases serverStep hs with
    | accept error connected =>
      obtain ⟨rfl, rfl⟩ := ha error connected (by simp)
      exact h.onAccept.quiet hf
    | read c message hr =>
      have hupd := h.update (f := fun c => { c with reads := c.reads - 1 }) (fun x => rfl) c
      exact ((hupd.broadcast message).update (f := TCPConnection.asyncRead) (fun x => rfl) c).quiet hf
    | write c hw => exact (h.update onWrite_started c).quiet hf
    | readError c hr => cases hf
    | writeError c hw => cases hf

theorem members_run (hr : Run TCPServer.step {} es s) (ha : Accepting es) : Members es s := by
  induction hr with
  | nil => exact members_start
  | snoc hr hs ih => exact (ih ha.of_append).step (relaying_run hr) ha hs

/-! ## Nobody comes back -/

/-- A connection that was accepted and is not in the set. -/
def TCPServer.Gone (s : TCPServer) (c : ℕ) : Prop := c < s.accepted ∧ c ∉ s.connections

theorem heard_broadcast (hc : c ∉ s.connections) (message : Bytes) :
    heard (s.broadcast message).log c = heard s.log c := by
  change heard (s.log ++ [(message, s.connections)]) c = _
  rw [heard_append]
  simp [heard, hc]

theorem TCPServer.Gone.broadcast (h : s.Gone c) (message : Bytes) :
    (s.broadcast message).connection c = s.connection c := if_neg h.2

theorem TCPServer.Gone.errorHandler (h : s.Gone c) (c' : ℕ) :
    (s.errorHandler c').Gone c ∧ (s.errorHandler c').log = s.log := by
  unfold TCPServer.errorHandler
  split_ifs with hstart hmem
  · exact ⟨⟨h.1, fun hc => h.2 (Finset.mem_of_mem_erase hc)⟩, rfl⟩
  · exact ⟨h, rfl⟩
  · exact ⟨h, rfl⟩

theorem TCPServer.Gone.onAccept (h : s.Gone c) (error connected : Bool) :
    (s.onAccept error connected).Gone c ∧ (s.onAccept error connected).log = s.log := by
  have hnew : c < s.accepted + 1 ∧ c ∉ insert s.accepted s.connections :=
    ⟨h.1.trans (Nat.lt_succ_self _), fun hc =>
      (Finset.mem_insert.mp hc).elim (fun he => absurd h.1 (he ▸ lt_irrefl _)) h.2⟩
  unfold TCPServer.onAccept
  split_ifs with hconn herr
  · exact ⟨hnew, rfl⟩
  · exact ⟨hnew, rfl⟩
  · exact ⟨h, rfl⟩

/-- **Whoever has left stays away, and nothing is posted to him.** -/
theorem TCPServer.Gone.step (h : s.Gone c) (hs : s.step e = some s') :
    s'.Gone c ∧ heard s'.log c = heard s.log c := by
  cases serverStep hs with
  | accept error connected =>
    obtain ⟨hgone, hlog⟩ := h.onAccept error connected
    exact ⟨hgone, by rw [hlog]⟩
  | read c' message hr => exact ⟨h, heard_broadcast (s := s.update c' _) h.2 message⟩
  | readError c' hr =>
    obtain ⟨hgone, hlog⟩ := errorHandler (s := s.update c' _) h c'
    exact ⟨hgone, congrArg (heard · c) hlog⟩
  | write c' hw => exact ⟨h, rfl⟩
  | writeError c' hw =>
    obtain ⟨hgone, hlog⟩ := errorHandler (s := s.update c' _) h c'
    exact ⟨hgone, congrArg (heard · c) hlog⟩

theorem TCPServer.Gone.exec {es' : List ServerEvent} (h : s.Gone c)
    (he : exec TCPServer.step s es' = some s') : s'.Gone c ∧ heard s'.log c = heard s.log c := by
  induction es' generalizing s with
  | nil =>
    cases he
    exact ⟨h, rfl⟩
  | cons e es' ih =>
    obtain ⟨s₁, h₁, h₂⟩ := Option.bind_eq_some_iff.mp he
    obtain ⟨hgone, hheard⟩ := h.step h₁
    obtain ⟨hgone', hheard'⟩ := ih hgone h₂
    exact ⟨hgone', hheard'.trans hheard⟩

/-! ## Leaving once -/

theorem left_of_quiet (hs : s.step e = some s') (he : e.failed = none) : s'.left = s.left := by
  cases serverStep hs with
  | accept error connected =>
    unfold TCPServer.onAccept
    split_ifs <;> rfl
  | read c message hr => rfl
  | write c hw => rfl
  | readError c hr => cases he
  | writeError c hw => cases he

theorem Members.error (h : Members es s) (hrel : Relaying es s) (hs : s.step e = some s')
    (he : e.failed = some c) :
    s'.left = s.left ++ (if c ∈ s.connections then [c] else []) ∧
    ∀ c' ≠ c, (c' ∈ s'.connections ↔ c' ∈ s.connections) ∧ s'.connection c' = s.connection c' := by
  obtain ⟨hout, f, hf, rfl⟩ := step_error hs he
  rw [errorHandler_started ((h.update hf c).started c (hrel.lt hout))]
  refine ⟨rfl, fun c' hne => ⟨?_, TCPServer.update_ne s hne f⟩⟩
  change c' ∈ s.connections.erase c ↔ c' ∈ s.connections
  rw [Finset.mem_erase, and_iff_right hne]

/-- **A connection leaves once.** `OnLeave` has been called for the connections with an error, once for
each, and a handler calls it exactly when it handles the first error of a connection. No error touches
another connection, and from then on `Broadcast` posts nothing to the one that has left: no call is meant
for it, and none changes it. -/
theorem leave_once (hr : Run TCPServer.step {} es s) (ha : Accepting es) :
    s.left.Nodup ∧ (∀ c, c ∈ s.left ↔ ∃ e ∈ es, e.failed = some c) ∧
    (∀ c, c ∈ s.connections ↔ c < s.accepted ∧ c ∉ s.left) ∧
    (∀ e s', s.step e = some s' →
      s'.left = s.left ++ e.failed.toList.filter fun c => decide (c ∉ s.left)) ∧
    (∀ e c s', e.failed = some c → s.step e = some s' → ∀ c' ≠ c,
      (c' ∈ s'.connections ↔ c' ∈ s.connections) ∧ s'.connection c' = s.connection c') ∧
    ∀ c ∈ s.left, ∀ es' s', exec TCPServer.step s es' = some s' → heard s'.log c = heard s.log c ∧
      ∀ message, (s'.broadcast message).connection c = s'.connection c := by
  have h := members_run hr ha
  have hrel := relaying_run hr
  refine ⟨h.nodup, h.left_iff, fun c => ?_, fun e s' hs => ?_, fun e c s' he hs => (h.error hrel hs he).2,
    fun c hc es' s' he => ?_⟩
  · rw [h.mem_iff, h.left_iff]
    push Not
    rfl
  · cases he : e.failed with
    | none => rw [left_of_quiet hs he, Option.toList_none, List.filter_nil, List.append_nil]
    | some c =>
      have hlt := hrel.lt (step_error hs he).1
      rw [(h.error hrel hs he).1, Option.toList_some]
      by_cases hmem : c ∈ s.connections
      · rw [if_pos hmem, List.filter_singleton, decide_eq_true ((h.mem_iff_left hlt).mp hmem)]
        rfl
      · have hl : c ∈ s.left := not_not.mp fun hl => hmem ((h.mem_iff_left hlt).mpr hl)
        rw [if_neg hmem, List.filter_singleton, decide_eq_false (not_not.mpr hl)]
        rfl
  · have hlt := h.known c hc
    have hgone : s.Gone c := ⟨hlt, fun hmem => (h.mem_iff_left hlt).mp hmem hc⟩
    obtain ⟨hgone', hheard⟩ := hgone.exec he
    exact ⟨hheard, hgone'.broadcast⟩

end

/-- Client `0` leaves after an error of its read, and a write to it fails behind that. -/
def leaveTwice : List ServerEvent :=
  [.accept false true, .accept false true, .read 0 [97], .readError 0, .writeError 0, .read 1 [98]]

theorem leaveTwice_isSome : (exec TCPServer.step {} leaveTwice).isSome := by decide +kernel

theorem leave_once_leaveTwice :
    ((exec TCPServer.step {} leaveTwice).get leaveTwice_isSome).left.Nodup ∧
    0 ∈ ((exec TCPServer.step {} leaveTwice).get leaveTwice_isSome).left ∧
    1 ∉ ((exec TCPServer.step {} leaveTwice).get leaveTwice_isSome).left ∧
    ∀ message, (((exec TCPServer.step {} leaveTwice).get leaveTwice_isSome).broadcast message).connection 0 =
      ((exec TCPServer.step {} leaveTwice).get leaveTwice_isSome).connection 0 := by
  have ha : Accepting leaveTwice := by
    intro error connected he
    simp only [leaveTwice, List.mem_cons, ServerEvent.accept.injEq, reduceCtorEq, List.not_mem_nil,
      or_false, or_self] at he
    exact he
  obtain ⟨hnodup, hleft, -, -, -, hgone⟩ := leave_once (run_get leaveTwice_isSome) ha
  have hmem := (hleft 0).mpr (by decide)
  exact ⟨hnodup, hmem, fun h => absurd ((hleft 1).mp h) (by decide), (hgone 0 hmem [] _ rfl).2⟩

end Confirmer
