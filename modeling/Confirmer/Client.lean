import Confirmer.Lib.Chain
import Confirmer.Lib.Lts
import Confirmer.Message
import Mathlib.Data.Fintype.Defs
import Mathlib.Logic.Function.Basic

/-!
# The send queue of a client

`TCPClient::Post` runs on the threads that post, `TCPClient::onWrite` on the thread of the client's
`io_context`, and both work on the one queue without a lock. Each statement about the queue is one step
here.

* `TCPClient`, `ClientEvent`, `TCPClient.step`: the threads, statement by statement.
* `Timely`: the posts that find the queue as they have tested it.
* `Driven`, `driven_run`: in runs of timely posts somebody is in charge of the head of the queue.
* **`client_flows`**: then no message is stuck and no two writes are under way.
* `client_stuck`: what happens otherwise.
-/

namespace Confirmer

open WriteChain Lts

/-! ## The threads -/

/-- How far a thread has come in `Post`: behind `empty()`, with the message and the result, or behind a
push into a queue that it takes for idle. -/
inductive PostState
  | idle
  | tested (message : Bytes) (queueIdle : Bool)
  | pushed
  deriving DecidableEq

/-- What `empty()` has told a `Post` that has not pushed yet. -/
def PostState.queueIdle : PostState → Option Bool
  | .tested _ queueIdle => some queueIdle
  | _ => none

/-- How far the thread of the `io_context` has come in `onWrite`. -/
inductive WriteState
  | idle | entered | popped | nonempty
  deriving DecidableEq

/-- `TCPClient`, with the threads `ι` that post. `writes` are the outstanding writes, `handed` is what
was passed to `async_write`, `posted` what was pushed. -/
structure TCPClient (ι : Type) where
  outgoingMessage : List Bytes := []
  writes : ℕ := 0
  posting : ι → PostState := fun _ => .idle
  writing : WriteState := .idle
  handed : List Bytes := []
  posted : List Bytes := []

/-- The statements: `empty()`, `push` and `asyncWrite` of a `Post`, the end of a write, and `pop`,
`empty()` and `asyncWrite` of the `onWrite` that it calls. -/
inductive ClientEvent (ι : Type)
  | test (i : ι) (message : Bytes)
  | push (i : ι)
  | start (i : ι)
  | complete
  | pop
  | retest
  | restart
  deriving DecidableEq

variable {ι : Type}

namespace TCPClient

def setPost [DecidableEq ι] (s : TCPClient ι) (i : ι) (p : PostState) : TCPClient ι :=
  { s with posting := Function.update s.posting i p }

/-- `asyncWrite`: the head of the queue is handed over, and stays where it is. -/
def asyncWrite (s : TCPClient ι) : TCPClient ι :=
  { s with handed := s.handed ++ s.outgoingMessage.head?.toList, writes := s.writes + 1 }

/-- **One statement.** -/
def step [DecidableEq ι] (s : TCPClient ι) : ClientEvent ι → Option (TCPClient ι)
  | .test i message =>
    if s.posting i = .idle then some (s.setPost i (.tested message s.outgoingMessage.isEmpty)) else none
  | .push i =>
    match s.posting i with
    | .tested message queueIdle =>
      let s := { s with
        outgoingMessage := s.outgoingMessage ++ [message], posted := s.posted ++ [message] }
      some (s.setPost i (if queueIdle then .pushed else .idle))
    | _ => none
  | .start i => if s.posting i = .pushed then some (s.asyncWrite.setPost i .idle) else none
  | .complete =>
    if s.writing = .idle ∧ 0 < s.writes then some { s with writes := s.writes - 1, writing := .entered }
    else none
  | .pop =>
    if s.writing = .entered then
      some { s with outgoingMessage := s.outgoingMessage.tail, writing := .popped }
    else none
  | .retest =>
    if s.writing = .popped then
      some { s with writing := if s.outgoingMessage.isEmpty then .idle else .nonempty }
    else none
  | .restart => if s.writing = .nonempty then some { s.asyncWrite with writing := .idle } else none

/-- No `Post` and no `onWrite` is in progress. -/
def AtRest (s : TCPClient ι) : Prop := (∀ i, s.posting i = .idle) ∧ s.writing = .idle

/-- A push is timely when the result of its `empty()` still tells whether there is anything to write: the
queue is empty, and no `onWrite` is about to look into it. -/
def Timely (s : TCPClient ι) : ClientEvent ι → Prop
  | .push i => ∀ b ∈ (s.posting i).queueIdle,
      (b = true ↔ s.outgoingMessage = [] ∧ s.writing ≠ .popped)
  | _ => True

instance (s : TCPClient ι) : ∀ e, Decidable (s.Timely e)
  | .push _ => inferInstanceAs (Decidable (∀ b ∈ _, (b = true ↔ _ ∧ _)))
  | .test _ _ | .start _ | .complete | .pop | .retest | .restart => isTrue trivial

end TCPClient

/-! ## Who is in charge -/

/-- No `Post` is about to start a write. -/
def Quiet (posting : ι → PostState) : Prop := ∀ i, posting i ≠ .pushed

/-- **Who is in charge of the head of the queue**: nobody when there is none, else an outstanding write,
the `onWrite` under way, or the one `Post` that is about to write it. The flag tells whether the head was
handed over. -/
inductive Charge (queue : List Bytes) (posting : ι → PostState) : Bool → ℕ → WriteState → Prop
  | rest : queue = [] → Quiet posting → Charge queue posting false 0 .idle
  | write : queue ≠ [] → Quiet posting → Charge queue posting true 1 .idle
  | entered : queue ≠ [] → Quiet posting → Charge queue posting true 0 .entered
  | popped : Quiet posting → Charge queue posting false 0 .popped
  | nonempty : queue ≠ [] → Quiet posting → Charge queue posting false 0 .nonempty
  | post (i : ι) : queue ≠ [] → (∀ j, posting j = .pushed ↔ j = i) →
      Charge queue posting false 0 .idle

section Charge

variable {queue : List Bytes} {posting : ι → PostState} {b : Bool} {writes : ℕ} {writing : WriteState}

theorem Charge.writes_le (h : Charge queue posting b writes writing) : writes ≤ 1 := by
  cases h <;> omega

theorem Charge.ne_nil (h : Charge queue posting true writes writing) : queue ≠ [] := by
  cases h with
  | write hq => exact hq
  | entered hq => exact hq

theorem Charge.complete (h : Charge queue posting b writes .idle) (hw : 0 < writes) :
    Charge queue posting b (writes - 1) .entered := by
  cases h with
  | write hq hp => exact .entered hq hp
  | rest => cases hw
  | post => cases hw

theorem Charge.pop (h : Charge queue posting b writes .entered) :
    b = true ∧ Charge queue.tail posting false writes .popped := by
  cases h with
  | entered hq hp => exact ⟨rfl, .popped hp⟩

/-- `onWrite` looks whether there is anything left. -/
theorem Charge.retest (h : Charge queue posting b writes .popped) :
    Charge queue posting b writes (if queue.isEmpty then .idle else .nonempty) := by
  cases h with
  | popped hp =>
    by_cases hq : queue = []
    · rw [if_pos (List.isEmpty_iff.mpr hq)]
      exact .rest hq hp
    · rw [if_neg (mt List.isEmpty_iff.mp hq)]
      exact .nonempty hq hp

theorem Charge.restart (h : Charge queue posting b writes .nonempty) :
    b = false ∧ Charge queue posting true (writes + 1) .idle := by
  cases h with
  | nonempty hq hp => exact ⟨rfl, .write hq hp⟩

theorem Charge.push (h : Charge queue posting b writes writing)
    (hs : ¬ (queue = [] ∧ writing ≠ .popped)) (message : Bytes) :
    Charge (queue ++ [message]) posting b writes writing := by
  have hne : queue ++ [message] ≠ [] := by simp
  cases h with
  | rest hq hp => exact absurd ⟨hq, by simp⟩ hs
  | write hq hp => exact .write hne hp
  | entered hq hp => exact .entered hne hp
  | popped hp => exact .popped hp
  | nonempty hq hp => exact .nonempty hne hp
  | post k hq hp => exact .post k hne hp

variable [DecidableEq ι] {i : ι} {p : PostState}

theorem update_eq_pushed {j : ι} : Function.update posting i p j = .pushed ↔
    (j = i ∧ p = .pushed) ∨ (j ≠ i ∧ posting j = .pushed) := by
  by_cases hj : j = i
  · subst hj
    simp
  · simp [hj]

theorem Charge.move (h : Charge queue posting b writes writing) (hi : posting i ≠ .pushed)
    (hp : p ≠ .pushed) : Charge queue (Function.update posting i p) b writes writing := by
  have hsame : ∀ j, Function.update posting i p j = .pushed ↔ posting j = .pushed := by
    intro j
    rw [update_eq_pushed]
    constructor
    · rintro (⟨-, hpushed⟩ | ⟨-, hj⟩)
      · exact absurd hpushed hp
      · exact hj
    · exact fun hj => Or.inr ⟨fun he => hi (he ▸ hj), hj⟩
  have hquiet : Quiet posting → Quiet (Function.update posting i p) :=
    fun hn j hj => hn j ((hsame j).mp hj)
  cases h with
  | rest hq hn => exact .rest hq (hquiet hn)
  | write hq hn => exact .write hq (hquiet hn)
  | entered hq hn => exact .entered hq (hquiet hn)
  | popped hn => exact .popped (hquiet hn)
  | nonempty hq hn => exact .nonempty hq (hquiet hn)
  | post k hq hn => exact .post k hq fun j => (hsame j).trans (hn j)

/-- A `Post` pushes into the idle queue and takes charge of it. -/
theorem Charge.take (h : Charge [] posting b writes writing) (hw : writing ≠ .popped)
    (message : Bytes) :
    Charge [message] (Function.update posting i .pushed) false writes writing := by
  cases h with
  | rest hq hn =>
    refine .post i (by simp) fun j => ?_
    rw [update_eq_pushed]
    constructor
    · rintro (⟨hj, -⟩ | ⟨-, hj⟩)
      · exact hj
      · exact absurd hj (hn j)
    · exact fun hj => Or.inl ⟨hj, rfl⟩
  | popped => exact absurd rfl hw
  | write hq => exact absurd rfl hq
  | entered hq => exact absurd rfl hq
  | nonempty hq => exact absurd rfl hq
  | post k hq => exact absurd rfl hq

theorem Charge.start (h : Charge queue posting b writes writing) (hi : posting i = .pushed) :
    b = false ∧ Charge queue (Function.update posting i .idle) true (writes + 1) writing := by
  cases h with
  | post k hq hn =>
    refine ⟨rfl, .write hq fun j hj => ?_⟩
    rcases update_eq_pushed.mp hj with ⟨-, hidle⟩ | ⟨hne, hj⟩
    · cases hidle
    · exact hne (((hn j).mp hj).trans ((hn i).mp hi).symm)
  | rest _ hn => exact absurd hi (hn i)
  | write _ hn => exact absurd hi (hn i)
  | entered _ hn => exact absurd hi (hn i)
  | popped hn => exact absurd hi (hn i)
  | nonempty _ hn => exact absurd hi (hn i)

end Charge

/-! ## Runs of timely posts -/

/-- What was handed over of a queue. -/
def handedHead (queue : List Bytes) (b : Bool) : List Bytes := if b then queue.head?.toList else []

theorem handedHead_append {queue : List Bytes} {b : Bool} (hq : b = true → queue ≠ [])
    (message : Bytes) : handedHead (queue ++ [message]) b = handedHead queue b := by
  cases b with
  | false => rfl
  | true =>
    obtain ⟨a, q, rfl⟩ := List.exists_cons_of_ne_nil (hq rfl)
    rfl

/-- **The client is driven**: somebody is in charge of the queue, and behind the messages `l` it was
filled and handed over in order. -/
structure Driven (l : List Bytes) (b : Bool) (s : TCPClient ι) : Prop where
  charge : Charge s.outgoingMessage s.posting b s.writes s.writing
  posted : s.posted = l ++ s.outgoingMessage
  handed : s.handed = l ++ handedHead s.outgoingMessage b

theorem driven_start : Driven [] false ({} : TCPClient ι) :=
  ⟨.rest rfl (fun _ h => by cases h), rfl, rfl⟩

variable {s s' : TCPClient ι} {b : Bool} {l : List Bytes}

/-- **Between its handlers a driven client is a chain of writes**, as a connection of the server is. -/
theorem Driven.chain (h : Driven l b s) (hr : s.AtRest) :
    Chain False s.posted s.handed s.outgoingMessage s.writes := by
  obtain ⟨hc, hposted, hhanded⟩ := h
  rw [hr.2] at hc
  rw [hposted, hhanded]
  generalize s.outgoingMessage = queue at hc ⊢
  generalize s.writes = writes at hc ⊢
  cases hc with
  | rest hq hp =>
    subst hq
    exact .idle _
  | write hq hp =>
    obtain ⟨a, q, rfl⟩ := List.exists_cons_of_ne_nil hq
    exact .busy l a q
  | post k hq hn => exact absurd ((hr.1 k).symm.trans ((hn k).mpr rfl)) (by simp)

theorem Driven.pop (h : Driven l b s) (hw : s.writing = .entered) :
    ∃ l', Driven l' false { s with outgoingMessage := s.outgoingMessage.tail, writing := .popped } := by
  obtain ⟨hc, hposted, hhanded⟩ := h
  rw [hw] at hc
  obtain ⟨rfl, hpop⟩ := hc.pop
  obtain ⟨a, q, hq⟩ := List.exists_cons_of_ne_nil hc.ne_nil
  refine ⟨l ++ [a], hpop, ?_, ?_⟩
  · simp [hposted, hq]
  · simp [hhanded, handedHead, hq]

theorem handed_asyncWrite (h : s.handed = l ++ handedHead s.outgoingMessage false) :
    s.asyncWrite.handed = l ++ handedHead s.outgoingMessage true := by
  change s.handed ++ s.outgoingMessage.head?.toList = _
  rw [h, handedHead, if_neg Bool.false_ne_true, List.append_nil, handedHead, if_pos rfl]

variable [DecidableEq ι]

/-- A timely push: the `Post` takes charge of the idle queue, or leaves it to whom it found in charge. -/
theorem Driven.push (h : Driven l b s) {i : ι} {message : Bytes} {queueIdle : Bool}
    (hi : s.posting i = .tested message queueIdle)
    (ht : queueIdle = true ↔ s.outgoingMessage = [] ∧ s.writing ≠ .popped) :
    ∃ b', Driven l b' ({ s with
      outgoingMessage := s.outgoingMessage ++ [message]
      posted := s.posted ++ [message] }.setPost i (if queueIdle then .pushed else .idle)) := by
  obtain ⟨hc, hposted, hhanded⟩ := h
  have hposted' : s.posted ++ [message] = l ++ (s.outgoingMessage ++ [message]) := by
    rw [hposted, List.append_assoc]
  cases queueIdle with
  | true =>
    obtain ⟨hq, hw⟩ := ht.mp rfl
    rw [hq] at hc hhanded
    refine ⟨false, ?_, hposted', ?_⟩
    · change Charge (s.outgoingMessage ++ [message]) _ _ _ _
      rw [hq]
      exact hc.take hw message
    · cases b <;> exact hhanded
  | false =>
    have hbusy := mt ht.mpr (by simp)
    refine ⟨b, (hc.push hbusy message).move (by simp [hi]) (by simp), hposted', ?_⟩
    change s.handed = l ++ handedHead (s.outgoingMessage ++ [message]) b
    rw [handedHead_append (fun hb => (hb ▸ hc).ne_nil), hhanded]

/-- **A timely step leaves somebody in charge.** -/
theorem Driven.step {e : ClientEvent ι} (h : Driven l b s) (ht : s.Timely e) (hs : s.step e = some s') :
    ∃ l' b', Driven l' b' s' := by
  obtain ⟨hc, hposted, hhanded⟩ := id h
  cases e with
  | test i message =>
    simp only [TCPClient.step, Option.ite_none_right_eq_some, Option.some.injEq] at hs
    obtain ⟨hi, rfl⟩ := hs
    exact ⟨l, b, hc.move (by simp [hi]) (by simp), hposted, hhanded⟩
  | push i =>
    cases hi : s.posting i with
    | idle => simp [TCPClient.step, hi] at hs
    | pushed => simp [TCPClient.step, hi] at hs
    | tested message queueIdle =>
      simp only [TCPClient.step, hi, Option.some.injEq] at hs
      subst hs
      exact ⟨l, h.push hi (ht queueIdle (by simp [hi, PostState.queueIdle]))⟩
  | start i =>
    simp only [TCPClient.step, Option.ite_none_right_eq_some, Option.some.injEq] at hs
    obtain ⟨hi, rfl⟩ := hs
    obtain ⟨rfl, hstart⟩ := hc.start hi
    exact ⟨l, true, hstart, hposted, handed_asyncWrite hhanded⟩
  | complete =>
    simp only [TCPClient.step, Option.ite_none_right_eq_some, Option.some.injEq] at hs
    obtain ⟨⟨hidle, hw⟩, rfl⟩ := hs
    rw [hidle] at hc
    exact ⟨l, b, hc.complete hw, hposted, hhanded⟩
  | pop =>
    simp only [TCPClient.step, Option.ite_none_right_eq_some, Option.some.injEq] at hs
    obtain ⟨hw, rfl⟩ := hs
    obtain ⟨l', hpop⟩ := h.pop hw
    exact ⟨l', false, hpop⟩
  | retest =>
    simp only [TCPClient.step, Option.ite_none_right_eq_some, Option.some.injEq] at hs
    obtain ⟨hw, rfl⟩ := hs
    rw [hw] at hc
    exact ⟨l, b, hc.retest, hposted, hhanded⟩
  | restart =>
    simp only [TCPClient.step, Option.ite_none_right_eq_some, Option.some.injEq] at hs
    obtain ⟨hw, rfl⟩ := hs
    rw [hw] at hc
    obtain ⟨rfl, hnext⟩ := hc.restart
    exact ⟨l, true, hnext, hposted, handed_asyncWrite hhanded⟩

theorem driven_run {es : List (ClientEvent ι)}
    (hr : Run (guarded TCPClient.step TCPClient.Timely) {} es s) : ∃ l b, Driven l b s := by
  refine hr.invariant (I := fun _ s => ∃ l b, Driven l b s) ⟨[], false, driven_start⟩ ?_
  rintro _ s e s' ⟨l, b, h⟩ hs
  obtain ⟨ht, hs⟩ := guarded_eq_some.mp hs
  exact h.step ht hs

omit [DecidableEq ι] in
theorem Driven.prefix_posted (h : Driven l b s) : s.handed <+: s.posted := by
  rw [h.posted, h.handed, List.prefix_append_right_inj]
  cases b with
  | false => exact List.nil_prefix
  | true =>
    obtain ⟨a, q, hq⟩ := List.exists_cons_of_ne_nil h.charge.ne_nil
    rw [hq]
    exact ⟨q, rfl⟩

/-- **No message is stuck, and no two writes are under way**, in every run whose posts are timely. -/
theorem client_flows {es : List (ClientEvent ι)}
    (hr : Run (guarded TCPClient.step TCPClient.Timely) {} es s) :
    (s.AtRest → s.outgoingMessage ≠ [] → 0 < s.writes) ∧ s.writes ≤ 1 := by
  obtain ⟨l, b, h⟩ := driven_run hr
  refine ⟨fun hrest hq => ?_, h.charge.writes_le⟩
  rw [((h.chain hrest).writes_iff not_false).mpr hq]
  exact Nat.one_pos

/-- The threads that post: `main` in `Submit`, and the one of `ParseMessage` in `Broadcast` and
`Confirm`. -/
inductive Poster
  | main | receive
  deriving DecidableEq

instance : Fintype Poster := ⟨{.main, .receive}, fun p => by cases p <;> decide⟩

/-- Two posts, the second one while the first message is being written. -/
def twoPosts : List (ClientEvent Poster) :=
  [.test .main [97], .push .main, .start .main, .test .receive [98], .push .receive, .complete, .pop,
    .retest, .restart]

theorem twoPosts_isSome : (exec (guarded TCPClient.step TCPClient.Timely) {} twoPosts).isSome := by
  decide +kernel

theorem client_flows_twoPosts :
    0 < ((exec (guarded TCPClient.step TCPClient.Timely) {} twoPosts).get twoPosts_isSome).writes :=
  (client_flows (run_get twoPosts_isSome)).1 (by unfold TCPClient.AtRest; decide +kernel)
    (by decide +kernel)

/-- The first write ends between the `empty()` and the `push` of the second post. -/
def lostPost : List (ClientEvent Poster) :=
  [.test .main [97], .push .main, .start .main, .test .receive [98], .complete, .pop, .retest,
    .push .receive]

theorem lostPost_isSome : (exec TCPClient.step {} lostPost).isSome := by decide +kernel

/-- Both threads find the queue empty. -/
def doublePost : List (ClientEvent Poster) :=
  [.test .main [97], .test .receive [98], .push .main, .push .receive, .start .main, .start .receive]

theorem doublePost_isSome : (exec TCPClient.step {} doublePost).isSome := by decide +kernel

/-- **A message is stuck, or a second write is under way**, when a post is not timely. -/
theorem client_stuck :
    (((exec TCPClient.step {} lostPost).get lostPost_isSome).AtRest ∧
      ((exec TCPClient.step {} lostPost).get lostPost_isSome).outgoingMessage ≠ [] ∧
      ((exec TCPClient.step {} lostPost).get lostPost_isSome).writes = 0) ∧
    ((exec TCPClient.step {} doublePost).get doublePost_isSome).writes = 2 := by
  unfold TCPClient.AtRest
  decide +kernel

end Confirmer
