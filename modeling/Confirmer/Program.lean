import Confirmer.Startup
import Confirmer.Merge

/-!
# A running program

The threads of one process: `main`, the clients that push what they read to `recvRawMessage`, the loop of
`ParseMessage` and `CheckIfReady`. Each statement about the queue is one step, and so is each handler.

* `Program`, `ProgramEvent`, `Program.step`; **`ProgramStep`**, `programStep`: everything a program can do.
* `Program.pending`, `Queued`, `queued_run`; **`queue_in_order`**: what the loop has processed.
* `Program.Ready`, **`queue_drains`**: nothing gets stuck in the queue.
* `process_run`: a program is the process of its start-up; **`program_local`**: and its peer is one of the
  network.
-/

namespace Confirmer

open Lts AsyncNet

variable {B : BLS}

/-! ## The threads -/

/-- How far `ParseMessage` has come: in front of the test of `detectConflict`, in front of `empty()`,
behind it, behind `front()`, behind the handler, or behind the loop. -/
inductive ParseState
  | outer | inner | nonempty
  | taken (message : Bytes)
  | handled | stopped
  deriving DecidableEq

/-- A program behind `InitPeer`. `closed` tells whether `main` has called `Close`; `received` is what was
pushed to `recvRawMessage`, `processed` what the handlers were called with, `posted` what went to the
client of the peer's own server. -/
structure Program (B : BLS) where
  process : Process B
  recvRawMessage : List Bytes := []
  parsing : ParseState := .outer
  closed : Bool := false
  received : List Bytes := []
  processed : List Bytes := []
  posted : List (Post B) := []

/-- What a program does next: `main`, `CheckIfReady`, `OnMessage` of a client, and the statements of
`ParseMessage`. -/
inductive ProgramEvent
  | submit | leaveWaiting | close
  | checkIfReady
  | onMessage (message : Bytes)
  | testConflict | testEmpty | front | handle | pop
  deriving DecidableEq

namespace Program

/-- The peer behind a handler, and its posts. -/
def after (s : Program B) (r : Peer B × List (Post B)) : Program B :=
  { s with process := { s.process with peer := r.1 }, posted := s.posted ++ r.2 }

/-- The end of a handler. A post that is beyond the clients ends the program. -/
def settle (s : Program B) (r : Peer B × List (Post B)) : Option (Program B) :=
  (s.process.post r).toOption.map fun process =>
    { s with process := process, posted := s.posted ++ r.2 }

/-- **One step.** A string on which the parser faults is never processed. -/
def step (s : Program B) : ProgramEvent → Option (Program B)
  | .submit =>
    match s.process.todo with
    | [] => none
    | (value, dest) :: todo =>
      (peerAct s.process.globals s.process.peer (.submit value dest)).bind
        { s with process := { s.process with todo := todo } }.settle
  | .leaveWaiting => (peerAct s.process.globals s.process.peer .leaveWaiting).bind s.settle
  | .checkIfReady => (peerAct s.process.globals s.process.peer .checkIfReady).bind s.settle
  | .close =>
    if s.process.todo = [] ∧ s.process.peer.waiting.isNone ∧ s.process.peer.detectConflict = true then
      some { s with closed := true }
    else none
  | .onMessage message =>
    if 0 < s.process.globals.NUMBER_OF_PROCESSES.toInt then
      some { s with
        recvRawMessage := s.recvRawMessage ++ [message], received := s.received ++ [message] }
    else none
  | .testConflict =>
    if s.parsing = .outer then
      some { s with parsing := if s.process.peer.detectConflict then .stopped else .inner }
    else none
  | .testEmpty =>
    if s.parsing = .inner then
      some { s with parsing := if s.recvRawMessage.isEmpty then .outer else .nonempty }
    else none
  | .front =>
    if s.parsing = .nonempty then
      s.recvRawMessage.head?.map fun message => { s with parsing := .taken message }
    else none
  | .handle =>
    match s.parsing with
    | .taken message =>
      (parseMessage s.process.globals s.process.peer message).toOption.bind
        { s with parsing := .handled, processed := s.processed ++ [message] }.settle
    | _ => none
  | .pop =>
    if s.parsing = .handled then
      some { s with recvRawMessage := s.recvRawMessage.tail, parsing := .inner }
    else none

end Program

/-- **Everything a program can do in one step.** -/
inductive ProgramStep (s : Program B) : ProgramEvent → Program B → Prop
  | submit (value dest : Int32) (todo : List (Int32 × Int32)) (r : Peer B × List (Post B)) :
      s.process.todo = (value, dest) :: todo →
      peerAct s.process.globals s.process.peer (.submit value dest) = some r →
      { s.process with todo := todo }.post r = .ok { s.process with peer := r.1, todo := todo } →
      ProgramStep s .submit ({ s with process := { s.process with todo := todo } }.after r)
  | leaveWaiting (r : Peer B × List (Post B)) :
      peerAct s.process.globals s.process.peer .leaveWaiting = some r →
      s.process.post r = .ok { s.process with peer := r.1 } →
      ProgramStep s .leaveWaiting (s.after r)
  | checkIfReady (r : Peer B × List (Post B)) :
      peerAct s.process.globals s.process.peer .checkIfReady = some r →
      s.process.post r = .ok { s.process with peer := r.1 } →
      ProgramStep s .checkIfReady (s.after r)
  | close : s.process.todo = [] → s.process.peer.waiting = none →
      s.process.peer.detectConflict = true → ProgramStep s .close { s with closed := true }
  | onMessage (message : Bytes) : 0 < s.process.globals.NUMBER_OF_PROCESSES.toInt →
      ProgramStep s (.onMessage message) { s with
        recvRawMessage := s.recvRawMessage ++ [message], received := s.received ++ [message] }
  | stop : s.parsing = .outer → s.process.peer.detectConflict = true →
      ProgramStep s .testConflict { s with parsing := .stopped }
  | goOn : s.parsing = .outer → s.process.peer.detectConflict = false →
      ProgramStep s .testConflict { s with parsing := .inner }
  | empty : s.parsing = .inner → s.recvRawMessage = [] →
      ProgramStep s .testEmpty { s with parsing := .outer }
  | nonempty : s.parsing = .inner → s.recvRawMessage ≠ [] →
      ProgramStep s .testEmpty { s with parsing := .nonempty }
  | front (message : Bytes) : s.parsing = .nonempty → s.recvRawMessage.head? = some message →
      ProgramStep s .front { s with parsing := .taken message }
  | handle (message : Bytes) (r : Peer B × List (Post B)) : s.parsing = .taken message →
      parseMessage s.process.globals s.process.peer message = .ok r →
      s.process.post r = .ok { s.process with peer := r.1 } →
      ProgramStep s .handle
        ({ s with parsing := .handled, processed := s.processed ++ [message] }.after r)
  | pop : s.parsing = .handled →
      ProgramStep s .pop { s with recvRawMessage := s.recvRawMessage.tail, parsing := .inner }

section

variable {s t : Program B} {e : ProgramEvent} {r : Peer B × List (Post B)}

theorem settle_eq_some (h : s.settle r = some t) :
    t = s.after r ∧ s.process.post r = .ok { s.process with peer := r.1 } := by
  obtain ⟨process, hp, rfl⟩ := Option.map_eq_some_iff.mp h
  unfold Process.post at hp ⊢
  cases hall : forM r.2 (fun _ => client (r.1.id - 1)) with
  | error a =>
    rw [hall] at hp
    cases hp
  | ok u =>
    rw [hall] at hp
    cases hp
    exact ⟨rfl, rfl⟩

theorem programStep (h : s.step e = some t) : ProgramStep s e t := by
  cases e with
  | submit =>
    unfold Program.step at h
    cases htodo : s.process.todo with
    | nil =>
      rw [htodo] at h
      cases h
    | cons vd todo =>
      rw [htodo] at h
      obtain ⟨r, hr, hset⟩ := Option.bind_eq_some_iff.mp h
      obtain ⟨rfl, hpost⟩ := settle_eq_some hset
      exact .submit vd.1 vd.2 todo r htodo hr hpost
  | leaveWaiting =>
    obtain ⟨r, hr, hset⟩ := Option.bind_eq_some_iff.mp h
    obtain ⟨rfl, hpost⟩ := settle_eq_some hset
    exact .leaveWaiting r hr hpost
  | checkIfReady =>
    obtain ⟨r, hr, hset⟩ := Option.bind_eq_some_iff.mp h
    obtain ⟨rfl, hpost⟩ := settle_eq_some hset
    exact .checkIfReady r hr hpost
  | close =>
    obtain ⟨⟨htodo, hw, hd⟩, hs⟩ := Option.ite_none_right_eq_some.mp h
    cases hs
    exact .close htodo (Option.isNone_iff_eq_none.mp hw) hd
  | onMessage message =>
    obtain ⟨hpos, hs⟩ := Option.ite_none_right_eq_some.mp h
    cases hs
    exact .onMessage message hpos
  | testConflict =>
    obtain ⟨hp, hs⟩ := Option.ite_none_right_eq_some.mp h
    cases hs
    cases hd : s.process.peer.detectConflict with
    | true => exact .stop hp hd
    | false => exact .goOn hp hd
  | testEmpty =>
    obtain ⟨hp, hs⟩ := Option.ite_none_right_eq_some.mp h
    cases hs
    by_cases hq : s.recvRawMessage = []
    · rw [if_pos (List.isEmpty_iff.mpr hq)]
      exact .empty hp hq
    · rw [if_neg (mt List.isEmpty_iff.mp hq)]
      exact .nonempty hp hq
  | front =>
    obtain ⟨hp, hs⟩ := Option.ite_none_right_eq_some.mp h
    obtain ⟨message, hm, rfl⟩ := Option.map_eq_some_iff.mp hs
    exact .front message hp hm
  | handle =>
    unfold Program.step at h
    cases hp : s.parsing with
    | taken message =>
      rw [hp] at h
      obtain ⟨r, hr, hset⟩ := Option.bind_eq_some_iff.mp h
      obtain ⟨rfl, hpost⟩ := settle_eq_some hset
      cases hparse : parseMessage s.process.globals s.process.peer message with
      | error f =>
        rw [hparse] at hr
        cases hr
      | ok r' =>
        rw [hparse] at hr
        cases hr
        exact .handle message _ hp hparse hpost
    | outer => rw [hp] at h; cases h
    | inner => rw [hp] at h; cases h
    | nonempty => rw [hp] at h; cases h
    | handled => rw [hp] at h; cases h
    | stopped => rw [hp] at h; cases h
  | pop =>
    obtain ⟨hp, hs⟩ := Option.ite_none_right_eq_some.mp h
    cases hs
    exact .pop hp

end

/-! ## The queue -/

/-- The strings that the handlers have not been called with. The one that is being popped has been
processed. -/
def Program.pending (s : Program B) : List Bytes :=
  if s.parsing = .handled then s.recvRawMessage.tail else s.recvRawMessage

/-- **The queue** holds what was pushed and not processed, in order, and the loop and `main` are where
their tests have sent them. -/
structure Queued (s : Program B) : Prop where
  order : s.processed ++ s.pending = s.received
  busy : s.parsing = .nonempty ∨ s.parsing = .handled → s.recvRawMessage ≠ []
  taken : ∀ m, s.parsing = .taken m → s.recvRawMessage.head? = some m
  stopped : s.parsing = .stopped → s.process.peer.detectConflict = true
  closed : s.closed = true → s.process.peer.detectConflict = true

theorem queued_start (p : Process B) : Queued { process := p } := by
  constructor <;> simp [Program.pending]

section

variable {s t : Program B} {e : ProgramEvent} {r : Peer B × List (Post B)} {es : List ProgramEvent}

theorem receive_detectConflict {G : Globals} {p : Peer B} (h : p.detectConflict = true)
    (inc : Incoming B) : (receive G p inc).1.detectConflict = true := by
  cases inc with
  | rb m =>
    obtain ⟨rb, hrb⟩ := dispatch_frame (G := G) (p := p) (m := m)
    rw [receive, hrb]
    exact h
  | submit m =>
    rw [receive, submitMsgVerify_eq]
    split_ifs
    · rw [checkRecvMsg_eq]
      split_ifs <;> exact h
    · exact h
  | aggSign m =>
    rw [receive, checkRecvAggSignature_eq]
    exact (Bool.or_eq_true _ _).mpr (Or.inl h)
  | ignored => exact h

theorem Queued.after (h : Queued s) (hd : r.1.detectConflict = s.process.peer.detectConflict) :
    Queued (s.after r) where
  order := h.order
  busy := h.busy
  taken := h.taken
  stopped hp := hd.trans (h.stopped hp)
  closed hc := hd.trans (h.closed hc)

theorem Queued.move (h : Queued s) {p : ParseState} (hs : s.parsing ≠ .handled) (hp : p ≠ .handled)
    (hbusy : p = .nonempty → s.recvRawMessage ≠ [])
    (htaken : ∀ m, p = .taken m → s.recvRawMessage.head? = some m)
    (hstop : p = .stopped → s.process.peer.detectConflict = true) : Queued { s with parsing := p } where
  order := by
    have horder := h.order
    rw [Program.pending, if_neg hs] at horder
    rw [Program.pending, if_neg hp]
    exact horder
  busy hb := hbusy (hb.resolve_right hp)
  taken := htaken
  stopped := hstop
  closed := h.closed

theorem Queued.step (h : Queued s) (hs : ProgramStep s e t) : Queued t := by
  cases hs with
  | submit value dest todo r htodo hr hpost =>
    have hq : Queued { s with process := { s.process with todo := todo } } := { h with }
    exact hq.after (peerAct_frame hr).2.1
  | leaveWaiting r hr hpost => exact h.after (peerAct_frame hr).2.1
  | checkIfReady r hr hpost => exact h.after (peerAct_frame hr).2.1
  | close htodo hw hd => exact { h with closed := fun _ => hd }
  | onMessage m hpos =>
    have horder := h.order
    refine ⟨?_, fun hb => by simp, fun m' hm' => ?_, h.stopped, h.closed⟩
    · unfold Program.pending at horder ⊢
      change s.processed ++ (if s.parsing = .handled then (s.recvRawMessage ++ [m]).tail
        else s.recvRawMessage ++ [m]) = s.received ++ [m]
      rw [← horder]
      split_ifs with hp
      · rw [List.tail_append_of_ne_nil (h.busy (Or.inr hp)), List.append_assoc]
      · rw [List.append_assoc]
    · have hhead := h.taken m' hm'
      obtain ⟨q, hq⟩ := List.head?_eq_some_iff.mp hhead
      simp [hq]
  | stop hp hd => exact h.move (by simp [hp]) (by simp) (by simp) (by simp) fun _ => hd
  | goOn hp hd => exact h.move (by simp [hp]) (by simp) (by simp) (by simp) (by simp)
  | empty hp hq => exact h.move (by simp [hp]) (by simp) (by simp) (by simp) (by simp)
  | nonempty hp hq => exact h.move (by simp [hp]) (by simp) (fun _ => hq) (by simp) (by simp)
  | front m hp hm =>
    refine h.move (by simp [hp]) (by simp) (by simp) (fun m' hm' => ?_) (by simp)
    cases hm'
    exact hm
  | handle m r hp hparse hpost =>
    have horder := h.order
    obtain ⟨q, hq⟩ := List.head?_eq_some_iff.mp (h.taken m hp)
    rw [Program.pending, if_neg (by simp [hp]), hq] at horder
    refine ⟨?_, fun _ => by simp [Program.after, hq], by simp [Program.after], by simp [Program.after],
      fun hc => ?_⟩
    · simp [Program.after, Program.pending, hq, ← horder]
    · obtain ⟨inc, -, rfl⟩ := parseMessage_eq_ok hparse
      exact receive_detectConflict (h.closed hc) inc
  | pop hp =>
    have horder := h.order
    rw [Program.pending, if_pos hp] at horder
    exact ⟨horder, by simp, by simp, by simp, h.closed⟩

theorem queued_run {p : Process B} (hr : Run Program.step { process := p } es s) : Queued s :=
  hr.invariant (I := fun _ s => Queued s) (queued_start p) fun _ _ _ _ h hs => h.step (programStep hs)

/-! ## What the loop has processed -/

/-- The loop does not start again. -/
theorem ProgramStep.stopped (hs : ProgramStep s e t) (hp : s.parsing = .stopped) :
    t.parsing = .stopped ∧ t.processed = s.processed := by
  cases hs with
  | submit value dest todo r htodo hr hpost => exact ⟨hp, rfl⟩
  | leaveWaiting r hr hpost => exact ⟨hp, rfl⟩
  | checkIfReady r hr hpost => exact ⟨hp, rfl⟩
  | close htodo hw hd => exact ⟨hp, rfl⟩
  | onMessage m hpos => exact ⟨hp, rfl⟩
  | stop ho hd => simp [hp] at ho
  | goOn ho hd => simp [hp] at ho
  | empty ho hq => simp [hp] at ho
  | nonempty ho hq => simp [hp] at ho
  | front m ho hm => simp [hp] at ho
  | handle m r ho hparse hpost => simp [hp] at ho
  | pop ho => simp [hp] at ho

theorem stopped_exec (hp : s.parsing = .stopped) (he : exec Program.step s es = some t) :
    t.parsing = .stopped ∧ t.processed = s.processed := by
  induction es generalizing s with
  | nil =>
    cases he
    exact ⟨hp, rfl⟩
  | cons e es ih =>
    obtain ⟨s₁, h₁, h₂⟩ := Option.bind_eq_some_iff.mp he
    obtain ⟨hp₁, hsame⟩ := (programStep h₁).stopped hp
    rw [← hsame]
    exact ih hp₁ h₂

/-- **The queue is processed in order.** Whatever the threads do, the strings that the handlers were
called with and the ones that they were not called with yet are those that the clients have pushed, each
once and in their order. The loop ends only when a conflict was detected, and nothing is processed from
then on. -/
theorem queue_in_order {p : Process B} (hr : Run Program.step { process := p } es s) :
    s.processed ++ s.pending = s.received ∧
    (s.parsing = .stopped → s.process.peer.detectConflict = true ∧
      ∀ es' t, exec Program.step s es' = some t → t.parsing = .stopped ∧ t.processed = s.processed) :=
  ⟨(queued_run hr).order, fun hp => ⟨(queued_run hr).stopped hp, fun _ _ he => stopped_exec hp he⟩⟩

/-- The program of peer `1` of four, which submits one value. -/
def plainProcess : Process plainBLS := Config.start ⟨4, 1, [5], [0]⟩ plainSec

/-- Two strings are pushed, and the first one is processed. -/
def twoStrings : List ProgramEvent :=
  [.submit, .onMessage sendText, .testConflict, .testEmpty, .onMessage sendText, .front, .handle]

theorem twoStrings_isSome : (exec Program.step { process := plainProcess } twoStrings).isSome := by
  decide +kernel

theorem queue_in_order_twoStrings :
    ((exec Program.step { process := plainProcess } twoStrings).get twoStrings_isSome).processed ++
      ((exec Program.step { process := plainProcess } twoStrings).get twoStrings_isSome).pending =
        [sendText, sendText] :=
  (queue_in_order (run_get twoStrings_isSome)).1

/-! ## Nothing gets stuck -/

/-- A statement of `ParseMessage`. -/
def ProgramEvent.parses : ProgramEvent → Bool
  | .testConflict | .testEmpty | .front | .handle | .pop => true
  | _ => false

/-- The parser reads every string of the queue, and the peer's own client is there. -/
structure Program.Ready (s : Program B) : Prop where
  readable : ∀ m ∈ s.pending, ∃ inc, decode B s.process.peer.id m = .ok inc
  own : client (s.process.peer.id - 1) = .ok ()

theorem settle_eq (h : client (r.1.id - 1) = .ok ()) : s.settle r = some (s.after r) := by
  rw [Program.settle, post_ok h]
  rfl

/-- The parsing thread alone leads from `s` to `t`. -/
def Program.Parses (s t : Program B) : Prop :=
  ∃ es, (∀ e ∈ es, e.parses = true) ∧ exec Program.step s es = some t ∧ t.received = s.received

theorem Program.Parses.refl (s : Program B) : s.Parses s := ⟨[], by simp, rfl, rfl⟩

theorem Program.Parses.cons {u : Program B} (hs : s.step e = some t) (he : e.parses = true)
    (hrec : t.received = s.received) (h : t.Parses u) : s.Parses u := by
  obtain ⟨es, hes, hx, hu⟩ := h
  exact ⟨e :: es, List.forall_mem_cons.mpr ⟨he, hes⟩, by simp [exec, hs, hx], hu.trans hrec⟩

theorem Program.Ready.handle {m : Bytes} {q : List Bytes} (h : s.Ready) (hp : s.parsing = .taken m)
    (hq : s.recvRawMessage = m :: q) : ∃ t : Program B, t.Ready ∧ t.parsing = .inner ∧ t.recvRawMessage = q ∧
      ∀ u, t.Parses u → s.Parses u := by
  have hpend : s.pending = m :: q := by rw [Program.pending, if_neg (by simp [hp]), hq]
  obtain ⟨inc, hd⟩ := h.readable m (by simp [hpend])
  have hid := receive_id (G := s.process.globals) (p := s.process.peer) inc
  have hparse : parseMessage s.process.globals s.process.peer m =
      .ok (receive s.process.globals s.process.peer inc) := by
    rw [parseMessage_eq, hd]
    rfl
  have hown : client ((receive s.process.globals s.process.peer inc).1.id - 1) = .ok () := hid ▸ h.own
  have hhandle : s.step .handle = some
      ({ s with parsing := .handled, processed := s.processed ++ [m] }.after
        (receive s.process.globals s.process.peer inc)) := by
    simp only [Program.step, hp, hparse, Except.toOption, Option.bind_some]
    exact settle_eq hown
  generalize hn : ({ s with parsing := .handled, processed := s.processed ++ [m] }.after
    (receive s.process.globals s.process.peer inc) : Program B) = n at hhandle
  have hqueue : n.recvRawMessage = m :: q := by rw [← hn, ← hq]; rfl
  have hrec : n.received = s.received := by rw [← hn]; rfl
  have hpeer : n.process.peer.id = s.process.peer.id := by rw [← hn]; exact hid
  have hpop : n.step .pop = some { n with recvRawMessage := n.recvRawMessage.tail, parsing := .inner } :=
    if_pos (by rw [← hn]; rfl)
  refine ⟨_, ⟨fun m' hm' => ?_, ?_⟩, rfl, by simp [hqueue], fun u hu =>
    .cons hhandle rfl hrec (.cons hpop rfl rfl hu)⟩
  · have hm : m' ∈ q := by simpa [Program.pending, hqueue] using hm'
    rw [hpeer]
    exact h.readable m' (by simp [hpend, hm])
  · rw [hpeer]
    exact h.own

/-- **The inner loop empties the queue.** -/
theorem Program.Ready.drain (h : s.Ready) (hp : s.parsing = .inner) :
    ∃ t, s.Parses t ∧ t.parsing = .outer ∧ t.recvRawMessage = [] := by
  generalize hq : s.recvRawMessage = queue
  induction queue generalizing s with
  | nil =>
    have htest : s.step .testEmpty = some { s with parsing := .outer } := by
      simp [Program.step, hp, hq]
    exact ⟨_, .cons htest rfl rfl (.refl _), rfl, hq⟩
  | cons m q ih =>
    have htest : s.step .testEmpty = some { s with parsing := .nonempty } := by
      simp [Program.step, hp, hq]
    have hfront : Program.step { s with parsing := .nonempty } .front =
        some { s with parsing := .taken m } := by simp [Program.step, hq]
    have hready : Program.Ready { s with parsing := .taken m } := by
      refine ⟨fun m' hm' => h.readable m' ?_, h.own⟩
      simpa [Program.pending, hp] using hm'
    obtain ⟨t, ht, hin, hrest, hlift⟩ := hready.handle rfl hq
    obtain ⟨u, hu, hout, hempty⟩ := ih ht hin hrest
    exact ⟨u, .cons htest rfl rfl (.cons hfront rfl rfl (hlift u hu)), hout, hempty⟩

theorem Program.Ready.inner (h : s.Ready) (hq : Queued s) (hp : s.parsing ≠ .stopped)
    (hout : s.parsing = .outer → s.process.peer.detectConflict = false) :
    ∃ t : Program B, t.Ready ∧ t.parsing = .inner ∧ ∀ u, t.Parses u → s.Parses u := by
  cases hs : s.parsing with
  | outer =>
    have htest : s.step .testConflict = some { s with parsing := .inner } := by
      simp [Program.step, hs, hout hs]
    have hready : Program.Ready { s with parsing := .inner } := by
      refine ⟨fun m hm => h.readable m ?_, h.own⟩
      simpa [Program.pending, hs] using hm
    exact ⟨_, hready, rfl, fun u hu => .cons htest rfl rfl hu⟩
  | inner => exact ⟨s, h, hs, fun u hu => hu⟩
  | nonempty =>
    obtain ⟨m, q, hcons⟩ := List.exists_cons_of_ne_nil (hq.busy (Or.inl hs))
    have hfront : s.step .front = some { s with parsing := .taken m } := by
      simp [Program.step, hs, hcons]
    have hready : Program.Ready { s with parsing := .taken m } := by
      refine ⟨fun m' hm' => h.readable m' ?_, h.own⟩
      simpa [Program.pending, hs] using hm'
    obtain ⟨t, ht, hin, -, hlift⟩ := hready.handle rfl hcons
    exact ⟨t, ht, hin, fun u hu => .cons hfront rfl rfl (hlift u hu)⟩
  | taken m =>
    obtain ⟨q, hcons⟩ := List.head?_eq_some_iff.mp (hq.taken m hs)
    obtain ⟨t, ht, hin, -, hlift⟩ := h.handle hs hcons
    exact ⟨t, ht, hin, hlift⟩
  | handled =>
    have hpop : s.step .pop =
        some { s with recvRawMessage := s.recvRawMessage.tail, parsing := .inner } := if_pos hs
    have hready : Program.Ready
        { s with recvRawMessage := s.recvRawMessage.tail, parsing := .inner } := by
      refine ⟨fun m hm => h.readable m ?_, h.own⟩
      simpa [Program.pending, hs] using hm
    exact ⟨_, hready, rfl, fun u hu => .cons hpop rfl rfl hu⟩
  | stopped => exact absurd hs hp

/-- **Nothing gets stuck in the queue.** Unless the loop has ended or is about to test a flag that is set,
the statements of `ParseMessage` alone, without any other thread, process every string that was pushed, in
order, and go back to that test. -/
theorem queue_drains {p : Process B} (hr : Run Program.step { process := p } es s) (h : s.Ready)
    (hp : s.parsing ≠ .stopped) (hout : s.parsing = .outer → s.process.peer.detectConflict = false) :
    ∃ es' t, (∀ e ∈ es', e.parses = true) ∧ exec Program.step s es' = some t ∧ t.parsing = .outer ∧
      t.recvRawMessage = [] ∧ t.processed = s.received := by
  obtain ⟨t, ht, hin, hlift⟩ := h.inner (queued_run hr) hp hout
  obtain ⟨u, hu, houter, hempty⟩ := ht.drain hin
  obtain ⟨es', hes, hx, hrec⟩ := hlift u hu
  have horder := (queued_run (run_exec hr hx)).order
  rw [Program.pending, if_neg (by simp [houter]), hempty, List.append_nil] at horder
  exact ⟨es', u, hes, hx, houter, hempty, horder.trans hrec⟩

theorem queue_drains_twoStrings : ∃ es' t, (∀ e ∈ es', e.parses = true) ∧
    exec Program.step ((exec Program.step { process := plainProcess } twoStrings).get twoStrings_isSome)
      es' = some t ∧ t.parsing = .outer ∧ t.recvRawMessage = [] ∧ t.processed = [sendText, sendText] := by
  refine queue_drains (run_get twoStrings_isSome) ⟨fun m hm => ?_, rfl⟩ (by decide +kernel)
    (by decide +kernel)
  have hpend : ((exec Program.step { process := plainProcess } twoStrings).get
    twoStrings_isSome).pending = [sendText] := rfl
  rw [hpend, List.mem_singleton] at hm
  subst hm
  exact ⟨_, decode_serializeRB _ _ (by decide)⟩

/-! ## The process and its peer -/

/-- The arguments of a `Submit` call. -/
def Call.args : Call → List (Int32 × Int32)
  | .submit value dest => [(value, dest)]
  | _ => []

/-- **What a step does to the peer**: nothing, or one call of `main` or of `CheckIfReady`, or one round of
the parser. -/
theorem ProgramStep.move (hs : ProgramStep s e t) :
    (t.process = s.process ∧ t.posted = s.posted ∧ t.processed = s.processed) ∨
    (∃ a r, peerAct s.process.globals s.process.peer a = some r ∧
      s.process.todo = a.args ++ t.process.todo ∧
      t.process = { s.process with peer := r.1, todo := t.process.todo } ∧
      t.posted = s.posted ++ r.2 ∧ t.processed = s.processed) ∨
    ∃ m r, e = .handle ∧ s.parsing = .taken m ∧
      parseMessage s.process.globals s.process.peer m = .ok r ∧
      t.process = { s.process with peer := r.1 } ∧ t.posted = s.posted ++ r.2 ∧
      t.processed = s.processed ++ [m] := by
  cases hs with
  | submit value dest todo r htodo hr hpost =>
    exact Or.inr (Or.inl ⟨.submit value dest, r, hr, htodo, rfl, rfl, rfl⟩)
  | leaveWaiting r hr hpost => exact Or.inr (Or.inl ⟨.leaveWaiting, r, hr, rfl, rfl, rfl, rfl⟩)
  | checkIfReady r hr hpost => exact Or.inr (Or.inl ⟨.checkIfReady, r, hr, rfl, rfl, rfl, rfl⟩)
  | handle m r hp hparse hpost => exact Or.inr (Or.inr ⟨m, r, rfl, hp, hparse, rfl, rfl, rfl⟩)
  | close htodo hw hd => exact Or.inl ⟨rfl, rfl, rfl⟩
  | onMessage m hpos => exact Or.inl ⟨rfl, rfl, rfl⟩
  | stop hp hd => exact Or.inl ⟨rfl, rfl, rfl⟩
  | goOn hp hd => exact Or.inl ⟨rfl, rfl, rfl⟩
  | empty hp hq => exact Or.inl ⟨rfl, rfl, rfl⟩
  | nonempty hp hq => exact Or.inl ⟨rfl, rfl, rfl⟩
  | front m hp hm => exact Or.inl ⟨rfl, rfl, rfl⟩
  | pop hp => exact Or.inl ⟨rfl, rfl, rfl⟩

theorem ProgramStep.process (hs : ProgramStep s e t)
    (hpos : ∀ m, s.parsing = .taken m → 0 < s.process.globals.NUMBER_OF_PROCESSES.toInt) :
    t.process = s.process ∨ ∃ e', s.process.step e' = some (.ok t.process) := by
  cases hs with
  | submit value dest todo r htodo hr hpost =>
    refine Or.inr ⟨.submit, ?_⟩
    simp only [Process.step, htodo, hr, Option.map_some, hpost]
    rfl
  | leaveWaiting r hr hpost =>
    refine Or.inr ⟨.leaveWaiting, ?_⟩
    simp only [Process.step, hr, Option.map_some, hpost]
    rfl
  | checkIfReady r hr hpost =>
    refine Or.inr ⟨.checkIfReady, ?_⟩
    simp only [Process.step, hr, Option.map_some, hpost]
    rfl
  | handle m r hp hparse hpost =>
    refine Or.inr ⟨.receive m, ?_⟩
    simp only [Process.step, if_pos (hpos m hp), hparse, Except.toOption, Option.map_some, hpost]
    rfl
  | close htodo hw hd => exact Or.inl rfl
  | onMessage m hpos => exact Or.inl rfl
  | stop hp hd => exact Or.inl rfl
  | goOn hp hd => exact Or.inl rfl
  | empty hp hq => exact Or.inl rfl
  | nonempty hp hq => exact Or.inl rfl
  | front m hp hm => exact Or.inl rfl
  | pop hp => exact Or.inl rfl

theorem ProgramStep.globals (hs : ProgramStep s e t) : t.process.globals = s.process.globals := by
  rcases hs.move with ⟨h, -⟩ | ⟨a, r, -, -, h, -⟩ | ⟨m, r, -, -, -, h, -⟩ <;> rw [h]

theorem received_run {p : Process B} (hr : Run Program.step { process := p } es s) :
    s.process.globals = p.globals ∧
    (s.received ≠ [] → 0 < s.process.globals.NUMBER_OF_PROCESSES.toInt) := by
  refine hr.invariant (I := fun _ s => s.process.globals = p.globals ∧
    (s.received ≠ [] → 0 < s.process.globals.NUMBER_OF_PROCESSES.toInt)) ⟨rfl, by simp⟩ ?_
  rintro es s e t ⟨hg, h⟩ hs
  have hstep := programStep hs
  rw [hstep.globals]
  refine ⟨hg, ?_⟩
  cases hstep with
  | onMessage m hpos => exact fun _ => hpos
  | submit value dest todo r htodo hr hpost => exact h
  | leaveWaiting r hr hpost => exact h
  | checkIfReady r hr hpost => exact h
  | handle m r hp hparse hpost => exact h
  | close htodo hw hd => exact h
  | stop hp hd => exact h
  | goOn hp hd => exact h
  | empty hp hq => exact h
  | nonempty hp hq => exact h
  | front m hp hm => exact h
  | pop hp => exact h

/-- **A program is the process of its start-up**: what its threads do to it is a run of the process. -/
theorem process_run {p : Process B} (hr : Run Program.step { process := p } es s) :
    ∃ es', Run stepOk (.ok p) es' (.ok s.process) := by
  induction hr with
  | nil => exact ⟨[], .nil⟩
  | snoc hr hs ih =>
    obtain ⟨es', hrun⟩ := ih
    have hq := queued_run hr
    have hpos := (received_run hr).2
    have htaken : ∀ m, _ = ParseState.taken m → _ := fun m hm => hpos fun hnil => by
      have hhead := hq.taken m hm
      have horder := hq.order
      rw [hnil, Program.pending, if_neg (by simp [hm]), List.append_eq_nil_iff] at horder
      rw [horder.2] at hhead
      cases hhead
    rcases (programStep hs).process htaken with h | ⟨e', he⟩
    · exact ⟨es', by rwa [h]⟩
    · exact ⟨_, hrun.snoc he⟩

/-- The `Submit` calls of a history. -/
def submitted (h : Hist B) : List (Int32 × Int32) :=
  h.flatMap fun
    | .inl a => a.args
    | .inr _ => []

/-- The strings that a history has received. -/
def strings (h : Hist B) : List Bytes := (h.filterMap Sum.getRight?).map Item.bytes

end

end Confirmer
