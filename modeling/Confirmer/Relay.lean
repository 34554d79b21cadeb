import Confirmer.Lib.Chain
import Confirmer.Lib.Lts
import Confirmer.Message
import Mathlib.Data.Finset.Basic

/-!
# The relay server

`TCPConnection` and `TCPServer`, with the handlers that `StartServer` sets: what a client sends is
broadcast to all connections. The handlers run one after another on the thread of the `io_context`.
An operation that was started ends once, with or without an error; what an operation on a closed
socket ends with is left open.

* `TCPConnection`, `TCPServer`: the state, with a record of what was handed to `async_write`, of the
  calls of `Broadcast` and of those of `OnLeave`.
* `post`, `onWrite`, `broadcast`, `errorHandler`, `onAccept`, `onRead`; `ServerEvent`, `step`.
* `Relaying`, `relaying_run`: every connection is a chain of writes.
* **`relay_in_order`**: the server relays in one order.
-/

namespace Confirmer

open WriteChain Lts

/-! ## Connections -/

/-- `TCPConnection`. `reads` and `writes` are its outstanding operations, `handed` is what it has
passed to `async_write`. -/
structure TCPConnection where
  started : Bool := false
  outgoingMessage : List Bytes := []
  reads : ℕ := 0
  writes : ℕ := 0
  handed : List Bytes := []

namespace TCPConnection

/-- `asyncRead`. -/
def asyncRead (c : TCPConnection) : TCPConnection := { c with reads := c.reads + 1 }

/-- `Start`: the handlers are set, and the first read is under way. -/
def start (c : TCPConnection) : TCPConnection := { c with started := true }.asyncRead

/-- `asyncWrite`: the head of the queue is handed over, and stays where it is. -/
def asyncWrite (c : TCPConnection) : TCPConnection :=
  { c with handed := c.handed ++ c.outgoingMessage.head?.toList, writes := c.writes + 1 }

/-- `Post`. -/
def post (c : TCPConnection) (message : Bytes) : TCPConnection :=
  let queueIdle := c.outgoingMessage.isEmpty
  let c := { c with outgoingMessage := c.outgoingMessage ++ [message] }
  if queueIdle then c.asyncWrite else c

/-- `onWrite` without an error. -/
def onWrite (c : TCPConnection) : TCPConnection :=
  let c := { c with writes := c.writes - 1, outgoingMessage := c.outgoingMessage.tail }
  if c.outgoingMessage.isEmpty then c else c.asyncWrite

end TCPConnection

/-! ## The server -/

/-- `TCPServer`. The connections are numbered in the order of their acceptance; `connections` is the
set `_connections`. `log` holds the calls of `Broadcast` with the connections at the time, `left` those
of `OnLeave`. -/
structure TCPServer where
  connections : Finset ℕ := ∅
  connection : ℕ → TCPConnection := fun _ => {}
  accepted : ℕ := 0
  running : Bool := true
  log : List (Bytes × Finset ℕ) := []
  left : List ℕ := []

namespace TCPServer

def update (s : TCPServer) (c : ℕ) (f : TCPConnection → TCPConnection) : TCPServer :=
  { s with connection := Function.update s.connection c (f (s.connection c)) }

@[simp] theorem update_self (s : TCPServer) (c : ℕ) (f : TCPConnection → TCPConnection) :
    (s.update c f).connection c = f (s.connection c) := Function.update_self ..

@[simp] theorem update_ne (s : TCPServer) {c c' : ℕ} (h : c' ≠ c) (f : TCPConnection → TCPConnection) :
    (s.update c f).connection c' = s.connection c' := Function.update_of_ne h ..

/-- `Broadcast`. -/
def broadcast (s : TCPServer) (message : Bytes) : TCPServer :=
  { s with
    connection := fun c => if c ∈ s.connections then (s.connection c).post message else s.connection c
    log := s.log ++ [(message, s.connections)] }

/-- The error handler of a connection. A connection that was not started has none, and an uncaught
exception ends `Run`. -/
def errorHandler (s : TCPServer) (c : ℕ) : TCPServer :=
  if (s.connection c).started = true then
    if c ∈ s.connections then { s with connections := s.connections.erase c, left := s.left ++ [c] }
    else s
  else { s with running := false }

/-- The handler that `startAccept` passes to `async_accept`. The constructor of the connection throws
when its socket is not connected. -/
def onAccept (s : TCPServer) (error connected : Bool) : TCPServer :=
  if connected = true then
    let c := s.accepted
    let s := { s with accepted := c + 1, connections := insert c s.connections }
    if error = true then s else s.update c TCPConnection.start
  else { s with running := false }

/-- `onRead` without an error: `OnClientMessage` broadcasts the message. -/
def onRead (s : TCPServer) (c : ℕ) (message : Bytes) : TCPServer :=
  ((s.update c fun c => { c with reads := c.reads - 1 }).broadcast message).update c
    TCPConnection.asyncRead

def onReadError (s : TCPServer) (c : ℕ) : TCPServer :=
  (s.update c fun c => { c with reads := c.reads - 1 }).errorHandler c

def onWriteError (s : TCPServer) (c : ℕ) : TCPServer :=
  (s.update c fun c => { c with writes := c.writes - 1 }).errorHandler c

end TCPServer

/-- What the `io_context` can run next: the end of an accept, a read or a write. -/
inductive ServerEvent
  | accept (error connected : Bool)
  | read (c : ℕ) (message : Bytes)
  | readError (c : ℕ)
  | write (c : ℕ)
  | writeError (c : ℕ)
  deriving DecidableEq

/-- **One handler of the server.** Only outstanding operations end. -/
def TCPServer.step (s : TCPServer) (e : ServerEvent) : Option TCPServer :=
  if s.running = true then
    match e with
    | .accept error connected => some (s.onAccept error connected)
    | .read c message => if 0 < (s.connection c).reads then some (s.onRead c message) else none
    | .readError c => if 0 < (s.connection c).reads then some (s.onReadError c) else none
    | .write c => if 0 < (s.connection c).writes then some (s.update c TCPConnection.onWrite) else none
    | .writeError c => if 0 < (s.connection c).writes then some (s.onWriteError c) else none
  else none

/-- **Everything the server can do in one step.** -/
inductive ServerStep (s : TCPServer) : ServerEvent → TCPServer → Prop
  | accept (error connected : Bool) :
      ServerStep s (.accept error connected) (s.onAccept error connected)
  | read (c : ℕ) (message : Bytes) : 0 < (s.connection c).reads →
      ServerStep s (.read c message) (s.onRead c message)
  | readError (c : ℕ) : 0 < (s.connection c).reads → ServerStep s (.readError c) (s.onReadError c)
  | write (c : ℕ) : 0 < (s.connection c).writes →
      ServerStep s (.write c) (s.update c TCPConnection.onWrite)
  | writeError (c : ℕ) : 0 < (s.connection c).writes →
      ServerStep s (.writeError c) (s.onWriteError c)

theorem serverStep {s s' : TCPServer} {e : ServerEvent} (hs : s.step e = some s') :
    ServerStep s e s' := by
  unfold TCPServer.step at hs
  split_ifs at hs with hrun
  cases e with
  | accept error connected =>
    cases hs
    exact .accept error connected
  | read c message =>
    obtain ⟨hr, hs⟩ := Option.ite_none_right_eq_some.mp hs
    cases hs
    exact .read c message hr
  | readError c =>
    obtain ⟨hr, hs⟩ := Option.ite_none_right_eq_some.mp hs
    cases hs
    exact .readError c hr
  | write c =>
    obtain ⟨hw, hs⟩ := Option.ite_none_right_eq_some.mp hs
    cases hs
    exact .write c hw
  | writeError c =>
    obtain ⟨hw, hs⟩ := Option.ite_none_right_eq_some.mp hs
    cases hs
    exact .writeError c hw

/-! ## One connection -/

/-- The messages passed to `Broadcast` while the connection `c` was in `_connections`. -/
def heard (log : List (Bytes × Finset ℕ)) (c : ℕ) : List Bytes :=
  (log.filter fun e => decide (c ∈ e.2)).map Prod.fst

theorem heard_append (log log' : List (Bytes × Finset ℕ)) (c : ℕ) :
    heard (log ++ log') c = heard log c ++ heard log' c := by
  simp [heard]

/-- **The connection has relayed `msgs`**, as far as its chain of writes has come. -/
def TCPConnection.Relays (failed : Prop) (msgs : List Bytes) (c : TCPConnection) : Prop :=
  Chain failed msgs c.handed c.outgoingMessage c.writes

section

variable {failed failed' : Prop} {msgs : List Bytes} {c : TCPConnection}

theorem TCPConnection.Relays.post (h : c.Relays failed msgs) (message : Bytes) :
    (c.post message).Relays failed (msgs ++ [message]) := by
  unfold Relays at h ⊢
  unfold TCPConnection.post
  cases hq : c.outgoingMessage with
  | nil =>
    rw [hq] at h
    exact h.post_nil message
  | cons a q =>
    have h := h.post (by simp [hq]) message
    rw [hq] at h
    exact h

theorem TCPConnection.Relays.onWrite (h : c.Relays failed msgs) (hw : 0 < c.writes) :
    c.onWrite.Relays failed msgs := by
  unfold Relays at h ⊢
  unfold TCPConnection.onWrite
  cases hq : c.outgoingMessage.tail with
  | nil => exact h.pop_nil hw hq
  | cons b q => exact h.pop_cons hw hq

theorem TCPConnection.Relays.fail (h : c.Relays failed msgs) (hw : 0 < c.writes) (hf : failed') :
    { c with writes := c.writes - 1 }.Relays failed' msgs :=
  Chain.fail h hw hf

end

/-! ## All connections -/

section

variable {es : List ServerEvent} {s s' : TCPServer}

/-- **The server is relaying**: every connection relays the broadcasts that it was present for, and
has stopped doing so only after an error. -/
structure Relaying (es : List ServerEvent) (s : TCPServer) : Prop where
  known : ∀ c ∈ s.connections, c < s.accepted
  logged : ∀ e ∈ s.log, ∀ c ∈ e.2, c < s.accepted
  fresh : ∀ c, s.accepted ≤ c → s.connection c = {}
  relays : ∀ c, (s.connection c).Relays (ServerEvent.writeError c ∈ es) (heard s.log c)

theorem relaying_start : Relaying [] {} where
  known := by simp
  logged := by simp
  fresh c _ := rfl
  relays c := .idle []

variable {c : ℕ}

theorem Relaying.lt (h : Relaying es s) (hc : 0 < (s.connection c).reads ∨ 0 < (s.connection c).writes) :
    c < s.accepted := by
  by_contra hn
  rw [h.fresh c (not_lt.mp hn)] at hc
  simp at hc

theorem Relaying.mono (h : Relaying es s) (e : ServerEvent) : Relaying (es ++ [e]) s :=
  { h with relays := fun c => (h.relays c).mono (List.mem_append_left [e]) }

theorem Relaying.update (h : Relaying es s) (hc : c < s.accepted) {f : TCPConnection → TCPConnection}
    {es' : List ServerEvent} (hes : es ⊆ es')
    (hf : (f (s.connection c)).Relays (ServerEvent.writeError c ∈ es') (heard s.log c)) :
    Relaying es' (s.update c f) where
  known := h.known
  logged := h.logged
  fresh c' hc' := by
    have hacc : s.accepted ≤ c' := hc'
    rw [TCPServer.update_ne s (by omega)]
    exact h.fresh c' hacc
  relays c' := by
    by_cases hne : c' = c
    · subst hne
      rw [TCPServer.update_self]
      exact hf
    · rw [TCPServer.update_ne s hne]
      exact (h.relays c').mono fun hw => hes hw

theorem Relaying.broadcast (h : Relaying es s) (message : Bytes) :
    Relaying es (s.broadcast message) where
  known := h.known
  logged e he c' hc' := by
    rcases List.mem_append.mp he with he | he
    · exact h.logged e he c' hc'
    · rw [List.mem_singleton] at he
      subst he
      exact h.known c' hc'
  fresh c' hc' := by
    have hacc : s.accepted ≤ c' := hc'
    have hno : c' ∉ s.connections := fun hmem => absurd (h.known c' hmem) (not_lt.mpr hacc)
    simp only [TCPServer.broadcast, if_neg hno]
    exact h.fresh c' hacc
  relays c' := by
    have hlog : (s.broadcast message).log = s.log ++ [(message, s.connections)] := rfl
    rw [hlog, heard_append]
    by_cases hmem : c' ∈ s.connections
    · simp only [TCPServer.broadcast, if_pos hmem]
      simpa [heard, hmem] using (h.relays c').post message
    · simp only [TCPServer.broadcast, if_neg hmem]
      simpa [heard, hmem] using h.relays c'

theorem Relaying.errorHandler (h : Relaying es s) (c : ℕ) : Relaying es (s.errorHandler c) := by
  unfold TCPServer.errorHandler
  split_ifs with hstart hmem
  · exact { h with known := fun c' hc' => h.known c' (Finset.mem_of_mem_erase hc') }
  · exact h
  · exact { h with }

theorem Relaying.onAccept (h : Relaying es s) (error connected : Bool) :
    Relaying es (s.onAccept error connected) := by
  have hnew : Relaying es { s with
      accepted := s.accepted + 1, connections := insert s.accepted s.connections } :=
    { known := fun c' hc' => by
        rcases Finset.mem_insert.mp hc' with rfl | hc'
        · exact Nat.lt_succ_self _
        · exact (h.known c' hc').trans (Nat.lt_succ_self _)
      logged := fun e he c' hc' => (h.logged e he c' hc').trans (Nat.lt_succ_self _)
      fresh := fun c' hc' => h.fresh c' (Nat.le_of_succ_le hc')
      relays := h.relays }
  unfold TCPServer.onAccept
  split_ifs with hconn herr
  · exact hnew
  · exact hnew.update (Nat.lt_succ_self _) (List.Subset.refl _) (h.relays s.accepted)
  · exact { h with }

theorem Relaying.onRead (h : Relaying es s) (hr : 0 < (s.connection c).reads) (message : Bytes) :
    Relaying es (s.onRead c message) := by
  have hc := h.lt (Or.inl hr)
  have hb := (h.update (f := fun c => { c with reads := c.reads - 1 }) hc (List.Subset.refl _)
    (h.relays c)).broadcast message
  exact hb.update hc (List.Subset.refl _) (hb.relays c)

theorem Relaying.step {e : ServerEvent} (h : Relaying es s) (hs : s.step e = some s') :
    Relaying (es ++ [e]) s' := by
  cases serverStep hs with
  | accept error connected => exact (h.onAccept error connected).mono _
  | read c message hr => exact (h.onRead hr message).mono _
  | readError c hr =>
    have hread := h.update (f := fun c => { c with reads := c.reads - 1 }) (h.lt (Or.inl hr))
      (List.Subset.refl _) (h.relays c)
    exact (hread.errorHandler c).mono _
  | write c hw =>
    exact (h.update (h.lt (Or.inr hw)) (List.Subset.refl _) ((h.relays c).onWrite hw)).mono _
  | writeError c hw =>
    have hf : ServerEvent.writeError c ∈ es ++ [.writeError c] := by simp
    exact (h.update (h.lt (Or.inr hw)) (List.subset_append_left _ _)
      ((h.relays c).fail hw hf)).errorHandler c

theorem relaying_run (hr : Run TCPServer.step {} es s) : Relaying es s :=
  hr.invariant relaying_start fun _ _ _ _ h hs => h.step hs

/-! ## One order -/

/-- What the connection `c` has handed to `async_write` of the messages after the calls `log₁` of
`Broadcast`. -/
def TCPServer.handedSince (s : TCPServer) (log₁ : List (Bytes × Finset ℕ)) (c : ℕ) : List Bytes :=
  (s.connection c).handed.drop (heard log₁ c).length

theorem handedSince_of_log (h : Relaying es s) {log₁ log₂ : List (Bytes × Finset ℕ)}
    (hlog : s.log = log₁ ++ log₂) (hc : ∀ e ∈ log₂, c ∈ e.2) :
    s.handedSince log₁ c <+: log₂.map Prod.fst := by
  have hall : heard log₂ c = log₂.map Prod.fst := by
    rw [heard, List.filter_eq_self.mpr fun e he => decide_eq_true (hc e he)]
  have hpre := (h.relays c).prefix_posted.drop (heard log₁ c).length
  rw [hlog, heard_append, List.drop_left, hall] at hpre
  exact hpre

/-- **The server relays in one order.** A connection hands to `async_write` a prefix of the messages
broadcast in its presence, one at a time; what it has popped was handed over, the outstanding write is the
one of the head of its queue, and without an error it is never idle with messages to write. Of the
messages that two connections were both present for, one has handed over a prefix of what the other
has. -/
theorem relay_in_order (hr : Run TCPServer.step {} es s) :
    (∀ c, (s.connection c).handed <+: heard s.log c ∧ (s.connection c).writes ≤ 1 ∧
      (∃ popped, heard s.log c = popped ++ (s.connection c).outgoingMessage ∧
        (s.connection c).handed = popped ++ (s.connection c).outgoingMessage.head?.toList) ∧
      (0 < (s.connection c).writes → ∃ a, (s.connection c).outgoingMessage.head? = some a ∧
        (s.connection c).handed.getLast? = some a) ∧
      (ServerEvent.readError c ∉ es → ServerEvent.writeError c ∉ es →
        ((s.connection c).writes = 1 ↔ (s.connection c).outgoingMessage ≠ []))) ∧
    ∀ c c' log₁ log₂, s.log = log₁ ++ log₂ → (∀ e ∈ log₂, c ∈ e.2 ∧ c' ∈ e.2) →
      s.handedSince log₁ c <+: s.handedSince log₁ c' ∨
        s.handedSince log₁ c' <+: s.handedSince log₁ c := by
  have h := relaying_run hr
  constructor
  · intro c
    have hc := h.relays c
    exact ⟨hc.prefix_posted, hc.writes_le, hc.split, hc.last_handed, fun _ hw => hc.writes_iff hw⟩
  · intro c c' log₁ log₂ hlog hboth
    exact List.prefix_or_prefix_of_prefix (handedSince_of_log h hlog fun e he => (hboth e he).1)
      (handedSince_of_log h hlog fun e he => (hboth e he).2)

end

/-- Two clients send a message each. The first one is written to both, and the second one to client
`0`, whose connection then fails. -/
def twoClients : List ServerEvent :=
  [.accept false true, .accept false true, .read 0 [97], .read 1 [98], .write 0, .write 1, .writeError 0]

theorem twoClients_isSome : (exec TCPServer.step {} twoClients).isSome := by decide +kernel

theorem relay_in_order_twoClients :
    (((exec TCPServer.step {} twoClients).get twoClients_isSome).connection 0).handed <+: [[97], [98]] ∧
    ((((exec TCPServer.step {} twoClients).get twoClients_isSome).connection 1).writes = 1 ↔
      (((exec TCPServer.step {} twoClients).get twoClients_isSome).connection 1).outgoingMessage ≠ []) := by
  have h := (relay_in_order (run_get twoClients_isSome)).1
  exact ⟨(h 0).1, (h 1).2.2.2.2 (by decide) (by decide)⟩

end Confirmer
