import Confirmer.Client
import Confirmer.Framing
import Confirmer.Leave

/-!
# From a post to the other peers

A string that is posted waits in the queue of the peer's client, crosses a stream to the peer's server,
is broadcast with whatever else the buffer holds, waits in the queue of each connection and crosses a
second stream to the client of another peer.

* `Link`, `LinkEvent`, `Link.step`: both hops. A stream brings the bytes that were handed to
  `async_write`, in any segments.
* `Linked`, `linked_run`: what is where on the way.
* `Spans`, `spans_run`: a connection is present for broadcasts that stand next to each other.
* **`link_in_order`**: a subscriber is handed a contiguous part of the posted bytes.
* `Link.Settled`, **`link_delivers`**: when nothing is under way any more, it is all of them from its first
  broadcast on.
-/

namespace Confirmer

open WriteChain Lts Lines

variable {ι : Type}

/-! ## Both hops -/

/-- The client of a peer, the peer's server, the buffer of the connection between the two, and the clients
at the other ends of all connections. `uploaded` and `downloaded` are the segments that have arrived,
`handled` is what the server has handled. -/
structure Link (ι : Type) where
  client : TCPClient ι := {}
  server : TCPServer := {}
  reader : Reader := {}
  uploaded : List Bytes := []
  subscriber : ℕ → Reader := fun _ => {}
  downloaded : ℕ → List Bytes := fun _ => []
  handled : List ServerEvent := []

/-- What happens next: a statement of the client, a segment that arrives at the server, a handler of the
server, and a segment that arrives at the client behind a connection. -/
inductive LinkEvent (ι : Type)
  | client (e : ClientEvent ι)
  | upload (segment : Bytes)
  | server (e : ServerEvent)
  | download (c : ℕ) (segment : Bytes)
  deriving DecidableEq

/-- The handlers of connection `c` that a segment makes run when it takes the reader from `r` to `r'`. -/
def ended (c : ℕ) (r r' : Reader) : List ServerEvent :=
  (r'.handed.drop r.handed.length).map (.read c) ++ if r'.isOpen then [] else [.readError c]

namespace Link

/-- The server runs some handlers. -/
def serve (s : Link ι) (es : List ServerEvent) : Option (Link ι) :=
  (exec TCPServer.step s.server es).map fun server =>
    { s with server := server, handled := s.handled ++ es }

variable [DecidableEq ι]

/-- **One step.** The peer's client is connection `own` of the server, and the only one that writes to
it. -/
def step (own : ℕ) (s : Link ι) : LinkEvent ι → Option (Link ι)
  | .client e => (guarded TCPClient.step TCPClient.Timely s.client e).map fun client =>
      { s with client := client }
  | .upload segment =>
    if 0 < (s.server.connection own).reads ∧
        s.uploaded.flatten ++ segment <+: s.client.handed.flatten then
      (arrive TCPConnection.onRead s.reader segment).bind fun r =>
        { s with reader := r, uploaded := s.uploaded ++ [segment] }.serve (ended own s.reader r)
    else none
  | .server (.read _ _) => none
  | .server e => s.serve [e]
  | .download c segment =>
    if (s.downloaded c).flatten ++ segment <+: (s.server.connection c).handed.flatten then
      (arrive TCPClient.onRead (s.subscriber c) segment).map fun r =>
        { s with
          subscriber := Function.update s.subscriber c r
          downloaded := Function.update s.downloaded c (s.downloaded c ++ [segment]) }
    else none

end Link

/-! ## What only grows -/

/-- What a handler broadcasts. -/
def ServerEvent.message : ServerEvent → Option Bytes
  | .read _ message => some message
  | _ => none

section

variable {s s' : TCPServer} {e : ServerEvent} {es : List ServerEvent} {c : ℕ}

theorem TCPConnection.handed_asyncWrite (x : TCPConnection) : x.handed <+: x.asyncWrite.handed :=
  List.prefix_append _ _

theorem TCPConnection.handed_post (x : TCPConnection) (message : Bytes) :
    x.handed <+: (x.post message).handed := by
  unfold TCPConnection.post
  dsimp only
  split_ifs
  · exact handed_asyncWrite { x with outgoingMessage := x.outgoingMessage ++ [message] }
  · exact List.prefix_rfl

theorem TCPConnection.handed_onWrite (x : TCPConnection) : x.handed <+: x.onWrite.handed := by
  unfold TCPConnection.onWrite
  dsimp only
  split_ifs
  · exact List.prefix_rfl
  · exact handed_asyncWrite { x with writes := x.writes - 1, outgoingMessage := x.outgoingMessage.tail }

theorem TCPServer.handed_update (s : TCPServer) {f : TCPConnection → TCPConnection}
    (hf : ∀ x, x.handed <+: (f x).handed) (c c' : ℕ) :
    (s.connection c').handed <+: ((s.update c f).connection c').handed := by
  by_cases h : c' = c
  · subst h
    rw [TCPServer.update_self]
    exact hf _
  · rw [TCPServer.update_ne s h]

theorem TCPServer.handed_broadcast (s : TCPServer) (message : Bytes) (c : ℕ) :
    (s.connection c).handed <+: ((s.broadcast message).connection c).handed := by
  unfold TCPServer.broadcast
  dsimp only
  split_ifs
  · exact TCPConnection.handed_post _ message
  · exact List.prefix_rfl

theorem TCPServer.errorHandler_same (s : TCPServer) (c : ℕ) :
    (s.errorHandler c).connection = s.connection ∧ (s.errorHandler c).log = s.log := by
  unfold TCPServer.errorHandler
  split_ifs <;> exact ⟨rfl, rfl⟩

/-- **A handler** hands over more on every connection, and broadcasts what it has read. -/
theorem serverStep_grows (hs : s.step e = some s') :
    (∀ c, (s.connection c).handed <+: (s'.connection c).handed) ∧
    s'.log.map Prod.fst = s.log.map Prod.fst ++ e.message.toList := by
  cases serverStep hs with
  | accept error connected =>
    unfold TCPServer.onAccept
    split_ifs
    · exact ⟨fun c => List.prefix_rfl, (List.append_nil _).symm⟩
    · exact ⟨fun c => TCPServer.handed_update _ (f := TCPConnection.start) (fun x => List.prefix_rfl) _ c,
        (List.append_nil _).symm⟩
    · exact ⟨fun c => List.prefix_rfl, (List.append_nil _).symm⟩
  | read c message hr =>
    refine ⟨fun c' => ?_, by simp [TCPServer.onRead, TCPServer.broadcast, TCPServer.update,
      ServerEvent.message]⟩
    refine (TCPServer.handed_update s (f := fun c => { c with reads := c.reads - 1 })
      (fun x => List.prefix_rfl) c c').trans ?_
    exact (TCPServer.handed_broadcast _ message c').trans
      (TCPServer.handed_update _ (f := TCPConnection.asyncRead) (fun x => List.prefix_rfl) c c')
  | readError c hr =>
    obtain ⟨hconn, hlog⟩ :=
      TCPServer.errorHandler_same (s.update c fun c => { c with reads := c.reads - 1 }) c
    refine ⟨fun c' => ?_, ?_⟩
    · rw [TCPServer.onReadError, hconn]
      exact TCPServer.handed_update s (f := fun c => { c with reads := c.reads - 1 })
        (fun x => List.prefix_rfl) c c'
    · rw [TCPServer.onReadError, hlog]
      exact (List.append_nil _).symm
  | write c hw =>
    exact ⟨TCPServer.handed_update s TCPConnection.handed_onWrite c, (List.append_nil _).symm⟩
  | writeError c hw =>
    obtain ⟨hconn, hlog⟩ :=
      TCPServer.errorHandler_same (s.update c fun c => { c with writes := c.writes - 1 }) c
    refine ⟨fun c' => ?_, ?_⟩
    · rw [TCPServer.onWriteError, hconn]
      exact TCPServer.handed_update s (f := fun c => { c with writes := c.writes - 1 })
        (fun x => List.prefix_rfl) c c'
    · rw [TCPServer.onWriteError, hlog]
      exact (List.append_nil _).symm

theorem serverExec_grows (he : exec TCPServer.step s es = some s') :
    (∀ c, (s.connection c).handed <+: (s'.connection c).handed) ∧
    s'.log.map Prod.fst = s.log.map Prod.fst ++ es.filterMap ServerEvent.message := by
  induction es generalizing s with
  | nil =>
    cases he
    exact ⟨fun c => List.prefix_rfl, (List.append_nil _).symm⟩
  | cons e es ih =>
    obtain ⟨s₁, h₁, h₂⟩ := Option.bind_eq_some_iff.mp he
    obtain ⟨hhanded, hlog⟩ := serverStep_grows h₁
    obtain ⟨hhanded', hlog'⟩ := ih h₂
    refine ⟨fun c => (hhanded c).trans (hhanded' c), ?_⟩
    rw [hlog', hlog, List.append_assoc]
    cases hm : e.message <;> simp [hm]

theorem clientStep_grows [DecidableEq ι] {t t' : TCPClient ι} {e : ClientEvent ι}
    (hs : t.step e = some t') : t.handed <+: t'.handed := by
  cases e with
  | test i message =>
    obtain ⟨-, hs⟩ := Option.ite_none_right_eq_some.mp hs
    cases hs
    exact List.prefix_rfl
  | push i =>
    unfold TCPClient.step at hs
    cases hi : t.posting i with
    | idle => simp [hi] at hs
    | pushed => simp [hi] at hs
    | tested message queueIdle =>
      simp only [hi, Option.some.injEq] at hs
      subst hs
      exact List.prefix_rfl
  | start i =>
    obtain ⟨-, hs⟩ := Option.ite_none_right_eq_some.mp hs
    cases hs
    exact List.prefix_append _ _
  | complete =>
    obtain ⟨-, hs⟩ := Option.ite_none_right_eq_some.mp hs
    cases hs
    exact List.prefix_rfl
  | pop =>
    obtain ⟨-, hs⟩ := Option.ite_none_right_eq_some.mp hs
    cases hs
    exact List.prefix_rfl
  | retest =>
    obtain ⟨-, hs⟩ := Option.ite_none_right_eq_some.mp hs
    cases hs
    exact List.prefix_rfl
  | restart =>
    obtain ⟨-, hs⟩ := Option.ite_none_right_eq_some.mp hs
    cases hs
    exact List.prefix_append _ _

theorem handed_arrive {r r' : Reader} {segment : Bytes}
    (ha : arrive TCPConnection.onRead r segment = some r') : r.handed <+: r'.handed := by
  unfold arrive at ha
  dsimp only at ha
  split_ifs at ha <;> cases ha
  · exact List.prefix_append _ _
  · exact List.prefix_rfl
  · exact List.prefix_rfl

theorem filterMap_ended {r r' : Reader} (h : r.handed <+: r'.handed) (c : ℕ) :
    r.handed ++ (ended c r r').filterMap ServerEvent.message = r'.handed := by
  obtain ⟨l, hl⟩ := h
  have hreads : ∀ l : List Bytes, (l.map (ServerEvent.read c)).filterMap ServerEvent.message = l := by
    intro l
    rw [List.filterMap_map]
    exact List.filterMap_some
  rw [ended, List.filterMap_append, hreads, ← hl, List.drop_left]
  split_ifs <;> simp [ServerEvent.message]

end

/-! ## What is where -/

section

variable {s s' : Link ι} {own : ℕ} {es : List (LinkEvent ι)}

/-- **What is where on the way**: each buffer holds a part of what was handed to the stream in front of it,
and the server has broadcast what the first reader has handed over. -/
structure Linked (s : Link ι) : Prop where
  driven : ∃ l b, Driven l b s.client
  run : Run TCPServer.step {} s.handled s.server
  upload : Reads s.uploaded s.reader
  download : ∀ c, Reads (s.downloaded c) (s.subscriber c)
  up : s.uploaded.flatten <+: s.client.handed.flatten
  down : ∀ c, (s.downloaded c).flatten <+: (s.server.connection c).handed.flatten
  log : s.server.log.map Prod.fst = s.reader.handed

theorem linked_start : Linked ({} : Link ι) where
  driven := ⟨[], false, driven_start⟩
  run := .nil
  upload := reads_nil
  download _ := reads_nil
  up := List.prefix_rfl
  down _ := List.prefix_rfl
  log := rfl

theorem Linked.serve {r : Reader} {segments : List Bytes} {ses : List ServerEvent} (h : Linked s)
    (hr : Reads segments r) (hup : segments.flatten <+: s.client.handed.flatten)
    (hhanded : s.reader.handed ++ ses.filterMap ServerEvent.message = r.handed)
    (hs : { s with reader := r, uploaded := segments }.serve ses = some s') : Linked s' := by
  obtain ⟨t, ht, rfl⟩ := Option.map_eq_some_iff.mp hs
  obtain ⟨hgrow, hlog⟩ := serverExec_grows ht
  refine ⟨h.driven, run_exec h.run ht, hr, h.download, hup, fun c => ?_, ?_⟩
  · exact (h.down c).trans (hgrow c).flatten
  · show t.log.map Prod.fst = r.handed
    rw [hlog, h.log, hhanded]

variable [DecidableEq ι]

theorem Linked.step (h : Linked s) {e : LinkEvent ι} (hs : s.step own e = some s') : Linked s' := by
  cases e with
  | client e =>
    obtain ⟨t, ht, rfl⟩ := Option.map_eq_some_iff.mp hs
    obtain ⟨htimely, ht⟩ := guarded_eq_some.mp ht
    obtain ⟨l, b, hd⟩ := h.driven
    exact { h with
      driven := hd.step htimely ht
      up := h.up.trans (clientStep_grows ht).flatten }
  | upload segment =>
    obtain ⟨⟨-, hup⟩, hs⟩ := Option.ite_none_right_eq_some.mp hs
    obtain ⟨r, hr, hs⟩ := Option.bind_eq_some_iff.mp hs
    refine h.serve (h.upload.arrive hr) ?_ (filterMap_ended (handed_arrive hr) own) hs
    rw [List.flatten_append, List.flatten_singleton]
    exact hup
  | server e =>
    have hsame : ∀ e, e.message = none → s.serve [e] = some s' → Linked s' := by
      intro e he hs
      refine h.serve (r := s.reader) h.upload h.up ?_ hs
      rw [List.filterMap_cons, he, List.filterMap_nil, List.append_nil]
    cases e with
    | accept error connected => exact hsame _ rfl hs
    | read c message => cases hs
    | readError c => exact hsame _ rfl hs
    | write c => exact hsame _ rfl hs
    | writeError c => exact hsame _ rfl hs
  | download c segment =>
    obtain ⟨hdown, hs⟩ := Option.ite_none_right_eq_some.mp hs
    obtain ⟨r, hr, rfl⟩ := Option.map_eq_some_iff.mp hs
    rw [TCPClient.onRead_eq] at hr
    refine { h with download := fun c' => ?_, down := fun c' => ?_ }
    · by_cases hc : c' = c
      · subst hc
        simp only [Function.update_self]
        exact (h.download c').arrive hr
      · simp only [Function.update_of_ne hc]
        exact h.download c'
    · by_cases hc : c' = c
      · subst hc
        simp only [Function.update_self, List.flatten_append, List.flatten_singleton]
        exact hdown
      · simp only [Function.update_of_ne hc]
        exact h.down c'

theorem linked_run (hr : Run (Link.step own) {} es s) : Linked s :=
  hr.invariant (I := fun _ s => Linked s) linked_start fun _ _ _ _ h hs => h.step hs

end

/-! ## Who is present for what -/

section

variable {s s' : TCPServer} {es : List ServerEvent} {e : ServerEvent} {c : ℕ}

/-- **The broadcasts that a connection is present for stand next to each other**: there is none before it
is accepted, and none after it has left. -/
structure Spans (c : ℕ) (s : TCPServer) (log₁ log₂ log₃ : List (Bytes × Finset ℕ)) : Prop where
  log : s.log = log₁ ++ log₂ ++ log₃
  before : ∀ e ∈ log₁, c ∉ e.2
  during : ∀ e ∈ log₂, c ∈ e.2
  after : ∀ e ∈ log₃, c ∉ e.2
  present : c ∈ s.connections → log₃ = []
  fresh : s.accepted ≤ c → log₂ = [] ∧ log₃ = []

variable {log log₁ log₂ log₃ : List (Bytes × Finset ℕ)}

theorem heard_of_absent (h : ∀ e ∈ log, c ∉ e.2) : heard log c = [] := by
  rw [heard, List.filter_eq_nil_iff.mpr fun e he => by simp [h e he], List.map_nil]

theorem heard_of_present (h : ∀ e ∈ log, c ∈ e.2) : heard log c = log.map Prod.fst := by
  rw [heard, List.filter_eq_self.mpr fun e he => decide_eq_true (h e he)]

theorem Spans.heard (h : Spans c s log₁ log₂ log₃) : heard s.log c = log₂.map Prod.fst := by
  rw [h.log, heard_append, heard_append, heard_of_absent h.before, heard_of_present h.during,
    heard_of_absent h.after, List.append_nil, List.nil_append]

theorem Spans.broadcast (h : Spans c s log₁ log₂ log₃) (hk : c ∈ s.connections → c < s.accepted)
    (message : Bytes) : ∃ log₁ log₂ log₃, Spans c (s.broadcast message) log₁ log₂ log₃ := by
  have hlog : (s.broadcast message).log = s.log ++ [(message, s.connections)] := rfl
  have hone : ∀ {l : List (Bytes × Finset ℕ)} {P : Bytes × Finset ℕ → Prop}, (∀ e ∈ l, P e) →
      P (message, s.connections) → ∀ e ∈ l ++ [(message, s.connections)], P e := by
    intro l P hl hP e he
    rcases List.mem_append.mp he with he | he
    · exact hl e he
    · rw [List.mem_singleton.mp he]
      exact hP
  by_cases hc : c ∈ s.connections
  · have hnil := h.present hc
    subst hnil
    refine ⟨log₁, log₂ ++ [(message, s.connections)], [], ?_, h.before, hone h.during hc,
      h.after, fun _ => rfl, fun hacc => absurd (hk hc) (not_lt.mpr hacc)⟩
    rw [hlog, h.log]
    simp
  · by_cases hacc : s.accepted ≤ c
    · obtain ⟨rfl, rfl⟩ := h.fresh hacc
      refine ⟨log₁ ++ [(message, s.connections)], [], [], ?_, hone h.before hc, h.during, h.after,
        fun _ => rfl, fun _ => ⟨rfl, rfl⟩⟩
      rw [hlog, h.log]
      simp
    · refine ⟨log₁, log₂, log₃ ++ [(message, s.connections)], ?_, h.before, h.during,
        hone h.after hc, fun hp => absurd hp hc, fun hf => absurd hf hacc⟩
      rw [hlog, h.log, List.append_assoc]

theorem Spans.errorHandler (h : Spans c s log₁ log₂ log₃) (c' : ℕ) :
    Spans c (s.errorHandler c') log₁ log₂ log₃ := by
  unfold TCPServer.errorHandler
  split_ifs
  · exact { h with present := fun hc => h.present (Finset.mem_of_mem_erase hc) }
  · exact h
  · exact { h with }

theorem Spans.onAccept (h : Spans c s log₁ log₂ log₃) (error connected : Bool) :
    Spans c (s.onAccept error connected) log₁ log₂ log₃ := by
  have hnew : Spans c { s with
      accepted := s.accepted + 1, connections := insert s.accepted s.connections } log₁ log₂ log₃ :=
    { h with
      present := fun hc => by
        rcases Finset.mem_insert.mp hc with rfl | hc
        · exact (h.fresh le_rfl).2
        · exact h.present hc
      fresh := fun hc => h.fresh (Nat.le_of_succ_le hc) }
  unfold TCPServer.onAccept
  split_ifs
  · exact hnew
  · exact { hnew with }
  · exact { h with }

theorem spans_run (hr : Run TCPServer.step {} es s) (c : ℕ) :
    ∃ log₁ log₂ log₃, Spans c s log₁ log₂ log₃ := by
  induction hr with
  | nil => exact ⟨[], [], [], rfl, by simp, by simp, by simp, fun _ => rfl, fun _ => ⟨rfl, rfl⟩⟩
  | snoc hr hs ih =>
    obtain ⟨log₁, log₂, log₃, h⟩ := ih
    cases serverStep hs with
    | accept error connected => exact ⟨log₁, log₂, log₃, h.onAccept error connected⟩
    | read c' message hreads =>
      have hupd : Spans c (TCPServer.update _ c' fun c => { c with reads := c.reads - 1 }) log₁ log₂ log₃ :=
        { h with }
      obtain ⟨log₁, log₂, log₃, h'⟩ := hupd.broadcast ((relaying_run hr).known c) message
      exact ⟨log₁, log₂, log₃, { h' with }⟩
    | readError c' hreads =>
      have hupd : Spans c (TCPServer.update _ c' fun c => { c with reads := c.reads - 1 }) log₁ log₂ log₃ :=
        { h with }
      exact ⟨log₁, log₂, log₃, hupd.errorHandler c'⟩
    | write c' hw => exact ⟨log₁, log₂, log₃, { h with }⟩
    | writeError c' hw =>
      have hupd : Spans c (TCPServer.update _ c' fun c => { c with writes := c.writes - 1 }) log₁ log₂ log₃ :=
        { h with }
      exact ⟨log₁, log₂, log₃, hupd.errorHandler c'⟩

end

/-! ## Contiguous parts -/

section

variable {s : Link ι} {own : ℕ} {es : List (LinkEvent ι)}

theorem Reads.handed_le {segments : List Bytes} {r : Reader} (h : Reads segments r) :
    r.handed.flatten <+: segments.flatten := by
  rw [← h.content]
  exact List.prefix_append _ _

/-- Nothing reaches the server, or a subscriber, that was not handed over in front of it. -/
theorem Linked.heard_le (h : Linked s) (c : ℕ) :
    (s.subscriber c).handed.flatten <+: (heard s.server.log c).flatten :=
  ((h.download c).handed_le.trans (h.down c)).trans
    ((relaying_run h.run).relays c).prefix_posted.flatten

variable [DecidableEq ι]

omit [DecidableEq ι] in
theorem Linked.posted_le (h : Linked s) :
    (s.server.log.map Prod.fst).flatten <+: s.client.posted.flatten := by
  rw [h.log]
  obtain ⟨l, b, hd⟩ := h.driven
  exact (h.upload.handed_le.trans h.up).trans hd.prefix_posted.flatten

end

/-! ## When nothing is under way -/

section

variable {s s' : TCPServer} {es : List ServerEvent} {c : ℕ}

theorem post_reads (x : TCPConnection) (message : Bytes) : (x.post message).reads = x.reads := by
  unfold TCPConnection.post
  dsimp only
  split_ifs <;> rfl

theorem onWrite_reads (x : TCPConnection) : x.onWrite.reads = x.reads := by
  unfold TCPConnection.onWrite
  dsimp only
  split_ifs <;> rfl

theorem broadcast_reads (s : TCPServer) (message : Bytes) (c : ℕ) :
    ((s.broadcast message).connection c).reads = (s.connection c).reads := by
  unfold TCPServer.broadcast
  dsimp only
  split_ifs
  · exact post_reads _ message
  · rfl

/-- **Without errors every connection goes on reading.** -/
theorem reading_run (hr : Run TCPServer.step {} es s) (ha : Accepting es)
    (hcalm : ∀ e ∈ es, e.failed = none) :
    s.running = true ∧ ∀ c < s.accepted, (s.connection c).reads = 1 := by
  induction hr with
  | nil => exact ⟨rfl, fun c hc => absurd hc (Nat.not_lt_zero c)⟩
  | @snoc es s e s' hr hs ih =>
    obtain ⟨hrun, hreads⟩ := ih ha.of_append fun e he => hcalm e (List.mem_append_left _ he)
    have hquiet : e.failed = none := hcalm e (by simp)
    cases serverStep hs with
    | accept error connected =>
      obtain ⟨rfl, rfl⟩ := ha error connected (by simp)
      refine ⟨hrun, fun c hc => ?_⟩
      change ((TCPServer.update _ s.accepted TCPConnection.start).connection c).reads = 1
      by_cases hne : c = s.accepted
      · subst hne
        rw [TCPServer.update_self]
        show (s.connection s.accepted).reads + 1 = 1
        rw [(relaying_run hr).fresh s.accepted le_rfl]
      · rw [TCPServer.update_ne _ hne]
        exact hreads c (lt_of_le_of_ne (Nat.lt_succ_iff.mp hc) hne)
    | read c' message hpos =>
      refine ⟨hrun, fun c hc => ?_⟩
      have hone := hreads c hc
      by_cases hne : c = c'
      · subst hne
        rw [TCPServer.onRead, TCPServer.update_self]
        show ((TCPServer.broadcast _ message).connection c).reads + 1 = 1
        rw [broadcast_reads, TCPServer.update_self]
        show (s.connection c).reads - 1 + 1 = 1
        omega
      · rw [TCPServer.onRead, TCPServer.update_ne _ hne, broadcast_reads, TCPServer.update_ne _ hne]
        exact hone
    | write c' hw =>
      refine ⟨hrun, fun c hc => ?_⟩
      by_cases hne : c = c'
      · subst hne
        rw [TCPServer.update_self, onWrite_reads]
        exact hreads c hc
      · rw [TCPServer.update_ne _ hne]
        exact hreads c hc
    | readError c' hpos => cases hquiet
    | writeError c' hw => cases hquiet

end

theorem arrive_isSome {f : Reader → ℕ → Reader} {r : Reader} {c : Bytes} (hopen : r.isOpen = true)
    (hne : c ≠ []) (hfits : (r.streamBuf ++ c).length ≤ maxSize) : ∃ r', arrive f r c = some r' := by
  unfold arrive
  rw [if_pos ⟨hopen, hne, hfits⟩]
  dsimp only
  split_ifs <;> exact ⟨_, rfl⟩

theorem ended_of_arrive {r r' : Reader} {segment : Bytes}
    (ha : arrive TCPConnection.onRead r segment = some r') (c : ℕ) :
    ended c r r' = [] ∨ (∃ message, ended c r r' = [.read c message]) ∨ ended c r r' = [.readError c] := by
  unfold arrive at ha
  dsimp only at ha
  split_ifs at ha with hok hnew hfull <;> cases ha
  · refine Or.inr (Or.inl ⟨r.streamBuf ++ segment, ?_⟩)
    simp [ended, TCPConnection.onRead, hok.1]
  · exact Or.inr (Or.inr (by simp [ended]))
  · exact Or.inl (by simp [ended, hok.1])

/-- The whole stream has arrived where no byte of it can arrive any more. -/
theorem flatten_of_still {segments : List Bytes} {r : Reader} {stream : Bytes} {f : Reader → ℕ → Reader}
    (hpre : segments.flatten <+: stream) (hopen : r.isOpen = true) (hlt : r.streamBuf.length < maxSize)
    (hstill : ∀ segment r', segments.flatten ++ segment <+: stream → arrive f r segment ≠ some r') :
    segments.flatten = stream := by
  obtain ⟨rest, hrest⟩ := hpre
  cases rest with
  | nil => rw [← hrest, List.append_nil]
  | cons b rest =>
    obtain ⟨r', hr'⟩ := arrive_isSome (f := f) (c := [b]) hopen (List.cons_ne_nil b [])
      (by rw [List.length_append, List.length_singleton]; omega)
    exact absurd hr' (hstill [b] r' ⟨rest, by rw [← hrest, List.append_assoc]; rfl⟩)

/-- A reader in a stream of strings that end in newlines and fit its buffer is open, its buffer has room,
and behind the last string there is nothing in it. -/
theorem Reads.room {posts segments : List Bytes} {r : Reader} (h : Reads segments r)
    (hends : ∀ m ∈ posts, Ends 10 m) (hfits : ∀ m ∈ posts, m.length ≤ maxSize) {p q : Bytes}
    (hpart : posts.flatten = p ++ (segments.flatten ++ q)) :
    r.streamBuf.length < maxSize ∧ r.isOpen = true ∧ (q = [] → r.handed.flatten = segments.flatten) := by
  rw [← h.content, List.append_assoc, ← List.append_assoc] at hpart
  have hlt := length_lt_of_ends hends (by decide) hfits hpart h.clean
  refine ⟨hlt, ?_, fun hq => ?_⟩
  · by_contra ho
    have hfull := h.full (by simpa using ho)
    omega
  · rw [hq, List.append_nil] at hpart
    rw [← h.content, eq_nil_of_ends hends hpart h.clean, List.append_nil]

section

variable {s : Link ι} {own : ℕ} {es : List (LinkEvent ι)} [DecidableEq ι]

/-- The events that bring on what was posted. -/
def LinkEvent.transfers : LinkEvent ι → Bool
  | .client (.test _ _) => false
  | .client _ => true
  | .upload _ => true
  | .download _ _ => true
  | .server (.write _) => true
  | .server _ => false

/-- **Nothing is under way**: no `Post` is in progress, and nothing that was posted can be brought on. -/
structure Link.Settled (own : ℕ) (s : Link ι) : Prop where
  posting : ∀ i, s.client.posting i = .idle
  still : ∀ e, e.transfers = true → s.step own e = none

theorem Link.Settled.clientStep (h : s.Settled own) {e : ClientEvent ι}
    (he : (LinkEvent.client e).transfers = true) (ht : s.client.Timely e) : s.client.step e = none := by
  have hstep := Option.map_eq_none_iff.mp (h.still (.client e) he)
  rw [guarded, if_pos ht] at hstep
  exact hstep

theorem Link.Settled.client (h : s.Settled own) : s.client.AtRest ∧ s.client.writes = 0 := by
  have hidle : s.client.writing = .idle := by
    cases hw : s.client.writing with
    | idle => rfl
    | entered =>
      have hpop := h.clientStep (e := .pop) rfl trivial
      simp [TCPClient.step, hw] at hpop
    | popped =>
      have htest := h.clientStep (e := .retest) rfl trivial
      simp [TCPClient.step, hw] at htest
    | nonempty =>
      have hstart := h.clientStep (e := .restart) rfl trivial
      simp [TCPClient.step, hw] at hstart
  refine ⟨⟨h.posting, hidle⟩, ?_⟩
  have hcomplete := h.clientStep (e := .complete) rfl trivial
  simpa [TCPClient.step, hidle] using hcomplete

theorem Link.Settled.handed (h : s.Settled own) (hl : Linked s) : s.client.handed = s.client.posted := by
  obtain ⟨l, b, hd⟩ := hl.driven
  obtain ⟨hrest, hw⟩ := h.client
  have hchain := hd.chain hrest
  have hqueue : s.client.outgoingMessage = [] := by
    by_contra hq
    have hone := (hchain.writes_iff not_false).mpr hq
    omega
  rw [hqueue] at hchain
  exact hchain.handed_eq

theorem Link.Settled.broadcast (h : s.Settled own) (hl : Linked s) (hrun : s.server.running = true)
    (hown : 0 < (s.server.connection own).reads) (hends : ∀ m ∈ s.client.posted, Ends 10 m)
    (hfits : ∀ m ∈ s.client.posted, m.length ≤ maxSize) :
    s.reader.handed.flatten = s.client.posted.flatten := by
  have hup := hl.up
  rw [h.handed hl] at hup
  obtain ⟨q, hq⟩ := hup
  obtain ⟨hlt, hopen, -⟩ := hl.upload.room hends hfits (p := []) hq.symm
  have hall : s.uploaded.flatten = s.client.handed.flatten := by
    refine flatten_of_still (f := TCPConnection.onRead) hl.up hopen hlt fun segment r' hpre hr' => ?_
    have hnone := h.still (.upload segment) rfl
    rw [Link.step, if_pos ⟨hown, hpre⟩, hr', Option.bind_some] at hnone
    have hexec := Option.map_eq_none_iff.mp hnone
    rcases ended_of_arrive hr' own with he | ⟨message, he⟩ | he
    · rw [he] at hexec
      cases hexec
    · rw [he, exec_singleton] at hexec
      simp [TCPServer.step, hrun, hown] at hexec
    · rw [he, exec_singleton] at hexec
      simp [TCPServer.step, hrun, hown] at hexec
  rw [h.handed hl] at hall
  exact ((hl.upload.room hends hfits (p := []) (q := []) (by simp [hall])).2.2 rfl).trans hall

theorem Linked.settled (h : Linked s) (hrest : s.client.AtRest) (hw : s.client.writes = 0)
    (hup : s.uploaded.flatten = s.client.handed.flatten)
    (hdown : ∀ c < s.server.accepted, (s.server.connection c).writes = 0 ∧
      (s.downloaded c).flatten = (s.server.connection c).handed.flatten) : s.Settled own := by
  have hrel := relaying_run h.run
  have hall : ∀ c, (s.server.connection c).writes = 0 ∧
      (s.downloaded c).flatten = (s.server.connection c).handed.flatten := by
    intro c
    by_cases hc : c < s.server.accepted
    · exact hdown c hc
    · have hfresh := hrel.fresh c (not_lt.mp hc)
      have hpre := h.down c
      rw [hfresh] at hpre ⊢
      exact ⟨rfl, List.prefix_nil.mp hpre⟩
  have hempty : ∀ (f : Reader → ℕ → Reader) (r : Reader) (stream segment : Bytes),
      stream ++ segment <+: stream → arrive f r segment = none := by
    intro f r stream segment hpre
    have hnil : segment = [] := by
      have hlen := hpre.length_le
      rw [List.length_append] at hlen
      exact List.length_eq_zero_iff.mp (by omega)
    unfold arrive
    rw [if_neg fun hok => hok.2.1 hnil]
  refine ⟨hrest.1, fun e he => ?_⟩
  cases e with
  | client e =>
    have hnone : s.client.step e = none := by
      cases e with
      | test i message => cases he
      | push i => simp [TCPClient.step, hrest.1 i]
      | start i => simp [TCPClient.step, hrest.1 i]
      | complete => simp [TCPClient.step, hw]
      | pop => simp [TCPClient.step, hrest.2]
      | retest => simp [TCPClient.step, hrest.2]
      | restart => simp [TCPClient.step, hrest.2]
    rw [Link.step, guarded, hnone, ite_self]
    rfl
  | upload segment =>
    rw [Link.step]
    split_ifs with hpre
    · rw [hup] at hpre
      rw [hempty _ _ _ _ hpre.2]
      rfl
    · rfl
  | server e =>
    cases e with
    | write c =>
      show s.serve [.write c] = none
      rw [Link.serve, exec_singleton]
      simp [TCPServer.step, (hall c).1]
    | accept error connected => cases he
    | read c message => cases he
    | readError c => cases he
    | writeError c => cases he
  | download c segment =>
    rw [Link.step]
    split_ifs with hpre
    · rw [(hall c).2] at hpre
      rw [hempty _ _ _ _ hpre]
      rfl
    · rfl

end

/-- Two threads post a string each. The segments at the server cut both, the ones at client `1` merge
them. -/
def twoStreams : List (LinkEvent Poster) :=
  [.server (.accept false true), .server (.accept false true),
    .client (.test .main [97, 10]), .client (.push .main), .client (.start .main),
    .client (.test .receive [98, 10, 99, 10]), .client (.push .receive), .upload [97],
    .client .complete, .client .pop, .client .retest, .client .restart, .upload [10, 98], .upload [10, 99],
    .client .complete, .client .pop, .client .retest, .upload [10],
    .server (.write 0), .server (.write 0), .server (.write 0), .download 0 [97, 10], .download 0 [98, 10],
    .download 0 [99, 10], .server (.write 1), .server (.write 1), .download 1 [97], .server (.write 1),
    .download 1 [10, 98, 10, 99, 10]]

theorem twoStreams_isSome : (exec (Link.step 0) {} twoStreams).isSome := by decide +kernel

end Confirmer
