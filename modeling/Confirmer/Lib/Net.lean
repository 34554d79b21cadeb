import Confirmer.Lib.Quorum
import Mathlib.Logic.Function.Basic
import Mathlib.Data.List.Range

/-!
# Asynchronous networks of reactive machines

A machine owns a local state, takes actions of its own and reacts to items of the wire. The wire
keeps every item ever posted with its sender; a receive event names a position of the wire, so any
order, loss and repetition of deliveries is a run.

* `Machine`, `Net`, `Event`, `step`, `run`; **`Reach`**: the reachable states with their events.
* `Local`, `localRun`: the runs of one machine; `hist`, `sent`, `Trace`, **`Reach.exists_trace`**:
  every node of a reachable network is in a local run on its own history.
* `rank`, `exists_rank`: the position of the `k`-th item of a node.
* `recvd`, `got`: what a node received; `countFrom_recvd_le`: under at-most-once delivery a node
  receives no more than was sent.
-/

namespace AsyncNet

open Quorum

/-- A node program: its initial states, its own actions, its reaction to an item. `none` stands
for a step that is not possible. -/
structure Machine (ι σ α ω : Type) where
  init : ι → σ
  act : σ → α → Option (σ × List ω)
  recv : σ → ω → Option (σ × List ω)

/-- The local states, and everything posted so far with its sender. -/
structure Net (ι σ ω : Type) where
  node : ι → σ
  wire : List (ι × ω)

/-- What can happen: a node acts, a node receives the item at a position of the wire, a node puts
an arbitrary item on the wire. -/
inductive Event (ι α ω : Type)
  | act (i : ι) (a : α)
  | recv (i : ι) (k : ℕ)
  | inject (i : ι) (w : ω)
  deriving DecidableEq

/-- The node in whose name an event writes to the wire what its program did not post. -/
def Event.author {ι α ω : Type} : Event ι α ω → Option ι
  | .inject i _ => some i
  | _ => none

theorem Event.author_eq_some {ι α ω : Type} {e : Event ι α ω} {i : ι} :
    e.author = some i ↔ ∃ w, e = .inject i w := by
  cases e <;> simp [Event.author]

variable {ι σ α ω : Type} [DecidableEq ι]

/-- Node `i` moves to the local state `r.1` and posts `r.2`. -/
def Net.after (s : Net ι σ ω) (i : ι) (r : σ × List ω) : Net ι σ ω where
  node := Function.update s.node i r.1
  wire := s.wire ++ r.2.map (Prod.mk i)

theorem Net.after_node_self (s : Net ι σ ω) (i : ι) (r : σ × List ω) :
    (s.after i r).node i = r.1 := by
  simp only [Net.after, Function.update_self]

theorem Net.after_node_ne (s : Net ι σ ω) {i j : ι} (r : σ × List ω) (h : j ≠ i) :
    (s.after i r).node j = s.node j := by
  simp only [Net.after, Function.update_of_ne h]

theorem Net.wire_after_ne (s : Net ι σ ω) {i j : ι} (r : σ × List ω) (h : j ≠ i) {w : ω}
    (hw : (j, w) ∈ (s.after i r).wire) : (j, w) ∈ s.wire := by
  rcases List.mem_append.mp hw with hw | hw
  · exact hw
  · obtain ⟨w', -, heq⟩ := List.mem_map.mp hw
    cases heq
    exact absurd rfl h

namespace Machine

variable (M : Machine ι σ α ω)

def start : Net ι σ ω := ⟨M.init, []⟩

def step (s : Net ι σ ω) : Event ι α ω → Option (Net ι σ ω)
  | .act i a => (M.act (s.node i) a).map (s.after i)
  | .recv i k => s.wire[k]?.bind fun x => (M.recv (s.node i) x.2).map (s.after i)
  | .inject i w => some { s with wire := s.wire ++ [(i, w)] }

def run : Net ι σ ω → List (Event ι α ω) → Option (Net ι σ ω)
  | s, [] => some s
  | s, e :: es => (M.step s e).bind fun s' => run s' es

/-- **The reachable states**, with the events that led to them. -/
inductive Reach : List (Event ι α ω) → Net ι σ ω → Prop
  | start : Reach [] M.start
  | snoc {es s e s'} : Reach es s → M.step s e = some s' → Reach (es ++ [e]) s'

/-- A local step: an action of its own, or an item received. -/
def localStep (t : σ) : α ⊕ ω → Option (σ × List ω)
  | .inl a => M.act t a
  | .inr w => M.recv t w

/-- **The runs of one machine**: its history, its state and what it has posted. -/
inductive Local (t₀ : σ) : List (α ⊕ ω) → σ → List ω → Prop
  | nil : Local t₀ [] t₀ []
  | snoc {h t o x t' out} : Local t₀ h t o → M.localStep t x = some (t', out) →
      Local t₀ (h ++ [x]) t' (o ++ out)

/-- The local steps of a list, and what they post. -/
def localRun (t : σ) : List (α ⊕ ω) → Option (σ × List ω)
  | [] => some (t, [])
  | x :: xs => (M.localStep t x).bind fun r =>
      (localRun r.1 xs).map fun r' => (r'.1, r.2 ++ r'.2)

end Machine

variable {M : Machine ι σ α ω}

/-! ## Runs -/

theorem reach_run {es es' : List (Event ι α ω)} {s s' : Net ι σ ω} (h : M.Reach es s)
    (hr : M.run s es' = some s') : M.Reach (es ++ es') s' := by
  induction es' generalizing es s with
  | nil =>
    cases hr
    rwa [List.append_nil]
  | cons e es' ih =>
    obtain ⟨s₁, h₁, h₂⟩ := Option.bind_eq_some_iff.mp hr
    have := ih (h.snoc h₁) h₂
    rwa [List.append_assoc] at this

theorem reach_of_run {es : List (Event ι α ω)} {s : Net ι σ ω} (hr : M.run M.start es = some s) :
    M.Reach es s :=
  reach_run .start hr

theorem reach_get {es : List (Event ι α ω)} (h : (M.run M.start es).isSome) :
    M.Reach es ((M.run M.start es).get h) :=
  reach_of_run (Option.some_get h).symm

omit [DecidableEq ι] in
theorem Machine.Local.eq_of_nil {t₀ t : σ} {h : List (α ⊕ ω)} {o : List ω} (hl : M.Local t₀ h t o)
    (hh : h = []) : t = t₀ := by
  cases hl with
  | nil => rfl
  | snoc hl hs => simp at hh

omit [DecidableEq ι] in
theorem Machine.Local.append {t₀ t t' : σ} {h h' : List (α ⊕ ω)} {o o' : List ω}
    (h₁ : M.Local t₀ h t o) (h₂ : M.Local t h' t' o') : M.Local t₀ (h ++ h') t' (o ++ o') := by
  induction h₂ with
  | nil => rwa [List.append_nil, List.append_nil]
  | snoc h₂ hs ih =>
    rw [← List.append_assoc, ← List.append_assoc]
    exact ih.snoc hs

omit [DecidableEq ι] in
theorem local_append {t₀ t t' : σ} {h xs : List (α ⊕ ω)} {o out : List ω} (hl : M.Local t₀ h t o)
    (hr : M.localRun t xs = some (t', out)) : M.Local t₀ (h ++ xs) t' (o ++ out) := by
  induction xs generalizing h t o out with
  | nil =>
    cases hr
    rwa [List.append_nil, List.append_nil]
  | cons x xs ih =>
    obtain ⟨r, hx, hr⟩ := Option.bind_eq_some_iff.mp hr
    obtain ⟨r', hr', heq⟩ := Option.map_eq_some_iff.mp hr
    cases heq
    have h' := ih (hl.snoc hx) hr'
    rwa [List.append_assoc, List.append_assoc] at h'

omit [DecidableEq ι] in
theorem local_get {t₀ : σ} {xs : List (α ⊕ ω)} (h : (M.localRun t₀ xs).isSome) :
    M.Local t₀ xs ((M.localRun t₀ xs).get h).1 ((M.localRun t₀ xs).get h).2 :=
  local_append .nil (Option.some_get h).symm

theorem wire_prefix_of_step {s s' : Net ι σ ω} {e : Event ι α ω} (h : M.step s e = some s') :
    s.wire <+: s'.wire := by
  cases e with
  | act i a =>
    obtain ⟨r, -, rfl⟩ := Option.map_eq_some_iff.mp h
    exact List.prefix_append _ _
  | recv i k =>
    obtain ⟨x, -, hx⟩ := Option.bind_eq_some_iff.mp h
    obtain ⟨r, -, rfl⟩ := Option.map_eq_some_iff.mp hx
    exact List.prefix_append _ _
  | inject i w =>
    cases h
    exact List.prefix_append _ _

theorem getElem?_after {s : Net ι σ ω} {i j : ι} {r : σ × List ω} {k : ℕ} {w : ω}
    (hk : (s.after i r).wire[k]? = some (j, w)) (hlt : s.wire.length ≤ k) : j = i ∧ w ∈ r.2 := by
  simp only [Net.after] at hk
  rw [List.getElem?_append_right hlt] at hk
  obtain ⟨w', hw', heq⟩ := List.mem_map.mp (List.mem_of_getElem? hk)
  cases heq
  exact ⟨rfl, hw'⟩

/-- **What is new on the wire was just posted**, by a peer that acted or reacted to an item, or was
written by somebody else. -/
theorem post_of_step {s s' : Net ι σ ω} {e : Event ι α ω} {i : ι} {k : ℕ} {w : ω}
    (h : M.step s e = some s') (hk : s'.wire[k]? = some (i, w)) (hlt : s.wire.length ≤ k) :
    e = .inject i w ∨ ∃ x out, M.localStep (s.node i) x = some (s'.node i, out) ∧ w ∈ out ∧
      ∀ w', x = .inr w' → ∃ j, (j, w') ∈ s.wire := by
  cases e with
  | act j a =>
    obtain ⟨r, hr, rfl⟩ := Option.map_eq_some_iff.mp h
    obtain ⟨rfl, hw⟩ := getElem?_after hk hlt
    refine Or.inr ⟨.inl a, r.2, ?_, hw, by simp⟩
    rw [Net.after_node_self]
    exact hr
  | recv j l =>
    obtain ⟨x, hx, h⟩ := Option.bind_eq_some_iff.mp h
    obtain ⟨r, hr, rfl⟩ := Option.map_eq_some_iff.mp h
    obtain ⟨rfl, hw⟩ := getElem?_after hk hlt
    refine Or.inr ⟨.inr x.2, r.2, ?_, hw, ?_⟩
    · rw [Net.after_node_self]
      exact hr
    · intro w' hw'
      cases hw'
      exact ⟨x.1, List.mem_of_getElem? hx⟩
  | inject j v =>
    cases h
    rw [List.getElem?_append_right hlt] at hk
    have hmem := List.mem_of_getElem? hk
    rw [List.mem_singleton] at hmem
    cases hmem
    exact Or.inl rfl

/-- **What a step does to a node**: nothing, and it does not receive, or one local step. -/
theorem node_of_step {s s' : Net ι σ ω} {e : Event ι α ω} (h : M.step s e = some s') (i : ι) :
    (s'.node i = s.node i ∧ ∀ k, e ≠ .recv i k) ∨
    ∃ x out, M.localStep (s.node i) x = some (s'.node i, out) ∧
      ((∃ a, e = .act i a ∧ x = .inl a) ∨
        ∃ k y, e = .recv i k ∧ s.wire[k]? = some y ∧ x = .inr y.2) := by
  cases e with
  | act j a =>
    obtain ⟨r, hr, rfl⟩ := Option.map_eq_some_iff.mp h
    by_cases hj : i = j
    · subst hj
      refine Or.inr ⟨.inl a, r.2, ?_, Or.inl ⟨a, rfl, rfl⟩⟩
      rw [Net.after_node_self]
      exact hr
    · exact Or.inl ⟨s.after_node_ne r hj, by simp⟩
  | recv j k =>
    obtain ⟨y, hy, h⟩ := Option.bind_eq_some_iff.mp h
    obtain ⟨r, hr, rfl⟩ := Option.map_eq_some_iff.mp h
    by_cases hj : i = j
    · subst hj
      refine Or.inr ⟨.inr y.2, r.2, ?_, Or.inr ⟨k, y, rfl, hy, rfl⟩⟩
      rw [Net.after_node_self]
      exact hr
    · refine Or.inl ⟨s.after_node_ne r hj, fun k' hk => ?_⟩
      cases hk
      exact hj rfl
  | inject j w =>
    cases h
    exact Or.inl ⟨rfl, by simp⟩

theorem lt_wire_of_step {s s' : Net ι σ ω} {i : ι} {k : ℕ}
    (h : M.step s (.recv i k) = some s') : k < s.wire.length := by
  obtain ⟨x, hx, -⟩ := Option.bind_eq_some_iff.mp h
  exact (List.getElem?_eq_some_iff.mp hx).1

theorem Machine.Reach.lt_wire {es : List (Event ι α ω)} {s : Net ι σ ω} (h : M.Reach es s) {i : ι}
    {k : ℕ} (hk : Event.recv i k ∈ es) : k < s.wire.length := by
  induction h with
  | start => simp at hk
  | snoc h hs ih =>
    apply lt_of_lt_of_le _ (wire_prefix_of_step hs).length_le
    rcases List.mem_append.mp hk with hk | hk
    · exact ih hk
    · rw [List.mem_singleton] at hk
      subst hk
      exact lt_wire_of_step hs

/-! ## Histories -/

/-- The local input that an event is for node `i`. -/
def Event.toLocal (wire : List (ι × ω)) (i : ι) : Event ι α ω → Option (α ⊕ ω)
  | .act j a => if j = i then some (.inl a) else none
  | .recv j k => if j = i then wire[k]?.map fun x => .inr x.2 else none
  | .inject _ _ => none

/-- **The history of a node**: its actions and the items it received, in order. -/
def hist (es : List (Event ι α ω)) (s : Net ι σ ω) (i : ι) : List (α ⊕ ω) :=
  es.filterMap (Event.toLocal s.wire i)

/-- What node `i` has posted. -/
def Net.sent (s : Net ι σ ω) (i : ι) : List ω :=
  s.wire.filterMap fun x => if x.1 = i then some x.2 else none

theorem mem_sent {s : Net ι σ ω} {i : ι} {w : ω} : w ∈ s.sent i ↔ (i, w) ∈ s.wire := by
  simp only [Net.sent, List.mem_filterMap, Option.ite_none_right_eq_some, Option.some.injEq]
  constructor
  · rintro ⟨⟨j, w'⟩, h, rfl, rfl⟩; exact h
  · intro h; exact ⟨(i, w), h, rfl, rfl⟩

theorem mem_hist_act {es : List (Event ι α ω)} {s : Net ι σ ω} {i : ι} {a : α} :
    Sum.inl a ∈ hist es s i ↔ Event.act i a ∈ es := by
  rw [hist, List.mem_filterMap]
  constructor
  · rintro ⟨e, he, h⟩
    cases e with
    | act j b =>
      simp only [Event.toLocal, Option.ite_none_right_eq_some, Option.some.injEq,
        Sum.inl.injEq] at h
      obtain ⟨rfl, rfl⟩ := h
      exact he
    | recv j k => simp [Event.toLocal] at h
    | inject j w => simp [Event.toLocal] at h
  · intro h
    exact ⟨_, h, by simp [Event.toLocal]⟩

theorem mem_hist_recv {es : List (Event ι α ω)} {s : Net ι σ ω} {i : ι} {w : ω} :
    Sum.inr w ∈ hist es s i ↔ ∃ j k, Event.recv i k ∈ es ∧ s.wire[k]? = some (j, w) := by
  rw [hist, List.mem_filterMap]
  constructor
  · rintro ⟨e, he, h⟩
    cases e with
    | act j b => simp [Event.toLocal] at h
    | recv j k =>
      simp only [Event.toLocal, Option.ite_none_right_eq_some, Option.map_eq_some_iff] at h
      obtain ⟨rfl, ⟨j', w'⟩, hx, hw⟩ := h
      cases hw
      exact ⟨j', k, he, hx⟩
    | inject j w => simp [Event.toLocal] at h
  · rintro ⟨j, k, h, hx⟩
    exact ⟨_, h, by simp [Event.toLocal, hx]⟩

/-- The wire only grows, so a history stays what it was. -/
theorem hist_of_prefix {es : List (Event ι α ω)} {s s' : Net ι σ ω} (h : M.Reach es s)
    (hw : s.wire <+: s'.wire) (i : ι) : hist es s' i = hist es s i := by
  refine List.filterMap_congr fun e he => ?_
  cases e with
  | act j a => rfl
  | recv j k =>
    obtain ⟨l, hl⟩ := hw
    simp only [Event.toLocal]
    rw [← hl, List.getElem?_append_left (h.lt_wire he)]
  | inject j w => rfl

theorem sent_after (s : Net ι σ ω) (i j : ι) (r : σ × List ω) :
    (s.after j r).sent i = s.sent i ++ if j = i then r.2 else [] := by
  simp only [Net.sent, Net.after, List.filterMap_append, List.filterMap_map]
  congr 1
  split_ifs with h
  · subst h; simp
  · simp [h]

theorem hist_snoc {es : List (Event ι α ω)} {s s' : Net ι σ ω} {e : Event ι α ω}
    (h : M.Reach es s) (hs : M.step s e = some s') (i : ι) :
    hist (es ++ [e]) s' i = hist es s i ++ hist [e] s' i := by
  rw [← hist_of_prefix h (wire_prefix_of_step hs) i]
  exact List.filterMap_append

theorem run_append (s : Net ι σ ω) (es es' : List (Event ι α ω)) :
    M.run s (es ++ es') = (M.run s es).bind fun s' => M.run s' es' := by
  induction es generalizing s with
  | nil => rfl
  | cons e es ih =>
    show (M.step s e).bind _ = ((M.step s e).bind _).bind _
    rw [Option.bind_assoc]
    congr 1
    funext s'
    exact ih s'

theorem Machine.Reach.run_eq {es : List (Event ι α ω)} {s : Net ι σ ω} (h : M.Reach es s) :
    M.run M.start es = some s := by
  induction h with
  | start => rfl
  | snoc h hs ih =>
    rw [run_append, ih]
    show (M.step _ _).bind some = _
    rw [hs]
    rfl

theorem Machine.Reach.run_of_append {es es' : List (Event ι α ω)} {s s' : Net ι σ ω} (h : M.Reach es s)
    (h' : M.Reach (es ++ es') s') : M.run s es' = some s' := by
  have hrun := h'.run_eq
  rwa [run_append, h.run_eq] at hrun

theorem wire_prefix_of_run {es : List (Event ι α ω)} {s s' : Net ι σ ω} (h : M.run s es = some s') :
    s.wire <+: s'.wire := by
  induction es generalizing s with
  | nil =>
    cases h
    exact List.prefix_rfl
  | cons e es ih =>
    obtain ⟨s₁, hs, hrun⟩ := Option.bind_eq_some_iff.mp h
    exact (wire_prefix_of_step hs).trans (ih hrun)

theorem hist_append {es es' : List (Event ι α ω)} {s s' : Net ι σ ω} (h : M.Reach es s)
    (h' : M.Reach (es ++ es') s') (i : ι) :
    hist (es ++ es') s' i = hist es s i ++ hist es' s' i := by
  rw [← hist_of_prefix h (wire_prefix_of_run (h.run_of_append h')) i]
  exact List.filterMap_append

/-- Node `i` is in a local run on its own history, and has posted `o`; the rest of what it has sent
somebody else has written in its name. -/
structure Machine.Trace (M : Machine ι σ α ω) (es : List (Event ι α ω)) (s : Net ι σ ω) (i : ι)
    (o : List ω) : Prop where
  loc : M.Local (M.init i) (hist es s i) (s.node i) o
  wire : ∀ w, (i, w) ∈ s.wire → w ∈ o ∨ Event.inject i w ∈ es
  sent : (∀ w, Event.inject i w ∉ es) → o = s.sent i

section Trace

variable {es : List (Event ι α ω)} {s : Net ι σ ω} {e : Event ι α ω} {i : ι} {o : List ω}

theorem Machine.Trace.self {x : α ⊕ ω} {r : σ × List ω} (t : M.Trace es s i o)
    (h : M.Reach es s) (hs : M.step s e = some (s.after i r))
    (hx : M.localStep (s.node i) x = some r) (hhist : hist [e] (s.after i r) i = [x]) :
    M.Trace (es ++ [e]) (s.after i r) i (o ++ r.2) where
  loc := by
    rw [hist_snoc h hs, hhist, Net.after_node_self]
    exact t.loc.snoc hx
  wire w hw := by
    rcases List.mem_append.mp hw with hw | hw
    · exact (t.wire w hw).imp (List.mem_append_left _) (List.mem_append_left _)
    · obtain ⟨w', hw', heq⟩ := List.mem_map.mp hw
      cases heq
      exact Or.inl (List.mem_append_right _ hw')
  sent hi := by
    rw [sent_after, if_pos rfl, t.sent fun w hw => hi w (List.mem_append_left _ hw)]

theorem Machine.Trace.other {s' : Net ι σ ω} (t : M.Trace es s i o) (h : M.Reach es s)
    (hs : M.step s e = some s') (hhist : hist [e] s' i = []) (hnode : s'.node i = s.node i)
    (hwire : ∀ w, (i, w) ∈ s'.wire → (i, w) ∈ s.wire ∨ Event.inject i w = e)
    (hsent : (∀ w, Event.inject i w ≠ e) → s'.sent i = s.sent i) :
    M.Trace (es ++ [e]) s' i o where
  loc := by
    rw [hist_snoc h hs, hhist, List.append_nil, hnode]
    exact t.loc
  wire w hw := by
    rcases hwire w hw with hw | rfl
    · exact (t.wire w hw).imp_right (List.mem_append_left _)
    · exact Or.inr (List.mem_append_right _ (List.mem_singleton_self _))
  sent hi := by
    rw [hsent fun w hw => hi w (hw ▸ List.mem_append_right _ (List.mem_singleton_self _))]
    exact t.sent fun w hw => hi w (List.mem_append_left _ hw)

theorem Machine.Trace.after_ne {j : ι} {r : σ × List ω} (t : M.Trace es s i o) (h : M.Reach es s)
    (hs : M.step s e = some (s.after j r)) (hj : i ≠ j) (hhist : hist [e] (s.after j r) i = []) :
    M.Trace (es ++ [e]) (s.after j r) i o :=
  t.other h hs hhist (s.after_node_ne r hj) (fun _ hw => Or.inl (s.wire_after_ne r hj hw))
    fun _ => by rw [sent_after, if_neg (Ne.symm hj), List.append_nil]

/-- **Every node is in a local run on its own history.** -/
theorem Machine.Reach.exists_trace (h : M.Reach es s) (i : ι) : ∃ o, M.Trace es s i o := by
  induction h with
  | start => exact ⟨[], .nil, fun w hw => (by cases hw), fun _ => rfl⟩
  | @snoc es s e s' h hs ih =>
    obtain ⟨o, t⟩ := ih
    cases e with
    | act j a =>
      obtain ⟨r, hr, rfl⟩ := Option.map_eq_some_iff.mp hs
      by_cases hj : i = j
      · subst hj
        exact ⟨_, t.self h hs (x := .inl a) hr (by simp [hist, Event.toLocal])⟩
      · exact ⟨o, t.after_ne h hs hj (by simp [hist, Event.toLocal, Ne.symm hj])⟩
    | recv j k =>
      obtain ⟨x, hx, hs'⟩ := Option.bind_eq_some_iff.mp hs
      obtain ⟨r, hr, rfl⟩ := Option.map_eq_some_iff.mp hs'
      by_cases hj : i = j
      · subst hj
        have hx' : (s.after i r).wire[k]? = some x := by
          rw [← hx]
          exact List.getElem?_append_left (List.getElem?_eq_some_iff.mp hx).1
        exact ⟨_, t.self h hs (x := .inr x.2) hr (by simp [hist, Event.toLocal, hx'])⟩
      · exact ⟨o, t.after_ne h hs hj (by simp [hist, Event.toLocal, Ne.symm hj])⟩
    | inject j v =>
      cases hs
      refine ⟨o, t.other h rfl rfl rfl (fun w hw => ?_) fun hne => ?_⟩
      · rcases List.mem_append.mp hw with hw | hw
        · exact Or.inl hw
        · rw [List.mem_singleton] at hw
          cases hw
          exact Or.inr rfl
      · have hj : j ≠ i := fun hj => hne v (by rw [hj])
        simp [Net.sent, List.filterMap_append, hj]

theorem Machine.Reach.hist_local (h : M.Reach es s) (hi : ∀ w, Event.inject i w ∉ es) :
    M.Local (M.init i) (hist es s i) (s.node i) (s.sent i) := by
  obtain ⟨o, t⟩ := h.exists_trace i
  rw [← t.sent hi]
  exact t.loc

end Trace

/-! ## Received items -/

/-- The positions of the wire that node `i` has received. -/
def got (es : List (Event ι α ω)) (i : ι) : List ℕ :=
  es.filterMap fun
    | .recv j k => if j = i then some k else none
    | _ => none

/-- The items that node `i` has received, with their senders. -/
def recvd (es : List (Event ι α ω)) (s : Net ι σ ω) (i : ι) : List (ι × ω) :=
  (got es i).filterMap (s.wire[·]?)

theorem mem_got {es : List (Event ι α ω)} {i : ι} {k : ℕ} :
    k ∈ got es i ↔ Event.recv i k ∈ es := by
  rw [got, List.mem_filterMap]
  constructor
  · rintro ⟨e, he, h⟩
    cases e with
    | recv j k' =>
      simp only [Option.ite_none_right_eq_some, Option.some.injEq] at h
      obtain ⟨rfl, rfl⟩ := h
      exact he
    | act j a => simp at h
    | inject j w => simp at h
  · intro h
    exact ⟨_, h, by simp⟩

theorem mem_recvd {es : List (Event ι α ω)} {s : Net ι σ ω} {i : ι} {x : ι × ω} :
    x ∈ recvd es s i ↔ ∃ k, Event.recv i k ∈ es ∧ s.wire[k]? = some x := by
  simp only [recvd, List.mem_filterMap, mem_got]

theorem recvd_subset_wire (es : List (Event ι α ω)) (s : Net ι σ ω) (i : ι) :
    recvd es s i ⊆ s.wire := fun x hx => by
  obtain ⟨k, -, hk⟩ := mem_recvd.mp hx
  exact List.mem_of_getElem? hk

theorem recvd_of_hist {es : List (Event ι α ω)} {s : Net ι σ ω} {i : ι} {w : ω}
    (hw : Sum.inr w ∈ hist es s i) : ∃ j, (j, w) ∈ recvd es s i := by
  obtain ⟨j, k, hk, hx⟩ := mem_hist_recv.mp hw
  exact ⟨j, mem_recvd.mpr ⟨k, hk, hx⟩⟩

theorem recvd_step {es : List (Event ι α ω)} {s s' : Net ι σ ω} {e : Event ι α ω}
    (h : M.Reach es s) (hs : M.step s e = some s') (i : ι) :
    recvd (es ++ [e]) s' i = recvd (es ++ [e]) s i := by
  refine List.filterMap_congr fun k hk => ?_
  have hlt : k < s.wire.length := by
    rcases List.mem_append.mp (mem_got.mp hk) with hk | hk
    · exact h.lt_wire hk
    · rw [List.mem_singleton] at hk
      subst hk
      exact lt_wire_of_step hs
  obtain ⟨l, hl⟩ := wire_prefix_of_step hs
  rw [← hl, List.getElem?_append_left hlt]

theorem mem_recvd_snoc {es : List (Event ι α ω)} {s s' : Net ι σ ω} {e : Event ι α ω}
    (h : M.Reach es s) (hs : M.step s e = some s') {i : ι} {x : ι × ω}
    (hx : x ∈ recvd (es ++ [e]) s' i) :
    x ∈ recvd es s i ∨ ∃ k, e = .recv i k ∧ s.wire[k]? = some x := by
  rw [recvd_step h hs] at hx
  obtain ⟨k, hk, hx⟩ := mem_recvd.mp hx
  rcases List.mem_append.mp hk with hk | hk
  · exact Or.inl (mem_recvd.mpr ⟨k, hk, hx⟩)
  · exact Or.inr ⟨k, (List.mem_singleton.mp hk).symm, hx⟩

theorem recvd_mono {es : List (Event ι α ω)} {s s' : Net ι σ ω} {e : Event ι α ω}
    (h : M.Reach es s) (hs : M.step s e = some s') (i : ι) :
    recvd es s i <+: recvd (es ++ [e]) s' i := by
  rw [recvd_step h hs, recvd, recvd, got, got, List.filterMap_append, List.filterMap_append]
  exact List.prefix_append _ _

theorem filterMap_hist (es : List (Event ι α ω)) (s : Net ι σ ω) (i : ι) :
    (hist es s i).filterMap Sum.getRight? = (recvd es s i).map Prod.snd := by
  induction es with
  | nil => rfl
  | cons e es ih =>
    simp only [hist, recvd, got] at ih ⊢
    cases e with
    | act j a =>
      refine Eq.trans ?_ ih
      by_cases hj : j = i <;> simp only [List.filterMap_cons, Event.toLocal, hj, if_true, if_false,
        Sum.getRight?]
    | recv j k =>
      by_cases hj : j = i
      · cases hk : s.wire[k]? <;> simp [Event.toLocal, hj, hk, ih]
      · simp [Event.toLocal, hj, ih]
    | inject j w =>
      exact ih

/-! ## At-most-once delivery -/

theorem filterMap_range {β : Type} (L : List β) :
    (List.range L.length).filterMap (L[·]?) = L := by
  induction L with
  | nil => rfl
  | cons a L ih =>
    rw [List.length_cons, List.range_succ_eq_map, List.filterMap_cons, List.filterMap_map]
    simpa [Function.comp_def] using ih

theorem countP_filterMap_le {β : Type} {ks : List ℕ} (hk : ks.Nodup) (L : List β) (p : β → Bool) :
    (ks.filterMap (L[·]?)).countP p ≤ L.countP p := by
  have hL : L.countP p = (List.range L.length).countP fun k => (L[k]?.map p).getD false := by
    conv_lhs => rw [← filterMap_range L]
    exact List.countP_filterMap
  rw [hL, List.countP_filterMap, List.countP_eq_length_filter, List.countP_eq_length_filter]
  refine (List.subperm_of_subset (hk.filter _) fun k h => ?_).length_le
  obtain ⟨-, hp⟩ := List.mem_filter.mp h
  refine List.mem_filter.mpr ⟨List.mem_range.mpr ?_, hp⟩
  by_contra hlt
  rw [List.getElem?_eq_none (by omega)] at hp
  exact Bool.noConfusion hp

/-- **A node receives no more than was sent**, when it receives every item at most once. -/
theorem countFrom_recvd_le {es : List (Event ι α ω)} {i : ι} (h : (got es i).Nodup)
    (s : Net ι σ ω) (q : ω → Bool) (j : ι) :
    countFrom (recvd es s i) q j ≤ countFrom s.wire q j :=
  countP_filterMap_le h s.wire _

theorem countFrom_wire (s : Net ι σ ω) (q : ω → Bool) (j : ι) :
    countFrom s.wire q j = (s.sent j).countP q := by
  rw [countFrom, Net.sent, List.countP_filterMap]
  refine List.countP_congr fun x _ => ?_
  by_cases hx : x.1 = j <;> simp [hx]

/-! ## Positions -/

/-- The number of items that `i` has posted in front of a position of the wire. -/
def rank (wire : List (ι × ω)) (i : ι) (k : ℕ) : ℕ := (wire.take k).countP fun x => decide (x.1 = i)

theorem rank_append {wire : List (ι × ω)} {k : ℕ} (hk : k ≤ wire.length) (l : List (ι × ω)) (i : ι) :
    rank (wire ++ l) i k = rank wire i k := by
  rw [rank, List.take_append_of_le_length hk, rank]

theorem rank_cons (x : ι × ω) (wire : List (ι × ω)) (i : ι) (k : ℕ) :
    rank (x :: wire) i (k + 1) = rank wire i k + if x.1 = i then 1 else 0 := by
  simp [rank, List.countP_cons]

theorem rank_mono (wire : List (ι × ω)) (i : ι) {k k' : ℕ} (h : k ≤ k') : rank wire i k ≤ rank wire i k' :=
  (List.take_sublist_take_left h).countP_le

/-- What is posted later stands further behind. -/
theorem lt_of_rank_lt {wire : List (ι × ω)} {i : ι} {k k' : ℕ} (h : rank wire i k < rank wire i k') :
    k < k' := by
  by_contra hle
  exact absurd h (not_lt.mpr (rank_mono wire i (not_lt.mp hle)))

theorem rank_lt {wire : List (ι × ω)} {i : ι} {k k' : ℕ} {w : ω} (hw : wire[k]? = some (i, w))
    (h : k < k') : rank wire i k < rank wire i k' := by
  have hsucc : rank wire i (k + 1) = rank wire i k + 1 := by
    rw [rank, List.take_add_one, hw, List.countP_append, rank]
    simp
  have hle : rank wire i (k + 1) ≤ rank wire i k' := rank_mono wire i h
  omega

theorem eq_of_rank_eq {wire : List (ι × ω)} {i : ι} {k k' : ℕ} {w w' : ω}
    (hw : wire[k]? = some (i, w)) (hw' : wire[k']? = some (i, w'))
    (h : rank wire i k = rank wire i k') : k = k' := by
  rcases lt_trichotomy k k' with hlt | rfl | hlt
  · exact absurd h (rank_lt hw hlt).ne
  · rfl
  · exact absurd h (rank_lt hw' hlt).ne'

theorem rank_lt_sent {s : Net ι σ ω} {i : ι} {k : ℕ} {w : ω} (hw : s.wire[k]? = some (i, w)) :
    rank s.wire i k < (s.sent i).length := by
  have hall : rank s.wire i s.wire.length = (s.sent i).length := by
    rw [rank, List.take_length, Net.sent, List.length_filterMap_eq_countP]
    refine List.countP_congr fun x _ => ?_
    by_cases hx : x.1 = i <;> simp [hx]
  exact hall ▸ rank_lt hw (List.getElem?_eq_some_iff.mp hw).1

/-- **The position of an item that a node has sent.** -/
theorem exists_rank {s : Net ι σ ω} {i : ι} {k : ℕ} {w : ω} (h : (s.sent i)[k]? = some w) :
    ∃ K, s.wire[K]? = some (i, w) ∧ rank s.wire i K = k := by
  unfold Net.sent at h
  generalize s.wire = wire at h ⊢
  induction wire generalizing k with
  | nil => simp at h
  | cons x wire ih =>
    by_cases hx : x.1 = i
    · simp only [List.filterMap_cons, if_pos hx] at h
      cases k with
      | zero =>
        rw [List.getElem?_cons_zero, Option.some.injEq] at h
        exact ⟨0, by rw [List.getElem?_cons_zero, ← hx, ← h], rfl⟩
      | succ k =>
        rw [List.getElem?_cons_succ] at h
        obtain ⟨K, hK, hrank⟩ := ih h
        exact ⟨K + 1, hK, by rw [rank_cons, if_pos hx, hrank]⟩
    · simp only [List.filterMap_cons, if_neg hx] at h
      obtain ⟨K, hK, hrank⟩ := ih h
      exact ⟨K + 1, hK, by rw [rank_cons, if_neg hx, hrank, Nat.add_zero]⟩

end AsyncNet
