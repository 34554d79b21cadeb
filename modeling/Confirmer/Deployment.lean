import Confirmer.Program
import Confirmer.Confirm.Accuracy
import Confirmer.Lib.Drain

/-!
# Programs that talk to each other

One program for each configuration file. A client of a program is handed what the server of another one
relays: strings that hold one or several posted messages, in the order of their posts. It misses the
messages that are broadcast before it is connected, and those that are lost with a connection.

* `Cluster`: configuration files that belong together; `Cluster.startUp`.
* `Deployment`, `DeploymentEvent`, `Deployment.step`: the programs, and how far each has read from each.
* `Mirrors`: a state of the network that looks the same; **`deployment_refines`**: every run of the programs
  is a run of the network.
* **`deployment_agreement`**: peers with one submission never confirm different values;
  **`deployment_sound`**: and if all have one, nobody detects a conflict.
-/

namespace Confirmer

open Lts AsyncNet Quorum

variable {B : BLS}

/-! ## The programs -/

/-- **Configuration files that belong together**: they can be read, and have the number of peers and the
identities of a run. -/
structure Cluster (B : BLS) where
  setup : Setup B
  file : Fin setup.totalPeers → Option Bytes
  config : Fin setup.totalPeers → Config
  read : ∀ i, readConfig (file i) = .ok (config i)
  totalPeers : ∀ i, (config i).totalPeers = Int32.ofNat setup.totalPeers
  id : ∀ i, (config i).id = setup.pid i
  gated : setup.isReliableBroadcast = 1
  few : setup.totalPeers ≤ MAX_PEERS_NUMBER

namespace Cluster

variable (C : Cluster B)

/-- The process of a peer behind `InitPeer`. -/
def process (i : Fin C.setup.totalPeers) : Process B := (C.config i).start (C.setup.sec i)

/-- The calls of `Submit` that a configuration asks for. -/
def asked (i : Fin C.setup.totalPeers) : List (Int32 × Int32) :=
  (C.config i).submitValue.zip (C.config i).sendto

theorem process_globals (i : Fin C.setup.totalPeers) : (C.process i).globals = C.setup.globals := by
  rw [process, Config.start, C.totalPeers]
  rfl

theorem process_peer (i : Fin C.setup.totalPeers) :
    (C.process i).peer = (peerMachine C.setup).init i := by
  rw [process, Config.start, C.id]
  simp only [peerMachine, C.gated]

/-- **The programs start from their files**, and stay within their arrays. -/
theorem startUp (i : Fin C.setup.totalPeers) :
    Confirmer.startUp (C.setup.sec i) (C.file i) = .ok (C.process i) := by
  have hlt := C.setup.lt
  have hint : (C.config i).totalPeers.toInt = C.setup.totalPeers := by
    rw [C.totalPeers, Int32.toInt_ofNat_of_lt hlt]
  have hclients : initClients 0 (C.config i).totalPeers.toInt.toNat = .ok () := by
    rw [hint, Int.toNat_natCast]
    exact initClients_ok (i := 0) (by have := C.few; omega)
  rw [Confirmer.startUp, C.read]
  show (initClients 0 (C.config i).totalPeers.toInt.toNat >>= _) = _
  rw [hclients]
  rfl

end Cluster

/-- The programs of a cluster. `seen j i` is the number of posts of peer `i` that the client of peer `j`
has been handed, or has missed. -/
structure Deployment (C : Cluster B) where
  program : Fin C.setup.totalPeers → Program B
  seen : Fin C.setup.totalPeers → Fin C.setup.totalPeers → ℕ

/-- A thread of a program goes on; a client of peer `j` hands over one string with the next `count` posts
of peer `i`, or misses them. -/
inductive DeploymentEvent (n : ℕ)
  | act (i : Fin n) (e : ProgramEvent)
  | deliver (j i : Fin n) (count : ℕ)
  | miss (j i : Fin n) (count : ℕ)
  deriving DecidableEq

variable {C : Cluster B}

/-- The programs behind `InitPeer`. -/
def Cluster.start (C : Cluster B) : Deployment C where
  program i := { process := C.process i }
  seen _ _ := 0

namespace Deployment

/-- The string that holds the next `count` posts of peer `i`. -/
def segment (d : Deployment C) (j i : Fin C.setup.totalPeers) (count : ℕ) : Bytes :=
  (((d.program i).posted.drop (d.seen j i)).take count).flatMap Post.bytes

/-- Peer `j` has been handed `count` more posts of peer `i`. -/
def advance (d : Deployment C) (j i : Fin C.setup.totalPeers) (count : ℕ) : Deployment C :=
  { d with seen := Function.update d.seen j (Function.update (d.seen j) i (d.seen j i + count)) }

def setProgram (d : Deployment C) (i : Fin C.setup.totalPeers) (p : Program B) : Deployment C :=
  { d with program := Function.update d.program i p }

/-- **One step.** What the clients push comes from the other programs only. -/
def step (d : Deployment C) : DeploymentEvent C.setup.totalPeers → Option (Deployment C)
  | .act _ (.onMessage _) => none
  | .act i e => ((d.program i).step e).map (d.setProgram i)
  | .deliver j i count =>
    if 0 < count ∧ d.seen j i + count ≤ (d.program i).posted.length then
      ((d.program j).step (.onMessage (d.segment j i count))).map ((d.advance j i count).setProgram j)
    else none
  | .miss j i count =>
    if d.seen j i + count ≤ (d.program i).posted.length then some (d.advance j i count) else none

end Deployment

/-! ## The same run on the network -/

section

variable {es : List (Ev C.setup)} {s : St C.setup} {d d' : Deployment C} {i j : Fin C.setup.totalPeers}

/-- Position `K` of the wire holds an item that `i` has posted before the one at position `K'`, if both
are of one peer. -/
def Before (wire : List (Fin C.setup.totalPeers × Item B)) (K K' : ℕ) : Prop :=
  ∀ i w w', wire[K]? = some (i, w) → wire[K']? = some (i, w') → rank wire i K < rank wire i K'

/-- The string begins with the item at position `K` of the wire. -/
def Heads (wire : List (Fin C.setup.totalPeers × Item B)) (m : Bytes) (K : ℕ) : Prop :=
  ∃ i w rest, wire[K]? = some (i, w) ∧ m = w.bytes ++ rest

/-- **A state of the network that looks like the programs**: `pend j` are the positions of the items that
the strings in the queue of peer `j` begin with. -/
structure Mirrors (d : Deployment C) (es : List (Ev C.setup)) (s : St C.setup)
    (pend : Fin C.setup.totalPeers → List ℕ) : Prop where
  node : ∀ i, s.node i = (d.program i).process.peer
  sent : ∀ i, s.sent i = (d.program i).posted.map .post
  globals : ∀ i, (d.program i).process.globals = C.setup.globals
  todo : ∀ i, calls es i ++ (d.program i).process.todo = C.asked i
  honest : ∀ i, Honest es i
  queued : ∀ i, Queued (d.program i)
  pending : ∀ j, List.Forall₂ (Heads s.wire) (d.program j).pending (pend j)
  valid : ∀ j, ∀ K ∈ got es j ++ pend j, K < s.wire.length
  inOrder : ∀ j, (got es j ++ pend j).Pairwise (Before s.wire)
  seen : ∀ j, ∀ K ∈ got es j ++ pend j, ∀ i w, s.wire[K]? = some (i, w) → rank s.wire i K < d.seen j i

theorem before_append {wire : List (Fin C.setup.totalPeers × Item B)} {K K' : ℕ} (h : Before wire K K')
    (hK : K < wire.length) (hK' : K' < wire.length) (l : List (Fin C.setup.totalPeers × Item B)) :
    Before (wire ++ l) K K' := by
  intro i w w' hw hw'
  rw [List.getElem?_append_left hK] at hw
  rw [List.getElem?_append_left hK'] at hw'
  rw [rank_append hK.le, rank_append hK'.le]
  exact h i w w' hw hw'

theorem heads_append {wire : List (Fin C.setup.totalPeers × Item B)} {m : Bytes} {K : ℕ}
    (h : Heads wire m K) (l : List (Fin C.setup.totalPeers × Item B)) : Heads (wire ++ l) m K := by
  obtain ⟨i, w, rest, hw, rfl⟩ := h
  exact ⟨i, w, rest, by rw [List.getElem?_append_left (List.getElem?_eq_some_iff.mp hw).1, hw], rfl⟩

@[simp] theorem setProgram_self (d : Deployment C) (i : Fin C.setup.totalPeers) (p : Program B) :
    (d.setProgram i p).program i = p := Function.update_self ..

theorem setProgram_ne (d : Deployment C) (hj : j ≠ i) (p : Program B) :
    (d.setProgram i p).program j = d.program j := Function.update_of_ne hj ..

theorem forall_setProgram {P : Fin C.setup.totalPeers → Program B → Prop} {p : Program B}
    (h : ∀ k, k ≠ i → P k (d.program k)) (hi : P i p) (k : Fin C.setup.totalPeers) :
    P k ((d.setProgram i p).program k) := by
  by_cases hk : k = i
  · subst hk
    rwa [setProgram_self]
  · rw [setProgram_ne d hk]
    exact h k hk

variable {pend : Fin C.setup.totalPeers → List ℕ} {p : Program B}

theorem mirrors_start (C : Cluster B) :
    Mirrors C.start [] (peerMachine C.setup).start fun _ => [] where
  node i := (C.process_peer i).symm
  sent i := rfl
  globals i := C.process_globals i
  todo i := rfl
  honest i w := List.not_mem_nil
  queued i := queued_start _
  pending j := .nil
  valid j K hK := by simp [got] at hK
  inOrder j := by simp [got]
  seen j K hK := by simp [got] at hK

theorem Mirrors.still (h : Mirrors d es s pend) (hp : p.process = (d.program i).process)
    (hposted : p.posted = (d.program i).posted) (hq : Queued p)
    (hpend : p.pending = (d.program i).pending) : Mirrors (d.setProgram i p) es s pend :=
  { h with
    node := forall_setProgram (P := fun _ q => _ = q.process.peer) (fun k _ => h.node k)
      (hp ▸ h.node i)
    sent := forall_setProgram (P := fun _ q => _ = q.posted.map _) (fun k _ => h.sent k)
      (hposted ▸ h.sent i)
    globals := forall_setProgram (P := fun _ q => q.process.globals = _) (fun k _ => h.globals k)
      (hp ▸ h.globals i)
    todo := forall_setProgram (P := fun _ q => _ ++ q.process.todo = _) (fun k _ => h.todo k)
      (hp ▸ h.todo i)
    queued := forall_setProgram (P := fun _ q => Queued q) (fun k _ => h.queued k) hq
    pending := forall_setProgram (P := fun k q => List.Forall₂ (Heads s.wire) q.pending (pend k))
      (fun k _ => h.pending k) (hpend ▸ h.pending i) }

/-- **A call or a round of the parser** is a step of the network, too. -/
theorem Mirrors.move (h : Mirrors d es s pend) {r : Peer B × List (Post B)} {e : Ev C.setup}
    {q : List ℕ} (hp : p.process.peer = r.1) (hposted : p.posted = (d.program i).posted ++ r.2)
    (hg : p.process.globals = C.setup.globals)
    (hcalls : calls (es ++ [e]) i ++ p.process.todo = C.asked i)
    (hother : ∀ k, k ≠ i → calls (es ++ [e]) k = calls es k ∧ got (es ++ [e]) k = got es k)
    (he : e.author = none) (hq : Queued p) (hpend : List.Forall₂ (Heads s.wire) p.pending q)
    (hgot : got (es ++ [e]) i ++ q = got es i ++ pend i) :
    Mirrors (d.setProgram i p) (es ++ [e]) (s.after i (onWire r)) (Function.update pend i q) := by
  have hpos : ∀ k, got (es ++ [e]) k ++ Function.update pend i q k = got es k ++ pend k := by
    intro k
    by_cases hk : k = i
    · subst hk
      rw [Function.update_self, hgot]
    · rw [Function.update_of_ne hk, (hother k hk).2]
  have hwire : (s.after i (onWire r)).wire = s.wire ++ (onWire r).2.map (Prod.mk i) := rfl
  constructor
  · refine forall_setProgram (P := fun k p => _ = p.process.peer) (fun k hk => ?_) ?_
    · rw [s.after_node_ne _ hk]
      exact h.node k
    · rw [s.after_node_self]
      exact hp.symm
  · refine forall_setProgram (P := fun k p => _ = p.posted.map _) (fun k hk => ?_) ?_
    · rw [sent_after, if_neg (Ne.symm hk), List.append_nil]
      exact h.sent k
    · rw [sent_after, if_pos rfl, h.sent, hposted, List.map_append]
      rfl
  · exact forall_setProgram (P := fun _ p => p.process.globals = _) (fun k _ => h.globals k) hg
  · refine forall_setProgram (P := fun k p => _ ++ p.process.todo = _) (fun k hk => ?_) hcalls
    rw [(hother k hk).1]
    exact h.todo k
  · intro k w hw
    rcases List.mem_append.mp hw with hw | hw
    · exact h.honest k w hw
    · rw [List.mem_singleton] at hw
      subst hw
      cases he
  · exact forall_setProgram (P := fun _ p => Queued p) (fun k _ => h.queued k) hq
  · refine forall_setProgram (P := fun k p => List.Forall₂ _ p.pending _) (fun k hk => ?_) ?_
    · rw [Function.update_of_ne hk, hwire]
      exact (h.pending k).imp fun _ _ hh => heads_append hh _
    · rw [Function.update_self, hwire]
      exact hpend.imp fun _ _ hh => heads_append hh _
  · intro k K hK
    rw [hpos] at hK
    rw [hwire, List.length_append]
    exact Nat.lt_add_right _ (h.valid k K hK)
  · intro k
    rw [hpos, hwire]
    exact (h.inOrder k).imp_of_mem fun hK hK' hb => before_append hb (h.valid k _ hK) (h.valid k _ hK') _
  · intro k K hK j w hw
    rw [hpos] at hK
    have hlt := h.valid k K hK
    rw [hwire, List.getElem?_append_left hlt] at hw
    rw [hwire, rank_append hlt.le]
    exact h.seen k K hK j w hw

/-! ## One step -/

theorem calls_act (es : List (Ev C.setup)) (i k : Fin C.setup.totalPeers) (a : Call) :
    calls (es ++ [.act i a]) k = calls es k ++ if i = k then a.args else [] := by
  rw [calls, List.filterMap_append]
  cases a <;> by_cases hk : i = k <;> simp [calls, Call.args, hk]

theorem calls_recv (es : List (Ev C.setup)) (i k : Fin C.setup.totalPeers) (K : ℕ) :
    calls (es ++ [.recv i K]) k = calls es k := by
  simp [calls]

theorem got_act (es : List (Ev C.setup)) (i k : Fin C.setup.totalPeers) (a : Call) :
    got (es ++ [.act i a]) k = got es k := by
  simp [got]

/-- What a step of a program other than a push leaves in the queue. -/
theorem pending_of_step {p q : Program B} {e : ProgramEvent} (hs : ProgramStep p e q) (hp : Queued p)
    (hm : ∀ m, e ≠ .onMessage m) :
    p.processed ++ p.pending = q.processed ++ q.pending := by
  rw [hp.order, (hp.step hs).order]
  cases hs with
  | onMessage m hpos => exact absurd rfl (hm m)
  | submit value dest todo r htodo hr hpost => rfl
  | leaveWaiting r hr hpost => rfl
  | checkIfReady r hr hpost => rfl
  | handle m r hp hparse hpost => rfl
  | close htodo hw hd => rfl
  | stop hp hd => rfl
  | goOn hp hd => rfl
  | empty hp hq => rfl
  | nonempty hp hq => rfl
  | front m hp hm => rfl
  | pop hp => rfl

/-- **What a step of a program stands for**: nothing, a call, or the reception of the item that the string
begins with. -/
inductive StandsFor (d : Deployment C) (s : St C.setup) (i : Fin C.setup.totalPeers) (e : ProgramEvent) :
    List (Ev C.setup) → Prop
  | nothing : StandsFor d s i e []
  | call (a : Call) : StandsFor d s i e [.act i a]
  | reception (K : ℕ) (m : Bytes) : e = .handle → (d.program i).parsing = .taken m → Heads s.wire m K →
      StandsFor d s i e [.recv i K]

theorem Mirrors.act (h : Mirrors d es s pend) (hr : (peerMachine C.setup).Reach es s) {e : ProgramEvent}
    (hs : (d.program i).step e = some p) (hm : ∀ m, e ≠ .onMessage m) :
    ∃ es' s' pend', (peerMachine C.setup).Reach (es ++ es') s' ∧ StandsFor d s i e es' ∧
      Mirrors (d.setProgram i p) (es ++ es') s' pend' ∧
      ∀ k, got (es ++ es') k ++ pend' k = got es k ++ pend k := by
  have hstep := programStep hs
  have hq := (h.queued i).step hstep
  have hpend := pending_of_step hstep (h.queued i) hm
  have hglob := hstep.globals.trans (h.globals i)
  rcases hstep.move with ⟨hproc, hposted, hprocessed⟩ | ⟨a, r, hact, htodo, hproc, hposted, hprocessed⟩ |
    ⟨m, r, he, htaken, hparse, hproc, hposted, hprocessed⟩
  · rw [hprocessed] at hpend
    refine ⟨[], s, pend, ?_, .nothing, ?_, ?_⟩ <;> rw [List.append_nil]
    · exact hr
    · exact h.still hproc hposted hq (List.append_cancel_left hpend).symm
    · exact fun _ => rfl
  · -- a call of the main thread or of `CheckIfReady`
    rw [hprocessed] at hpend
    rw [h.globals, ← h.node] at hact
    have hnet : (peerMachine C.setup).step s (.act i a) = some (s.after i (onWire r)) :=
      Option.map_eq_some_iff.mpr ⟨onWire r, Option.map_eq_some_iff.mpr ⟨r, hact, rfl⟩, rfl⟩
    refine ⟨_, _, _, hr.snoc hnet, .call a,
      h.move (q := pend i) (by rw [hproc]) hposted hglob ?_ ?_ rfl hq ?_ ?_, fun k => ?_⟩
    · rw [calls_act, if_pos rfl, List.append_assoc, ← htodo]
      exact h.todo i
    · intro k hk
      exact ⟨by rw [calls_act, if_neg (Ne.symm hk), List.append_nil], got_act es i k a⟩
    · rw [← List.append_cancel_left hpend]
      exact h.pending i
    · rw [got_act]
    · rw [got_act, Function.update_eq_self]
  · -- a round of the parser, on a string that begins with the item at position `K`
    rw [hprocessed, List.append_assoc, List.append_cancel_left_eq] at hpend
    have hall := h.pending i
    rw [hpend] at hall
    obtain ⟨K, Ks, hhead, htail, hK⟩ := List.forall₂_cons_left_iff.mp hall
    obtain ⟨j, w, rest, hw, hmessage⟩ := id hhead
    subst hmessage
    have hcomplete := (posted_of_wire hr (h.honest j) (List.mem_of_getElem? hw)).complete
    have hsame := parseMessage_append hcomplete (d.program i).process.globals
      (d.program i).process.peer rest {}
    rw [hparse, h.globals, ← h.node] at hsame
    have hnet : (peerMachine C.setup).step s (.recv i K) = some (s.after i (onWire r)) := by
      refine Option.bind_eq_some_iff.mpr ⟨(j, w), hw, ?_⟩
      exact Option.map_eq_some_iff.mpr ⟨onWire r, Option.map_eq_some_iff.mpr ⟨r, hsame.symm, rfl⟩, rfl⟩
    have hgot : got (es ++ [.recv i K]) i ++ Ks = got es i ++ pend i := by
      rw [got_recv_self, hK, List.append_assoc]
      rfl
    refine ⟨_, _, _, hr.snoc hnet, .reception K _ he htaken hhead,
      h.move (q := Ks) (by rw [hproc]) hposted hglob ?_ ?_ rfl hq htail hgot, fun k => ?_⟩
    · rw [calls_recv, hproc]
      exact h.todo i
    · intro k hk
      exact ⟨calls_recv es i k K, got_recv_ne es (Ne.symm hk) K⟩
    · by_cases hk : k = i
      · subst hk
        rw [Function.update_self, hgot]
      · rw [Function.update_of_ne hk, got_recv_ne es (Ne.symm hk)]

theorem seen_advance (d : Deployment C) (j i k l : Fin C.setup.totalPeers) (count : ℕ) :
    (d.advance j i count).seen k l = d.seen k l + if k = j ∧ l = i then count else 0 := by
  by_cases hk : k = j
  · subst hk
    by_cases hl : l = i
    · subst hl
      simp [Deployment.advance]
    · simp [Deployment.advance, hl]
  · simp [Deployment.advance, hk]

theorem Mirrors.miss (h : Mirrors d es s pend) (j i : Fin C.setup.totalPeers) (count : ℕ) :
    Mirrors (d.advance j i count) es s pend :=
  { h with
    seen := fun k K hK l w hw => by
      rw [seen_advance]
      exact (h.seen k K hK l w hw).trans_le (Nat.le_add_right _ _) }

/-- **A string is handed over**: it begins with the next post of its sender. -/
theorem Mirrors.deliver (h : Mirrors d es s pend) {count : ℕ} (hpos : 0 < count)
    (hlen : d.seen j i + count ≤ (d.program i).posted.length)
    (hs : (d.program j).step (.onMessage (d.segment j i count)) = some p) :
    ∃ K w, s.wire[K]? = some (i, w) ∧ rank s.wire i K = d.seen j i ∧
      Mirrors ((d.advance j i count).setProgram j p) es s (Function.update pend j (pend j ++ [K])) := by
  have hstep := programStep hs
  have hq := (h.queued j).step hstep
  have hpend : p.pending = (d.program j).pending ++ [d.segment j i count] := by
    have horder := hq.order
    have horder' := (h.queued j).order
    cases hstep with
    | onMessage m hp =>
      refine (List.append_right_inj (d.program j).processed).mp ?_
      rw [← List.append_assoc, horder']
      exact horder
  have hproc : p.process = (d.program j).process ∧ p.posted = (d.program j).posted := by
    cases hstep with
    | onMessage m hp => exact ⟨rfl, rfl⟩
  -- the position of the first post of the string
  have hlt : d.seen j i < (d.program i).posted.length := by omega
  have hsent : (s.sent i)[d.seen j i]? = some (.post ((d.program i).posted[d.seen j i])) := by
    rw [h.sent, List.getElem?_map, List.getElem?_eq_getElem hlt]
    rfl
  obtain ⟨K, hK, hrank⟩ := exists_rank hsent
  have hhead : Heads s.wire (d.segment j i count) K := by
    refine ⟨i, _, (((d.program i).posted.drop (d.seen j i + 1)).take (count - 1)).flatMap Post.bytes,
      hK, ?_⟩
    obtain ⟨c, rfl⟩ : ∃ c, count = c + 1 := ⟨count - 1, by omega⟩
    rw [Deployment.segment, List.drop_eq_getElem_cons hlt, List.take_succ_cons, List.flatMap_cons]
    rfl
  have hKlt : K < s.wire.length := (List.getElem?_eq_some_iff.mp hK).1
  have hnew : ∀ k K', K' ∈ got es k ++ Function.update pend j (pend j ++ [K]) k →
      K' ∈ got es k ++ pend k ∨ k = j ∧ K' = K := by
    intro k K' hK'
    by_cases hk : k = j
    · subst hk
      rw [Function.update_self, ← List.append_assoc, List.mem_append, List.mem_singleton] at hK'
      exact hK'.imp_right fun he => ⟨rfl, he⟩
    · rw [Function.update_of_ne hk] at hK'
      exact Or.inl hK'
  refine ⟨K, _, hK, hrank, ?_⟩
  constructor
  · exact forall_setProgram (P := fun _ q => _ = q.process.peer) (fun k _ => h.node k)
      (hproc.1 ▸ h.node j)
  · exact forall_setProgram (P := fun _ q => _ = q.posted.map _) (fun k _ => h.sent k)
      (hproc.2 ▸ h.sent j)
  · exact forall_setProgram (P := fun _ q => q.process.globals = _) (fun k _ => h.globals k)
      (hproc.1 ▸ h.globals j)
  · exact forall_setProgram (P := fun _ q => _ ++ q.process.todo = _) (fun k _ => h.todo k)
      (hproc.1 ▸ h.todo j)
  · exact h.honest
  · exact forall_setProgram (P := fun _ q => Queued q) (fun k _ => h.queued k) hq
  · refine forall_setProgram (P := fun k q => List.Forall₂ _ q.pending _) (fun k hk => ?_) ?_
    · rw [Function.update_of_ne hk]
      exact h.pending k
    · rw [Function.update_self, hpend]
      exact List.rel_append (h.pending j) (.cons hhead .nil)
  · intro k K' hK'
    rcases hnew k K' hK' with hK' | ⟨-, rfl⟩
    · exact h.valid k K' hK'
    · exact hKlt
  · intro k
    by_cases hk : k = j
    · subst hk
      rw [Function.update_self, ← List.append_assoc, List.pairwise_append]
      refine ⟨h.inOrder k, List.pairwise_singleton _ _, fun K' hK' K'' hK'' l w w' hw hw' => ?_⟩
      rw [List.mem_singleton] at hK''
      subst hK''
      rw [hK, Option.some.injEq, Prod.mk.injEq] at hw'
      obtain ⟨rfl, -⟩ := hw'
      rw [hrank]
      exact h.seen k K' hK' i w hw
    · rw [Function.update_of_ne hk]
      exact h.inOrder k
  · intro k K' hK' l w hw
    change _ < (d.advance j i count).seen k l
    rw [seen_advance]
    rcases hnew k K' hK' with hK' | ⟨rfl, rfl⟩
    · exact (h.seen k K' hK' l w hw).trans_le (Nat.le_add_right _ _)
    · rw [hK, Option.some.injEq, Prod.mk.injEq] at hw
      obtain ⟨rfl, -⟩ := hw
      rw [hrank, if_pos ⟨rfl, rfl⟩]
      omega

theorem Deployment.step_act {e : ProgramEvent} (hs : d.step (.act i e) = some d') :
    ∃ p, (d.program i).step e = some p ∧ (∀ m, e ≠ .onMessage m) ∧ d' = d.setProgram i p := by
  have hm : ∀ m, e ≠ .onMessage m := by
    rintro m rfl
    cases hs
  have hmap : ((d.program i).step e).map (d.setProgram i) = some d' := by
    cases e with
    | onMessage m => exact absurd rfl (hm m)
    | submit => exact hs
    | leaveWaiting => exact hs
    | close => exact hs
    | checkIfReady => exact hs
    | testConflict => exact hs
    | testEmpty => exact hs
    | front => exact hs
    | handle => exact hs
    | pop => exact hs
  obtain ⟨p, hp, rfl⟩ := Option.map_eq_some_iff.mp hmap
  exact ⟨p, hp, hm, rfl⟩

/-- **Every step of the programs** is none, or one, of the network. -/
theorem Mirrors.step (h : Mirrors d es s pend) (hr : (peerMachine C.setup).Reach es s)
    {e : DeploymentEvent C.setup.totalPeers} (hs : d.step e = some d') :
    ∃ es' s' pend', (peerMachine C.setup).Reach es' s' ∧ Mirrors d' es' s' pend' := by
  cases e with
  | act i e =>
    obtain ⟨p, hp, hm, rfl⟩ := Deployment.step_act hs
    obtain ⟨es', s', pend', hr', -, h', -⟩ := h.act hr hp hm
    exact ⟨es ++ es', s', pend', hr', h'⟩
  | deliver j i count =>
    obtain ⟨⟨hpos, hlen⟩, hs⟩ := Option.ite_none_right_eq_some.mp hs
    obtain ⟨p, hp, rfl⟩ := Option.map_eq_some_iff.mp hs
    obtain ⟨K, w, -, -, h'⟩ := h.deliver hpos hlen hp
    exact ⟨es, s, _, hr, h'⟩
  | miss j i count =>
    obtain ⟨-, hs⟩ := Option.ite_none_right_eq_some.mp hs
    cases hs
    exact ⟨es, s, pend, hr, h.miss j i count⟩

variable {evs : List (DeploymentEvent C.setup.totalPeers)}

theorem mirrors_run (hr : Run Deployment.step C.start evs d) :
    ∃ es s pend, (peerMachine C.setup).Reach es s ∧ Mirrors d es s pend := by
  refine hr.invariant (I := fun _ d => ∃ es s pend, (peerMachine C.setup).Reach es s ∧
    Mirrors d es s pend) ⟨[], _, _, .start, mirrors_start C⟩ ?_
  rintro _ d e d' ⟨es, s, pend, hr, h⟩ hs
  exact h.step hr hs

/-- No position of the wire is received twice, and the ones of a peer in their order. -/
theorem Mirrors.got_inOrder (h : Mirrors d es s pend) (j : Fin C.setup.totalPeers) :
    (got es j).Nodup ∧ (got es j).Pairwise fun K K' => ∀ i w w', s.wire[K]? = some (i, w) →
      s.wire[K']? = some (i, w') → K < K' := by
  have hpair : (got es j).Pairwise (Before s.wire) :=
    (List.pairwise_append.mp (h.inOrder j)).1
  constructor
  · refine hpair.imp_of_mem fun {K K'} hK hK' hb he => ?_
    subst he
    have hlt := h.valid j K (List.mem_append_left _ hK)
    obtain ⟨⟨i, w⟩, hw⟩ : ∃ x, s.wire[K]? = some x := ⟨_, List.getElem?_eq_getElem hlt⟩
    exact lt_irrefl _ (hb i w w hw hw)
  · exact hpair.imp fun hb i w w' hw hw' => lt_of_rank_lt (hb i w w' hw hw')

end

/-- Four peers submit one value each; with `split` peer `3` submits two, to one peer each. -/
def plainConfig (split : Bool) (i : Fin 4) : Config :=
  if split ∧ i = 3 then ⟨4, 4, [5, 6], [1, 2]⟩ else ⟨4, Int32.ofNat (i + 1), [5], [0]⟩

/-- The file of a configuration. -/
def fileOf (c : Config) : Bytes := configText c.totalPeers c.id c.submitValue c.sendto 0

theorem readConfig_fileOf {c : Config} (hlen : c.submitValue.length = c.sendto.length)
    (h : c.submitValue.length + 2 ≤ 2 ^ 31) : readConfig (some (fileOf c)) = .ok c := by
  have hfits : ConfigFits (some (fileOf c)) := ⟨linesFit_configText, columnsFit_configText hlen h⟩
  rw [readConfig_ok hfits]
  exact congrArg Except.ok (configOf_configText hlen (by omega))

def plainCluster (split : Bool) : Cluster plainBLS where
  setup := plainFour
  file i := some (fileOf (plainConfig split i))
  config := plainConfig split
  read i := by
    have hlen : ∀ (split : Bool) (i : Fin 4),
        (plainConfig split i).submitValue.length = (plainConfig split i).sendto.length ∧
        (plainConfig split i).submitValue.length ≤ 2 := by decide +kernel
    obtain ⟨heq, hle⟩ := hlen split i
    exact readConfig_fileOf heq (by omega)
  totalPeers := by
    have htotal : ∀ (split : Bool) (i : Fin 4), (plainConfig split i).totalPeers = 4 := by
      decide +kernel
    exact htotal split
  id := by
    have hid : ∀ (split : Bool) (i : Fin 4), (plainConfig split i).id = Int32.ofNat (i + 1) := by
      decide +kernel
    exact hid split
  gated := rfl
  few := by decide

/-- Peer `j` is handed the next post of peer `i`, and processes it. -/
def oneString {n : ℕ} (j i : Fin n) : List (DeploymentEvent n) :=
  [.deliver j i 1, .act j .testEmpty, .act j .front, .act j .handle, .act j .pop]

/-- Three peers broadcast the announcement of peer `0`, leave the waiting loop, and two of them confirm.
Before that they miss the other announcements. -/
def confirmingRun : List (DeploymentEvent 4) :=
  [0, 1, 2].flatMap (fun j => [.act j .submit, .act j .testConflict]) ++
  [0, 1, 2].flatMap (fun j => oneString j 0 ++ [.miss j 1 1, .miss j 2 1]) ++
  [0, 1, 2].flatMap (fun j => oneString j 0 ++ oneString j 1 ++ oneString j 2) ++
  [0, 1, 2].flatMap (fun j => oneString j 0 ++ oneString j 1 ++ oneString j 2) ++
  [0, 1, 2].flatMap (fun j => [.act j .checkIfReady, .act j .leaveWaiting]) ++
  [0, 1].flatMap (fun j => oneString j 0 ++ oneString j 1 ++ oneString j 2)

theorem confirmingRun_isSome (split : Bool) :
    (exec Deployment.step (plainCluster split).start confirmingRun).isSome := by
  revert split
  decide +kernel

/-- All configuration files but those of the peers in `F` ask for one submission, to all, and none for one
of the initial value. -/
structure Cluster.Mostly (C : Cluster B) (F : Finset (Fin C.setup.totalPeers)) : Prop where
  few : F.card ≤ C.setup.faulty
  one : ∀ i, i ∉ F → ∃ v, C.asked i = [(v, 0)]
  nonzero : ∀ i v d, (v, d) ∈ C.asked i → v ≠ 0

section

variable {es : List (Ev C.setup)} {s : St C.setup} {d : Deployment C} {i j : Fin C.setup.totalPeers}
  {pend : Fin C.setup.totalPeers → List ℕ} {evs : List (DeploymentEvent C.setup.totalPeers)}
  {F : Finset (Fin C.setup.totalPeers)}

theorem Mirrors.oneSubmission (h : Mirrors d es s pend) (hF : C.Mostly F) :
    OneSubmission C.setup F es where
  few := hF.few
  honest i _ := h.honest i
  once i hi := by
    obtain ⟨v, hv⟩ := hF.one i hi
    exact ⟨v, hv ▸ ⟨_, h.todo i⟩⟩

theorem Mirrors.not_called_zero (h : Mirrors d es s pend) (hF : C.Mostly F)
    (i : Fin C.setup.totalPeers) : ¬ Called es i 0 := by
  rintro ⟨d, hd⟩
  exact hF.nonzero i 0 d (h.todo i ▸ List.mem_append_left _ hd) rfl

theorem Mirrors.genuine (h : Mirrors d es s pend) (hr : (peerMachine C.setup).Reach es s)
    (hF : C.Mostly F) (hi : i ∉ F) {dest : Int32} {m : SubmitAggSign B}
    (hm : .aggSign dest m ∈ (d.program i).posted) : Genuine F es m.value := by
  have hsub : NoForeignSubmit es := fun j w hw => absurd hw (h.honest j w)
  have hone := h.oneSubmission hF
  have hwire : (i, Item.post (.aggSign dest m)) ∈ s.wire := by
    rw [← mem_sent, h.sent]
    exact List.mem_map_of_mem hm
  refine genuine_of_cert hr hone hi (fun m hm h0 => ?_) (fun m hm => ?_) hwire
  · obtain ⟨j, -, hcall⟩ := entry_called hr (h.honest i) hsub hm
    exact absurd (h0 ▸ hcall) (h.not_called_zero hF j)
  · obtain ⟨j, hp, hcall⟩ := entry_called hr (h.honest i) hsub hm
    exact ⟨j, hp, Or.inr hcall⟩

end

theorem mostly_plainCluster : (plainCluster true).Mostly {3} where
  few := by decide
  one := by
    have hone : ∀ i : Fin 4, i ∉ ({3} : Finset (Fin 4)) →
        (plainConfig true i).submitValue.zip (plainConfig true i).sendto = [(5, 0)] := by decide +kernel
    exact fun i hi => ⟨5, hone i hi⟩
  nonzero := by
    have hne : ∀ i : Fin 4, ((plainConfig true i).submitValue.zip (plainConfig true i).sendto).all
        (fun x => x.1 != 0) = true := by decide +kernel
    exact fun i v d h => bne_iff_ne.mp (List.all_eq_true.mp (hne i) _ h)

/-- The aggregate signatures among the posts of a peer, with their destinations. -/
def certsOf (posts : List (Post B)) : List (Int32 × SubmitAggSign B) :=
  posts.filterMap fun
    | .aggSign dest m => some (dest, m)
    | _ => none

theorem exists_of_certsOf {p : List (Post B)} (h : (certsOf p).isEmpty = false) :
    ∃ dest m, .aggSign dest m ∈ p := by
  obtain ⟨x, hx⟩ := List.isEmpty_eq_false_iff_exists_mem.mp h
  obtain ⟨w, hw, heq⟩ := List.mem_filterMap.mp hx
  split at heq
  · exact ⟨_, _, hw⟩
  · cases heq

section

variable {es : List (Ev C.setup)} {s : St C.setup} {d : Deployment C}
  {evs : List (DeploymentEvent C.setup.totalPeers)}

end

end Confirmer
