import Confirmer.Deployment
import Confirmer.Liveness

/-!
# Programs that come to rest

* `Deployment.smooth`: the steps by which nothing is lost, and no program takes in a submit message while it
  still has `Submit` calls to make.
* `Lossless`, `smooth_run`: what was handed over along such steps is received or pending.
* `Deployment.AtRest`: all posts are handed over, all queues empty, all threads idle.
* **`deployment_confirms`**: when all configuration files ask for one value, then at rest all programs have
  confirmed it.
-/

namespace Confirmer

open Lts AsyncNet Quorum

variable {B : BLS} {C : Cluster B}

/-! ## Smooth runs -/

/-- Does the parser read a submit message? -/
def Incoming.isSubmit : Incoming B → Bool
  | .submit _ => true
  | _ => false

/-- Is the string behind `front()` a submit message? -/
def Program.takesSubmit (s : Program B) : Bool :=
  match s.parsing with
  | .taken m => (decode B s.process.peer.id m).toOption.any Incoming.isSubmit
  | _ => false

/-- **Nothing is lost**: every string holds one post and none is missed. And no program processes a submit
message as long as it has a `Submit` call to make. -/
def Deployment.smooth (d : Deployment C) : DeploymentEvent C.setup.totalPeers → Bool
  | .miss _ _ _ => false
  | .deliver _ _ count => count == 1
  | .act i .handle => (d.program i).process.todo.isEmpty || !(d.program i).takesSubmit
  | .act _ _ => true

/-- One step of a smooth run. -/
abbrev Deployment.smoothStep (d : Deployment C) (e : DeploymentEvent C.setup.totalPeers) :
    Option (Deployment C) := guarded Deployment.step (fun d e => d.smooth e = true) d e

/-- **All posts are handed over, all queues are empty, and `main` and `CheckIfReady` have nothing to do.** -/
structure Deployment.AtRest (d : Deployment C) : Prop where
  seen : ∀ j i, d.seen j i = (d.program i).posted.length
  empty : ∀ i, (d.program i).recvRawMessage = []
  called : ∀ i, (d.program i).process.todo = []
  left : ∀ i, (d.program i).step .leaveWaiting = none
  checked : ∀ i, (d.program i).step .checkIfReady = none

/-- **What the clients have been handed** of the posts of a peer, they have received or have it pending. -/
structure Lossless (d : Deployment C) (es : List (Ev C.setup)) (s : St C.setup)
    (pend : Fin C.setup.totalPeers → List ℕ) : Prop where
  kept : ∀ j i n, n < d.seen j i →
    ∃ K ∈ got es j ++ pend j, ∃ w, s.wire[K]? = some (i, w) ∧ rank s.wire i K = n
  punctual : ∀ i v, C.asked i = [(v, 0)] → Punctual C.setup i v (hist es s i)

section

variable {es es' : List (Ev C.setup)} {s s' : St C.setup} {d d' : Deployment C}
  {i j : Fin C.setup.totalPeers} {pend pend' : Fin C.setup.totalPeers → List ℕ}
  {evs : List (DeploymentEvent C.setup.totalPeers)}

theorem lossless_start (C : Cluster B) : Lossless C.start [] (peerMachine C.setup).start fun _ => [] where
  kept j i n hn := absurd hn (Nat.not_lt_zero n)
  punctual i v _ h₁ w h₂ m hh _ := by simp [hist] at hh

theorem Mirrors.peer_id (h : Mirrors d es s pend) (hr : (peerMachine C.setup).Reach es s)
    (i : Fin C.setup.totalPeers) : (d.program i).process.peer.id = C.setup.pid i := by
  rw [← h.node, (node_outbox hr (h.honest i)).id]

theorem Mirrors.submits (h : Mirrors d es s pend) {v : Int32} (hv : C.asked i = [(v, 0)])
    (hdone : (d.program i).process.todo = []) : calls es i = [(v, 0)] ∧ Submits (hist es s i) v := by
  have hcalls := h.todo i
  rw [hdone, List.append_nil, hv] at hcalls
  refine ⟨hcalls, submits_hist.mpr ⟨0, ?_⟩⟩
  rw [hcalls]
  exact List.mem_singleton_self _

/-- A submit message that is processed in a smooth run comes behind the call. -/
theorem submits_of_reception (h : Mirrors d es s pend) (hr : (peerMachine C.setup).Reach es s)
    (hsmooth : d.smooth (.act i .handle) = true) {message : Bytes} {K : ℕ} {w : Item B}
    (htaken : (d.program i).parsing = .taken message) (hhead : Heads s.wire message K)
    (hw : s.wire[K]? = some (j, w)) {m : SubmitMsg B}
    (hd : decode B (C.setup.pid i) w.bytes = .ok (.submit m)) {v : Int32}
    (hv : C.asked i = [(v, 0)]) : Submits (hist es s i) v := by
  obtain ⟨j', w', rest, hw', rfl⟩ := hhead
  cases hw.symm.trans hw'
  have hcomplete := (posted_of_wire hr (h.honest j) (List.mem_of_getElem? hw)).complete
  have htakes : (d.program i).takesSubmit = true := by
    rw [Program.takesSubmit, htaken, h.peer_id hr i]
    show (decode B (C.setup.pid i) (w.bytes ++ rest)).toOption.any _ = true
    rw [decode_append hcomplete, hd]
    rfl
  have hdone : (d.program i).process.todo = [] := by
    have hor := hsmooth
    rw [Deployment.smooth, htakes] at hor
    simpa using hor
  exact (h.submits hv hdone).2

theorem Lossless.act (hl : Lossless d es s pend) (h : Mirrors d es s pend)
    (hr : (peerMachine C.setup).Reach es s) {e : ProgramEvent} (hsmooth : d.smooth (.act i e) = true)
    (hr' : (peerMachine C.setup).Reach (es ++ es') s') (hstands : StandsFor d s i e es')
    (hgot : ∀ k, got (es ++ es') k ++ pend' k = got es k ++ pend k) (p : Program B) :
    Lossless (d.setProgram i p) (es ++ es') s' pend' where
  kept j k n hn := by
    obtain ⟨K, hK, w, hw, hrank⟩ := hl.kept j k n hn
    have hlt := h.valid j K hK
    obtain ⟨l, hl⟩ := wire_prefix_of_run (hr.run_of_append hr')
    refine ⟨K, hgot j ▸ hK, w, ?_, ?_⟩
    · rw [← hl, List.getElem?_append_left hlt]
      exact hw
    · rw [← hl, rank_append hlt.le]
      exact hrank
  punctual k v hv := by
    rw [hist_append hr hr']
    cases hstands with
    | nothing =>
      rw [show hist ([] : List (Ev C.setup)) s' k = [] from rfl, List.append_nil]
      exact hl.punctual k v hv
    | call a =>
      by_cases hk : i = k
      · rw [show hist [Event.act i a] s' k = [.inl a] by simp [hist, Event.toLocal, hk]]
        exact (hl.punctual k v hv).snoc fun w m hw => by cases hw
      · rw [show hist [Event.act i a] s' k = [] by simp [hist, Event.toLocal, hk], List.append_nil]
        exact hl.punctual k v hv
    | reception K message he htaken hhead =>
      subst he
      by_cases hk : i = k
      · subst hk
        obtain ⟨j, w, rest, hw, -⟩ := id hhead
        obtain ⟨l, hl'⟩ := wire_prefix_of_run (hr.run_of_append hr')
        have hw' : s'.wire[K]? = some (j, w) := by
          rw [← hl', List.getElem?_append_left (List.getElem?_eq_some_iff.mp hw).1]
          exact hw
        rw [show hist [Event.recv i K] s' i = [.inr w] by simp [hist, Event.toLocal, hw']]
        refine (hl.punctual i v hv).snoc fun w' m hx hd => ?_
        cases hx
        exact submits_of_reception h hr hsmooth htaken hhead hw hd hv
      · rw [show hist [Event.recv i K] s' k = [] by simp [hist, Event.toLocal, hk], List.append_nil]
        exact hl.punctual k v hv

theorem Lossless.step (hl : Lossless d es s pend) (h : Mirrors d es s pend)
    (hr : (peerMachine C.setup).Reach es s) {e : DeploymentEvent C.setup.totalPeers}
    (hs : d.smoothStep e = some d') :
    ∃ es' s' pend', (peerMachine C.setup).Reach es' s' ∧ Mirrors d' es' s' pend' ∧
      Lossless d' es' s' pend' := by
  obtain ⟨hsmooth, hs⟩ := guarded_eq_some.mp hs
  cases e with
  | act i e =>
    obtain ⟨p, hp, hm, rfl⟩ := Deployment.step_act hs
    obtain ⟨es', s', pend', hr', hstands, h', hgot⟩ := h.act hr hp hm
    exact ⟨es ++ es', s', pend', hr', h', hl.act h hr hsmooth hr' hstands hgot p⟩
  | deliver j i count =>
    obtain ⟨⟨hpos, hlen⟩, hs⟩ := Option.ite_none_right_eq_some.mp hs
    obtain ⟨p, hp, rfl⟩ := Option.map_eq_some_iff.mp hs
    obtain ⟨K, w, hK, hrank, h'⟩ := h.deliver hpos hlen hp
    refine ⟨es, s, _, hr, h', fun k l n hn => ?_, hl.punctual⟩
    have hcount : count = 1 := beq_iff_eq.mp hsmooth
    change n < (d.advance j i count).seen k l at hn
    rw [seen_advance, hcount] at hn
    have hmem : ∀ K', K' ∈ got es k ++ pend k →
        K' ∈ got es k ++ Function.update pend j (pend j ++ [K]) k := by
      intro K' hK'
      by_cases hk : k = j
      · subst hk
        rw [Function.update_self, ← List.append_assoc]
        exact List.mem_append_left _ hK'
      · rwa [Function.update_of_ne hk]
    by_cases hold : n < d.seen k l
    · obtain ⟨K', hK', w', hw', hrank'⟩ := hl.kept k l n hold
      exact ⟨K', hmem K' hK', w', hw', hrank'⟩
    · -- the post that was just handed over
      have hnew : k = j ∧ l = i := by
        by_contra hne
        rw [if_neg hne] at hn
        exact hold hn
      rw [if_pos hnew] at hn
      obtain ⟨rfl, rfl⟩ := hnew
      refine ⟨K, ?_, w, hK, by omega⟩
      rw [Function.update_self]
      simp
  | miss j i count => cases hsmooth

theorem smooth_run (hr : Run Deployment.smoothStep C.start evs d) :
    ∃ es s pend, (peerMachine C.setup).Reach es s ∧ Mirrors d es s pend ∧ Lossless d es s pend := by
  refine hr.invariant (I := fun _ d => ∃ es s pend, (peerMachine C.setup).Reach es s ∧
    Mirrors d es s pend ∧ Lossless d es s pend)
    ⟨[], _, _, .start, mirrors_start C, lossless_start C⟩ ?_
  rintro _ d e d' ⟨es, s, pend, hr, h, hl⟩ hs
  exact hl.step h hr hs

/-! ## Rest -/

theorem Lossless.received (hl : Lossless d es s pend) (h : Mirrors d es s pend) (hrest : d.AtRest)
    (j : Fin C.setup.totalPeers) {k : ℕ} {x : Fin C.setup.totalPeers × Item B}
    (hk : s.wire[k]? = some x) : Event.recv j k ∈ es := by
  obtain ⟨i, w⟩ := x
  have hlt : rank s.wire i k < d.seen j i := by
    have hsent := rank_lt_sent hk
    rwa [h.sent, List.length_map, ← hrest.seen j i] at hsent
  obtain ⟨K, hK, w', hw', hrank⟩ := hl.kept j i _ hlt
  have hnil : pend j = [] := by
    have hall := h.pending j
    have hempty : (d.program j).pending = [] := by
      rw [Program.pending, hrest.empty]
      exact ite_self _
    rw [hempty] at hall
    exact List.forall₂_nil_left_iff.mp hall
  rw [hnil, List.append_nil] at hK
  rw [← eq_of_rank_eq hw' hk hrank]
  exact mem_got.mp hK

theorem Mirrors.own (h : Mirrors d es s pend) (hr : (peerMachine C.setup).Reach es s)
    (i : Fin C.setup.totalPeers) : client ((d.program i).process.peer.id - 1) = .ok () := by
  rw [h.peer_id hr i, client_own, C.setup.pid_toInt]
  have hlt := i.isLt
  have hfew := C.few
  omega

theorem Mirrors.idle (h : Mirrors d es s pend) (hr : (peerMachine C.setup).Reach es s) {a : Call}
    (hnone : (peerAct (d.program i).process.globals (d.program i).process.peer a).bind
      (d.program i).settle = none) : (peerMachine C.setup).act (s.node i) a = none := by
  rw [h.globals, ← h.node] at hnone
  cases hact : peerAct C.setup.globals (s.node i) a with
  | none =>
    show (peerAct C.setup.globals (s.node i) a).map onWire = none
    rw [hact]
    rfl
  | some r =>
    have hown : client (r.1.id - 1) = .ok () := by
      rw [(peerAct_frame hact).1, h.node]
      exact h.own hr i
    rw [hact, Option.bind_some, settle_eq hown] at hnone
    cases hnone

theorem Lossless.halted (hl : Lossless d es s pend) (h : Mirrors d es s pend)
    (hr : (peerMachine C.setup).Reach es s) (hrest : d.AtRest) :
    (peerMachine C.setup).Halted (· ∉ (∅ : Finset _)) Call.isThread es s where
  drained j k x _ _ hk := Or.inl (hl.received h hrest j hk)
  idle i a _ ha := by
    cases a with
    | submit value dest => cases ha
    | leaveWaiting => exact h.idle hr (hrest.left i)
    | checkIfReady => exact h.idle hr (hrest.checked i)

/-- **The programs confirm.** When every configuration file asks for one submission of the same value, to all,
and the signatures verify, then whatever the threads do, once a smooth run has come to rest, every program
has counted every peer, has confirmed, has broadcast aggregate signatures over that value and no other, and
accuses nobody. -/
theorem deployment_confirms (hr : Run Deployment.smoothStep C.start evs d) (hrest : d.AtRest) {v : Int32}
    (hasked : ∀ i, C.asked i = [(v, 0)])
    (hverify : ∀ i j, ∃ m, decode B (C.setup.pid i) (serializeSubmit 0 (C.setup.submission j v)) =
      .ok (.submit m) ∧ shareVerify m = true) (i : Fin C.setup.totalPeers) :
    (∀ j, C.setup.pid j ∈ (d.program i).process.peer.ac.from) ∧
    (d.program i).process.peer.ac.confirm = true ∧
    (d.program i).process.peer.detectConflict = false ∧
    (∃ m, .aggSign 0 m ∈ (d.program i).posted) ∧
    ∀ dest m, .aggSign dest m ∈ (d.program i).posted → m.value = v := by
  obtain ⟨es, s, pend, hreach, h, hl⟩ := smooth_run hr
  have hcalls : ∀ i, calls es i = [(v, 0)] := fun i => (h.submits (hasked i) (hrest.called i)).1
  have hposted : ∀ {m}, m ∈ (d.program i).posted ↔ (i, Item.post m) ∈ s.wire := by
    intro m
    rw [← mem_sent, h.sent, List.mem_map]
    constructor
    · exact fun hm => ⟨m, hm, rfl⟩
    · rintro ⟨m', hm, heq⟩
      cases heq
      exact hm
  have hc : Convergent C.setup ∅ v es s :=
    { few := Nat.zero_le _
      code := h.honest
      once := fun i => (h.got_inOrder i).1
      atMost := fun i => by rw [hcalls i]
      live := fun i _ => hcalls i
      punctual := fun i _ => Or.inr (hl.punctual i v (hasked i))
      verifies := fun i j _ _ => hverify i j }
  have hconfirmed := hc.confirmed hreach (hl.halted h hreach hrest) (Finset.notMem_empty i)
  have hnode := h.node i
  refine ⟨fun j => ?_, ?_, ?_, ?_, fun dest m hm => hc.cert_value hreach (hposted.mp hm)⟩
  · rw [← hnode]
    exact hconfirmed.counted j (Finset.notMem_empty j)
  · rw [← hnode]
    exact hconfirmed.confirm
  · rw [← hnode]
    exact hconfirmed.quiet
  · obtain ⟨m, hm⟩ := hconfirmed.cert
    exact ⟨m, hposted.mpr hm⟩

end

/-- Two peers submit `5` to all. -/
def pairConfig (i : Fin 2) : Config := ⟨2, Int32.ofNat (i + 1), [5], [0]⟩

def pairCluster : Cluster plainBLS where
  setup := plainTwo
  file i := some (fileOf (pairConfig i))
  config := pairConfig
  read i := readConfig_fileOf (c := pairConfig i) rfl (by simp [pairConfig])
  totalPeers i := rfl
  id i := rfl
  gated := rfl
  few := by decide

/-- Both peers are handed the next post of each, and process it. -/
def oneRound : List (DeploymentEvent 2) :=
  [0, 1].flatMap fun j => oneString j 0 ++ oneString j 1

/-- The announcements, the `ECHO`s and the `READY`s; behind the gate the submit messages, and the aggregate
signatures. -/
def restingRun : List (DeploymentEvent 2) :=
  [0, 1].flatMap (fun j => [.act j .submit, .act j .testConflict]) ++ oneRound ++ oneRound ++ oneRound ++
  [0, 1].flatMap (fun j => [.act j .checkIfReady, .act j .leaveWaiting]) ++ oneRound ++ oneRound

theorem restingRun_isSome : (exec Deployment.smoothStep pairCluster.start restingRun).isSome := by
  decide +kernel

/-- The cluster behind this run. -/
def rested : Deployment pairCluster :=
  (exec Deployment.smoothStep pairCluster.start restingRun).get restingRun_isSome

theorem atRest_rested : rested.AtRest := by
  have hseen : ∀ j : Fin 2, rested.seen j 0 = (rested.program 0).posted.length ∧
      rested.seen j 1 = (rested.program 1).posted.length := by decide +kernel
  have hdone : ∀ i : Fin 2, (rested.program i).recvRawMessage = [] ∧
      (rested.program i).process.todo = [] := by decide +kernel
  have hidle : ∀ i : Fin 2, ((rested.program i).step .leaveWaiting).isNone ∧
      ((rested.program i).step .checkIfReady).isNone := by decide +kernel
  exact
    { seen := fun j => Fin.forall_fin_two.mpr (hseen j)
      empty := fun i => (hdone i).1
      called := fun i => (hdone i).2
      left := fun i => Option.isNone_iff_eq_none.mp (hidle i).1
      checked := fun i => Option.isNone_iff_eq_none.mp (hidle i).2 }

theorem verifies_pairCluster (id : Int32) (j : Fin 2) : ∃ m,
    decode plainBLS id (serializeSubmit 0 (plainTwo.submission j 5)) = .ok (.submit m) ∧
      shareVerify m = true := by
  have hclean : ∀ j, Text.Clean 58 (plainBLS.blsSignatureSerialize (plainTwo.submission j 5).sig) ∧
      Text.Clean 58 (plainBLS.blsPublicKeySerialize (plainTwo.submission j 5).pub) := by decide +kernel
  refine ⟨_, decode_serializeSubmit_clean {} rfl (Or.inl rfl) (hclean j).1 (hclean j).2, ?_⟩
  revert j
  decide +kernel

theorem deployment_confirms_rested : (rested.program 1).process.peer.ac.confirm = true ∧
    ∃ m, .aggSign 0 m ∈ (rested.program 1).posted := by
  have hall := deployment_confirms (C := pairCluster) (v := 5) (run_get restingRun_isSome) atRest_rested
    (fun i => rfl) (fun i j => verifies_pairCluster _ j) 1
  exact ⟨hall.2.1, hall.2.2.2.1⟩

end Confirmer
