import Confirmer.Storm
import Confirmer.Confirm.Convergence
import Confirmer.Confirm.Detection
import Confirmer.Broadcast.Totality

/-!
# Every run comes to an end, and to its purpose

The threads of a peer go on as long as they can: the receive thread while there are messages,
`CheckIfReady` until the gate opens, `BroadcastSubmitMessage` until its message is out.

* `Call.isThread`, `threads_local`: how often the waiting threads of a peer make a step.
* **`run_settles`**: whatever the threads do, and whoever has crashed, they come to a halt.
* `owed_local`: no `Submit` call is forgotten.
* `Convergent`: all peers but the crashed ones have submitted one value, and in time;
  **`everyone_confirms`**: then all of them confirm it, and nobody is accused.
-/

namespace Confirmer

open Text AsyncNet Quorum

variable {B : BLS} {S : Setup B} {i : Fin S.totalPeers}

/-! ## The steps of the threads -/

/-- Is it a step of a thread that waits? -/
def Call.isThread : Call → Bool
  | .submit _ _ => false
  | _ => true

/-- The steps of the threads that wait, of a history. -/
def threadSteps (h : Hist B) : ℕ := h.countP (Sum.elim Call.isThread fun _ => false)

section

variable {h : Hist B} {t t' : Peer B} {o out : List (Item B)} {x : Call ⊕ Item B}

theorem dispatch_delivered (G : Globals) (p : Peer B) (m : RBMessage) :
    (dispatch G p m).1.rb.delivered = p.rb.delivered := by
  by_cases h₁ : m.type = MessageType.send.toInt32
  · rw [dispatch_send h₁]
  by_cases h₂ : m.type = MessageType.echo.toInt32
  · rw [dispatch_echo h₂]
  by_cases h₃ : m.type = MessageType.ready.toInt32
  · rw [dispatch_ready h₃]
  rw [dispatch_other h₁ h₂ h₃]

theorem PeerStep.threadSteps_le (hs : PeerStep S t x t' out) :
    threadSteps [x] + t'.waiting.isSome.toNat + t.rb.delivered.toNat ≤
      submissions [x] + t.waiting.isSome.toNat + t'.rb.delivered.toNat := by
  cases hs with
  | submitDirect v d hw hb => exact Nat.add_le_add_right (Nat.add_le_add_right (Nat.zero_le _) _) _
  | submitGated v d hw hb =>
    rw [hw]
    exact Nat.le_refl _
  | leaveWaiting m hm hd =>
    rw [hm]
    exact Nat.le_refl _
  | checkIfReady hq hd =>
    rw [hd]
    show 1 + t.waiting.isSome.toNat + 0 ≤ 0 + t.waiting.isSome.toNat + 1
    omega
  | deliver w m hd =>
    obtain ⟨rb, hrb⟩ := dispatch_frame (G := S.globals) (p := t) (m := m)
    rw [dispatch_delivered, hrb]
    exact Nat.le_refl _
  | accept w m hd ha hq => exact Nat.le_refl _
  | confirm w m hd ha hq => exact Nat.le_refl _
  | reject w m hd ha => exact Nat.le_refl _
  | obtain w m hd =>
    rw [checkRecvAggSignature_eq]
    exact Nat.le_refl _
  | ignore w hd => exact Nat.le_refl _

theorem threads_local (hl : (peerMachine S).Local ((peerMachine S).init i) h t o) :
    threadSteps h + t.waiting.isSome.toNat ≤ submissions h + t.rb.delivered.toNat := by
  induction hl with
  | nil => exact Nat.le_refl _
  | snoc hl hs ih =>
    have hstep := (peerStep hs).threadSteps_le
    rw [submissions_append, threadSteps, List.countP_append]
    rw [threadSteps] at ih hstep
    omega

/-- A step puts the waiting message on the wire, or leaves it waiting; what is submitted in the step goes one
of these two ways. -/
theorem PeerStep.owed (hi : Outbox S i h t o) (hs : PeerStep S t x t' out) :
    (∀ m, t.waiting = some m → Item.post m ∈ out ∨ t'.waiting = some m) ∧
    ∀ v d, x = .inl (.submit v d) → Item.post (.submit d (S.submission i v)) ∈ out ∨
      t'.waiting = some (.submit d (S.submission i v)) := by
  cases hs with
  | submitDirect v d hw hb =>
    refine ⟨fun m hm => Or.inr hm, fun v' d' hx => ?_⟩
    cases hx
    rw [hi.submission]
    exact Or.inl (List.mem_singleton_self _)
  | submitGated v d hw hb =>
    refine ⟨fun m hm => absurd (hw.symm.trans hm) (Option.some_ne_none m).symm, fun v' d' hx => ?_⟩
    cases hx
    rw [hi.submission]
    exact Or.inr rfl
  | leaveWaiting m hm hd =>
    refine ⟨fun m' hm' => ?_, by simp⟩
    cases hm.symm.trans hm'
    exact Or.inl (List.mem_singleton_self _)
  | checkIfReady hq hd => exact ⟨fun m hm => Or.inr hm, by simp⟩
  | deliver w m hd =>
    obtain ⟨rb, hrb⟩ := dispatch_frame (G := S.globals) (p := t) (m := m)
    exact ⟨fun m hm => Or.inr (by rw [hrb]; exact hm), by simp⟩
  | accept w m hd ha hq => exact ⟨fun m hm => Or.inr hm, by simp⟩
  | confirm w m hd ha hq => exact ⟨fun m hm => Or.inr hm, by simp⟩
  | reject w m hd ha => exact ⟨fun m hm => Or.inr hm, by simp⟩
  | obtain w m hd =>
    rw [checkRecvAggSignature_eq]
    exact ⟨fun m hm => Or.inr hm, by simp⟩
  | ignore w hd => exact ⟨fun m hm => Or.inr hm, by simp⟩

/-- **No `Submit` call is forgotten**: its message is out, or waits for the gate. -/
theorem owed_local (hl : (peerMachine S).Local ((peerMachine S).init i) h t o) {v d : Int32}
    (hv : Sum.inl (.submit v d) ∈ h) :
    Item.post (.submit d (S.submission i v)) ∈ o ∨ t.waiting = some (.submit d (S.submission i v)) := by
  induction hl with
  | nil => cases hv
  | @snoc h t o x t' out hl hs ih =>
    obtain ⟨hkeep, hnew⟩ := (peerStep hs).owed (outbox_local hl)
    rcases List.mem_append.mp hv with hv | hv
    · rcases ih hv with ho | hw
      · exact Or.inl (List.mem_append_left _ ho)
      · exact (hkeep _ hw).imp_left (List.mem_append_right _)
    · exact (hnew v d (List.mem_singleton.mp hv).symm).imp_left (List.mem_append_right _)

end

/-! ## Rest -/

section

variable {C : Finset (Fin S.totalPeers)} {es es' : List (Ev S)} {s s' : St S}

theorem calls_proceeds {L : Fin S.totalPeers → Prop}
    (h : (peerMachine S).Proceeds L Call.isThread es es' s') (i : Fin S.totalPeers) :
    calls (es ++ es') i = calls es i := by
  have hnil : calls es' i = [] := by
    rw [calls, List.filterMap_eq_nil_iff]
    intro e he
    cases h.internal e he with
    | recv k hi => rfl
    | @act j a hi ha =>
      cases a with
      | submit v d => cases ha
      | leaveWaiting => rfl
      | checkIfReady => rfl
  rw [calls, List.filterMap_append]
  exact (congrArg (calls es i ++ ·) hnil).trans (List.append_nil _)

theorem honest_proceeds {L : Fin S.totalPeers → Prop}
    (h : (peerMachine S).Proceeds L Call.isThread es es' s') (hi : Honest es i) :
    Honest (es ++ es') i := by
  intro w hw
  rcases List.mem_append.mp hw with hw | hw
  · exact hi w hw
  · cases h.internal _ hw

theorem countP_isThread_le (hr : (peerMachine S).Reach es s) (hcode : ∀ j, Honest es j) :
    es.countP (Event.isAct Call.isThread) ≤ submitCalls es + S.totalPeers := by
  rw [countP_isAct Call.isThread es s]
  have hone : ∀ j, threadSteps (hist es s j) ≤ (calls es j).length + 1 := by
    intro j
    have hle := threads_local (hr.hist_local (hcode j))
    have hbool := Bool.toNat_le (s.node j).rb.delivered
    rw [submissions_hist] at hle
    omega
  refine (Finset.sum_le_sum fun j _ => hone j).trans (le_of_eq ?_)
  rw [Finset.sum_add_distrib, Finset.sum_const_nat fun _ _ => rfl, Finset.card_univ, Fintype.card_fin,
    mul_one]
  rfl

/-- A bound on the steps of a run with `k` calls of `Submit`. -/
def Setup.maxSteps (S : Setup B) (k : ℕ) : ℕ :=
  S.totalPeers * S.maxPosts k + (k + S.totalPeers)

theorem length_proceeds_le {L : Fin S.totalPeers → Prop} (hcode : ∀ j, Honest es j)
    (h : (peerMachine S).Proceeds L Call.isThread es es' s') :
    es'.length ≤ S.maxSteps (submitCalls es) := by
  have hcode' : ∀ j, Honest (es ++ es') j := fun j => honest_proceeds h (hcode j)
  have hcalls : submitCalls (es ++ es') = submitCalls es :=
    Finset.sum_congr rfl fun j _ => congrArg List.length (calls_proceeds h j)
  have hwire := wire_length_le h.reach hcode'
  have hthreads := countP_isThread_le h.reach hcode'
  rw [hcalls] at hwire hthreads
  have hlen := h.length_le hwire hthreads
  rwa [Fintype.card_fin] at hlen

/-- **Every run comes to an end.** When all peers run the code and process every post at most once, then
whoever has crashed, and in whatever order the others receive and their threads make their steps, there is
a bound on how long they go on; and they can always go on to a halt. -/
theorem run_settles (hr : (peerMachine S).Reach es s) (hcode : ∀ j, Honest es j)
    (honce : ∀ i, (got es i).Nodup) (C : Finset (Fin S.totalPeers)) :
    (∀ es' s', (peerMachine S).Proceeds (· ∉ C) Call.isThread es es' s' →
      es'.length ≤ S.maxSteps (submitCalls es)) ∧
    ∃ es' s', (peerMachine S).Proceeds (· ∉ C) Call.isThread es es' s' ∧
      (peerMachine S).Halted (· ∉ C) Call.isThread (es ++ es') s' :=
  ⟨fun _ _ h => length_proceeds_le hcode h, exists_halted hr honce fun _ _ h => length_proceeds_le hcode h⟩

end

theorem run_settles_callRun : ∃ es' s',
    (peerMachine plainTwo).Proceeds (· ∉ (∅ : Finset _)) Call.isThread callRun es' s' ∧
    (peerMachine plainTwo).Halted (· ∉ (∅ : Finset _)) Call.isThread (callRun ++ es') s' :=
  (run_settles (reach_get callRun_isSome) (by decide +kernel) (by decide +kernel) ∅).2

/-! ## Convergence -/

/-- No submit message was processed before the first `Submit` call with `v`. -/
def Punctual (S : Setup B) (i : Fin S.totalPeers) (v : Int32) (h : Hist B) : Prop :=
  ∀ h₁ w h₂ m, h = h₁ ++ Sum.inr w :: h₂ → decode B (S.pid i) w.bytes = .ok (.submit m) →
    Submits h₁ v

theorem Punctual.snoc {h : Hist B} {v : Int32} {x : Call ⊕ Item B} (hp : Punctual S i v h)
    (hx : ∀ w m, x = .inr w → decode B (S.pid i) w.bytes = .ok (.submit m) → Submits h v) :
    Punctual S i v (h ++ [x]) := by
  intro h₁ w h₂ m hh hd
  rcases List.eq_nil_or_concat h₂ with rfl | ⟨h₃, y, rfl⟩
  · obtain ⟨rfl, hxw⟩ := List.append_inj' hh rfl
    exact hx w m (List.singleton_inj.mp hxw) hd
  · rw [List.concat_eq_append, ← List.cons_append, ← List.append_assoc] at hh
    exact hp h₁ w h₃ m (List.append_inj' hh rfl).1 hd

/-- **A run in which all peers submit one value.** Everybody runs the code; the peers in `C` may have crashed
at any moment, and the others have all called `Submit` with `v`, and in time. Their signatures verify. -/
structure Convergent (S : Setup B) (C : Finset (Fin S.totalPeers)) (v : Int32) (es : List (Ev S))
    (s : St S) : Prop where
  few : C.card ≤ S.faulty
  code : ∀ i, Honest es i
  once : ∀ i, (got es i).Nodup
  atMost : ∀ i, calls es i <+: [(v, 0)]
  live : ∀ i, i ∉ C → calls es i = [(v, 0)]
  punctual : ∀ i, i ∉ C → v = 0 ∨ Punctual S i v (hist es s i)
  verifies : ∀ i j, i ∉ C → j ∉ C → ∃ m,
    decode B (S.pid i) (serializeSubmit 0 (S.submission j v)) = .ok (.submit m) ∧
      shareVerify m = true

/-- **What a peer has come to**: its message is out, it has counted all live peers, has confirmed, and accuses
nobody. -/
structure Confirmed (S : Setup B) (C : Finset (Fin S.totalPeers)) (v : Int32) (s : St S)
    (i : Fin S.totalPeers) : Prop where
  waiting : (s.node i).waiting = none
  submitted : Submitted s i v
  counted : ∀ j, j ∉ C → S.pid j ∈ (s.node i).ac.from
  confirm : (s.node i).ac.confirm = true
  cert : ∃ a, (i, Item.post (.aggSign 0 a)) ∈ s.wire
  quiet : (s.node i).detectConflict = false

section

variable {C : Finset (Fin S.totalPeers)} {v : Int32} {es es' : List (Ev S)} {s s' : St S}
  {j : Fin S.totalPeers}

theorem Convergent.called (hc : Convergent S C v es s) {v' : Int32} (h : Called es i v') : v' = v := by
  obtain ⟨d, hd⟩ := h
  have hmem := List.mem_singleton.mp ((hc.atMost i).subset hd)
  rw [Prod.mk.injEq] at hmem
  exact hmem.1

theorem Convergent.submits (hc : Convergent S C v es s) (hi : i ∉ C) :
    Sum.inl (.submit v 0) ∈ hist es s i := by
  rw [mem_hist_act, ← mem_calls, hc.live i hi]
  exact List.mem_singleton_self _

theorem Convergent.proceeds (hr : (peerMachine S).Reach es s) (hc : Convergent S C v es s)
    (h : (peerMachine S).Proceeds (· ∉ C) Call.isThread es es' s') :
    Convergent S C v (es ++ es') s' where
  few := hc.few
  code i := honest_proceeds h (hc.code i)
  once := h.once
  atMost i := by
    rw [calls_proceeds h]
    exact hc.atMost i
  live i hi := by
    rw [calls_proceeds h]
    exact hc.live i hi
  punctual i hi := by
    refine (hc.punctual i hi).imp_right fun hp h₁ w h₂ m hh hd => ?_
    have hsub : Submits (hist es s i) v := ⟨0, hc.submits hi⟩
    rw [hist_append hr h.reach] at hh
    rcases List.append_eq_append_iff.mp hh with ⟨l, rfl, -⟩ | ⟨l, hl, hl'⟩
    · exact hsub.append l
    · cases l with
      | nil =>
        rw [List.append_nil] at hl
        exact hl ▸ hsub
      | cons x l =>
        obtain ⟨rfl, -⟩ := List.cons.inj hl'
        exact hp h₁ w l m hl hd
  verifies := hc.verifies

theorem Convergent.cert_value (hr : (peerMachine S).Reach es s) (hc : Convergent S C v es s) {d : Int32}
    {a : SubmitAggSign B} (ha : (j, Item.post (.aggSign d a)) ∈ s.wire) : a.value = v := by
  have hF : OneSubmission S ∅ es :=
    { few := Nat.zero_le _
      honest := fun i _ => hc.code i
      once := fun i _ => ⟨v, hc.atMost i⟩ }
  have hent := fun m => entry_called hr (hc.code j) (fun j w hw => absurd hw (hc.code j w)) (m := m)
  obtain ⟨Q, hQ, hcalled⟩ := genuine_of_cert hr hF (Finset.notMem_empty j)
    (fun m hm h0 v' hv' => by
      obtain ⟨k, -, hk⟩ := hent m hm
      rw [hc.called hv', ← hc.called hk, h0])
    (fun m hm => by
      obtain ⟨k, hp, hk⟩ := hent m hm
      exact ⟨k, hp, Or.inr hk⟩) ha
  have hpos := S.confirmQuorum_pos
  rw [S.confirmQuorum_eq] at hpos
  obtain ⟨k, hk⟩ := Finset.card_pos.mp (hpos.trans_le hQ)
  exact hc.called (hcalled k hk (Finset.notMem_empty k))

theorem Convergent.quiet (hr : (peerMachine S).Reach es s) (hc : Convergent S C v es s)
    (i : Fin S.totalPeers) : (s.node i).detectConflict = false := by
  rw [← Bool.not_eq_true]
  intro hdetect
  obtain ⟨a, ha, b, hb, hne⟩ := (verdict_local (hr.hist_local (hc.code i))).conflict hdetect
  obtain ⟨j, d, m, hm, hval⟩ := obtained_wire hr hc.code ha
  obtain ⟨j', d', m', hm', hval'⟩ := obtained_wire hr hc.code hb
  apply hne
  rw [hval, hval', hc.cert_value hr hm, hc.cert_value hr hm']

/-- A peer that has come to a halt has processed what it can read of the live peers. -/
theorem received_of_halted (hr : (peerMachine S).Reach es s) (hcode : Honest es i)
    (hh : (peerMachine S).Halted (· ∉ C) Call.isThread es s) (hi : i ∉ C) (hj : j ∉ C) {k : ℕ}
    {w : Item B} (hk : s.wire[k]? = some (j, w)) {inc : Incoming B}
    (hd : decode B (S.pid i) w.bytes = .ok inc) : Event.recv i k ∈ es := by
  refine (hh.drained i k (j, w) hi hj hk).resolve_right fun hnone => ?_
  rw [← (node_outbox hr hcode).id] at hd
  obtain ⟨r, hstep⟩ := exists_localStep (S := S) hd
  have hrecv : (peerMachine S).recv (s.node i) w = some r := hstep
  simp [Machine.step, hk, hrecv] at hnone

theorem Convergent.settled (hr : (peerMachine S).Reach es s) (hc : Convergent S C v es s)
    (hh : (peerMachine S).Halted (· ∉ C) Call.isThread es s) : Settled S C es s where
  code := hc.code
  few := hc.few
  once i _ := hc.once i
  all i j hi hj k w hk hw := by
    obtain ⟨m, hm⟩ := Option.isSome_iff_exists.mp hw
    exact received_of_halted hr (hc.code i) hh hi hj hk (decode_rb_iff.mpr hm)
  checked i hi := by
    have hidle := hh.idle i .checkIfReady hi rfl
    simpa [peerMachine, peerAct] using hidle

/-- **At a halt no live peer waits for the gate**: its own `SEND` has opened it. -/
theorem Convergent.waiting (hr : (peerMachine S).Reach es s) (hc : Convergent S C v es s)
    (hh : (peerMachine S).Halted (· ∉ C) Call.isThread es s) (hi : i ∉ C) :
    (s.node i).waiting = none := by
  rw [Option.eq_none_iff_forall_ne_some]
  intro m hm
  have hset := hc.settled hr hh
  obtain ⟨u, d, -, -, hsend⟩ := (node_outbox hr (hc.code i)).waiting m hm
  have hs : i ∈ senders s.wire (isType .send) := by
    refine mem_senders.mpr ⟨_, mem_sent.mp hsend, ?_⟩
    rw [isType_posted (posted_of_wire hr (hc.code i) (mem_sent.mp hsend))]
    rfl
  have hecho : ∀ k, k ∉ C → (s.node k).rb.sentecho = true := fun k hk => hset.sentecho hr hk hi hs
  have hdelivered := hset.delivered hr (fun k hk => hset.sentready hr hecho hk) hi
  have hidle := hh.idle i .leaveWaiting hi rfl
  have hleave := leaveWaiting_eq_some.mpr ⟨m, hm, hdelivered, rfl⟩
  simp [peerMachine, peerAct, hleave] at hidle

theorem Convergent.submitted (hr : (peerMachine S).Reach es s) (hc : Convergent S C v es s)
    (hh : (peerMachine S).Halted (· ∉ C) Call.isThread es s) (hi : i ∉ C) : Submitted s i v := by
  rcases owed_local (hr.hist_local (hc.code i)) (hc.submits hi) with ho | hw
  · exact mem_sent.mp ho
  · rw [hc.waiting hr hh hi] at hw
    cases hw

theorem Convergent.counted (hr : (peerMachine S).Reach es s) (hc : Convergent S C v es s)
    (hh : (peerMachine S).Halted (· ∉ C) Call.isThread es s) (hi : i ∉ C) (hj : j ∉ C) :
    S.pid j ∈ (s.node i).ac.from := by
  obtain ⟨m, hd, hverify⟩ := hc.verifies i j hi hj
  have hread : m.pid = S.pid j ∧ m.value = v := by
    rcases decode_serializeSubmit rfl hd with h | ⟨m', h, hp, hval⟩
    · cases h
    · cases h
      exact ⟨hp, hval⟩
  obtain ⟨k, hk⟩ := List.mem_iff_getElem?.mp (hc.submitted hr hh hj)
  have hrecv := received_of_halted hr (hc.code i) hh hi hj hk hd
  obtain ⟨h₁, h₂, hhist⟩ := List.append_of_mem (mem_hist_recv.mpr ⟨j, k, hrecv, hk⟩)
  rw [← hread.1]
  refine complete_local (hr.hist_local (hc.code i)) ?_ hhist hd hverify hread.2 ?_
  · exact fun v' hv' => hc.called (submits_hist.mp hv')
  · exact (hc.punctual i hi).symm.imp_left fun hp => hp h₁ _ h₂ m hhist hd

/-- **At a halt every live peer has confirmed.** -/
theorem Convergent.confirmed (hr : (peerMachine S).Reach es s) (hc : Convergent S C v es s)
    (hh : (peerMachine S).Halted (· ∉ C) Call.isThread es s) (hi : i ∉ C) : Confirmed S C v s i := by
  have hcounted : ∀ j, j ∉ C → S.pid j ∈ (s.node i).ac.from := fun j hj => hc.counted hr hh hi hj
  have hconfirm : (s.node i).ac.confirm = true := by
    rw [(node_store hr (hc.code i)).confirm, S.confirmQuorum_eq]
    have hcard := card_sdiff_ge Finset.univ C
    have hfew := hc.few
    rw [Finset.card_univ, Fintype.card_fin] at hcard
    refine le_trans ?_ (card_le_length S.pid_injective (Q := Finset.univ \ C) fun j hj =>
      hcounted j (Finset.mem_sdiff.mp hj).2)
    omega
  exact
    { waiting := hc.waiting hr hh hi
      submitted := hc.submitted hr hh hi
      counted := hcounted
      confirm := hconfirm
      cert := exists_cert hr (hc.code i) hconfirm
      quiet := hc.quiet hr i }

end

/-- Three of four peers submit. -/
def threeSubmits : List (Ev plainFour) :=
  [.act 0 (.submit 5 0), .act 1 (.submit 5 0), .act 2 (.submit 5 0)]

theorem threeSubmits_isSome : ((peerMachine _).run (peerMachine _).start threeSubmits).isSome := by
  decide +kernel

theorem convergent_threeSubmits :
    Convergent _ {3} 5 threeSubmits (((peerMachine _).run _ threeSubmits).get threeSubmits_isSome) where
  few := by decide
  code := by decide +kernel
  once := by decide +kernel
  atMost := by decide +kernel
  live := by decide +kernel
  punctual i _ := Or.inr fun h₁ w h₂ m hh _ => by
    have hmem : Sum.inr w ∈ hist threeSubmits _ i := hh ▸ List.mem_append_right _ List.mem_cons_self
    obtain ⟨j, k, hrecv, -⟩ := mem_hist_recv.mp hmem
    simp [threeSubmits] at hrecv
  verifies _ j _ _ := by
    have hclean : ∀ j, Clean 58 (plainBLS.blsSignatureSerialize (plainFour.submission j 5).sig) ∧
        Clean 58 (plainBLS.blsPublicKeySerialize (plainFour.submission j 5).pub) := by decide +kernel
    refine ⟨_, decode_serializeSubmit_clean {} rfl (Or.inl rfl) (hclean j).1 (hclean j).2, ?_⟩
    revert j
    decide +kernel

end Confirmer
