import Confirmer.Run

/-!
# One step of a peer

* `submit_direct`, `submit_gated`, `submitMsgVerify_eq`, `checkRecvMsg_eq`: the handlers of the
  confirmer in one equation each.
* `dispatch_send`, `dispatch_echo`, `dispatch_ready`, `dispatch_other`, `dispatch_frame`,
  `mem_dispatch`: a delivery of the reliable broadcast.
* **`PeerStep`**: everything a peer can do in one step; `peerStep`. `peerAct_frame`: what a call leaves
  alone.
* **`EntryStep`**, `PeerStep.entry`, `PeerStep.verdict`: what a step does to the entries of the
  confirmer, and to its verdict.
-/

namespace Confirmer

open Text AsyncNet

variable {B : BLS} {G : Globals} {p : Peer B}

/-! ## The handlers of the confirmer -/

/-- The message of a `Submit` call. -/
def Peer.submission (p : Peer B) (value : Int32) : SubmitMsg B :=
  ⟨MessageType.submit, p.id, value, B.blsSign p.keyPair.sec (decInt value.toInt), p.keyPair.pub⟩

/-- The peer after a `Submit` call, up to the waiting loop. -/
def Peer.submitted (p : Peer B) (value : Int32) : Peer B :=
  { p with msg := p.submission value, ac := { p.ac with value := value } }

/-- The `SEND` that announces a submission. -/
def Peer.announcement (p : Peer B) (value dest : Int32) : RBMessage :=
  ⟨MessageType.send, p.id, serializeSubmit dest (p.submission value)⟩

theorem broadcastSubmitMessage_direct (h : p.isReliableBroadcast = 0) (dest : Int32) :
    broadcastSubmitMessage p dest = (p, [.submit dest p.msg]) := by
  rw [broadcastSubmitMessage, if_neg (not_not.mpr h)]

theorem broadcastSubmitMessage_gated (h : p.isReliableBroadcast ≠ 0) (dest : Int32) :
    broadcastSubmitMessage p dest = ({ p with
      rbMsg := ⟨MessageType.send, p.id, serializeSubmit dest p.msg⟩
      waiting := some (.submit dest p.msg) },
      [.rb ⟨MessageType.send, p.id, serializeSubmit dest p.msg⟩]) := by
  rw [broadcastSubmitMessage, if_pos h, broadcastSend, if_neg (fun hn => hn rfl)]
  rfl

theorem submit_direct (h : p.isReliableBroadcast = 0) (value dest : Int32) :
    submit p value dest = (p.submitted value, [.submit dest (p.submission value)]) :=
  broadcastSubmitMessage_direct (p := p.submitted value) h dest

theorem submit_gated (h : p.isReliableBroadcast ≠ 0) (value dest : Int32) :
    submit p value dest = ({ p.submitted value with
      rbMsg := p.announcement value dest
      waiting := some (.submit dest (p.submission value)) },
      [.rb (p.announcement value dest)]) :=
  broadcastSubmitMessage_gated (p := p.submitted value) h dest

/-- The peer with a submit message recorded. -/
def Peer.accept (p : Peer B) (m : SubmitMsg B) : Peer B :=
  { p with ac := { p.ac with
    «from» := p.ac.from ++ [m.pid]
    partialSignature := p.ac.partialSignature ++ [m] } }

/-- The tests that a submit message has to pass. -/
def Peer.Accepts (p : Peer B) (m : SubmitMsg B) : Prop :=
  shareVerify m = true ∧ p.ac.value = m.value ∧ m.pid ∉ p.ac.from

instance (p : Peer B) (m : SubmitMsg B) : Decidable (p.Accepts m) :=
  inferInstanceAs (Decidable (_ ∧ _))

theorem submitMsgVerify_eq (G : Globals) (p : Peer B) (m : SubmitMsg B) :
    submitMsgVerify G p m = if p.Accepts m then checkRecvMsg G (p.accept m) else (p, []) := by
  unfold submitMsgVerify Peer.Accepts findPid
  by_cases h₁ : shareVerify m = true <;> by_cases h₂ : p.ac.value = m.value <;>
    by_cases h₃ : m.pid ∈ p.ac.from <;> simp [h₁, h₂, h₃, Peer.accept]

/-- The aggregate-signature message of a confirmation. -/
def Peer.certificate (p : Peer B) : SubmitAggSign B := (generateAggSignature p).aggSignMsg

/-- The peer behind `Confirm`. -/
def Peer.confirmed (p : Peer B) : Peer B :=
  { p with ac := { p.ac with confirm := true }, aggSignMsg := p.certificate }

theorem checkRecvMsg_eq (G : Globals) (p : Peer B) :
    checkRecvMsg G p = if G.confirmQuorum ≤ p.ac.from.length
      then (p.confirmed, [.aggSign 0 p.certificate]) else (p, []) := rfl

theorem length_accept (p : Peer B) (m : SubmitMsg B) :
    (p.accept m).ac.from.length = p.ac.from.length + 1 := by
  simp [Peer.accept]

theorem submitMsgVerify_accepts {G : Globals} {p : Peer B} {m : SubmitMsg B} (ha : p.Accepts m) :
    submitMsgVerify G p m = if G.confirmQuorum ≤ p.ac.from.length + 1
      then ((p.accept m).confirmed, [.aggSign 0 (p.accept m).certificate]) else (p.accept m, []) := by
  rw [submitMsgVerify_eq, if_pos ha, checkRecvMsg_eq, length_accept]

/-- The peer with an aggregate signature recorded, before any comparison. -/
def Peer.obtain (p : Peer B) (m : SubmitAggSign B) : Peer B :=
  { p with ac := { p.ac with obtainedAggSignature := p.ac.obtainedAggSignature ++ [m] } }

/-- Does an entry differ from the first one? -/
def conflicting : List (SubmitAggSign B) → Bool
  | [] => false
  | tmp :: rest => rest.any fun e => !e.eqv tmp

theorem checkRecvAggSignature_eq (p : Peer B) :
    checkRecvAggSignature p = { p with
      detectConflict := p.detectConflict ||
        (p.ac.confirm && conflicting p.ac.obtainedAggSignature) } := by
  have hc : p = { p with detectConflict := p.detectConflict } := rfl
  unfold checkRecvAggSignature detectConflictAggSignature
  cases ho : p.ac.obtainedAggSignature with
  | nil => simp [conflicting]
  | cons tmp rest =>
    have hany : (rest.any fun e => !e.eqv tmp && p.ac.confirm) =
        (p.ac.confirm && conflicting (tmp :: rest)) := by
      cases p.ac.confirm <;> simp [conflicting]
    simp only [hany]
    cases hb : p.ac.confirm && conflicting (tmp :: rest) with
    | false => simp
    | true =>
      have hlen : 2 ≤ (tmp :: rest).length := by
        cases rest with
        | nil => simp [conflicting] at hb
        | cons e rest => simp
      rw [if_pos hlen, if_pos rfl, Bool.or_true]

/-- Comparing with the first entry finds every difference. -/
theorem conflicting_iff {l : List (SubmitAggSign B)} :
    conflicting l = true ↔ ∃ a ∈ l, ∃ b ∈ l, a.value ≠ b.value := by
  cases l with
  | nil => simp [conflicting]
  | cons tmp rest =>
    simp only [conflicting, List.any_eq_true, SubmitAggSign.eqv, Bool.not_eq_true',
      beq_eq_false_iff_ne]
    constructor
    · rintro ⟨e, he, hne⟩
      exact ⟨e, List.mem_cons_of_mem _ he, tmp, List.mem_cons_self, hne⟩
    · rintro ⟨a, ha, b, hb, hne⟩
      by_cases hat : a.value = tmp.value
      · rcases List.mem_cons.mp hb with rfl | hb
        · exact absurd hat hne
        · exact ⟨b, hb, fun h => hne (hat.trans h.symm)⟩
      · rcases List.mem_cons.mp ha with rfl | ha
        · exact absurd rfl hat
        · exact ⟨a, ha, hat⟩

/-! ## The handlers of the reliable broadcast -/

@[simp] theorem MessageType.toInt32_inj {a b : MessageType} : a.toInt32 = b.toInt32 ↔ a = b := by
  cases a <;> cases b <;> decide

/-- Is the message of type `t`? -/
def RBMessage.is (t : MessageType) (m : RBMessage) : Bool := m.type == t.toInt32

@[simp] theorem RBMessage.is_iff {t : MessageType} {m : RBMessage} :
    m.is t = true ↔ m.type = t.toInt32 := beq_iff_eq

/-- The message with the type changed. -/
def RBMessage.as (t : MessageType) (m : RBMessage) : RBMessage := { m with type := t.toInt32 }

@[simp] theorem RBMessage.as_type (t : MessageType) (m : RBMessage) : (m.as t).type = t.toInt32 := rfl

section

variable {m : RBMessage}

theorem dispatch_send (hm : m.type = MessageType.send.toInt32) :
    dispatch G p m = ({ p with rb := { p.rb with sentecho := true } },
      if p.rb.sentecho = true then [] else [.rb (m.as .echo)]) := by
  rw [dispatch, if_pos hm, deliverSend]
  split_ifs with h
  · rw [← h]
  · rfl

theorem dispatch_echo (hm : m.type = MessageType.echo.toInt32) :
    dispatch G p m = ({ p with rb := { p.rb with
        echos := p.rb.echos ++ [m.as .ready]
        sentready := p.rb.sentready || decide (G.echoQuorum ≤ p.rb.echos.length + 1) } },
      if p.rb.sentready = true ∨ p.rb.echos.length + 1 < G.echoQuorum then []
      else [.rb (m.as .ready)]) := by
  rw [dispatch, if_neg (by simp [hm]), if_pos hm, deliverEcho]
  simp only [List.length_append, List.length_singleton]
  by_cases hq : p.rb.echos.length + 1 < G.echoQuorum
  · rw [if_pos hq, if_pos (Or.inr hq), decide_eq_false (not_le.mpr hq), Bool.or_false]
    rfl
  · by_cases hr : p.rb.sentready = true
    · rw [if_neg hq, if_pos hr, if_pos (Or.inl hr), hr, Bool.true_or, ← hr]
      rfl
    · rw [if_neg hq, if_neg hr, if_neg (not_or.mpr ⟨hr, hq⟩), decide_eq_true (not_lt.mp hq),
        Bool.or_true]
      rfl

theorem dispatch_ready (hm : m.type = MessageType.ready.toInt32) :
    dispatch G p m = ({ p with rb := { p.rb with
        readys := p.rb.readys ++ [m]
        sentready := p.rb.sentready || decide (G.readyQuorum < p.rb.readys.length + 1) } },
      if p.rb.sentready = true ∨ p.rb.readys.length + 1 ≤ G.readyQuorum then []
      else [.rb m]) := by
  rw [dispatch, if_neg (by simp [hm]), if_neg (by simp [hm]), if_pos hm, deliverReady]
  simp only [List.length_append, List.length_singleton]
  by_cases hq : p.rb.readys.length + 1 ≤ G.readyQuorum
  · rw [if_pos hq, if_pos (Or.inr hq), decide_eq_false (not_lt.mpr hq), Bool.or_false]
  · by_cases hr : p.rb.sentready = true
    · rw [if_neg hq, if_pos hr, if_pos (Or.inl hr), hr, Bool.true_or, ← hr]
    · rw [if_neg hq, if_neg hr, if_neg (not_or.mpr ⟨hr, hq⟩), decide_eq_true (not_le.mp hq),
        Bool.or_true]
      rfl

theorem dispatch_other (h₁ : m.type ≠ MessageType.send.toInt32)
    (h₂ : m.type ≠ MessageType.echo.toInt32) (h₃ : m.type ≠ MessageType.ready.toInt32) :
    dispatch G p m = (p, []) := by
  rw [dispatch, if_neg h₁, if_neg h₂, if_neg h₃]

/-- **A delivery touches nothing but the record of the broadcast.** -/
theorem dispatch_frame : ∃ rb, (dispatch G p m).1 = { p with rb := rb } := by
  by_cases h₁ : m.type = MessageType.send.toInt32
  · exact ⟨_, congrArg Prod.fst (dispatch_send h₁)⟩
  by_cases h₂ : m.type = MessageType.echo.toInt32
  · exact ⟨_, congrArg Prod.fst (dispatch_echo h₂)⟩
  by_cases h₃ : m.type = MessageType.ready.toInt32
  · exact ⟨_, congrArg Prod.fst (dispatch_ready h₃)⟩
  exact ⟨p.rb, congrArg Prod.fst (dispatch_other h₁ h₂ h₃)⟩

/-- **Why a delivery is answered.** -/
theorem mem_dispatch {w : Post B} (h : w ∈ (dispatch G p m).2) :
    (m.type = MessageType.send.toInt32 ∧ w = .rb (m.as .echo)) ∨
    (m.type = MessageType.echo.toInt32 ∧ w = .rb (m.as .ready) ∧
      G.echoQuorum ≤ p.rb.echos.length + 1) ∨
    (m.type = MessageType.ready.toInt32 ∧ w = .rb m ∧
      G.readyQuorum < p.rb.readys.length + 1) := by
  by_cases h₁ : m.type = MessageType.send.toInt32
  · rw [dispatch_send h₁] at h
    split_ifs at h with hs
    · cases h
    · exact Or.inl ⟨h₁, List.mem_singleton.mp h⟩
  by_cases h₂ : m.type = MessageType.echo.toInt32
  · rw [dispatch_echo h₂] at h
    split_ifs at h with hs
    · cases h
    · exact Or.inr (Or.inl ⟨h₂, List.mem_singleton.mp h, not_lt.mp (not_or.mp hs).2⟩)
  by_cases h₃ : m.type = MessageType.ready.toInt32
  · rw [dispatch_ready h₃] at h
    split_ifs at h with hs
    · cases h
    · exact Or.inr (Or.inr ⟨h₃, List.mem_singleton.mp h, not_le.mp (not_or.mp hs).2⟩)
  rw [dispatch_other h₁ h₂ h₃] at h
  cases h

theorem rb_of_mem_dispatch {w : Item B} (h : w ∈ (dispatch G p m).2.map .post) :
    ∃ m', w = .post (.rb m') := by
  obtain ⟨w', hw', rfl⟩ := List.mem_map.mp h
  rcases mem_dispatch hw' with ⟨-, rfl⟩ | ⟨-, rfl, -⟩ | ⟨-, rfl, -⟩ <;> exact ⟨_, rfl⟩

end

/-! ## Steps -/

variable (S : Setup B)

/-- **Everything a peer can do in one step.** -/
inductive PeerStep (t : Peer B) : Call ⊕ Item B → Peer B → List (Item B) → Prop
  | submitDirect (v d : Int32) : t.waiting = none → t.isReliableBroadcast = 0 →
      PeerStep t (.inl (.submit v d)) (t.submitted v) [.post (.submit d (t.submission v))]
  | submitGated (v d : Int32) : t.waiting = none → t.isReliableBroadcast ≠ 0 →
      PeerStep t (.inl (.submit v d))
        { t.submitted v with
          rbMsg := t.announcement v d
          waiting := some (.submit d (t.submission v)) }
        [.post (.rb (t.announcement v d))]
  | leaveWaiting (m : Post B) : t.waiting = some m → t.rb.delivered = true →
      PeerStep t (.inl .leaveWaiting) { t with waiting := none } [.post m]
  | checkIfReady : S.globals.deliverQuorum < t.rb.readys.length → t.rb.delivered = false →
      PeerStep t (.inl .checkIfReady) { t with rb := { t.rb with delivered := true } } []
  | deliver (w : Item B) (m : RBMessage) : decode B t.id w.bytes = .ok (.rb m) →
      PeerStep t (.inr w) (dispatch S.globals t m).1 ((dispatch S.globals t m).2.map .post)
  | accept (w : Item B) (m : SubmitMsg B) : decode B t.id w.bytes = .ok (.submit m) →
      t.Accepts m → t.ac.from.length + 1 < S.globals.confirmQuorum →
      PeerStep t (.inr w) (t.accept m) []
  | confirm (w : Item B) (m : SubmitMsg B) : decode B t.id w.bytes = .ok (.submit m) →
      t.Accepts m → S.globals.confirmQuorum ≤ t.ac.from.length + 1 →
      PeerStep t (.inr w) (t.accept m).confirmed [.post (.aggSign 0 (t.accept m).certificate)]
  | reject (w : Item B) (m : SubmitMsg B) : decode B t.id w.bytes = .ok (.submit m) →
      ¬ t.Accepts m → PeerStep t (.inr w) t []
  | obtain (w : Item B) (m : SubmitAggSign B) : decode B t.id w.bytes = .ok (.aggSign m) →
      PeerStep t (.inr w) (checkRecvAggSignature (t.obtain m)) []
  | ignore (w : Item B) : decode B t.id w.bytes = .ok .ignored → PeerStep t (.inr w) t []

variable {S}

theorem leaveWaiting_eq_some {r : Peer B × List (Post B)} : leaveWaiting p = some r ↔
    ∃ m, p.waiting = some m ∧ p.rb.delivered = true ∧ r = ({ p with waiting := none }, [m]) := by
  unfold leaveWaiting
  cases hm : p.waiting with
  | none => simp
  | some m =>
    by_cases hd : p.rb.delivered = true
    · simp [hd, eq_comm]
    · simp [hd]

theorem checkIfReady_eq_some {p' : Peer B} : checkIfReady G p = some p' ↔
    G.deliverQuorum < p.rb.readys.length ∧ p.rb.delivered = false ∧
      p' = { p with rb := { p.rb with delivered := true } } := by
  rw [checkIfReady, Option.ite_none_right_eq_some, Option.some.injEq, and_assoc, eq_comm (a := p')]

/-- **A call touches nothing of the confirmer but the value**, and that only if it is a `Submit` call. -/
theorem peerAct_frame {a : Call} {r : Peer B × List (Post B)} (h : peerAct G p a = some r) :
    r.1.id = p.id ∧ r.1.detectConflict = p.detectConflict ∧
      ∃ v, r.1.ac = { p.ac with value := v } ∧ ∀ w d, a = .submit w d → v = w := by
  cases a with
  | submit v d =>
    unfold peerAct at h
    split_ifs at h
    cases h
    have hsubmit : ∀ w e, Call.submit v d = .submit w e → v = w := by
      intro w e he
      cases he
      rfl
    by_cases hb : p.isReliableBroadcast = 0
    · rw [submit_direct hb]
      exact ⟨rfl, rfl, v, rfl, hsubmit⟩
    · rw [submit_gated hb]
      exact ⟨rfl, rfl, v, rfl, hsubmit⟩
  | leaveWaiting =>
    obtain ⟨m, -, -, rfl⟩ := leaveWaiting_eq_some.mp h
    exact ⟨rfl, rfl, p.ac.value, rfl, by simp⟩
  | checkIfReady =>
    obtain ⟨p', hp, rfl⟩ := Option.map_eq_some_iff.mp h
    obtain ⟨-, -, rfl⟩ := checkIfReady_eq_some.mp hp
    exact ⟨rfl, rfl, p.ac.value, rfl, by simp⟩

theorem peerStep_act {t t' : Peer B} {a : Call} {out : List (Item B)}
    (h : (peerMachine S).act t a = some (t', out)) : PeerStep S t (.inl a) t' out := by
  obtain ⟨r, hr, hw⟩ := Option.map_eq_some_iff.mp h
  cases a with
  | submit v d =>
    unfold peerAct at hr
    split_ifs at hr with hn
    · cases hr
      have hwait : t.waiting = none := by simpa using hn
      by_cases hb : t.isReliableBroadcast = 0
      · rw [submit_direct hb] at hw
        cases hw
        exact .submitDirect v d hwait hb
      · rw [submit_gated hb] at hw
        cases hw
        exact .submitGated v d hwait hb
  | leaveWaiting =>
    obtain ⟨m, hm, hd, rfl⟩ := leaveWaiting_eq_some.mp hr
    cases hw
    exact .leaveWaiting m hm hd
  | checkIfReady =>
    obtain ⟨p, hp, rfl⟩ := Option.map_eq_some_iff.mp hr
    obtain ⟨hq, hd, rfl⟩ := checkIfReady_eq_some.mp hp
    cases hw
    exact .checkIfReady hq hd

theorem peerStep_receive {t t' : Peer B} {w : Item B} {inc : Incoming B} {out : List (Item B)}
    (hd : decode B t.id w.bytes = .ok inc) (h : onWire (receive S.globals t inc) = (t', out)) :
    PeerStep S t (.inr w) t' out := by
  cases inc with
  | rb m =>
    cases h
    exact .deliver w m hd
  | submit m =>
    rw [receive] at h
    by_cases ha : t.Accepts m
    · rw [submitMsgVerify_accepts ha] at h
      by_cases hq : S.globals.confirmQuorum ≤ t.ac.from.length + 1
      · rw [if_pos hq] at h
        cases h
        exact .confirm w m hd ha hq
      · rw [if_neg hq] at h
        cases h
        exact .accept w m hd ha (not_le.mp hq)
    · rw [submitMsgVerify_eq, if_neg ha] at h
      cases h
      exact .reject w m hd ha
  | aggSign m =>
    cases h
    exact .obtain w m hd
  | ignored =>
    cases h
    exact .ignore w hd

theorem peerStep {t t' : Peer B} {x : Call ⊕ Item B} {out : List (Item B)}
    (h : (peerMachine S).localStep t x = some (t', out)) : PeerStep S t x t' out := by
  cases x with
  | inl a => exact peerStep_act h
  | inr w =>
    obtain ⟨r, hr, hw⟩ := Option.map_eq_some_iff.mp h
    cases hp : parseMessage S.globals t w.bytes with
    | error e => rw [hp] at hr; cases hr
    | ok r' =>
      rw [hp] at hr
      cases hr
      obtain ⟨inc, hd, rfl⟩ := parseMessage_eq_ok hp
      exact peerStep_receive hd hw

theorem exists_localStep {t : Peer B} {w : Item B} {inc : Incoming B}
    (hd : decode B t.id w.bytes = .ok inc) : ∃ r, (peerMachine S).localStep t (.inr w) = some r := by
  refine ⟨onWire (receive S.globals t inc), ?_⟩
  simp [Machine.localStep, peerMachine, parseMessage_eq, hd, Except.map, Except.toOption]

/-! ## What a step does to the confirmer -/

/-- **A step and the entries**: a `Submit` call sets the value, an accepted message is recorded, and
any other step leaves both alone. -/
inductive EntryStep (t t' : Peer B) : Call ⊕ Item B → Prop
  | submit (v d : Int32) : t'.ac.value = v → t'.ac.from = t.ac.from →
      t'.ac.partialSignature = t.ac.partialSignature → EntryStep t t' (.inl (.submit v d))
  | accept (w : Item B) (m : SubmitMsg B) : decode B t.id w.bytes = .ok (.submit m) → t.Accepts m →
      t'.ac.value = t.ac.value → t'.ac.from = t.ac.from ++ [m.pid] →
      t'.ac.partialSignature = t.ac.partialSignature ++ [m] → EntryStep t t' (.inr w)
  | skip (x : Call ⊕ Item B) : (∀ v d, x ≠ .inl (.submit v d)) →
      (∀ w m, x = .inr w → decode B t.id w.bytes = .ok (.submit m) → ¬ t.Accepts m) →
      t'.ac.value = t.ac.value → t'.ac.from = t.ac.from →
      t'.ac.partialSignature = t.ac.partialSignature → EntryStep t t' x

section

variable {t t' : Peer B} {x : Call ⊕ Item B} {out : List (Item B)}

theorem EntryStep.other {w : Item B} {inc : Incoming B} (hd : decode B t.id w.bytes = .ok inc)
    (hinc : ∀ m, inc ≠ .submit m) (hv : t'.ac.value = t.ac.value) (hf : t'.ac.from = t.ac.from)
    (hp : t'.ac.partialSignature = t.ac.partialSignature) : EntryStep t t' (.inr w) := by
  refine .skip _ (by simp) (fun w' m hw hd' => ?_) hv hf hp
  cases hw
  rw [hd] at hd'
  cases hd'
  exact absurd rfl (hinc m)

theorem PeerStep.entry (hs : PeerStep S t x t' out) : EntryStep t t' x := by
  cases hs with
  | submitDirect v d hw hb => exact .submit v d rfl rfl rfl
  | submitGated v d hw hb => exact .submit v d rfl rfl rfl
  | leaveWaiting m hm hd => exact .skip _ (by simp) (by simp) rfl rfl rfl
  | checkIfReady hq hd => exact .skip _ (by simp) (by simp) rfl rfl rfl
  | deliver w m hd =>
    obtain ⟨rb, hrb⟩ := dispatch_frame (G := S.globals) (p := t) (m := m)
    rw [hrb]
    exact .other hd (by simp) rfl rfl rfl
  | accept w m hd ha hq => exact .accept w m hd ha rfl rfl rfl
  | confirm w m hd ha hq => exact .accept w m hd ha rfl rfl rfl
  | reject w m hd ha =>
    refine .skip _ (by simp) (fun w' m' hw hd' => ?_) rfl rfl rfl
    cases hw
    rw [hd] at hd'
    cases hd'
    exact ha
  | obtain w m hd =>
    rw [checkRecvAggSignature_eq]
    exact .other hd (by simp) rfl rfl rfl
  | ignore w hd => exact .other hd (by simp) rfl rfl rfl

/-- **Only a received aggregate signature touches the verdict.** -/
theorem PeerStep.verdict (hs : PeerStep S t x t' out) :
    (t'.ac.obtainedAggSignature = t.ac.obtainedAggSignature ∧
      t'.detectConflict = t.detectConflict ∧
      (t.ac.confirm = true → t'.ac.confirm = true) ∧
      ∀ w a, x = .inr w → decode B t.id w.bytes ≠ .ok (.aggSign a)) ∨
    ∃ w a, x = .inr w ∧ decode B t.id w.bytes = .ok (.aggSign a) ∧
      t' = checkRecvAggSignature (t.obtain a) := by
  have hother : ∀ {w : Item B} {inc : Incoming B}, decode B t.id w.bytes = .ok inc →
      (∀ a, inc ≠ .aggSign a) → ∀ w' a, (Sum.inr w : Call ⊕ Item B) = .inr w' →
      decode B t.id w'.bytes ≠ .ok (.aggSign a) := by
    intro w inc hd hinc w' a hw hd'
    cases hw
    rw [hd] at hd'
    cases hd'
    exact hinc a rfl
  cases hs with
  | submitDirect v d hw hb => exact Or.inl ⟨rfl, rfl, id, by simp⟩
  | submitGated v d hw hb => exact Or.inl ⟨rfl, rfl, id, by simp⟩
  | leaveWaiting m hm hd => exact Or.inl ⟨rfl, rfl, id, by simp⟩
  | checkIfReady hq hd => exact Or.inl ⟨rfl, rfl, id, by simp⟩
  | deliver w m hd =>
    obtain ⟨rb, hrb⟩ := dispatch_frame (G := S.globals) (p := t) (m := m)
    rw [hrb]
    exact Or.inl ⟨rfl, rfl, id, hother hd (by simp)⟩
  | accept w m hd ha hq => exact Or.inl ⟨rfl, rfl, id, hother hd (by simp)⟩
  | confirm w m hd ha hq => exact Or.inl ⟨rfl, rfl, fun _ => rfl, hother hd (by simp)⟩
  | reject w m hd ha => exact Or.inl ⟨rfl, rfl, id, hother hd (by simp)⟩
  | obtain w m hd => exact Or.inr ⟨w, m, rfl, hd, rfl⟩
  | ignore w hd => exact Or.inl ⟨rfl, rfl, id, hother hd (by simp)⟩

end

end Confirmer
