import Confirmer.Bounds
import Confirmer.Confirm.Certificate
import Confirmer.Lib.Lts

/-!
# Submit messages in recycled memory

`ParseSubmitMessage` writes into a block that nobody has initialised, and does not look at the results
of the two deserializers: a message whose signature or key does not deserialize is verified with what
the block holds from before.

* `memoryStep`: a peer as in `peerMachine`, with any memory behind `new`; `run_of_local`: the runs of
  `peerMachine` are those in which this memory is always the same.
* `SubmitText`, `VerifiesIn`: the submit messages that a peer gets through, and whether it takes one for
  a proof of a value in the memory it got; `SubmitFields.verifies`: whether it is one.
* `Counted`: what a peer has counted since a `Submit` call; `Counted.snoc`: one more message.
* **`order_independent_iff`**: when the order of the messages does not matter.
* `recycled`: the memory of an allocator that hands out the block that was freed last; `recycled_counted`:
  two messages without signatures that count behind an honest one.
-/

namespace Confirmer

open Text AsyncNet

variable {B : BLS}

/-! ## Any memory behind `new` -/

/-- A peer with all that it has posted. It calls a function, or it processes a string in a round for
which `new` delivers the memory that comes with the string. -/
def memoryStep (S : Setup B) (s : Peer B × List (Post B)) :
    Call ⊕ (Bytes × Memory B) → Option (Peer B × List (Post B))
  | .inl a => (peerAct S.globals s.1 a).map fun r => (r.1, s.2 ++ r.2)
  | .inr (message, mem) =>
    (parseMessage S.globals s.1 message mem).toOption.map fun r => (r.1, s.2 ++ r.2)

/-- A run of a peer with any memory. -/
abbrev MemoryRun (S : Setup B) (i : Fin S.totalPeers) :=
  Lts.Run (memoryStep S) ((peerMachine S).init i, [])

variable {S : Setup B} {i : Fin S.totalPeers}

/-- **The runs of `peerMachine`** are runs in which the memory never changes. -/
theorem run_of_local {h : Hist B} {t : Peer B} {o : List (Item B)}
    (hl : (peerMachine S).Local ((peerMachine S).init i) h t o) :
    ∃ out, o = out.map .post ∧ MemoryRun S i (h.map (Sum.map id fun w => (w.bytes, {}))) (t, out) := by
  induction hl with
  | nil => exact ⟨[], rfl, .nil⟩
  | @snoc h t o x t' out' hl hs ih =>
    obtain ⟨out, rfl, hr⟩ := ih
    have hstep : ∃ r : Peer B × List (Post B), onWire r = (t', out') ∧
        memoryStep S (t, out) (Sum.map id (fun w : Item B => (w.bytes, ({} : Memory B))) x) =
          some (r.1, out ++ r.2) := by
      cases x with
      | inl a =>
        obtain ⟨r, hr, hw⟩ := Option.map_eq_some_iff.mp hs
        exact ⟨r, hw, Option.map_eq_some_iff.mpr ⟨r, hr, rfl⟩⟩
      | inr w =>
        obtain ⟨r, hr, hw⟩ := Option.map_eq_some_iff.mp hs
        exact ⟨r, hw, Option.map_eq_some_iff.mpr ⟨r, hr, rfl⟩⟩
    obtain ⟨r, hw, hstep⟩ := hstep
    cases hw
    refine ⟨out ++ r.2, List.map_append.symm, ?_⟩
    rw [List.map_append]
    exact hr.snoc hstep

/-- What the verdict of a peer says at any time, whatever memory it gets. -/
structure Coherent (S : Setup B) (i : Fin S.totalPeers) (t : Peer B) : Prop where
  id : t.id = S.pid i
  confirm : t.ac.confirm = true ↔ S.globals.confirmQuorum ≤ t.ac.from.length

theorem Coherent.congr {t t' : Peer B} (h : Coherent S i t) (hid : t'.id = t.id)
    (hfrom : t'.ac.from = t.ac.from) (hconfirm : t'.ac.confirm = t.ac.confirm) : Coherent S i t' where
  id := hid.trans h.id
  confirm := by rw [hconfirm, hfrom, h.confirm]

theorem Coherent.receive {t : Peer B} (h : Coherent S i t) (inc : Incoming B) :
    Coherent S i (receive S.globals t inc).1 := by
  cases inc with
  | rb m =>
    obtain ⟨rb, hrb⟩ := dispatch_frame (G := S.globals) (p := t) (m := m)
    show Coherent S i (dispatch S.globals t m).1
    rw [hrb]
    exact h.congr rfl rfl rfl
  | submit m =>
    show Coherent S i (submitMsgVerify S.globals t m).1
    by_cases ha : t.Accepts m
    · rw [submitMsgVerify_accepts ha]
      split_ifs with hq
      · exact ⟨h.id, iff_of_true rfl (hq.trans_eq (length_accept t m).symm)⟩
      · refine ⟨h.id, iff_of_false (fun hc => hq ?_) (length_accept t m ▸ hq)⟩
        exact (h.confirm.mp hc).trans (Nat.le_succ _)
    · rw [submitMsgVerify_eq, if_neg ha]
      exact h
  | aggSign m =>
    show Coherent S i (checkRecvAggSignature (t.obtain m))
    rw [checkRecvAggSignature_eq]
    exact h.congr rfl rfl rfl
  | ignored => exact h

theorem Coherent.act {t : Peer B} (h : Coherent S i t) {a : Call} {r : Peer B × List (Post B)}
    (hr : peerAct S.globals t a = some r) : Coherent S i r.1 := by
  obtain ⟨hid, -, v, hac, -⟩ := peerAct_frame hr
  exact h.congr hid (by rw [hac]) (by rw [hac])

/-- **A peer has confirmed exactly if it has a quorum**, in any memory. -/
theorem coherent_run {h : List (Call ⊕ (Bytes × Memory B))} {s : Peer B × List (Post B)}
    (hr : MemoryRun S i h s) : Coherent S i s.1 := by
  refine hr.invariant (I := fun _ s => Coherent S i s.1) ⟨rfl, ?_⟩ fun es s e s' hs he => ?_
  · have hpos := S.confirmQuorum_pos
    exact iff_of_false Bool.false_ne_true (not_le.mpr hpos)
  cases e with
  | inl a =>
    obtain ⟨r, ha, rfl⟩ := Option.map_eq_some_iff.mp he
    show Coherent S i r.1
    exact hs.act ha
  | inr x =>
    obtain ⟨r, hp, rfl⟩ := Option.map_eq_some_iff.mp he
    rw [parseMessage_eq] at hp
    cases hd : decode B s.1.id x.1 x.2 with
    | error e => rw [hd] at hp; cases hp
    | ok inc =>
      rw [hd] at hp
      cases hp
      exact hs.receive inc

/-! ## Submit messages -/

/-- A submit message, for whichever peer, that the parser of the peer `id` gets through. -/
def SubmitText (id : Int32) (message : Bytes) : Prop :=
  typeOf message = MessageType.submit ∧ Fits id message

instance (id : Int32) (message : Bytes) : Decidable (SubmitText id message) :=
  inferInstanceAs (Decidable (_ ∧ _))

/-- What stands in a submit message. -/
abbrev fieldsOf (message : Bytes) : SubmitFields := submitOf (behind message)

theorem decode_submitText {id : Int32} {message : Bytes} (hm : SubmitText id message)
    (mem : Memory B) : decode B id message mem = .ok
      (if Addressed id message then .submit ((fieldsOf message).into mem.recvMsg) else .ignored) := by
  obtain ⟨htype, hfits⟩ := hm
  have hne : message ≠ [] := by
    rintro rfl
    exact absurd htype (by decide)
  have hc : IsConfirmer message := Or.inl htype
  rw [decode_of_fits hne hfits, content, if_neg (not_not.mpr hc), if_pos htype]
  by_cases ha : Addressed id message
  · rw [if_neg (not_not.mpr ha), if_pos ha]
  · rw [if_pos ha, if_neg ha]

/-- The signature and the key in the message deserialize and verify. -/
def SubmitFields.verifies (B : BLS) (f : SubmitFields) : Bool :=
  match B.blsSignatureDeserialize f.sig_byte, B.blsPublicKeyDeserialize f.pub_byte with
  | some sig, some pub => B.blsVerify sig pub (decInt f.value.toInt)
  | _, _ => false

/-- The submit message is for the peer `id`, carries the value `v` and verifies. -/
def Valid (B : BLS) (id v : Int32) (message : Bytes) : Prop :=
  Addressed id message ∧ (fieldsOf message).value = v ∧ (fieldsOf message).verifies B = true

/-- The submit message is for the peer `id`, carries the value `v` and passes `ShareVerify` in a round
for which `new` delivers the memory `mem`. -/
def VerifiesIn (mem : Memory B) (id v : Int32) (message : Bytes) : Prop :=
  Addressed id message ∧ (fieldsOf message).value = v ∧
    shareVerify ((fieldsOf message).into mem.recvMsg) = true

instance (B : BLS) (id v : Int32) (message : Bytes) : Decidable (Valid B id v message) :=
  inferInstanceAs (Decidable (_ ∧ _ ∧ _))

instance (mem : Memory B) (id v : Int32) (message : Bytes) : Decidable (VerifiesIn mem id v message) :=
  inferInstanceAs (Decidable (_ ∧ _ ∧ _))

/-- **Memory does not matter** where signature and key deserialize. -/
theorem shareVerify_into {f : SubmitFields} {sig : B.Signature} {pub : B.PublicKey}
    (hsig : B.blsSignatureDeserialize f.sig_byte = some sig)
    (hpub : B.blsPublicKeyDeserialize f.pub_byte = some pub) (m : SubmitMsg B) :
    shareVerify (f.into m) = f.verifies B := by
  simp [shareVerify, SubmitFields.into, SubmitFields.verifies, hsig, hpub]

theorem Valid.verifiesIn {id v : Int32} {message : Bytes} (h : Valid B id v message) (mem : Memory B) :
    VerifiesIn mem id v message := by
  obtain ⟨ha, hv, hverify⟩ := h
  refine ⟨ha, hv, ?_⟩
  unfold SubmitFields.verifies at hverify
  split at hverify
  · next sig pub hsig hpub =>
    rw [shareVerify_into hsig hpub, SubmitFields.verifies, hsig, hpub]
    exact hverify
  · cases hverify

/-- The pids of the submit messages that are for the peer `id`, carry the value `v` and verify. -/
def verifyingPids (B : BLS) (id v : Int32) (ms : List Bytes) : Finset Int32 :=
  ((ms.filter fun m => Valid B id v m).map fun m => (fieldsOf m).pid).toFinset

theorem mem_verifyingPids {id v q : Int32} {ms : List Bytes} :
    q ∈ verifyingPids B id v ms ↔ ∃ m ∈ ms, Valid B id v m ∧ (fieldsOf m).pid = q := by
  simp [verifyingPids, and_assoc]

/-! ## What a peer counts -/

def certValue : Post B → Option Int32
  | .aggSign _ m => some m.value
  | _ => none

/-- The value of the last aggregate signature among the posts. -/
def lastCert (out : List (Post B)) : Option Int32 := (out.filterMap certValue).getLast?

theorem lastCert_append_aggSign (out : List (Post B)) (d : Int32) (m : SubmitAggSign B) :
    lastCert (out ++ [.aggSign d m]) = some m.value := by
  rw [lastCert, List.filterMap_append]
  exact List.getLast?_concat

/-- **What a peer has counted** since a `Submit` call for `v`: the pids of the messages that passed in
the memory they got. -/
structure Counted (S : Setup B) (i : Fin S.totalPeers) (v : Int32) (xs : List (Bytes × Memory B))
    (t : Peer B) (out : List (Post B)) : Prop extends Coherent S i t where
  value : t.ac.value = v
  nodup : t.ac.from.Nodup
  mem_from : ∀ q, q ∈ t.ac.from ↔ ∃ x ∈ xs, VerifiesIn x.2 (S.pid i) v x.1 ∧ (fieldsOf x.1).pid = q
  cert : lastCert out =
    if S.globals.confirmQuorum ≤ t.ac.from.length then some v else none

section

variable {v : Int32} {xs : List (Bytes × Memory B)} {t : Peer B} {out : List (Post B)}
  {message : Bytes} {mem : Memory B}

theorem Counted.mem_snoc (h : Counted S i v xs t out) (q : Int32) :
    (∃ x ∈ xs ++ [(message, mem)], VerifiesIn x.2 (S.pid i) v x.1 ∧ (fieldsOf x.1).pid = q) ↔
      q ∈ t.ac.from ∨ VerifiesIn mem (S.pid i) v message ∧ (fieldsOf message).pid = q := by
  rw [h.mem_from]
  simp [or_and_right, exists_or]

theorem Counted.skip (h : Counted S i v xs t out)
    (hno : VerifiesIn mem (S.pid i) v message → (fieldsOf message).pid ∈ t.ac.from) :
    Counted S i v (xs ++ [(message, mem)]) t out :=
  { h with
    mem_from := fun q => by
      rw [h.mem_snoc]
      constructor
      · exact Or.inl
      · rintro (hq | ⟨hverify, rfl⟩)
        · exact hq
        · exact hno hverify }

theorem Counted.accept (h : Counted S i v xs t out) {m : SubmitMsg B}
    (hm : m = (fieldsOf message).into mem.recvMsg) (ha : t.Accepts m)
    (haddr : Addressed (S.pid i) message) :
    Counted S i v (xs ++ [(message, mem)]) (submitMsgVerify S.globals t m).1
      (out ++ (submitMsgVerify S.globals t m).2) := by
  obtain ⟨hverify, hval, hpid⟩ := id ha
  have hcoherent : Coherent S i (submitMsgVerify S.globals t m).1 := h.toCoherent.receive (.submit m)
  have hpass : VerifiesIn mem (S.pid i) v message := by
    subst hm
    exact ⟨haddr, hval.symm.trans h.value, hverify⟩
  have hfrom : (submitMsgVerify S.globals t m).1.ac.from = t.ac.from ++ [m.pid] ∧
      (submitMsgVerify S.globals t m).1.ac.value = t.ac.value := by
    rw [submitMsgVerify_accepts ha]
    split_ifs <;> exact ⟨rfl, rfl⟩
  refine ⟨hcoherent, hfrom.2.trans h.value, ?_, fun q => ?_, ?_⟩
  · rw [hfrom.1, ← List.concat_eq_append]
    exact h.nodup.concat hpid
  · rw [hfrom.1, List.mem_append, List.mem_singleton, h.mem_snoc]
    subst hm
    exact or_congr_right ⟨fun hq => ⟨hpass, hq.symm⟩, fun hq => hq.2.symm⟩
  · rw [hfrom.1, List.length_append, List.length_singleton, submitMsgVerify_accepts ha]
    split_ifs with hq
    · show Confirmer.lastCert (out ++ [.aggSign 0 (t.accept m).certificate]) = some v
      rw [lastCert_append_aggSign, certificate_accept, ← hval, h.value]
    · show Confirmer.lastCert (out ++ []) = none
      rw [List.append_nil, h.cert, if_neg (by omega)]

theorem memoryStep_of_decode {inc : Incoming B} (hd : decode B t.id message mem = .ok inc) :
    memoryStep S (t, out) (.inr (message, mem)) =
      some ((receive S.globals t inc).1, out ++ (receive S.globals t inc).2) := by
  show (parseMessage S.globals t message mem).toOption.map _ = _
  rw [parseMessage_eq, hd]
  rfl

theorem Counted.snoc (h : Counted S i v xs t out) (hm : SubmitText (S.pid i) message)
    (mem : Memory B) : ∃ t' out', memoryStep S (t, out) (.inr (message, mem)) = some (t', out') ∧
      Counted S i v (xs ++ [(message, mem)]) t' out' := by
  have hd := decode_submitText hm mem
  rw [← h.id] at hd
  refine ⟨_, _, memoryStep_of_decode hd, ?_⟩
  rw [h.id]
  by_cases haddr : Addressed (S.pid i) message
  · rw [if_pos haddr]
    by_cases ha : t.Accepts ((fieldsOf message).into mem.recvMsg)
    · exact h.accept rfl ha haddr
    · show Counted S i v _ (submitMsgVerify S.globals t _).1 (out ++ (submitMsgVerify S.globals t _).2)
      rw [submitMsgVerify_eq, if_neg ha, List.append_nil]
      refine h.skip fun hv => ?_
      by_contra hpid
      exact ha ⟨hv.2.2, h.value.trans hv.2.1.symm, hpid⟩
  · rw [if_neg haddr]
    show Counted S i v _ t (out ++ [])
    rw [List.append_nil]
    exact h.skip fun hv => absurd hv.1 haddr

/-- **Any list of submit messages, in any memory.** -/
theorem Counted.run (h : Counted S i v xs t out) {ys : List (Bytes × Memory B)}
    (hys : ∀ y ∈ ys, SubmitText (S.pid i) y.1) :
    ∃ t' out', Lts.exec (memoryStep S) (t, out) (ys.map .inr) = some (t', out') ∧
      Counted S i v (xs ++ ys) t' out' := by
  induction ys generalizing xs t out with
  | nil => exact ⟨t, out, rfl, by rwa [List.append_nil]⟩
  | cons y ys ih =>
    obtain ⟨t₁, out₁, hstep, h₁⟩ := h.snoc (hys y List.mem_cons_self) y.2
    obtain ⟨t', out', hrun, h'⟩ := ih h₁ fun y' hy' => hys y' (List.mem_cons_of_mem _ hy')
    refine ⟨t', out', ?_, by simpa using h'⟩
    rw [List.map_cons, Lts.exec, hstep]
    exact hrun

theorem counted_submit {h : List (Call ⊕ (Bytes × Memory B))} {o o₁ : List (Post B)} {t₁ : Peer B}
    {d : Int32} (hr : MemoryRun S i h (t, o))
    (hs : memoryStep S (t, o) (.inl (.submit v d)) = some (t₁, o₁)) (hempty : t.ac.from = []) :
    Counted S i v [] t₁ [] := by
  obtain ⟨r, ha, he⟩ := Option.map_eq_some_iff.mp hs
  cases he
  have hcoherent := (coherent_run hr).act ha
  obtain ⟨-, -, v', hac, hv⟩ := peerAct_frame ha
  obtain rfl := hv v d rfl
  have hfrom : r.1.ac.from = [] := by rw [hac, ← hempty]
  have hpos := S.confirmQuorum_pos
  refine ⟨hcoherent, by rw [hac], by simp [hfrom], fun q => by simp [hfrom], ?_⟩
  rw [hfrom, List.length_nil, if_neg (not_le.mpr hpos)]
  rfl

end

/-! ## Any order -/

/-- **The order of submissions does not matter** for the peer `t` with the value `v`: in whatever order
and in whatever memory it processes the messages `ms`, it counts exactly the pids of those that are
addressed to it, carry `v` and verify; it has confirmed exactly if they are a quorum, and its last
aggregate signature is over `v` then, and there is none otherwise. -/
def OrderIndependent (S : Setup B) (i : Fin S.totalPeers) (v : Int32) (t : Peer B) (ms : List Bytes) :
    Prop :=
  ∀ xs : List (Bytes × Memory B), (xs.map Prod.fst).Perm ms →
    ∃ t' out, Lts.exec (memoryStep S) (t, []) (xs.map .inr) = some (t', out) ∧
      t'.ac.from.toFinset = verifyingPids B (S.pid i) v ms ∧
      (t'.ac.confirm = true ↔ S.totalPeers - S.faulty ≤ (verifyingPids B (S.pid i) v ms).card) ∧
      lastCert out =
        if S.totalPeers - S.faulty ≤ (verifyingPids B (S.pid i) v ms).card then some v else none

/-- What the blocks from `new` hold does not decide about any of the messages: one that passes in some
memory verifies, or its pid is counted anyway. -/
def MemoryProof (B : BLS) (id v : Int32) (ms : List Bytes) : Prop :=
  ∀ m ∈ ms, ∀ mem : Memory B, VerifiesIn mem id v m → (fieldsOf m).pid ∈ verifyingPids B id v ms

/-- Signature and key deserialize in every message. -/
theorem memoryProof_of_deserialize {id v : Int32} {ms : List Bytes}
    (h : ∀ m ∈ ms, (B.blsSignatureDeserialize (fieldsOf m).sig_byte).isSome ∧
      (B.blsPublicKeyDeserialize (fieldsOf m).pub_byte).isSome) : MemoryProof B id v ms := by
  intro m hm mem ⟨ha, hv, hverify⟩
  obtain ⟨hs, hp⟩ := h m hm
  obtain ⟨sig, hsig⟩ := Option.isSome_iff_exists.mp hs
  obtain ⟨pub, hpub⟩ := Option.isSome_iff_exists.mp hp
  rw [shareVerify_into hsig hpub] at hverify
  exact mem_verifyingPids.mpr ⟨m, hm, ⟨ha, hv, hverify⟩, rfl⟩

section

variable {v : Int32} {ms : List Bytes} {xs : List (Bytes × Memory B)} {t : Peer B} {out : List (Post B)}

/-- In memory-proof messages, a peer counts what verifies. -/
theorem Counted.from_eq (h : Counted S i v xs t out) (hp : (xs.map Prod.fst).Perm ms)
    (hproof : MemoryProof B (S.pid i) v ms) :
    t.ac.from.toFinset = verifyingPids B (S.pid i) v ms := by
  ext q
  rw [List.mem_toFinset, h.mem_from]
  constructor
  · rintro ⟨x, hx, hpass, rfl⟩
    exact hproof x.1 (hp.mem_iff.mp (List.mem_map_of_mem hx)) x.2 hpass
  · intro hq
    obtain ⟨m, hm, hvalid, rfl⟩ := mem_verifyingPids.mp hq
    obtain ⟨x, hx, rfl⟩ := List.mem_map.mp (hp.mem_iff.mpr hm)
    exact ⟨x, hx, hvalid.verifiesIn x.2, rfl⟩

end

/-- **The order of submissions does not matter** after a `Submit` call that finds no entries if and only if
the messages are memory-proof. -/
theorem order_independent_iff {h : List (Call ⊕ (Bytes × Memory B))} {t t₁ : Peer B}
    {o o₁ : List (Post B)} {v d : Int32} {ms : List Bytes} (hr : MemoryRun S i h (t, o))
    (hs : memoryStep S (t, o) (.inl (.submit v d)) = some (t₁, o₁)) (hempty : t.ac.from = [])
    (hms : ∀ m ∈ ms, SubmitText (S.pid i) m) :
    OrderIndependent S i v t₁ ms ↔ MemoryProof B (S.pid i) v ms := by
  have hrun : ∀ xs : List (Bytes × Memory B), (xs.map Prod.fst).Perm ms →
      ∃ t' out, Lts.exec (memoryStep S) (t₁, []) (xs.map .inr) = some (t', out) ∧
        Counted S i v xs t' out := by
    intro xs hp
    refine (counted_submit hr hs hempty).run fun x hx => ?_
    exact hms x.1 (hp.mem_iff.mp (List.mem_map_of_mem hx))
  constructor
  · intro hind m hm mem hpass
    -- the message comes first, in a block that lets it pass
    have hp : (((m, mem) :: (ms.erase m).map fun m' => (m', {})).map Prod.fst).Perm ms := by
      rw [List.map_cons, List.map_map]
      show (m :: (ms.erase m).map id).Perm ms
      rw [List.map_id]
      exact (List.perm_cons_erase hm).symm
    obtain ⟨t', out, he, hc⟩ := hrun _ hp
    obtain ⟨t'', out'', he', hfrom, -, -⟩ := hind _ hp
    rw [he] at he'
    cases he'
    rw [← hfrom, List.mem_toFinset, hc.mem_from]
    exact ⟨(m, mem), List.mem_cons_self, hpass, rfl⟩
  · intro hproof xs hp
    obtain ⟨t', out, he, hc⟩ := hrun xs hp
    have hfrom := hc.from_eq hp hproof
    have hcard : t'.ac.from.length = (verifyingPids B (S.pid i) v ms).card := by
      rw [← hfrom, List.toFinset_card_of_nodup hc.nodup]
    refine ⟨t', out, he, hfrom, ?_, ?_⟩
    · rw [hc.confirm, S.confirmQuorum_eq, hcard]
    · rw [hc.cert, S.confirmQuorum_eq, hcard]

/-- Peer `1` of four that has called `Submit(5, 0)`. -/
def submitter : Peer plainBLS := ((peerMachine plainFourDirect).init 0).submitted 5

/-- Three messages for `5`, one of them twice, and one for `6`. -/
def sampleTexts : List Bytes :=
  [sampleMsg 2 5, sampleMsg 1 6, sampleMsg 1 5, sampleMsg 2 5, sampleMsg 0 5].map Item.bytes

theorem submitter_step : memoryStep plainFourDirect ((peerMachine plainFourDirect).init 0, [])
    (.inl (.submit 5 0)) = some (submitter, [.submit 0 (plainFourDirect.submission 0 5)]) := rfl

theorem order_independent_iff_sample : OrderIndependent plainFourDirect 0 5 submitter sampleTexts :=
  (order_independent_iff .nil submitter_step rfl (by decide +kernel)).mpr
    (memoryProof_of_deserialize (by decide +kernel))

/-! ## Recycled blocks -/

/-- What `new` delivers in the next round where the allocator hands out the block that was freed last.
The block of a message for another peer is never freed. -/
def leftover (id : Int32) (mem : Memory B) (message : Bytes) : Memory B :=
  match decode B id message mem with
  | .ok (.submit m) => { mem with recvMsg := m }
  | .ok (.aggSign m) => { mem with recvAggSign := m }
  | .ok (.rb _) => mem
  | _ => {}

/-- The messages with the memory that each of them gets. -/
def recycled (id : Int32) : Memory B → List Bytes → List (Bytes × Memory B)
  | _, [] => []
  | mem, m :: ms => (m, mem) :: recycled id (leftover id mem m) ms

theorem recycled_fst (id : Int32) (mem : Memory B) (ms : List Bytes) :
    (recycled id mem ms).map Prod.fst = ms := by
  induction ms generalizing mem with
  | nil => rfl
  | cons m ms ih => rw [recycled, List.map_cons, ih]

/-- `"4::0::pid::5::0::::0::::\n"`: a submit message for `5` without signature and key. -/
def emptyText (pid : Int32) : Bytes := acText MessageType.submit 0 (submitBody pid 5 [] [])

/-- The submit message of peer `2` for `5`. -/
def honestText : Bytes := (sampleMsg 1 5).bytes

/-- The entries of peer `1`, whether it has confirmed, and the value of its last aggregate signature,
where it has processed the messages `ms` in recycled memory. -/
def outcome (ms : List Bytes) : Option (List Int32 × Bool × Option Int32) :=
  (Lts.exec (memoryStep plainFourDirect) (submitter, []) ((recycled 1 {} ms).map .inr)).map fun s =>
    (s.1.ac.from, s.1.ac.confirm, lastCert s.2)

/-- **An honest message lends its signature to those behind it.** Behind the message of peer `2`, two
messages without signatures count for the pids `9` and `10`, and peer `1` confirms; in front of it they do
not count. -/
theorem recycled_counted :
    outcome [honestText, emptyText 9, emptyText 10] = some ([2, 9, 10], true, some 5) ∧
    outcome [emptyText 9, emptyText 10, honestText] = some ([2], false, none) ∧
    ¬ OrderIndependent plainFourDirect 0 5 submitter [honestText, emptyText 9, emptyText 10] := by
  have hlast : outcome [honestText, emptyText 9, emptyText 10] = some ([2, 9, 10], true, some 5) := by
    decide +kernel
  refine ⟨hlast, by decide +kernel, fun hind => ?_⟩
  obtain ⟨t', out, he, -, hconfirm, -⟩ :=
    hind (recycled 1 {} [honestText, emptyText 9, emptyText 10]) (by rw [recycled_fst])
  have hcard : (verifyingPids plainBLS (plainFourDirect.pid 0) 5
      [honestText, emptyText 9, emptyText 10]).card = 1 := by decide +kernel
  rw [outcome, he, Option.map_some, Option.some.injEq, Prod.mk.injEq, Prod.mk.injEq] at hlast
  rw [hlast.2.1, hcard] at hconfirm
  exact absurd (hconfirm.mp rfl) (by decide)

end Confirmer
