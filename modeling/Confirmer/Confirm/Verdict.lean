import Confirmer.Confirm.Alone
import Confirmer.Confirm.Matching

/-!
# When exactly a peer detects a conflict

* `obtainedOf`: the aggregate signatures that a peer has received; `obtained_local`: it records them all.
* `Accuses`: what it takes to detect a conflict; **`detect_iff`**: nothing else does.
-/

namespace Confirmer

open Text AsyncNet

variable {B : BLS}

/-! ## What a peer has received -/

/-- The aggregate signature of an input. -/
def ConfirmerInput.aggSign : ConfirmerInput B → Option (SubmitAggSign B)
  | .obtain m => some m
  | _ => none

/-- The aggregate signatures that the peer `id` has received. -/
def obtainedOf (id : Int32) (h : Hist B) : List (SubmitAggSign B) :=
  (confirmerInputs id h).filterMap ConfirmerInput.aggSign

theorem obtainedOf_append (id : Int32) (h h' : Hist B) :
    obtainedOf id (h ++ h') = obtainedOf id h ++ obtainedOf id h' := by
  rw [obtainedOf, confirmerInputs, List.filterMap_append, List.filterMap_append]
  rfl

theorem mem_obtainedOf {id : Int32} {w : Item B} {a : SubmitAggSign B} :
    a ∈ obtainedOf id [.inr w] ↔ decode B id w.bytes = .ok (.aggSign a) := by
  unfold obtainedOf confirmerInputs
  cases hd : decode B id w.bytes with
  | error e =>
    have hnone : confirmerInput id (.inr w) = none := by
      show (decode B id w.bytes).toOption.bind Incoming.toConfirmer = _
      rw [hd]
      rfl
    simp [hnone]
  | ok inc =>
    have hin := confirmerInput_recv hd
    cases inc <;> simp [hin, Incoming.toConfirmer, ConfirmerInput.aggSign, eq_comm]

/-! ## What the verdict takes -/

/-- **Behind the history `h₁` the peer accuses when it receives `w`**: this is an aggregate signature, the
peer has counted a quorum, and two aggregate signatures that it has received by then differ. -/
structure Accuses (S : Setup B) (i : Fin S.totalPeers) (h₁ : Hist B) (w : Item B) : Prop where
  aggSign : ∃ a, decode B (S.pid i) w.bytes = .ok (.aggSign a)
  quorum : S.totalPeers - S.faulty ≤ ((matching (S.pid i) 0 h₁).map SubmitMsg.pid).toFinset.card
  conflict : ∃ a ∈ obtainedOf (S.pid i) (h₁ ++ [.inr w]),
    ∃ b ∈ obtainedOf (S.pid i) (h₁ ++ [.inr w]), a.value ≠ b.value

/-- A split of a list at one of its entries, when the list goes on. -/
theorem exists_split_snoc {α : Type} {l : List α} {x : α} {P : List α → α → Prop} :
    (∃ l₁ y l₂, l ++ [x] = l₁ ++ y :: l₂ ∧ P l₁ y) ↔
      (∃ l₁ y l₂, l = l₁ ++ y :: l₂ ∧ P l₁ y) ∨ P l x := by
  constructor
  · rintro ⟨l₁, y, l₂, heq, hP⟩
    rcases List.eq_nil_or_concat l₂ with rfl | ⟨l₂, z, rfl⟩
    · obtain ⟨rfl, hy⟩ := List.append_inj' heq rfl
      cases hy
      exact Or.inr hP
    · rw [List.concat_eq_append, ← List.cons_append, ← List.append_assoc] at heq
      exact Or.inl ⟨l₁, y, l₂, (List.append_inj' heq rfl).1, hP⟩
  · rintro (⟨l₁, y, l₂, rfl, hP⟩ | hP)
    · exact ⟨l₁, y, l₂ ++ [x], by simp, hP⟩
    · exact ⟨l, x, [], rfl, hP⟩

section

variable {S : Setup B} {i : Fin S.totalPeers} {h : Hist B} {t : Peer B} {o : List (Item B)}

theorem obtained_local (hl : (peerMachine S).Local ((peerMachine S).init i) h t o) :
    t.ac.obtainedAggSignature = obtainedOf (S.pid i) h := by
  induction hl with
  | nil => rfl
  | @snoc h t o x t' out hl hs ih =>
    have hid := (outbox_local hl).id
    rw [obtainedOf_append, ← ih]
    rcases (peerStep hs).verdict with ⟨hobtained, -, -, hother⟩ | ⟨w, a, rfl, hd, rfl⟩
    · have hnil : obtainedOf (S.pid i) [x] = [] := by
        cases x with
        | inl a => cases a <;> rfl
        | inr w =>
          rw [List.eq_nil_iff_forall_not_mem]
          intro a ha
          exact hother w a rfl (hid ▸ mem_obtainedOf.mp ha)
      rw [hobtained, hnil, List.append_nil]
    · have hin : confirmerInput (S.pid i) (.inr w) = some (.obtain a) := confirmerInput_recv (hid ▸ hd)
      rw [checkRecvAggSignature_eq]
      simp [obtainedOf, confirmerInputs, hin, ConfirmerInput.aggSign, Peer.obtain]

/-- **When a peer detects a conflict**: if and only if there was a moment at which it received an aggregate
signature, had counted a quorum, and two of the aggregate signatures received by then differed. A conflict
that is there before the quorum is noticed with the next aggregate signature, or never. -/
theorem detect_iff (hl : (peerMachine S).Local ((peerMachine S).init i) h t o) :
    t.detectConflict = true ↔ ∃ h₁ x h₂, h = h₁ ++ x :: h₂ ∧ ∃ w, x = .inr w ∧ Accuses S i h₁ w := by
  induction hl with
  | nil => simp [peerMachine, initPeer]
  | @snoc h t o x t' out hl hs ih =>
    have hid := (outbox_local hl).id
    rw [exists_split_snoc, ← ih]
    rcases (peerStep hs).verdict with ⟨-, hdetect, -, hother⟩ | ⟨w, a, rfl, hd, rfl⟩
    · rw [hdetect]
      refine (or_iff_left ?_).symm
      rintro ⟨w, rfl, ⟨a, hd⟩, -⟩
      exact hother w a rfl (hid ▸ hd)
    · have hconfirm : t.ac.confirm = true ↔ S.totalPeers - S.faulty ≤
          ((matching (S.pid i) 0 h).map SubmitMsg.pid).toFinset.card := by
        rw [card_matching hl, (store_local hl).confirm, S.confirmQuorum_eq]
      have hobtained : (t.obtain a).ac.obtainedAggSignature = obtainedOf (S.pid i) (h ++ [.inr w]) := by
        rw [← obtained_local (hl.snoc hs), checkRecvAggSignature_eq]
      rw [checkRecvAggSignature_eq, Bool.or_eq_true, Bool.and_eq_true, conflicting_iff, hobtained]
      show (t.detectConflict = true ∨ t.ac.confirm = true ∧ _) ↔ _
      rw [hconfirm]
      refine or_congr_right ⟨fun hc => ⟨w, rfl, ⟨a, hid ▸ hd⟩, hc.1, hc.2⟩, ?_⟩
      rintro ⟨w', hw, hacc⟩
      cases hw
      exact ⟨hacc.quorum, hacc.conflict⟩

end

/-- The string of an aggregate signature of peer `2`. -/
def aggSignText (value : Int32) : Item plainBLS :=
  .raw (acText MessageType.aggSign 0 (aggSignBody 3 value [1]))

/-- Two aggregate signatures that differ come in front of the third submit message, and one more behind
it. -/
def lateHist : Hist plainBLS :=
  sampleHist 5 ++ [.inr (aggSignText 5), .inr (aggSignText 6), .inr (sampleMsg 2 5), .inr (aggSignText 5)]

def lateRun : Option (Peer plainBLS × List (Item plainBLS)) :=
  (peerMachine plainFourDirect).localRun ((peerMachine plainFourDirect).init 0) lateHist

theorem lateRun_isSome : lateRun.isSome := by decide +kernel

theorem detect_iff_lateHist : ∃ h₁ x h₂, lateHist = h₁ ++ x :: h₂ ∧
    ∃ w, x = .inr w ∧ Accuses plainFourDirect 0 h₁ w :=
  (detect_iff (local_get lateRun_isSome)).mp (by decide +kernel)

end Confirmer
