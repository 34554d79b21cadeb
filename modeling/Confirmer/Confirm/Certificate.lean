import Confirmer.Confirm.Store
import Mathlib.Algebra.BigOperators.Group.List.Basic

/-!
# What an aggregate signature is made of

`GenerateAggSignature` takes the value from the last entry, and the number of signatures to aggregate
from the length of the printed value.

* `PeerStep.of_aggSign`: the steps that broadcast an aggregate signature.
* `OneValueStep`, **`one_value`**: when all entries behind an aggregate signature are for its value.
* `aggSignArgs`, `Exact`, **`aggregate_iff`**: when it is the aggregate of all entries.
-/

namespace Confirmer

open Text AsyncNet

variable {B : BLS} {S : Setup B} {i : Fin S.totalPeers} {h : Hist B} {t t' : Peer B}
  {o out : List (Item B)} {x : Call ⊕ Item B} {d : Int32} {a : SubmitAggSign B}

/-- **A peer broadcasts an aggregate signature when it confirms.** -/
theorem PeerStep.of_aggSign (hs : PeerStep S t x t' out) (hi : Outbox S i h t o)
    (ha : Item.post (.aggSign d a) ∈ out) : ∃ w m, x = .inr w ∧
      decode B t.id w.bytes = .ok (.submit m) ∧ t.Accepts m ∧
      S.globals.confirmQuorum ≤ t.ac.from.length + 1 ∧ t' = (t.accept m).confirmed ∧
      a = (t.accept m).certificate := by
  cases hs with
  | leaveWaiting m hm hd =>
    obtain ⟨v, d', rfl, -⟩ := hi.waiting m hm
    simp at ha
  | deliver w m hd =>
    obtain ⟨m', heq⟩ := rb_of_mem_dispatch ha
    cases heq
  | confirm w m hd hacc hq =>
    rw [List.mem_singleton] at ha
    cases ha
    exact ⟨w, m, rfl, hd, hacc, hq, rfl, rfl⟩
  | submitDirect v d hw hb => simp at ha
  | submitGated v d hw hb => simp at ha
  | checkIfReady hq hd => simp at ha
  | accept w m hd hacc hq => simp at ha
  | reject w m hd hacc => simp at ha
  | obtain w m hd => simp at ha
  | ignore w hd => simp at ha

/-! ## One value -/

/-- What keeps the entries of a peer with one value, for a step `x` after the history `h`: a `Submit`
call that changes the value finds no entries, and the quorum comes after a `Submit` call. -/
def OneValueStep (S : Setup B) (h : Hist B) (t : Peer B) : Call ⊕ Item B → Prop
  | .inl (.submit v _) => t.ac.from = [] ∨ v = t.ac.value
  | .inl _ => True
  | .inr w => ∀ m, decode B t.id w.bytes = .ok (.submit m) → t.Accepts m →
      S.globals.confirmQuorum ≤ t.ac.from.length + 1 → ∃ v, Submits h v

/-- Every step of a history is of that kind. -/
def OneValueRun (S : Setup B) (i : Fin S.totalPeers) (h : Hist B) : Prop :=
  ∀ h₁ x h₂ t o, h = h₁ ++ x :: h₂ → (peerMachine S).Local ((peerMachine S).init i) h₁ t o →
    OneValueStep S h₁ t x

theorem OneValueRun.before (hr : OneValueRun S i (h ++ [x])) : OneValueRun S i h := by
  intro h₁ y h₂ t o hh hl
  exact hr h₁ y (h₂ ++ [x]) t o (by simp [hh]) hl

/-- **The entries of a peer are for its value**, which it has submitted if any. -/
structure OneValue (h : Hist B) (t : Peer B) : Prop where
  entry : ∀ m ∈ t.ac.partialSignature, m.value = t.ac.value
  value : (∃ v, Submits h v) → Submits h t.ac.value

theorem OneValue.keep (ho : OneValue h t) (hx : ∀ v, ¬ Submits [x] v)
    (h₁ : t'.ac.partialSignature = t.ac.partialSignature) (h₂ : t'.ac.value = t.ac.value) :
    OneValue (h ++ [x]) t' where
  entry m hm := by
    rw [h₁] at hm
    rw [h₂]
    exact ho.entry m hm
  value := by
    rintro ⟨v, hv⟩
    rw [h₂]
    exact (ho.value ⟨v, (submits_append_iff.mp hv).resolve_right (hx v)⟩).append _

theorem OneValue.submit (ho : OneValue h t) {v d : Int32}
    (hs : t.ac.partialSignature = [] ∨ v = t.ac.value) (h₁ : t'.ac.value = v)
    (h₂ : t'.ac.partialSignature = t.ac.partialSignature) :
    OneValue (h ++ [.inl (.submit v d)]) t' where
  entry m hm := by
    rw [h₂] at hm
    rw [h₁]
    rcases hs with hs | rfl
    · rw [hs] at hm
      cases hm
    · exact ho.entry m hm
  value _ := ⟨d, by simp [h₁]⟩

theorem OneValue.accept (ho : OneValue h t) {w : Item B} {m : SubmitMsg B} (ha : t.Accepts m)
    (h₁ : t'.ac.partialSignature = t.ac.partialSignature ++ [m]) (h₂ : t'.ac.value = t.ac.value) :
    OneValue (h ++ [.inr w]) t' where
  entry m' hm' := by
    rw [h₁] at hm'
    rw [h₂]
    rcases List.mem_append.mp hm' with hm' | hm'
    · exact ho.entry m' hm'
    · rw [List.mem_singleton.mp hm']
      exact ha.2.1.symm
  value := by
    rintro ⟨v, hv⟩
    rw [h₂]
    exact (ho.value ⟨v, (submits_append_iff.mp hv).resolve_right (not_submits_recv w v)⟩).append _

theorem OneValue.step (ho : OneValue h t) (hstore : Store S i h t o) (hc : OneValueStep S h t x)
    (hs : PeerStep S t x t' out) : OneValue (h ++ [x]) t' := by
  cases hs.entry with
  | submit v d hv hf hp =>
    refine ho.submit (hc.imp_left fun hempty => ?_) hv hp
    rwa [hstore.from_eq, List.map_eq_nil_iff] at hempty
  | accept w m hd ha hv hf hp => exact ho.accept ha hp hv
  | skip x hsub hno hv hf hp =>
    refine ho.keep (fun u hu => ?_) hp hv
    obtain ⟨d, hd⟩ := hu
    exact hsub u d (List.mem_singleton.mp hd).symm

theorem oneValue_local (hl : (peerMachine S).Local ((peerMachine S).init i) h t o)
    (hr : OneValueRun S i h) : OneValue h t := by
  induction hl with
  | nil => exact ⟨by simp [peerMachine, initPeer], by simp [Submits]⟩
  | @snoc h t o x t' out hl hs ih =>
    exact (ih hr.before).step (store_local hl) (hr h x [] t o rfl hl) (peerStep hs)

/-- **An aggregate signature is about one value**, when no `Submit` call changes the value of a peer
that has entries and the quorum comes after a `Submit` call: the entries are a quorum of distinct pids
with valid signatures, all over the value that the peer has submitted and announces. -/
theorem one_value (hl : (peerMachine S).Local ((peerMachine S).init i) h t o)
    (hs : (peerMachine S).localStep t x = some (t', out)) (hr : OneValueRun S i (h ++ [x]))
    (ha : Item.post (.aggSign d a) ∈ out) :
    (∀ m ∈ t'.ac.partialSignature, m.value = t'.ac.value ∧ shareVerify m = true) ∧
    Submits h t'.ac.value ∧ a.value = t'.ac.value ∧ t'.aggSignMsg = a ∧
    t'.ac.from = t'.ac.partialSignature.map SubmitMsg.pid ∧ t'.ac.from.Nodup ∧
    S.totalPeers - S.faulty ≤ t'.ac.from.length := by
  have hl' := hl.snoc hs
  have hstore := store_local hl'
  have hone := oneValue_local hl' hr
  obtain ⟨w, m, rfl, hd, hacc, hq, rfl, rfl⟩ := (peerStep hs).of_aggSign (outbox_local hl) ha
  have hsub := (oneValue_local hl hr.before).value (hr h _ [] t o rfl hl m hd hacc hq)
  refine ⟨fun m' hm' => ⟨hone.entry m' hm', (hstore.entry m' hm').1⟩, hsub, ?_, rfl, hstore.from_eq,
    hstore.nodup, ?_⟩
  · rw [certificate_accept]
    exact hacc.2.1.symm
  · rw [← S.confirmQuorum_eq]
    exact hstore.confirm.mp rfl

/-- A peer whose only `Submit` call comes first takes such steps only. -/
theorem oneValueRun_once (v d : Int32) (ws : List (Item B)) :
    OneValueRun S i (.inl (.submit v d) :: ws.map .inr) := by
  intro h₁ x h₂ t o hh hl
  cases h₁ with
  | nil =>
    cases hh
    rw [hl.eq_of_nil rfl]
    exact Or.inl rfl
  | cons y h₁ =>
    obtain ⟨rfl, htail⟩ := List.cons.inj hh
    have hx : x ∈ ws.map (Sum.inr : Item B → Call ⊕ Item B) := by rw [htail]; simp
    obtain ⟨w, -, rfl⟩ := List.mem_map.mp hx
    exact fun m _ _ _ => ⟨v, d, List.mem_cons_self⟩

/-- The submit message of a peer in `plainFourDirect`. -/
def sampleMsg (j : Fin plainFourDirect.totalPeers) (v : Int32) : Item plainBLS :=
  .post (.submit 0 (plainFourDirect.submission j v))

/-- Peer `0` submits `v`, and receives its own message and the one of peer `1`. -/
def sampleHist (v : Int32) : Hist plainBLS :=
  .inl (.submit v 0) :: [sampleMsg 0 v, sampleMsg 1 v].map .inr

def sampleRun (v : Int32) : Option (Peer plainBLS × List (Item plainBLS)) :=
  (peerMachine plainFourDirect).localRun ((peerMachine plainFourDirect).init 0) (sampleHist v)

theorem sampleRun_five : (sampleRun 5).isSome := by decide +kernel

/-- The message of peer `2` completes the quorum. -/
def sampleStep (v : Int32) (h : (sampleRun v).isSome) : Option (Peer plainBLS × List (Item plainBLS)) :=
  (peerMachine plainFourDirect).localStep ((sampleRun v).get h).1 (.inr (sampleMsg 2 v))

theorem sampleStep_five : (sampleStep 5 sampleRun_five).isSome := by decide +kernel

theorem localStep_sample {v : Int32} {hr : (sampleRun v).isSome} (hs : (sampleStep v hr).isSome) :
    (peerMachine plainFourDirect).localStep ((sampleRun v).get hr).1 (.inr (sampleMsg 2 v)) =
      some (((sampleStep v hr).get hs).1, ((sampleStep v hr).get hs).2) := by
  rw [Prod.mk.eta, Option.some_get]
  rfl

theorem one_value_five :
    (∀ m ∈ ((sampleStep 5 sampleRun_five).get sampleStep_five).1.ac.partialSignature, m.value = 5) ∧
    ((sampleStep 5 sampleRun_five).get sampleStep_five).1.aggSignMsg.value = 5 := by
  have ha : Item.post (.aggSign 0 _) ∈ ((sampleStep 5 sampleRun_five).get sampleStep_five).2 :=
    List.mem_of_getElem? (i := 0) rfl
  have hrun : OneValueRun plainFourDirect 0 (sampleHist 5 ++ [.inr (sampleMsg 2 5)]) :=
    oneValueRun_once 5 0 [sampleMsg 0 5, sampleMsg 1 5, sampleMsg 2 5]
  obtain ⟨hentry, -, hval, hmsg, -⟩ :=
    one_value (local_get sampleRun_five) (localStep_sample sampleStep_five) hrun ha
  have hac : ((sampleStep 5 sampleRun_five).get sampleStep_five).1.ac.value = 5 := by decide +kernel
  rw [hac] at hval
  refine ⟨fun m hm => (hentry m hm).1.trans hac, ?_⟩
  rw [hmsg]
  exact hval

/-- Peer `0` submits `5` and then `6`, with two entries for `5`. -/
def overwriteRun : List (Ev plainFourDirect) :=
  [.act 0 (.submit 5 0), .act 1 (.submit 5 0), .act 2 (.submit 6 0), .recv 0 0, .recv 0 1,
    .act 0 (.submit 6 0), .recv 0 2]

theorem overwriteRun_isSome : ((peerMachine _).run (peerMachine _).start overwriteRun).isSome := by
  decide +kernel

/-- **Two entries for `5` and one for `6` make an aggregate signature over `6`.** -/
theorem one_value_overwrite : ∃ a : SubmitAggSign plainBLS,
    (0, Item.post (.aggSign 0 a)) ∈ (((peerMachine _).run _ overwriteRun).get overwriteRun_isSome).wire ∧
    a.value = 6 ∧
    ((((peerMachine _).run _ overwriteRun).get overwriteRun_isSome).node 0).ac.partialSignature.map
      SubmitMsg.value = [5, 5, 6] :=
  ⟨_, List.mem_of_getElem? (i := 4) rfl, by decide +kernel, by decide +kernel⟩

/-! ## All signatures -/

/-- The array and the count that `GenerateAggSignature` passes to `AggSign`. -/
def aggSignArgs (p : Peer B) : List B.Signature × ℕ :=
  let submitValue := p.ac.partialSignature.foldl (fun _ elem => elem.value) 0
  (p.ac.partialSignature.map SubmitMsg.sig, (decInt submitValue.toInt).length)

theorem generateAggSignature_aggSig (p : Peer B) : (generateAggSignature p).aggSignMsg.aggSig =
    B.blsAggregateSignature (aggSignArgs p).1 (aggSignArgs p).2 := rfl

theorem aggSignArgs_accept (p : Peer B) (m : SubmitMsg B) : aggSignArgs (p.accept m) =
    ((p.ac.partialSignature ++ [m]).map SubmitMsg.sig, (decInt m.value.toInt).length) := by
  simp [aggSignArgs, Peer.accept]

section Sum

variable [AddCancelCommMonoid B.Signature]

/-- **The aggregate signature covers exactly the entries**: `AggSign` reads nothing outside its array,
and its result is the sum of all signatures in it. -/
structure Exact (p : Peer B) : Prop where
  inside : (aggSignArgs p).2 ≤ (aggSignArgs p).1.length
  sum : p.aggSignMsg.aggSig = (p.ac.partialSignature.map SubmitMsg.sig).sum

/-- **An aggregate signature covers exactly the entries** if and only if the printed value is not
longer than the list of entries, and the signatures beyond its length add up to nothing. -/
theorem aggregate_iff
    (hagg : ∀ (v : List B.Signature) (k : ℕ), k ≤ v.length →
      B.blsAggregateSignature v k = (v.take k).sum)
    (hl : (peerMachine S).Local ((peerMachine S).init i) h t o) {w : Item B} {m : SubmitMsg B}
    (hd : decode B t.id w.bytes = .ok (.submit m))
    (hs : (peerMachine S).localStep t (.inr w) = some (t', out))
    (ha : Item.post (.aggSign d a) ∈ out) :
    Exact t' ↔ (decInt t.ac.value.toInt).length ≤ (t.ac.partialSignature ++ [m]).length ∧
      (((t.ac.partialSignature ++ [m]).drop (decInt t.ac.value.toInt).length).map
        SubmitMsg.sig).sum = 0 := by
  obtain ⟨w', m', hw, hd', hacc, -, rfl, -⟩ := (peerStep hs).of_aggSign (outbox_local hl) ha
  cases hw
  rw [hd] at hd'
  cases hd'
  have hargs : aggSignArgs (t.accept m).confirmed = aggSignArgs (t.accept m) := rfl
  have hsig : (t.accept m).confirmed.aggSignMsg.aggSig =
      B.blsAggregateSignature (aggSignArgs (t.accept m)).1 (aggSignArgs (t.accept m)).2 :=
    generateAggSignature_aggSig (t.accept m)
  have hsum : ((t.accept m).confirmed.ac.partialSignature.map SubmitMsg.sig).sum =
      ((t.ac.partialSignature ++ [m]).map SubmitMsg.sig).sum := rfl
  rw [aggSignArgs_accept] at hargs hsig
  rw [hacc.2.1]
  generalize t.ac.partialSignature ++ [m] = ps at hargs hsig hsum ⊢
  generalize (decInt m.value.toInt).length = k at hargs hsig ⊢
  have hsplit := List.sum_take_add_sum_drop (ps.map SubmitMsg.sig) k
  have hiff : ((ps.map SubmitMsg.sig).take k).sum = (ps.map SubmitMsg.sig).sum ↔
      ((ps.drop k).map SubmitMsg.sig).sum = 0 := by
    rw [← hsplit, List.map_drop, left_eq_add]
  constructor
  · rintro ⟨hin, hs⟩
    rw [hargs, List.length_map] at hin
    rw [hsig, hagg _ _ (by rwa [List.length_map]), hsum] at hs
    exact ⟨hin, hiff.mp hs⟩
  · rintro ⟨hin, hz⟩
    refine ⟨by rwa [hargs, List.length_map], ?_⟩
    rw [hsig, hagg _ _ (by rwa [List.length_map]), hsum]
    exact hiff.mpr hz

end Sum

instance : AddCancelCommMonoid plainBLS.Signature := inferInstanceAs (AddCancelCommMonoid ℕ)

theorem sampleRun_three : (sampleRun 555).isSome := by decide +kernel

theorem sampleStep_three : (sampleStep 555 sampleRun_three).isSome := by decide +kernel

theorem aggregate_iff_three : Exact ((sampleStep 555 sampleRun_three).get sampleStep_three).1 := by
  have hd : decode plainBLS ((sampleRun 555).get sampleRun_three).1.id (sampleMsg 2 555).bytes =
      .ok (.submit ⟨0, 3, 555, (30000000555 : ℕ), (3 : ℕ)⟩) := rfl
  have ha : Item.post (.aggSign 0 _) ∈ ((sampleStep 555 sampleRun_three).get sampleStep_three).2 :=
    List.mem_of_getElem? (i := 0) rfl
  exact (aggregate_iff (fun _ _ _ => rfl) (local_get sampleRun_three) hd
    (localStep_sample sampleStep_three) ha).mpr ⟨by decide +kernel, rfl⟩

theorem sampleRun_six : (sampleRun 111111).isSome := by decide +kernel

theorem sampleStep_six : (sampleStep 111111 sampleRun_six).isSome := by decide +kernel

/-- **Six characters, three entries**: the count runs over the end of the array. -/
theorem aggregate_six : ¬ Exact ((sampleStep 111111 sampleRun_six).get sampleStep_six).1 ∧
    ∃ a : SubmitAggSign plainBLS,
      Item.post (.aggSign 0 a) ∈ ((sampleStep 111111 sampleRun_six).get sampleStep_six).2 := by
  refine ⟨fun h => ?_, _, List.mem_of_getElem? (i := 0) rfl⟩
  have hlt : ((aggSignArgs ((sampleStep 111111 sampleRun_six).get sampleStep_six).1).1.length <
      (aggSignArgs ((sampleStep 111111 sampleRun_six).get sampleStep_six).1).2) := by decide +kernel
  exact absurd h.inside (not_le.mpr hlt)

end Confirmer
