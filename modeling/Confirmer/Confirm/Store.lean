import Confirmer.Outbox

/-!
# What a confirmer stores

* `Submits`, `Current`: the values of a peer's `Submit` calls, and the value it compares with.
* **`Store`**, `store_local`: the entries of a peer in terms of what it has submitted and received,
  and the entries behind each aggregate signature that it has broadcast.
* **`Verdict`**, `verdict_local`: the received aggregate signatures, and what a conflict means.
-/

namespace Confirmer

open Text AsyncNet

variable {B : BLS} {S : Setup B} {i : Fin S.totalPeers} {h : Hist B} {t t' : Peer B}
  {o out : List (Item B)}

/-- The peer has called `Submit` with `v`. -/
def Submits (h : Hist B) (v : Int32) : Prop := ∃ d, Sum.inl (.submit v d) ∈ h

theorem Submits.append {v : Int32} (hv : Submits h v) (h' : Hist B) : Submits (h ++ h') v := by
  obtain ⟨d, hd⟩ := hv
  exact ⟨d, List.mem_append_left _ hd⟩

/-- The peer has called `Submit` with no other value than `v`. -/
def Sole (h : Hist B) (v : Int32) : Prop := ∀ v', Submits h v' → v' = v

theorem Sole.of_append {h' : Hist B} {v : Int32} (hv : Sole (h ++ h') v) : Sole h v :=
  fun _ hs => hv _ (hs.append h')

theorem submits_append_iff {h' : Hist B} {v : Int32} :
    Submits (h ++ h') v ↔ Submits h v ∨ Submits h' v := by
  simp [Submits, exists_or]

theorem not_submits_recv (w : Item B) (v : Int32) : ¬ Submits [Sum.inr w] v := by
  simp [Submits]

/-- `v` can be the value of the peer: the initial one or a submitted one, and the submitted one when
there is only one. -/
structure Current (h : Hist B) (v : Int32) : Prop where
  zero_or : v = 0 ∨ Submits h v
  sole : ∀ u, Sole h u → Submits h u → v = u

theorem current_nil : Current ([] : Hist B) 0 where
  zero_or := Or.inl rfl
  sole u _ hs := by
    obtain ⟨d, hd⟩ := hs
    cases hd

theorem Current.skip {v : Int32} {x : Call ⊕ Item B} (hv : Current h v) (hx : ∀ u, ¬ Submits [x] u) :
    Current (h ++ [x]) v where
  zero_or := hv.zero_or.imp_right fun hs => hs.append _
  sole u hu hs := hv.sole u hu.of_append ((submits_append_iff.mp hs).resolve_right (hx u))

theorem current_submit (h : Hist B) (v d : Int32) : Current (h ++ [.inl (.submit v d)]) v where
  zero_or := Or.inr ⟨d, by simp⟩
  sole u hu _ := hu v ⟨d, by simp⟩

/-- The peer has received the submit message `m` when it had its value. -/
def Heard (S : Setup B) (i : Fin S.totalPeers) (h : Hist B) (m : SubmitMsg B) : Prop :=
  ∃ h₁ w h₂, h = h₁ ++ Sum.inr w :: h₂ ∧ decode B (S.pid i) w.bytes = .ok (.submit m) ∧
    Current h₁ m.value

theorem Heard.append {m : SubmitMsg B} (hm : Heard S i h m) (h' : Hist B) :
    Heard S i (h ++ h') m := by
  obtain ⟨h₁, w, h₂, rfl, hd, hv⟩ := hm
  exact ⟨h₁, w, h₂ ++ h', by simp, hd, hv⟩

theorem Heard.mem {m : SubmitMsg B} (hm : Heard S i h m) :
    ∃ w, Sum.inr w ∈ h ∧ decode B (S.pid i) w.bytes = .ok (.submit m) := by
  obtain ⟨h₁, w, h₂, rfl, hd, -⟩ := hm
  exact ⟨w, by simp, hd⟩

theorem Heard.submits {m : SubmitMsg B} (hm : Heard S i h m) :
    m.value = 0 ∨ Submits h m.value := by
  obtain ⟨h₁, w, h₂, rfl, -, hv⟩ := hm
  exact hv.zero_or.imp_right fun hv => hv.append _

/-! ## Entries and certificates -/

/-- The entries behind an aggregate signature: a quorum of them, the last one with its value. After
a history with one submitted value only they agree with it, unless they are for the initial one. -/
structure Certified (S : Setup B) (h : Hist B) (ps : List (SubmitMsg B)) (a : SubmitAggSign B) :
    Prop where
  quorum : S.globals.confirmQuorum ≤ ps.length
  last : ∃ m, ps.getLast? = some m ∧ m.value = a.value
  agree : ∀ v, Sole h v → ∀ m ∈ ps, m.value ≠ 0 → m.value = a.value

theorem Certified.append {ps : List (SubmitMsg B)} {a : SubmitAggSign B} (hc : Certified S h ps a)
    (h' : Hist B) : Certified S (h ++ h') ps a :=
  { hc with agree := fun v hv => hc.agree v hv.of_append }

/-- **The store** of peer `i`. -/
structure Store (S : Setup B) (i : Fin S.totalPeers) (h : Hist B) (t : Peer B)
    (o : List (Item B)) : Prop where
  from_eq : t.ac.from = t.ac.partialSignature.map SubmitMsg.pid
  nodup : t.ac.from.Nodup
  value : Current h t.ac.value
  entry : ∀ m ∈ t.ac.partialSignature, shareVerify m = true ∧ Heard S i h m
  confirm : t.ac.confirm = true ↔ S.globals.confirmQuorum ≤ t.ac.from.length
  cert : ∀ d a, Item.post (.aggSign d a) ∈ o →
    ∃ ps, ps <+: t.ac.partialSignature ∧ Certified S h ps a

theorem store_nil : Store S i [] ((peerMachine S).init i) [] where
  from_eq := rfl
  nodup := List.nodup_nil
  value := current_nil
  entry := by simp [peerMachine, initPeer]
  confirm := by
    have := S.confirmQuorum_pos
    simp only [peerMachine, initPeer, List.length_nil, Bool.false_eq_true, false_iff]
    omega
  cert := by simp

theorem Store.keep (hs : Store S i h t o) (x : Call ⊕ Item B) (h₁ : t'.ac.from = t.ac.from)
    (h₂ : t'.ac.partialSignature = t.ac.partialSignature) (h₃ : t'.ac.confirm = t.ac.confirm)
    (hv : t'.ac.value = t.ac.value ∧ (∀ v, ¬ Submits [x] v) ∨ ∃ d, x = .inl (.submit t'.ac.value d))
    (hout : ∀ d a, Item.post (.aggSign d a) ∉ out) : Store S i (h ++ [x]) t' (o ++ out) where
  from_eq := by rw [h₁, h₂, hs.from_eq]
  nodup := h₁ ▸ hs.nodup
  value := by
    rcases hv with ⟨hv, hx⟩ | ⟨d, rfl⟩
    · exact hv ▸ hs.value.skip hx
    · exact current_submit h _ d
  entry m hm := by
    rw [h₂] at hm
    exact (hs.entry m hm).imp_right fun hr => hr.append _
  confirm := by rw [h₁, h₃, hs.confirm]
  cert d a hd := by
    rcases List.mem_append.mp hd with hd | hd
    · rw [h₂]
      obtain ⟨ps, hps, hc⟩ := hs.cert d a hd
      exact ⟨ps, hps, hc.append _⟩
    · exact absurd hd (hout d a)

/-- With one submitted value only, what is recorded now agrees with what was recorded before. -/
theorem Store.agree (hs : Store S i h t o) {v : Int32} (hv : Sole h v) {m : SubmitMsg B}
    (hm : m ∈ t.ac.partialSignature) (h0 : m.value ≠ 0) : m.value = t.ac.value := by
  have hsub := (hs.entry m hm).2.submits.resolve_left h0
  have heq := hv _ hsub
  rw [hs.value.sole v hv (heq ▸ hsub)]
  exact heq

/-- **A recorded entry keeps the store**; the peer confirms exactly with the quorum. -/
theorem Store.accept (hs : Store S i h t o) (hid : t.id = S.pid i) {w : Item B} {m : SubmitMsg B}
    {c : Bool} {a : SubmitAggSign B} (hd : decode B t.id w.bytes = .ok (.submit m))
    (ha : t.Accepts m) (hc : c = true ↔ S.globals.confirmQuorum ≤ t.ac.from.length + 1)
    (hout : ∀ d b, Item.post (.aggSign d b) ∈ out →
      S.globals.confirmQuorum ≤ t.ac.from.length + 1 ∧ b.value = m.value) :
    Store S i (h ++ [.inr w])
      { t.accept m with ac := { (t.accept m).ac with confirm := c }, aggSignMsg := a }
      (o ++ out) where
  from_eq := by simp [Peer.accept, hs.from_eq]
  nodup := by
    refine List.nodup_append.mpr ⟨hs.nodup, List.nodup_singleton _, ?_⟩
    rintro x hx y hy rfl
    rw [List.mem_singleton] at hy
    exact ha.2.2 (hy ▸ hx)
  value := hs.value.skip (not_submits_recv w)
  entry m' hm' := by
    rcases List.mem_append.mp hm' with hm' | hm'
    · exact (hs.entry m' hm').imp_right fun hr => hr.append _
    · rw [List.mem_singleton.mp hm']
      exact ⟨ha.1, h, w, [], rfl, hid ▸ hd, ha.2.1 ▸ hs.value⟩
  confirm := by simpa [Peer.accept] using hc
  cert d b hb := by
    rcases List.mem_append.mp hb with hb | hb
    · obtain ⟨ps, hps, hcert⟩ := hs.cert d b hb
      exact ⟨ps, hps.trans (List.prefix_append _ _), hcert.append _⟩
    · obtain ⟨hq, hv⟩ := hout d b hb
      have hlen : t.ac.from.length = t.ac.partialSignature.length := by
        rw [hs.from_eq, List.length_map]
      refine ⟨t.ac.partialSignature ++ [m], List.prefix_refl _, ?_, ⟨m, by simp, hv.symm⟩, ?_⟩
      · rwa [List.length_append, List.length_singleton, ← hlen]
      · intro v hsole m' hm' h0
        rw [hv]
        rcases List.mem_append.mp hm' with hm' | hm'
        · rw [hs.agree hsole.of_append hm' h0, ha.2.1]
        · rw [List.mem_singleton.mp hm']

theorem certificate_accept (t : Peer B) (m : SubmitMsg B) :
    (t.accept m).certificate.value = m.value := by
  simp [Peer.certificate, generateAggSignature, Peer.accept]

theorem Store.step {x : Call ⊕ Item B} (hs : Store S i h t o) (hi : Outbox S i h t o)
    (hx : PeerStep S t x t' out) : Store S i (h ++ [x]) t' (o ++ out) := by
  cases hx with
  | submitDirect v d hw hb =>
    exact hs.keep _ rfl rfl rfl (Or.inr ⟨d, rfl⟩) (by simp)
  | submitGated v d hw hb =>
    exact hs.keep _ rfl rfl rfl (Or.inr ⟨d, rfl⟩) (by simp)
  | leaveWaiting m hm hd =>
    obtain ⟨v, d, rfl, -⟩ := hi.waiting m hm
    exact hs.keep _ rfl rfl rfl (Or.inl ⟨rfl, by simp [Submits]⟩) (by simp)
  | checkIfReady hq hd => exact hs.keep _ rfl rfl rfl (Or.inl ⟨rfl, by simp [Submits]⟩) (by simp)
  | deliver w m hd =>
    obtain ⟨rb, hrb⟩ := dispatch_frame (G := S.globals) (p := t) (m := m)
    refine hs.keep _ (by rw [hrb]) (by rw [hrb]) (by rw [hrb])
      (Or.inl ⟨by rw [hrb], not_submits_recv w⟩) ?_
    intro d a hda
    obtain ⟨m', heq⟩ := rb_of_mem_dispatch hda
    cases heq
  | accept w m hd ha hq =>
    refine hs.accept (c := t.ac.confirm) (a := t.aggSignMsg) hi.id hd ha ?_ (by simp)
    rw [hs.confirm]
    omega
  | confirm w m hd ha hq =>
    refine hs.accept (c := true) (a := (t.accept m).certificate) hi.id hd ha (by simpa using hq) ?_
    intro d b hb
    rw [List.mem_singleton] at hb
    cases hb
    exact ⟨hq, certificate_accept t m⟩
  | reject w m hd ha => exact hs.keep _ rfl rfl rfl (Or.inl ⟨rfl, not_submits_recv w⟩) (by simp)
  | obtain w m hd =>
    rw [checkRecvAggSignature_eq]
    exact hs.keep _ rfl rfl rfl (Or.inl ⟨rfl, not_submits_recv w⟩) (by simp)
  | ignore w hd => exact hs.keep _ rfl rfl rfl (Or.inl ⟨rfl, not_submits_recv w⟩) (by simp)

theorem store_local (hl : (peerMachine S).Local ((peerMachine S).init i) h t o) :
    Store S i h t o := by
  induction hl with
  | nil => exact store_nil
  | snoc hl hs ih => exact ih.step (outbox_local hl) (peerStep hs)

/-! ## Received aggregate signatures -/

/-- The peer has received the aggregate signature `a`. -/
def Obtains (S : Setup B) (i : Fin S.totalPeers) (h : Hist B) (a : SubmitAggSign B) : Prop :=
  ∃ w, Sum.inr w ∈ h ∧ decode B (S.pid i) w.bytes = .ok (.aggSign a)

theorem Obtains.append {a : SubmitAggSign B} (ha : Obtains S i h a) (h' : Hist B) :
    Obtains S i (h ++ h') a := by
  obtain ⟨w, hw, hd⟩ := ha
  exact ⟨w, List.mem_append_left _ hw, hd⟩

/-- **The verdict** of peer `i`: a detected conflict is one between two aggregate signatures that it
has received. -/
structure Verdict (S : Setup B) (i : Fin S.totalPeers) (h : Hist B) (t : Peer B) : Prop where
  obtained : ∀ a ∈ t.ac.obtainedAggSignature, Obtains S i h a
  conflict : t.detectConflict = true →
    ∃ a ∈ t.ac.obtainedAggSignature, ∃ b ∈ t.ac.obtainedAggSignature, a.value ≠ b.value

theorem Verdict.keep (hv : Verdict S i h t) (x : Call ⊕ Item B)
    (h₁ : t'.ac.obtainedAggSignature = t.ac.obtainedAggSignature)
    (h₂ : t'.detectConflict = t.detectConflict) : Verdict S i (h ++ [x]) t' where
  obtained a ha := (hv.obtained a (h₁ ▸ ha)).append _
  conflict hc := by
    rw [h₁]
    exact hv.conflict (h₂ ▸ hc)

theorem Verdict.step {x : Call ⊕ Item B} (hv : Verdict S i h t) (hid : t.id = S.pid i)
    (hx : PeerStep S t x t' out) : Verdict S i (h ++ [x]) t' := by
  rcases hx.verdict with ⟨hobtained, hdetect, -, -⟩ | ⟨w, a, rfl, hd, rfl⟩
  · exact hv.keep _ hobtained hdetect
  · rw [checkRecvAggSignature_eq]
    constructor
    · intro b hb
      rcases List.mem_append.mp hb with hb | hb
      · exact (hv.obtained b hb).append _
      · rw [List.mem_singleton.mp hb]
        exact ⟨w, by simp, hid ▸ hd⟩
    · intro hc
      rcases (Bool.or_eq_true _ _).mp hc with hc | hc
      · obtain ⟨a, ha, b, hb, hne⟩ := hv.conflict hc
        exact ⟨a, List.mem_append_left _ ha, b, List.mem_append_left _ hb, hne⟩
      · exact conflicting_iff.mp ((Bool.and_eq_true _ _).mp hc).2

theorem verdict_local (hl : (peerMachine S).Local ((peerMachine S).init i) h t o) :
    Verdict S i h t := by
  induction hl with
  | nil => exact ⟨by simp [peerMachine, initPeer], by simp [peerMachine, initPeer]⟩
  | snoc hl hs ih => exact ih.step (outbox_local hl).id (peerStep hs)

end Confirmer
