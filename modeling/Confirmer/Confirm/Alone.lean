import Confirmer.Confirm.Agreement

/-!
# The confirmer on its own

A peer runs two protocols on one struct. The confirmer takes in the calls of `Submit` and the messages that
the parser reads as submit messages or aggregate signatures, and nothing else.

* `ConfirmerInput`, `confirmerInputs`: what the confirmer takes in of a history.
* `Confirmation`, `Confirmation.after`: the confirmer without the rest of the peer;
  **`confirmation_local`**: every peer contains it.
* **`confirmer_independent`**: the reliable broadcast does not interfere.
-/

namespace Confirmer

open Text AsyncNet

variable {B : BLS}

/-! ## Inputs -/

/-- What the confirmer takes in: a value to submit, a submit message, an aggregate signature. -/
inductive ConfirmerInput (B : BLS)
  | submit (value : Int32)
  | hear (m : SubmitMsg B)
  | obtain (m : SubmitAggSign B)

/-- What the confirmer takes in of a message that was read. -/
def Incoming.toConfirmer : Incoming B → Option (ConfirmerInput B)
  | .submit m => some (.hear m)
  | .aggSign m => some (.obtain m)
  | _ => none

/-- What the confirmer of the peer `id` takes in of a step. -/
def confirmerInput (id : Int32) : Call ⊕ Item B → Option (ConfirmerInput B)
  | .inl (.submit value _) => some (.submit value)
  | .inl _ => none
  | .inr w => (decode B id w.bytes).toOption.bind Incoming.toConfirmer

def confirmerInputs (id : Int32) (h : Hist B) : List (ConfirmerInput B) := h.filterMap (confirmerInput id)

theorem confirmerInput_recv {id : Int32} {w : Item B} {inc : Incoming B}
    (hd : decode B id w.bytes = .ok inc) : confirmerInput id (.inr w) = inc.toConfirmer := by
  show (decode B id w.bytes).toOption.bind Incoming.toConfirmer = _
  rw [hd]
  rfl

/-- The aggregate signature of a post. -/
def Post.cert : Post B → Option (SubmitAggSign B)
  | .aggSign _ m => some m
  | _ => none

/-- The aggregate signature that is posted with an item. -/
def Item.cert : Item B → Option (SubmitAggSign B)
  | .post m => m.cert
  | .raw _ => none

/-- The aggregate signatures among the posts of a peer. -/
def certs (o : List (Item B)) : List (SubmitAggSign B) := o.filterMap Item.cert

theorem certs_append (o o' : List (Item B)) : certs (o ++ o') = certs o ++ certs o' :=
  List.filterMap_append

/-! ## The abstract confirmer -/

/-- The aggregate signature of the peer `id` over its entries. -/
def certificateOf (id : Int32) (entries : List (SubmitMsg B)) : SubmitAggSign B :=
  let value := entries.foldl (fun _ m => m.value) 0
  { type := MessageType.aggSign, pid := id, value := value
    aggSig := B.blsAggregateSignature (entries.map SubmitMsg.sig) (decInt value.toInt).length }

/-- **The confirmer without the rest of the peer**: its record, its verdict, and the aggregate signatures
that it has broadcast. -/
structure Confirmation (B : BLS) where
  ac : AccountableConfirmer B := {}
  detectConflict : Bool := false
  certs : List (SubmitAggSign B) := []

namespace Confirmation

/-- The confirmer with one more entry. -/
def record (s : Confirmation B) (m : SubmitMsg B) : AccountableConfirmer B :=
  { s.ac with «from» := s.ac.from ++ [m.pid], partialSignature := s.ac.partialSignature ++ [m] }

/-- One input. -/
def after (quorum : ℕ) (id : Int32) (s : Confirmation B) : ConfirmerInput B → Confirmation B
  | .submit value => { s with ac := { s.ac with value := value } }
  | .hear m =>
    if shareVerify m = true ∧ s.ac.value = m.value ∧ m.pid ∉ s.ac.from then
      if quorum ≤ s.ac.from.length + 1 then
        { s with
          ac := { s.record m with confirm := true }
          certs := s.certs ++ [certificateOf id (s.ac.partialSignature ++ [m])] }
      else { s with ac := s.record m }
    else s
  | .obtain m =>
    { s with
      ac := { s.ac with obtainedAggSignature := s.ac.obtainedAggSignature ++ [m] }
      detectConflict := s.detectConflict ||
        (s.ac.confirm && conflicting (s.ac.obtainedAggSignature ++ [m])) }

end Confirmation

/-- The confirmer of a peer that has posted `o`. -/
def Peer.confirmation (t : Peer B) (o : List (Item B)) : Confirmation B := ⟨t.ac, t.detectConflict, certs o⟩

section

variable {S : Setup B} {i : Fin S.totalPeers} {h : Hist B} {t t' : Peer B} {o out : List (Item B)}
  {x : Call ⊕ Item B}

theorem confirmation_skip (hac : t'.ac = t.ac) (hd : t'.detectConflict = t.detectConflict)
    (hout : certs out = []) : t'.confirmation (o ++ out) = t.confirmation o := by
  simp only [Peer.confirmation, hac, hd, certs_append, hout, List.append_nil]

/-- **A step of a peer is one of its confirmer**, or none. -/
theorem PeerStep.confirmation (hi : Outbox S i h t o) (hs : PeerStep S t x t' out) :
    t'.confirmation (o ++ out) = (confirmerInput t.id x).toList.foldl
      (Confirmation.after S.globals.confirmQuorum t.id) (t.confirmation o) := by
  cases hs with
  | submitDirect v d hw hb =>
    rw [Peer.confirmation, certs_append]
    exact congrArg (Confirmation.mk _ _) (List.append_nil _)
  | submitGated v d hw hb =>
    rw [Peer.confirmation, certs_append]
    exact congrArg (Confirmation.mk _ _) (List.append_nil _)
  | leaveWaiting m hm hd =>
    obtain ⟨v, d, rfl, -⟩ := hi.waiting m hm
    exact confirmation_skip rfl rfl rfl
  | checkIfReady hq hd => exact confirmation_skip rfl rfl rfl
  | deliver w m hd =>
    obtain ⟨rb, hrb⟩ := dispatch_frame (G := S.globals) (p := t) (m := m)
    rw [confirmerInput_recv hd]
    refine confirmation_skip (by rw [hrb]) (by rw [hrb]) (List.filterMap_eq_nil_iff.mpr fun w hw => ?_)
    obtain ⟨m', rfl⟩ := rb_of_mem_dispatch hw
    rfl
  | accept w m hd ha hq =>
    rw [confirmerInput_recv hd]
    show _ = Confirmation.after S.globals.confirmQuorum t.id (t.confirmation o) (.hear m)
    have hpass : shareVerify m = true ∧ (t.confirmation o).ac.value = m.value ∧
        m.pid ∉ (t.confirmation o).ac.from := ha
    have hfew : ¬ S.globals.confirmQuorum ≤ (t.confirmation o).ac.from.length + 1 := not_le.mpr hq
    rw [Confirmation.after, if_pos hpass, if_neg hfew, List.append_nil]
    rfl
  | confirm w m hd ha hq =>
    rw [confirmerInput_recv hd]
    show _ = Confirmation.after S.globals.confirmQuorum t.id (t.confirmation o) (.hear m)
    have hpass : shareVerify m = true ∧ (t.confirmation o).ac.value = m.value ∧
        m.pid ∉ (t.confirmation o).ac.from := ha
    have hmany : S.globals.confirmQuorum ≤ (t.confirmation o).ac.from.length + 1 := hq
    rw [Confirmation.after, if_pos hpass, if_pos hmany, Peer.confirmation, certs_append]
    rfl
  | reject w m hd ha =>
    rw [confirmerInput_recv hd]
    show _ = Confirmation.after S.globals.confirmQuorum t.id (t.confirmation o) (.hear m)
    have hfail : ¬ (shareVerify m = true ∧ (t.confirmation o).ac.value = m.value ∧
        m.pid ∉ (t.confirmation o).ac.from) := ha
    rw [Confirmation.after, if_neg hfail, List.append_nil]
  | obtain w m hd =>
    rw [confirmerInput_recv hd, checkRecvAggSignature_eq, List.append_nil]
    rfl
  | ignore w hd =>
    rw [confirmerInput_recv hd, List.append_nil]
    rfl

/-- **A peer contains the abstract confirmer**: its record, its verdict and the aggregate signatures that it
has broadcast are those of the abstract one after the same inputs. -/
theorem confirmation_local (hl : (peerMachine S).Local ((peerMachine S).init i) h t o) :
    t.confirmation o = (confirmerInputs (S.pid i) h).foldl
      (Confirmation.after S.globals.confirmQuorum (S.pid i)) {} := by
  induction hl with
  | nil => rfl
  | @snoc h t o x t' out hl hs ih =>
    have hi := outbox_local hl
    have hsnoc : confirmerInputs (S.pid i) (h ++ [x]) =
        confirmerInputs (S.pid i) h ++ (confirmerInput (S.pid i) x).toList := by
      rw [confirmerInputs, List.filterMap_append]
      cases hx : confirmerInput (S.pid i) x <;> simp [confirmerInputs, hx]
    rw [(peerStep hs).confirmation hi, hi.id, ih, hsnoc, List.foldl_append]

/-- **The reliable broadcast does not interfere.** Of two peers with one identity among as many peers, with
or without the broadcast in front of their submissions, which have taken in the same calls of `Submit`,
submit messages and aggregate signatures, whatever else they have done and received in between, both have
the same record, the same verdict, and have broadcast the same aggregate signatures. -/
theorem confirmer_independent {S' : Setup B} {i' : Fin S'.totalPeers} {h' : Hist B} {o' : List (Item B)}
    (hl : (peerMachine S).Local ((peerMachine S).init i) h t o)
    (hl' : (peerMachine S').Local ((peerMachine S').init i') h' t' o')
    (hpeers : S'.totalPeers = S.totalPeers) (hid : S'.pid i' = S.pid i)
    (hin : confirmerInputs (S.pid i) h' = confirmerInputs (S.pid i) h) :
    t'.ac = t.ac ∧ t'.detectConflict = t.detectConflict ∧ certs o' = certs o := by
  have hglobals : S'.globals = S.globals := by rw [Setup.globals, hpeers, Setup.globals]
  have heq : t'.confirmation o' = t.confirmation o := by
    rw [confirmation_local hl', confirmation_local hl, hid, hin, hglobals]
  rw [Peer.confirmation, Peer.confirmation, Confirmation.mk.injEq] at heq
  exact heq

end

/-- The message of peer `j` for `5`. -/
def aloneMsg (j : Fin plainFourDirect.totalPeers) : Item plainBLS :=
  .post (.submit 0 (plainFourDirect.submission j 5))

def directRun : Option (Peer plainBLS × List (Item plainBLS)) :=
  (peerMachine plainFourDirect).localRun ((peerMachine plainFourDirect).init 0)
    [.inl (.submit 5 0), .inr (aloneMsg 0), .inr (aloneMsg 1)]

/-- The same inputs, with the broadcast in front of the submission and two messages of peer `1` in between. -/
def gatedRun : Option (Peer plainBLS × List (Item plainBLS)) :=
  (peerMachine plainFour).localRun ((peerMachine plainFour).init 0)
    [.inl (.submit 5 0), .inr (.post (.rb ⟨MessageType.send.toInt32, 1, [52]⟩)), .inr (aloneMsg 0),
      .inr (.post (.rb ⟨MessageType.echo.toInt32, 1, [52]⟩)), .inr (aloneMsg 1)]

theorem aloneRuns_isSome : directRun.isSome ∧ gatedRun.isSome := by decide +kernel

theorem confirmer_independent_gatedRun :
    (gatedRun.get aloneRuns_isSome.2).1.ac = (directRun.get aloneRuns_isSome.1).1.ac :=
  (confirmer_independent (local_get aloneRuns_isSome.1) (local_get aloneRuns_isSome.2) rfl rfl rfl).1

end Confirmer
