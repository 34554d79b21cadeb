import Confirmer.Config
import Confirmer.Step
import Confirmer.Lib.Lts

/-!
# Starting a peer

What `main` does with its configuration: `InitPeer` starts a client for each of `totalPeers` servers, and
from then on everything the peer posts goes through the client of its own server, number `id - 1`.

* `client`, `initClients`, `startUp`: the accesses up to the end of `InitPeer`.
* `Process`, `Process.step`: the submissions of `main`, and the rounds of the other threads.
* `Process.HasClient`, `hasClient_run`: the client is there whenever a step may post.
* **`startUp_in_bounds_iff`**: which files the program can be started with.
-/

namespace Confirmer

open Lts

variable {B : BLS}

abbrev MAX_PEERS_NUMBER : ℕ := 20

/-- `p->clients[index]`. -/
def client (index : Int32) : Except Access Unit :=
  if 0 ≤ index.toInt ∧ index.toInt < MAX_PEERS_NUMBER then .ok () else .error (.client index)

/-- The loop of `InitPeer` over the clients, in its round `i` with `k` rounds to go. `InitClient` does not
return before the thread of its client runs. -/
def initClients (i : Int32) : ℕ → Except Access Unit
  | 0 => .ok ()
  | k + 1 => do
    client i
    initClients (i + 1) k

/-- A program that has started: its counts, its peer, and the calls of `Submit` that `main` has still to
make. -/
structure Process (B : BLS) where
  globals : Globals
  peer : Peer B
  todo : List (Int32 × Int32)

/-- The program behind `InitPeer`; `isReliableBroadcast` is `1`. -/
def Config.start (config : Config) (sec : B.SecretKey) : Process B where
  globals := initGlobals config.totalPeers
  peer := initPeer config.id 1 sec
  todo := config.submitValue.zip config.sendto

/-- `main` up to its first call of `Submit`. -/
def startUp (sec : B.SecretKey) (file : Option Bytes) : Except Access (Process B) := do
  let config ← readConfig file
  initClients 0 config.totalPeers.toInt.toNat
  return config.start sec

/-- What happens in a started program: `main` calls `Submit` or leaves the waiting loop, and the other
threads do a round of `CheckIfReady` or of `ParseMessage`. -/
inductive ProcessEvent
  | submit
  | leaveWaiting
  | checkIfReady
  | receive (message : Bytes)
  deriving DecidableEq

/-- The end of a handler: each of its posts goes through `p->clients[p->id - 1]`. -/
def Process.post (s : Process B) (r : Peer B × List (Post B)) : Except Access (Process B) := do
  forM r.2 fun _ => client (r.1.id - 1)
  return { s with peer := r.1 }

/-- **One step of a started program.** Messages come from its clients only; a string on which the parser
faults is never processed. -/
def Process.step (s : Process B) : ProcessEvent → Option (Except Access (Process B))
  | .submit =>
    match s.todo with
    | [] => none
    | (value, dest) :: todo =>
      (peerAct s.globals s.peer (.submit value dest)).map { s with todo := todo }.post
  | .leaveWaiting => (peerAct s.globals s.peer .leaveWaiting).map s.post
  | .checkIfReady => (peerAct s.globals s.peer .checkIfReady).map s.post
  | .receive message =>
    if 0 < s.globals.NUMBER_OF_PROCESSES.toInt then
      (parseMessage s.globals s.peer message).toOption.map s.post
    else none

/-- Nothing follows an access beyond an array. -/
def stepOk (s : Except Access (Process B)) (e : ProcessEvent) : Option (Except Access (Process B)) :=
  s.toOption.bind fun s => s.step e

/-- **No access is beyond its array**, at the start and in everything that may follow. -/
def StaysInBounds (sec : B.SecretKey) (file : Option Bytes) : Prop :=
  ∀ es s, Run stepOk (startUp sec file) es s → ∃ t, s = .ok t

/-! ## Clients -/

theorem client_ok {index : Int32} (h : 0 ≤ index.toInt ∧ index.toInt < MAX_PEERS_NUMBER) :
    client index = .ok () := if_pos h

theorem client_error {index : Int32} (h : ¬ (0 ≤ index.toInt ∧ index.toInt < MAX_PEERS_NUMBER)) :
    client index = .error (.client index) := if_neg h

theorem client_own (id : Int32) :
    client (id - 1) = .ok () ↔ 1 ≤ id.toInt ∧ id.toInt ≤ MAX_PEERS_NUMBER := by
  have h₁ := id.le_toInt
  have h₂ := id.toInt_lt
  have hmax : MAX_PEERS_NUMBER = 20 := rfl
  have hsub : (id - 1).toInt = (id.toInt - 1).bmod (2 ^ 32) := Int32.toInt_sub id 1
  rw [Int.bmod] at hsub
  have hrange : 0 ≤ (id - 1).toInt ∧ (id - 1).toInt < MAX_PEERS_NUMBER ↔
      1 ≤ id.toInt ∧ id.toInt ≤ MAX_PEERS_NUMBER := by
    rw [hsub]
    split_ifs with h <;> omega
  rw [← hrange]
  by_cases h : 0 ≤ (id - 1).toInt ∧ (id - 1).toInt < MAX_PEERS_NUMBER
  · exact iff_of_true (client_ok h) h
  · rw [client_error h]
    exact iff_of_false (fun he => by cases he) h

theorem initClients_ok {i k : ℕ} (h : i + k ≤ MAX_PEERS_NUMBER) :
    initClients (Int32.ofNat i) k = .ok () := by
  induction k generalizing i with
  | zero => rfl
  | succ k ih =>
    have hmax : MAX_PEERS_NUMBER = 20 := rfl
    have hi : (Int32.ofNat i).toInt = i := Int32.toInt_ofNat_of_lt (by omega)
    have hrest := ih (i := i + 1) (by omega)
    rw [Int32.ofNat_add] at hrest
    rw [initClients, client_ok (by omega)]
    exact hrest

theorem initClients_error {i k : ℕ} (hi : i ≤ MAX_PEERS_NUMBER) (h : MAX_PEERS_NUMBER < i + k) :
    initClients (Int32.ofNat i) k = .error (.client 20) := by
  induction k generalizing i with
  | zero => omega
  | succ k ih =>
    have hmax : MAX_PEERS_NUMBER = 20 := rfl
    have hint : (Int32.ofNat i).toInt = i := Int32.toInt_ofNat_of_lt (by omega)
    by_cases hlt : i < MAX_PEERS_NUMBER
    · have hrest := ih (i := i + 1) hlt (by omega)
      rw [Int32.ofNat_add] at hrest
      rw [initClients, client_ok (by omega)]
      exact hrest
    · obtain rfl : i = 20 := by omega
      rfl

/-! ## The peer of a process -/

section

variable {G : Globals} {p : Peer B}

theorem receive_id (inc : Incoming B) : (receive G p inc).1.id = p.id := by
  cases inc with
  | rb m =>
    obtain ⟨rb, hrb⟩ := dispatch_frame (G := G) (p := p) (m := m)
    rw [receive, hrb]
  | submit m =>
    rw [receive, submitMsgVerify_eq]
    split_ifs
    · rw [checkRecvMsg_eq]
      split_ifs <;> rfl
    · rfl
  | aggSign m => rw [receive, checkRecvAggSignature_eq]
  | ignored => rfl

end

/-! ## Where a post may come -/

/-- **The peer's own client is there** while it may post: while a submission is to be made or waits, or
messages come in. -/
def Process.HasClient (s : Process B) : Prop :=
  s.todo ≠ [] ∨ s.peer.waiting ≠ none ∨ 0 < s.globals.NUMBER_OF_PROCESSES.toInt →
    client (s.peer.id - 1) = .ok ()

section

variable {s : Process B} {e : ProcessEvent} {r : Peer B × List (Post B)}

theorem post_ok (h : client (r.1.id - 1) = .ok ()) : s.post r = .ok { s with peer := r.1 } := by
  have hall : forM r.2 (fun _ => client (r.1.id - 1)) = .ok () := by
    rw [h]
    induction r.2 with
    | nil => rfl
    | cons m out ih => exact ih
  rw [Process.post, hall]
  rfl

theorem post_error {m : Post B} {out : List (Post B)} (hr : r.2 = m :: out)
    (h : client (r.1.id - 1) ≠ .ok ()) : ∃ a, s.post r = .error a := by
  rw [Process.post, hr, List.forM_cons]
  cases hc : client (r.1.id - 1) with
  | ok u => exact absurd hc h
  | error a => exact ⟨a, rfl⟩

theorem hasClient_post (hid : r.1.id = s.peer.id) (hc : client (s.peer.id - 1) = .ok ()) :
    ∃ t, s.post r = .ok t ∧ t.HasClient := by
  rw [← hid] at hc
  exact ⟨_, post_ok hc, fun _ => hc⟩

theorem Process.HasClient.step (h : s.HasClient) {x : Except Access (Process B)}
    (hs : s.step e = some x) : ∃ t, x = .ok t ∧ t.HasClient := by
  cases e with
  | submit =>
    unfold Process.step at hs
    cases htodo : s.todo with
    | nil =>
      rw [htodo] at hs
      cases hs
    | cons vd todo =>
      rw [htodo] at hs
      obtain ⟨r, hr, rfl⟩ := Option.map_eq_some_iff.mp hs
      have hc := h (Or.inl (by rw [htodo]; exact List.cons_ne_nil _ _))
      exact hasClient_post (peerAct_frame hr).1 hc
  | leaveWaiting =>
    obtain ⟨r, hr, rfl⟩ := Option.map_eq_some_iff.mp hs
    obtain ⟨m, hm, -, -⟩ := leaveWaiting_eq_some.mp hr
    have hc := h (Or.inr (Or.inl (by rw [hm]; exact Option.some_ne_none m)))
    exact hasClient_post (peerAct_frame hr).1 hc
  | checkIfReady =>
    -- nothing is posted, and the peer goes on waiting
    obtain ⟨r, hr, rfl⟩ := Option.map_eq_some_iff.mp hs
    obtain ⟨p, hp, rfl⟩ := Option.map_eq_some_iff.mp hr
    obtain ⟨-, -, rfl⟩ := checkIfReady_eq_some.mp hp
    exact ⟨_, rfl, h⟩
  | receive message =>
    unfold Process.step at hs
    split_ifs at hs with hpos
    obtain ⟨r, hr, rfl⟩ := Option.map_eq_some_iff.mp hs
    have hc := h (Or.inr (Or.inr hpos))
    cases hparse : parseMessage s.globals s.peer message with
    | error f =>
      rw [hparse] at hr
      cases hr
    | ok r' =>
      rw [hparse] at hr
      cases hr
      obtain ⟨inc, -, rfl⟩ := parseMessage_eq_ok hparse
      exact hasClient_post (receive_id inc) hc

theorem hasClient_run (h : s.HasClient) {es : List ProcessEvent} {x : Except Access (Process B)}
    (hr : Run stepOk (.ok s) es x) : ∃ t, x = .ok t ∧ t.HasClient := by
  refine hr.invariant (I := fun _ x => ∃ t, x = .ok t ∧ t.HasClient) ⟨s, rfl, h⟩ ?_
  rintro _ _ e x' ⟨t, rfl, ht⟩ hs
  exact ht.step hs

end

/-! ## Files to start with -/

/-- The configuration in a file. -/
def fileConfig (file : Option Bytes) : Config := configOf fun r => rowOf r (textOf file)

/-- **A sound file**: its configuration fits, there are clients for all its peers, and the peer's own
client is one of them if something is to be submitted or there is anybody to answer. -/
structure Sound (file : Option Bytes) : Prop where
  fits : ConfigFits file
  clients : (fileConfig file).totalPeers.toInt ≤ MAX_PEERS_NUMBER
  own : (fileConfig file).submitValue ≠ [] ∨ 0 < (fileConfig file).totalPeers.toInt →
    1 ≤ (fileConfig file).id.toInt ∧ (fileConfig file).id.toInt ≤ MAX_PEERS_NUMBER

theorem length_sendto {row : ℕ → List Int32} (h : ColumnsFit row) :
    (configOf row).sendto.length = (configOf row).submitValue.length := by
  obtain ⟨-, -, -, hsize⟩ := h
  simp only [configOf, List.length_take, List.length_drop]
  by_cases hk : sizeOf row = 0
  · omega
  · obtain ⟨⟨h₂, -⟩, h₃, -⟩ := hsize hk
    omega

section

variable {sec : B.SecretKey} {file : Option Bytes} {s : Process B}

/-- There is something to submit as soon as there is a value. -/
theorem todo_ne_nil (h : ConfigFits file) :
    ((fileConfig file).start sec).todo ≠ [] ↔ (fileConfig file).submitValue ≠ [] := by
  have hlen : (fileConfig file).sendto.length = (fileConfig file).submitValue.length :=
    length_sendto h.2
  rw [Config.start, ne_eq, List.zip_eq_nil_iff, ← List.length_eq_zero_iff,
    ← List.length_eq_zero_iff (l := (fileConfig file).sendto), hlen, or_self, List.length_eq_zero_iff]

theorem startUp_ok (h : ConfigFits file)
    (hc : (fileConfig file).totalPeers.toInt ≤ MAX_PEERS_NUMBER) :
    startUp sec file = .ok ((fileConfig file).start sec) := by
  have hclients : initClients 0 (fileConfig file).totalPeers.toInt.toNat = .ok () :=
    initClients_ok (i := 0) (by omega)
  rw [startUp, readConfig_ok h]
  show (initClients 0 (fileConfig file).totalPeers.toInt.toNat >>= _) = _
  rw [hclients]
  rfl

theorem startUp_error (h : ¬ (ConfigFits file ∧
    (fileConfig file).totalPeers.toInt ≤ MAX_PEERS_NUMBER)) :
    ∃ a, startUp sec file = .error a := by
  unfold startUp
  by_cases hfits : ConfigFits file
  · have hmany := not_le.mp fun hc => h ⟨hfits, hc⟩
    have hclients : initClients 0 (fileConfig file).totalPeers.toInt.toNat = .error (.client 20) :=
      initClients_error (i := 0) (Nat.zero_le _) (by omega)
    rw [readConfig_ok hfits]
    refine ⟨.client 20, ?_⟩
    show (initClients 0 (fileConfig file).totalPeers.toInt.toNat >>= _) = _
    rw [hclients]
    rfl
  · obtain ⟨a, ha⟩ := readConfig_error hfits
    exact ⟨a, by rw [ha]; rfl⟩

theorem submit_error (htodo : s.todo ≠ []) (hw : s.peer.waiting = none)
    (hb : s.peer.isReliableBroadcast ≠ 0) (hc : client (s.peer.id - 1) ≠ .ok ()) :
    ∃ a, s.step .submit = some (.error a) := by
  obtain ⟨⟨value, dest⟩, todo, hcons⟩ := List.exists_cons_of_ne_nil htodo
  have hact : peerAct s.globals s.peer (.submit value dest) = some (submit s.peer value dest) := by
    rw [peerAct, hw]
    rfl
  have hpost : (submit s.peer value dest).2 = [.rb (s.peer.announcement value dest)] := by
    rw [submit_gated hb]
  have hid := (peerAct_frame hact).1
  obtain ⟨a, ha⟩ := post_error (s := { s with todo := todo }) hpost (by rwa [hid])
  refine ⟨a, ?_⟩
  simp only [Process.step, hcons, hact, Option.map_some, ha]

/-- The string of a `SEND` of peer `1`. -/
def sendText : Bytes := serializeRB ⟨MessageType.send, 1, [52]⟩

theorem receive_error (hpos : 0 < s.globals.NUMBER_OF_PROCESSES.toInt)
    (he : s.peer.rb.sentecho = false) (hc : client (s.peer.id - 1) ≠ .ok ()) :
    ∃ a, s.step (.receive sendText) = some (.error a) := by
  have hparse : ∃ content, parseMessage s.globals s.peer sendText =
      .ok (receive s.globals s.peer (.rb ⟨MessageType.send, 1, content⟩)) := by
    rw [parseMessage_eq, sendText, decode_serializeRB _ s.peer.id (by decide)]
    exact ⟨_, rfl⟩
  obtain ⟨content, hparse⟩ := hparse
  have hpost : (receive s.globals s.peer (.rb ⟨MessageType.send, 1, content⟩)).2 =
      [.rb ⟨MessageType.echo, 1, content⟩] := by
    rw [receive, dispatch_send rfl, he]
    rfl
  obtain ⟨a, ha⟩ := post_error (s := s) hpost (by rwa [receive_id])
  refine ⟨a, ?_⟩
  simp only [Process.step, if_pos hpos, hparse, Except.toOption, Option.map_some, ha]

theorem StaysInBounds.start (h : StaysInBounds sec file) :
    ConfigFits file ∧ (fileConfig file).totalPeers.toInt ≤ MAX_PEERS_NUMBER := by
  by_contra hn
  obtain ⟨a, ha⟩ : ∃ a, startUp sec file = .error a := startUp_error hn
  obtain ⟨t, ht⟩ := h [] _ .nil
  rw [ha] at ht
  cases ht

/-- So does a first step. -/
theorem StaysInBounds.step (h : StaysInBounds sec file) (hs : startUp sec file = .ok s)
    {e : ProcessEvent} {a : Access} : s.step e ≠ some (.error a) := by
  intro he
  obtain ⟨t, ht⟩ := h [e] (.error a) (Run.snoc .nil (by rw [hs]; exact he))
  cases ht

theorem Sound.hasClient (h : Sound file) : ((fileConfig file).start sec).HasClient := by
  rintro (htodo | hw | hpos)
  · exact (client_own _).mpr (h.own (Or.inl ((todo_ne_nil h.fits).mp htodo)))
  · exact absurd rfl hw
  · exact (client_own _).mpr (h.own (Or.inr hpos))

/-- **The start and all that follows stay in bounds** if and only if the file is sound. -/
theorem startUp_in_bounds_iff (sec : B.SecretKey) (file : Option Bytes) :
    StaysInBounds sec file ↔ Sound file := by
  constructor
  · intro h
    obtain ⟨hfits, hclients⟩ := h.start
    have hs : startUp sec file = .ok ((fileConfig file).start sec) := startUp_ok hfits hclients
    refine ⟨hfits, hclients, fun hposts => ?_⟩
    by_contra hn
    have hc := mt (client_own (fileConfig file).id).mp hn
    rcases hposts with hvalue | hpos
    · have htodo : ((fileConfig file).start sec).todo ≠ [] := (todo_ne_nil hfits).mpr hvalue
      obtain ⟨a, ha⟩ := submit_error htodo rfl (show (1 : Int32) ≠ 0 by decide) hc
      exact h.step hs ha
    · obtain ⟨a, ha⟩ := receive_error (s := (fileConfig file).start sec) hpos rfl hc
      exact h.step hs ha
  · intro h es x hr
    rw [startUp_ok h.fits h.clients] at hr
    obtain ⟨t, rfl, -⟩ := hasClient_run h.hasClient hr
    exact ⟨t, rfl⟩

end

/-- A secret key of the stand-in for the library. -/
def plainSec : plainBLS.SecretKey := (1 : ℕ)

/-- **One peer more than there are clients**; no text at all; a word in a fifth line; and the identity `0`,
which the first submission uses. -/
theorem startUp_beyond :
    ¬ StaysInBounds plainSec (some (configText 21 1 [] [] 0)) ∧
    startUp plainSec (some (configText 21 1 [] [] 0)) = .error (.client 20) ∧
    startUp plainSec (some []) = .error (.column 0 1) ∧
    startUp plainSec (some (configText 4 1 [] [] 0 ++ [88])) = .error (.row 4) ∧
    exec stepOk (startUp plainSec (some (configText 4 0 [5] [0] 0))) [.submit] =
      some (.error (.client (-1))) := by
  refine ⟨fun h => ?_, rfl, rfl, rfl, rfl⟩
  obtain ⟨t, ht⟩ := h [] _ .nil
  have herror : (.error (.client 20) : Except Access (Process plainBLS)) = .ok t := ht
  cases herror

end Confirmer
