import Confirmer.Broadcast.Count
import Confirmer.Confirm.Agreement
import Confirmer.Ledger
import Confirmer.Lib.Drain

/-!
# How much a run posts

* `posts`, `sent_echo_le`, `sent_ready_le`, `sent_aggSign_le`, `posts_send_le`,
  `posts_submit_le`: the posts of the peers by type.
* `Setup.maxPosts`, `wire_length_le`: there are no more posts than that, whatever the order of the
  deliveries.
* `AtRest`, **`no_storm`**: hence every run comes to rest.
-/

namespace Confirmer

open AsyncNet Quorum

variable {B : BLS} {S : Setup B} {es : List (Ev S)} {s : St S} {i : Fin S.totalPeers}

/-! ## The posts of one peer -/

theorem submissions_hist (es : List (Ev S)) (s : St S) (i : Fin S.totalPeers) :
    submissions (hist es s i) = (calls es i).length := by
  rw [submissions, hist, calls, List.countP_filterMap, List.length_filterMap_eq_countP]
  refine List.countP_congr fun e _ => ?_
  cases e with
  | act j a =>
    cases a with
    | submit v d => by_cases hj : j = i <;> simp [Event.toLocal, hj, isSubmit]
    | leaveWaiting => by_cases hj : j = i <;> simp [Event.toLocal, hj, isSubmit]
    | checkIfReady => by_cases hj : j = i <;> simp [Event.toLocal, hj, isSubmit]
  | recv j k =>
    by_cases hj : j = i
    · cases hk : s.wire[k]? <;> simp [Event.toLocal, hj, hk, isSubmit]
    · simp [Event.toLocal, hj]
  | inject j w => simp [Event.toLocal]

theorem countP_is {h : Hist B} {o : List (Item B)} (ho : ∀ w ∈ o, Posted S i h w) {k : MessageType}
    (hk : k = .send ∨ k = .echo ∨ k = .ready) :
    o.countP (Item.is k) = (rbPosts o).countP (RBMessage.is k) := by
  rw [← countP_posted ho]
  refine List.countP_congr fun w hw => ?_
  rw [(ho w hw).is_eq hk, isType_posted (ho w hw)]

theorem sent_echo_le (hr : (peerMachine S).Reach es s) (hi : Honest es i) :
    (s.sent i).countP (Item.is .echo) ≤ 1 := by
  rw [countP_is (node_outbox hr hi).posted (by simp), (node_tally hr hi).echo_count]
  exact Bool.toNat_le _

theorem sent_ready_le (hr : (peerMachine S).Reach es s) (hi : Honest es i) :
    (s.sent i).countP (Item.is .ready) ≤ 1 := by
  rw [countP_is (node_outbox hr hi).posted (by simp), (node_tally hr hi).ready_count]
  exact Bool.toNat_le _

theorem from_length_le (hr : (peerMachine S).Reach es s) (hcode : ∀ j, Honest es j) :
    (s.node i).ac.from.length ≤ S.totalPeers := by
  have hs := node_store hr (hcode i)
  have hcard := card_named S.pid_injective hs.nodup fun p hp => by
    rw [hs.from_eq] at hp
    obtain ⟨m, hm, rfl⟩ := List.mem_map.mp hp
    obtain ⟨j, hj, -⟩ := entry_called hr (hcode i)
      (fun j w hw => absurd hw (hcode j w)) hm
    exact ⟨j, hj⟩
  rw [← hcard]
  exact (Finset.card_le_univ _).trans_eq (Fintype.card_fin _)

theorem sent_aggSign_le (hr : (peerMachine S).Reach es s) (hcode : ∀ j, Honest es j) :
    (s.sent i).countP (Item.is .aggSign) ≤ S.faulty + 1 := by
  have hfrom := from_length_le (i := i) hr hcode
  rw [(ledger_local (hr.hist_local (hcode i))).aggSign, S.confirmQuorum_eq]
  omega

/-! ## The posts of all peers -/

/-- The number of posts of type `k`. -/
def posts (s : St S) (k : MessageType) : ℕ := s.wire.countP fun x => x.2.is k

/-- The number of `Submit` calls. -/
def submitCalls (es : List (Ev S)) : ℕ := ∑ i, (calls es i).length

theorem posts_eq (s : St S) (k : MessageType) :
    posts s k = ∑ j, (s.sent j).countP (Item.is k) := by
  rw [posts, countP_eq_sum]
  exact Finset.sum_congr rfl fun j _ => countFrom_wire s _ j

theorem posts_le {k : MessageType} {c : ℕ} (h : ∀ j, (s.sent j).countP (Item.is k) ≤ c) :
    posts s k ≤ S.totalPeers * c := by
  rw [posts_eq]
  refine (Finset.sum_le_sum fun j _ => h j).trans (le_of_eq ?_)
  rw [Finset.sum_const_nat fun _ _ => rfl, Finset.card_univ, Fintype.card_fin]

theorem posts_send_le (hr : (peerMachine S).Reach es s) (hcode : ∀ j, Honest es j) :
    posts s .send ≤ submitCalls es := by
  rw [posts_eq]
  refine Finset.sum_le_sum fun j _ => ?_
  rw [← submissions_hist es s]
  exact (ledger_local (hr.hist_local (hcode j))).send

theorem posts_submit_le (hr : (peerMachine S).Reach es s) (hcode : ∀ j, Honest es j) :
    posts s .submit ≤ submitCalls es := by
  rw [posts_eq]
  refine Finset.sum_le_sum fun j _ => ?_
  rw [← submissions_hist es s]
  exact (Nat.le_add_right _ _).trans (ledger_local (hr.hist_local (hcode j))).submit

/-- A bound on the posts of a run with `k` calls of `Submit`. -/
def Setup.maxPosts (S : Setup B) (k : ℕ) : ℕ :=
  2 * k + 2 * S.totalPeers + S.totalPeers * (S.faulty + 1)

theorem wire_length (hr : (peerMachine S).Reach es s) (hcode : ∀ j, Honest es j) :
    s.wire.length =
      posts s .send + posts s .echo + posts s .ready + posts s .submit + posts s .aggSign := by
  have hlen : s.wire.length = ∑ j, (s.sent j).length := by
    have hall := countP_eq_sum s.wire fun _ => true
    simp only [countFrom_wire, List.countP_true] at hall
    exact hall
  simp only [hlen, posts_eq, ← Finset.sum_add_distrib]
  exact Finset.sum_congr rfl fun j _ => countP_length (node_outbox hr (hcode j)).posted

theorem wire_length_le (hr : (peerMachine S).Reach es s) (hcode : ∀ j, Honest es j) :
    s.wire.length ≤ S.maxPosts (submitCalls es) := by
  have hsend := posts_send_le hr hcode
  have hsubmit := posts_submit_le hr hcode
  have hecho := posts_le fun j => sent_echo_le hr (hcode j)
  have hready := posts_le fun j => sent_ready_le hr (hcode j)
  have haggSign := posts_le fun j => sent_aggSign_le (i := j) hr hcode
  rw [wire_length hr hcode, Setup.maxPosts]
  omega

/-! ## Rest -/

/-- **Nothing is in flight**: every peer has processed everything on the wire, but for the strings on
which its parser faults. -/
def AtRest (es : List (Ev S)) (s : St S) : Prop :=
  ∀ i k x, s.wire[k]? = some x →
    Event.recv i k ∈ es ∨ ∃ e, decode B (S.pid i) x.2.bytes = .error e

theorem atRest_of_drained (hr : (peerMachine S).Reach es s) (hcode : ∀ j, Honest es j)
    (h : (peerMachine S).Drained es s) : AtRest es s := by
  intro i k x hk
  rcases h i k (List.getElem?_eq_some_iff.mp hk).1 with hrecv | hstep
  · exact Or.inl hrecv
  · right
    rw [← (node_outbox hr (hcode i)).id]
    cases hd : decode B (s.node i).id x.2.bytes with
    | error e => exact ⟨e, rfl⟩
    | ok inc =>
      obtain ⟨r, hr⟩ := exists_localStep (S := S) hd
      have hrecv : (peerMachine S).recv (s.node i) x.2 = some r := hr
      simp [Machine.step, hk, hrecv] at hstep

theorem calls_deliveries {es' : List (Ev S)} (h : ∀ e ∈ es', e.isRecv = true) :
    submitCalls (es ++ es') = submitCalls es := by
  have hnil : ∀ i, calls es' i = [] := by
    intro i
    rw [calls, List.filterMap_eq_nil_iff]
    intro e he
    cases e with
    | recv j k => rfl
    | act j a => cases h _ he
    | inject j w => cases h _ he
  refine Finset.sum_congr rfl fun i _ => ?_
  rw [← List.append_nil (calls es i), ← hnil i]
  exact congrArg List.length List.filterMap_append

theorem honest_deliveries {es' : List (Ev S)} (hi : Honest es i) (h : ∀ e ∈ es', e.isRecv = true) :
    Honest (es ++ es') i := by
  intro w hw
  rcases List.mem_append.mp hw with hw | hw
  · exact hi w hw
  · cases h _ hw

/-- **No storm.** When all peers run the code and process every post at most once, the posts of each
type are bounded by the number of `Submit` calls and of peers, and so are the deliveries. However the
run goes on with deliveries, they come to an end, and when no more is possible it has come to rest. -/
theorem no_storm (hr : (peerMachine S).Reach es s) (hcode : ∀ j, Honest es j)
    (honce : ∀ i, (got es i).Nodup) :
    posts s .send ≤ submitCalls es ∧ posts s .submit ≤ submitCalls es ∧
    posts s .echo ≤ S.totalPeers ∧ posts s .ready ≤ S.totalPeers ∧
    (∀ i, (s.sent i).countP (Item.is .aggSign) ≤ S.faulty + 1) ∧
    s.wire.length ≤ S.maxPosts (submitCalls es) ∧
    es.countP Event.isRecv ≤ S.totalPeers * S.maxPosts (submitCalls es) ∧
    (∀ es' s', (peerMachine S).Delivers es es' s' →
      es'.length ≤ S.totalPeers * S.maxPosts (submitCalls es) ∧
      ((peerMachine S).Drained (es ++ es') s' → AtRest (es ++ es') s')) ∧
    ∃ es' s', (peerMachine S).Delivers es es' s' ∧ AtRest (es ++ es') s' := by
  have hwire := wire_length_le hr hcode
  have hecho := posts_le fun j => sent_echo_le hr (hcode j)
  have hready := posts_le fun j => sent_ready_le hr (hcode j)
  have hgot := countP_isRecv_le hr honce hwire
  have hcode' : ∀ es' s', (peerMachine S).Delivers es es' s' → ∀ j, Honest (es ++ es') j :=
    fun es' s' h j => honest_deliveries (hcode j) h.isRecv
  have hbound : ∀ es' s', (peerMachine S).Delivers es es' s' →
      s'.wire.length ≤ S.maxPosts (submitCalls es) := by
    intro es' s' h
    rw [← calls_deliveries h.isRecv]
    exact wire_length_le h.reach (hcode' es' s' h)
  rw [mul_one] at hecho hready
  rw [Fintype.card_fin] at hgot
  refine ⟨posts_send_le hr hcode, posts_submit_le hr hcode, hecho, hready,
    fun i => sent_aggSign_le hr hcode, hwire, hgot, fun es' s' h => ⟨?_, ?_⟩, ?_⟩
  · have hlen := h.length_le (hbound es' s' h)
    rwa [Fintype.card_fin] at hlen
  · exact atRest_of_drained h.reach (hcode' es' s' h)
  · obtain ⟨es', s', h, hd⟩ := exists_drained hr honce hbound
    exact ⟨es', s', h, atRest_of_drained h.reach (hcode' es' s' h) hd⟩

/-- Two peers, one call and the first echo. -/
def callRun : List (Ev plainTwo) := [.act 0 (.submit 5 0), .recv 1 0]

theorem callRun_isSome : ((peerMachine _).run (peerMachine _).start callRun).isSome := by
  decide +kernel

theorem no_storm_callRun :
    (((peerMachine _).run _ callRun).get callRun_isSome).wire.length ≤ 8 ∧
    ∃ es' s', (peerMachine plainTwo).Delivers callRun es' s' ∧ AtRest (callRun ++ es') s' := by
  have hcode : ∀ j, Honest callRun j := by decide +kernel
  have honce : ∀ i : Fin plainTwo.totalPeers, (got callRun i).Nodup := by decide +kernel
  have hmax : plainTwo.maxPosts (submitCalls callRun) = 8 := by decide +kernel
  obtain ⟨-, -, -, -, -, hwire, -, -, hrest⟩ := no_storm (reach_get callRun_isSome) hcode honce
  exact ⟨hmax ▸ hwire, hrest⟩

end Confirmer
