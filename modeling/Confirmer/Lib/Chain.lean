import Mathlib.Data.List.Infix

/-!
# Queues drained by chained writes

Elements are posted to a queue. A write is started for the head of the queue when an element comes
into an empty queue, and when a write ends and leaves elements behind; the head stays in the queue
until its write has ended.

* **`Chain`**: what is posted, handed to a write and queued at any time, and the writes under way.
* `Chain.post_nil`, `Chain.post`, `Chain.pop_nil`, `Chain.pop_cons`, `Chain.fail`: the steps keep it.
* `Chain.handed_eq`, `Chain.split`, `Chain.last_handed`, `Chain.prefix_posted`, `Chain.writes_le`,
  `Chain.writes_iff`: what it says.
-/

namespace WriteChain

variable {α : Type} {failed failed' : Prop} {posted handed queue : List α} {writes : ℕ}

/-- **A chain of writes**: there is nothing to write, or the head of the queue is being written, or the
write of the head has failed and no other one follows. -/
inductive Chain (failed : Prop) : List α → List α → List α → ℕ → Prop
  | idle (l : List α) : Chain failed l l [] 0
  | busy (l : List α) (a : α) (q : List α) : Chain failed (l ++ a :: q) (l ++ [a]) (a :: q) 1
  | broken (l : List α) (a : α) (q : List α) : failed →
      Chain failed (l ++ a :: q) (l ++ [a]) (a :: q) 0

theorem Chain.post_nil (h : Chain failed posted handed [] writes) (m : α) :
    Chain failed (posted ++ [m]) (handed ++ [m]) [m] (writes + 1) := by
  cases h with
  | idle => exact .busy _ m []

theorem Chain.post (h : Chain failed posted handed queue writes) (hq : queue ≠ []) (m : α) :
    Chain failed (posted ++ [m]) handed (queue ++ [m]) writes := by
  cases h with
  | idle => exact absurd rfl hq
  | busy l a q =>
    rw [List.append_assoc]
    exact .busy l a (q ++ [m])
  | broken l a q hf =>
    rw [List.append_assoc]
    exact .broken l a (q ++ [m]) hf

theorem Chain.pop_nil (h : Chain failed posted handed queue writes) (hw : 0 < writes)
    (hq : queue.tail = []) : Chain failed posted handed [] (writes - 1) := by
  cases h with
  | busy l a q =>
    rw [List.tail_cons] at hq
    subst hq
    exact .idle _
  | idle => cases hw
  | broken => cases hw

theorem Chain.pop_cons (h : Chain failed posted handed queue writes) (hw : 0 < writes) {b : α}
    {q : List α} (hq : queue.tail = b :: q) :
    Chain failed posted (handed ++ [b]) (b :: q) (writes - 1 + 1) := by
  cases h with
  | busy l a q' =>
    rw [List.tail_cons] at hq
    subst hq
    have h : Chain failed (l ++ [a] ++ b :: q) (l ++ [a] ++ [b]) (b :: q) 1 := .busy (l ++ [a]) b q
    rwa [List.append_assoc l] at h
  | idle => cases hw
  | broken => cases hw

theorem Chain.fail (h : Chain failed posted handed queue writes) (hw : 0 < writes) (hf : failed') :
    Chain failed' posted handed queue (writes - 1) := by
  cases h with
  | busy l a q => exact .broken l a q hf
  | idle => cases hw
  | broken => cases hw

theorem Chain.mono (h : Chain failed posted handed queue writes) (hf : failed → failed') :
    Chain failed' posted handed queue writes := by
  cases h with
  | idle => exact .idle _
  | busy l a q => exact .busy l a q
  | broken l a q hfailed => exact .broken l a q (hf hfailed)

/-- What is not in the queue any more was handed over. -/
theorem Chain.handed_eq (h : Chain failed posted handed [] writes) : handed = posted := by
  cases h with
  | idle => rfl

/-- **What has left the queue was handed over**, and then the head of the queue. -/
theorem Chain.split (h : Chain failed posted handed queue writes) :
    ∃ popped, posted = popped ++ queue ∧ handed = popped ++ queue.head?.toList := by
  cases h with
  | idle => exact ⟨posted, by simp, by simp⟩
  | busy l a q => exact ⟨l, rfl, rfl⟩
  | broken l a q hf => exact ⟨l, rfl, rfl⟩

theorem Chain.last_handed (h : Chain failed posted handed queue writes) (hw : 0 < writes) :
    ∃ a, queue.head? = some a ∧ handed.getLast? = some a := by
  cases h with
  | busy l a q => exact ⟨a, rfl, List.getLast?_concat⟩
  | idle => cases hw
  | broken => cases hw

/-- **Nothing is handed over out of order or twice.** -/
theorem Chain.prefix_posted (h : Chain failed posted handed queue writes) : handed <+: posted := by
  cases h with
  | idle => exact List.prefix_refl _
  | busy l a q => exact ⟨q, by simp⟩
  | broken l a q hf => exact ⟨q, by simp⟩

theorem Chain.writes_le (h : Chain failed posted handed queue writes) : writes ≤ 1 := by
  cases h with
  | idle => exact Nat.zero_le 1
  | busy l a q => exact Nat.le_refl 1
  | broken l a q hf => exact Nat.zero_le 1

/-- **Without a failure nothing is left behind.** -/
theorem Chain.writes_iff (h : Chain failed posted handed queue writes) (hf : ¬ failed) :
    writes = 1 ↔ queue ≠ [] := by
  cases h with
  | idle => simp
  | busy l a q => simp
  | broken l a q hfailed => exact absurd hfailed hf

end WriteChain
