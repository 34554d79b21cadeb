import Mathlib.Data.List.Basic

/-!
# Runs of a step function

* `Run`: the runs of a partial step function, with their events; `exec`, `run_get`: executed runs.
* **`Run.invariant`**: what holds at first and survives every step holds along a run.
* `guarded`: the steps that meet a condition, so that its runs are those whose steps all meet it.
-/

namespace Lts

variable {σ ε : Type}

/-- **The runs** from `s₀`, with the events that led to a state. -/
inductive Run (step : σ → ε → Option σ) (s₀ : σ) : List ε → σ → Prop
  | nil : Run step s₀ [] s₀
  | snoc {es s e s'} : Run step s₀ es s → step s e = some s' → Run step s₀ (es ++ [e]) s'

def exec (step : σ → ε → Option σ) : σ → List ε → Option σ
  | s, [] => some s
  | s, e :: es => (step s e).bind fun s' => exec step s' es

variable {step : σ → ε → Option σ} {s₀ s s' : σ} {es es' : List ε}

theorem Run.invariant {I : List ε → σ → Prop} (h₀ : I [] s₀)
    (hI : ∀ es s e s', I es s → step s e = some s' → I (es ++ [e]) s') (hr : Run step s₀ es s) :
    I es s := by
  induction hr with
  | nil => exact h₀
  | snoc hr hs ih => exact hI _ _ _ _ ih hs

theorem run_exec (hr : Run step s₀ es s) (he : exec step s es' = some s') :
    Run step s₀ (es ++ es') s' := by
  induction es' generalizing es s with
  | nil =>
    cases he
    rwa [List.append_nil]
  | cons e es' ih =>
    obtain ⟨s₁, h₁, h₂⟩ := Option.bind_eq_some_iff.mp he
    have h := ih (hr.snoc h₁) h₂
    rwa [List.append_assoc] at h

theorem exec_singleton (s : σ) (e : ε) : exec step s [e] = step s e := by
  rw [exec]
  cases step s e <;> rfl

theorem run_get (h : (exec step s₀ es).isSome) : Run step s₀ es ((exec step s₀ es).get h) :=
  run_exec .nil (Option.some_get h).symm

/-! ## Conditions on steps -/

/-- The steps that meet a condition on the state before them. -/
def guarded (step : σ → ε → Option σ) (P : σ → ε → Prop) [∀ s e, Decidable (P s e)] (s : σ) (e : ε) :
    Option σ :=
  if P s e then step s e else none

variable {P : σ → ε → Prop} [∀ s e, Decidable (P s e)]

theorem guarded_eq_some {e : ε} : guarded step P s e = some s' ↔ P s e ∧ step s e = some s' := by
  rw [guarded, Option.ite_none_right_eq_some]

end Lts
