import Mathlib.Data.List.Basic

/-!
# Loops with a step that may leave

A loop runs a partial step until the step refuses. `run` bounds it by fuel; with a
measure that every step lowers, fuel above the measure ends the loop where the step
refuses.
-/

namespace Amed.Loop

variable {σ τ : Type*}

/-- Run the step until it refuses, at most `n` times. -/
def run (step : σ → Option σ) : Nat → σ → σ
  | 0, s => s
  | n + 1, s =>
      match step s with
      | none => s
      | some s' => run step n s'

@[simp] theorem run_zero (step : σ → Option σ) (s : σ) : run step 0 s = s := rfl

theorem run_of_none {step : σ → Option σ} {s : σ} (h : step s = none) (n : Nat) :
    run step n s = s := by
  cases n with
  | zero => rfl
  | succ n => simp [run, h]

theorem run_of_some {step : σ → Option σ} {s s' : σ} (h : step s = some s') (n : Nat) :
    run step (n + 1) s = run step n s' := by
  simp [run, h]

/-- The fuel is enough where each step leaves a state for which one less is enough. -/
theorem run_exit {step : σ → Option σ} {P : Nat → σ → Prop}
    (hzero : ∀ s, P 0 s → step s = none)
    (hstep : ∀ n s s', P (n + 1) s → step s = some s' → P n s') {n : Nat} {s : σ} (h : P n s) :
    step (run step n s) = none := by
  induction n generalizing s with
  | zero => exact hzero s h
  | succ n ih =>
      cases hs : step s with
      | none => rwa [run_of_none hs]
      | some s' =>
          rw [run_of_some hs]
          exact ih (hstep n s s' h hs)

end Amed.Loop
