import Mathlib.Logic.Basic

/-!
# Histories

Operations one after the other on a state. Where `Q` says exactly when an operation keeps `P`, the histories
that keep `P` throughout are those of which every step meets `Q` (`always_iff`).
-/

namespace RubyPg.History
set_option autoImplicit false

variable {σ ο : Type} (step : σ → ο → σ)

/-- The state behind a history. -/
def run (s : σ) (ops : List ο) : σ := ops.foldl step s

/-- `P` holds in every state of a history. -/
def Always (P : σ → Prop) : σ → List ο → Prop
  | s, [] => P s
  | s, op :: rest => P s ∧ Always P (step s op) rest

/-- `Q` holds of every operation, in the state before it. -/
def EveryStep (Q : σ → ο → Prop) : σ → List ο → Prop
  | _, [] => True
  | s, op :: rest => Q s op ∧ EveryStep Q (step s op) rest

variable {step} {P : σ → Prop} {Q R : σ → ο → Prop}

theorem Always.start {s : σ} {ops : List ο} (always : Always step P s ops) : P s := by
  cases ops with
  | nil => exact always
  | cons op rest => exact always.1

/-- **Histories that keep `P`** are those of which every step meets the condition for keeping it. -/
theorem always_iff (exact_step : ∀ s op, P s → (P (step s op) ↔ Q s op)) {s : σ} (start : P s) (ops : List ο) :
    Always step P s ops ↔ EveryStep step Q s ops := by
  induction ops generalizing s with
  | nil => exact ⟨fun _ => trivial, fun _ => start⟩
  | cons op rest ih =>
    constructor
    · rintro ⟨-, later⟩
      exact ⟨(exact_step s op start).1 later.start, (ih later.start).1 later⟩
    · rintro ⟨here, later⟩
      have next := (exact_step s op start).2 here
      exact ⟨start, (ih next).2 later⟩

/-- What follows from `P` at one step holds at every step of a history that keeps it. -/
theorem Always.everyStep (each : ∀ s op, P s → R s op) {s : σ} {ops : List ο} (always : Always step P s ops) :
    EveryStep step R s ops := by
  induction ops generalizing s with
  | nil => trivial
  | cons op rest ih => exact ⟨each s op always.1, ih always.2⟩

/-- What every step keeps holds behind every history whose steps meet `Q`. -/
theorem EveryStep.run (kept : ∀ s op, P s → Q s op → P (step s op)) {s : σ} (start : P s) {ops : List ο}
    (every : EveryStep step Q s ops) : P (run step s ops) := by
  induction ops generalizing s with
  | nil => exact start
  | cons op rest ih => exact ih (kept s op start every.1) every.2

/-- What every step keeps holds behind every history. -/
theorem run_keeps (kept : ∀ s op, P s → P (step s op)) {s : σ} (start : P s) (ops : List ο) : P (run step s ops) := by
  induction ops generalizing s with
  | nil => exact start
  | cons op rest ih => exact ih (kept s op start)

end RubyPg.History
