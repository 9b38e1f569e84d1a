import Mathlib.Logic.Basic

/-!
# Two computations that may raise, side by side

`Related R` says that two computations raise alike or return related results. It composes
along sequences, so a program on one representation of its data is compared with the same
program on another one step by step.
-/

namespace RubyPg
set_option autoImplicit false

variable {ε α β γ δ : Type}

/-- Related results, or the same exception. -/
inductive Related (R : α → β → Prop) : Except ε α → Except ε β → Prop where
  | ok {a : α} {b : β} (holds : R a b) : Related R (.ok a) (.ok b)
  | error (e : ε) : Related R (.error e) (.error e)

namespace Related

variable {R : α → β → Prop} {S : γ → δ → Prop} {x : Except ε α} {y : Except ε β}

theorem pure {a : α} {b : β} (holds : R a b) : Related R (Pure.pure a : Except ε α) (Pure.pure b) := .ok holds

theorem bind {f : α → Except ε γ} {g : β → Except ε δ} (first : Related R x y)
    (next : ∀ a b, R a b → Related S (f a) (g b)) : Related S (x >>= f) (y >>= g) := by
  cases first with
  | ok holds => exact next _ _ holds
  | error e => exact .error e

/-- The same computation on both sides. -/
theorem bind_same {f : α → Except ε γ} {g : α → Except ε δ} (next : ∀ a, x = .ok a → Related S (f a) (g a)) :
    Related S (x >>= f) (x >>= g) := by
  cases x with
  | ok a => exact next a rfl
  | error e => exact .error e

/-- Related by equality, they are the same. -/
theorem eq {x y : Except ε α} (related : Related Eq x y) : x = y := by
  cases related with
  | ok same => rw [same]
  | error e => rfl

end Related

end RubyPg
