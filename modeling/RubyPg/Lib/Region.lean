import Mathlib.Logic.Basic

/-!
# Regions of memory

Byte ranges in a family of buffers: when two of them are disjoint, and when one lies
inside its buffer.
-/

namespace RubyPg
set_option autoImplicit false

/-- `size` bytes from `start` on in the buffer `buf`. -/
structure Region (β : Type) where
  buf : β
  start : Nat
  size : Nat
deriving DecidableEq, Repr

namespace Region

variable {β : Type}

/-- No byte belongs to both regions. -/
def Disjoint (r s : Region β) : Prop :=
  r.buf ≠ s.buf ∨ r.start + r.size ≤ s.start ∨ s.start + s.size ≤ r.start

/-- The region lies inside its buffer. -/
def Inside (capacity : β → Nat) (r : Region β) : Prop := r.start + r.size ≤ capacity r.buf

theorem Disjoint.symm {r s : Region β} (h : Disjoint r s) : Disjoint s r := by
  rcases h with h | h | h
  · exact Or.inl (Ne.symm h)
  · exact Or.inr (Or.inr h)
  · exact Or.inr (Or.inl h)

/-- Regions one after the other in a buffer, or in two buffers. -/
theorem Disjoint.of_le {r s : Region β} (h : r.buf = s.buf → r.start + r.size ≤ s.start) : Disjoint r s := by
  by_cases same : r.buf = s.buf
  · exact Or.inr (Or.inl (h same))
  · exact Or.inl same

end Region

end RubyPg
