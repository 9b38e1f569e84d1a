import Mathlib.Algebra.Order.Ring.Int

/-!
# C integers of 32 bits

An `int` expression over wider values: what is left of it modulo `2 ^ 32`. Inside the range of `int`
nothing is lost (`int32_eq`), and a sum may be cut anywhere on the way (`int32_add`).
-/

namespace RubyPg
set_option autoImplicit false

/-- The value of an `int` expression. -/
def int32 (n : Int) : Int := Int.bmod n (2 ^ 32)

theorem int32_eq {n : Int} (low : -2147483648 ≤ n) (high : n < 2147483648) : int32 n = n := by
  apply Int.bmod_eq_of_le_mul_two
  · show -((2 ^ 32 : Nat) : Int) ≤ n * 2
    omega
  · show n * 2 < ((2 ^ 32 : Nat) : Int)
    omega

theorem int32_small {n : Nat} (small : n < 2 ^ 31) : int32 n = n := int32_eq (by omega) (by omega)

theorem int32_bounds (n : Int) : -2147483648 ≤ int32 n ∧ int32 n < 2147483648 := by
  have low := @Int.le_bmod n (2 ^ 32) (by decide)
  have high := @Int.bmod_lt n (2 ^ 32) (by decide)
  unfold int32
  omega

theorem int32_lt (n : Int) : int32 n < 2 ^ 31 := (int32_bounds n).2

theorem int32_add (sum : Int) (more : Int) : int32 (int32 sum + more) = int32 (sum + more) := Int.bmod_add_bmod

end RubyPg
