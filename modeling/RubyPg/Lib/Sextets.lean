import Mathlib.Algebra.Order.Ring.Int
import Mathlib.Tactic.Ring

/-!
# Bytes as numbers of six bits

Three bytes are four numbers below 64. `toSextets` regroups a byte string, filling up the last number
with zero bits; `ofSextets` takes the bytes out again, and drops what is left of a last, unfinished one.
-/

namespace RubyPg.Sextets
set_option autoImplicit false

/-- The numbers of six bits in a byte string, from the left. -/
def toSextets : List UInt8 → List Nat
  | x :: y :: z :: rest =>
    x.toNat / 4 :: (x.toNat % 4 * 16 + y.toNat / 16) :: (y.toNat % 16 * 4 + z.toNat / 64) :: z.toNat % 64 :: toSextets rest
  | [x, y] => [x.toNat / 4, x.toNat % 4 * 16 + y.toNat / 16, y.toNat % 16 * 4]
  | [x] => [x.toNat / 4, x.toNat % 4 * 16]
  | [] => []

/-- The bytes in a list of numbers of six bits, from the left. -/
def ofSextets : List Nat → List UInt8
  | a :: b :: c :: d :: rest =>
    (a * 4 + b / 16).toUInt8 :: (b % 16 * 16 + c / 4).toUInt8 :: (c % 4 * 64 + d).toUInt8 :: ofSextets rest
  | [a, b, c] => [(a * 4 + b / 16).toUInt8, (b % 16 * 16 + c / 4).toUInt8]
  | [a, b] => [(a * 4 + b / 16).toUInt8]
  | [_] => []
  | [] => []

theorem toUInt8_eq {n : Nat} {x : UInt8} (same : n = x.toNat) : n.toUInt8 = x := by
  subst same
  simp

/-- **Nothing is lost.** -/
theorem ofSextets_toSextets (bytes : List UInt8) : ofSextets (toSextets bytes) = bytes := by
  induction bytes using toSextets.induct with
  | case1 x y z rest ih =>
    have hx := x.toNat_lt
    have hy := y.toNat_lt
    have hz := z.toNat_lt
    simp only [toSextets, ofSextets, ih, List.cons.injEq, and_true]
    exact ⟨toUInt8_eq (by omega), toUInt8_eq (by omega), toUInt8_eq (by omega)⟩
  | case2 x y =>
    have hx := x.toNat_lt
    have hy := y.toNat_lt
    simp only [toSextets, ofSextets, List.cons.injEq, and_true]
    exact ⟨toUInt8_eq (by omega), toUInt8_eq (by omega)⟩
  | case3 x =>
    have hx := x.toNat_lt
    simp only [toSextets, ofSextets, List.cons.injEq, and_true]
    exact toUInt8_eq (by omega)
  | case4 => simp [toSextets, ofSextets]

theorem toSextets_lt (bytes : List UInt8) : ∀ n ∈ toSextets bytes, n < 64 := by
  induction bytes using toSextets.induct with
  | case1 x y z rest ih =>
    have hx := x.toNat_lt
    have hy := y.toNat_lt
    have hz := z.toNat_lt
    simp only [toSextets, List.forall_mem_cons]
    exact ⟨by omega, by omega, by omega, by omega, ih⟩
  | case2 x y =>
    have hx := x.toNat_lt
    have hy := y.toNat_lt
    simp only [toSextets, List.forall_mem_cons]
    exact ⟨by omega, by omega, by omega, by simp⟩
  | case3 x =>
    have hx := x.toNat_lt
    simp only [toSextets, List.forall_mem_cons]
    exact ⟨by omega, by omega, by simp⟩
  | case4 => simp [toSextets]

/-- Groups of three bytes are regrouped on their own. -/
theorem toSextets_append {front : List UInt8} (groups : front.length % 3 = 0) (bytes : List UInt8) :
    toSextets (front ++ bytes) = toSextets front ++ toSextets bytes := by
  induction front using toSextets.induct with
  | case1 x y z rest ih =>
    have groups' : rest.length % 3 = 0 := by
      simp only [List.length_cons] at groups
      omega
    simp only [List.cons_append, toSextets, ih groups']
  | case2 x y => simp at groups
  | case3 x => simp at groups
  | case4 => simp [toSextets]

theorem length_toSextets (bytes : List UInt8) : (toSextets bytes).length = (bytes.length * 4 + 2) / 3 := by
  induction bytes using toSextets.induct with
  | case1 x y z rest ih =>
    simp only [toSextets, List.length_cons, ih]
    omega
  | case2 x y => simp [toSextets]
  | case3 x => simp [toSextets]
  | case4 => simp [toSextets]

theorem length_ofSextets (sextets : List Nat) : (ofSextets sextets).length = sextets.length * 3 / 4 := by
  induction sextets using ofSextets.induct with
  | case1 a b c d rest ih =>
    simp only [ofSextets, List.length_cons, ih]
    omega
  | case2 a b c => simp [ofSextets]
  | case3 a b => simp [ofSextets]
  | case4 a => simp [ofSextets]
  | case5 => simp [ofSextets]

end RubyPg.Sextets
