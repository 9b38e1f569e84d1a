import Mathlib.Algebra.Order.Ring.Int
import Mathlib.Tactic.Ring

/-!
# Decimal numbers in ASCII

`decimal` writes a natural number most significant digit first, `digitsBack` is the loop
that produces the digits from the right, and `readDigits` reads a run of digits.
-/

namespace RubyPg
set_option autoImplicit false

/-- ASCII decimal digits of a natural number, most significant first. -/
def decimal (n : Nat) : List UInt8 := (Nat.toDigits 10 n).map fun c => c.toNat.toUInt8

/-- The value of a run of ASCII digits behind those already read. -/
def readDigits (acc : Nat) : List UInt8 → Nat
  | [] => acc
  | d :: ds => readDigits (acc * 10 + (d.toNat - 48)) ds

/-- The digits from the right, at least one. -/
def digitsBack (n : Nat) : List UInt8 :=
  (48 + n % 10).toUInt8 :: if n / 10 = 0 then [] else digitsBack (n / 10)
termination_by n

/-- The last `k` digits of a number, most significant first. -/
def digitsOf : Nat → Nat → List UInt8
  | 0, _ => []
  | k + 1, n => (48 + n / 10 ^ k % 10).toUInt8 :: digitsOf k n

/-- `'0' <= c && c <= '9'`. -/
def IsDigit (c : UInt8) : Prop := 48 ≤ c ∧ c ≤ 57

instance (c : UInt8) : Decidable (IsDigit c) := inferInstanceAs (Decidable (_ ∧ _))

theorem isDigit_digit {n : Nat} (small : n < 10) : IsDigit (48 + n).toUInt8 := by
  have : ∀ k : Fin 10, IsDigit (48 + k.val).toUInt8 := by decide
  exact this ⟨n, small⟩

theorem toNat_digit {n : Nat} (small : n < 10) : (48 + n).toUInt8.toNat - 48 = n := by
  have : ∀ k : Fin 10, (48 + k.val).toUInt8.toNat - 48 = k.val := by decide
  exact this ⟨n, small⟩

theorem digitChar_digit {n : Nat} (small : n < 10) : n.digitChar.toNat.toUInt8 = (48 + n).toUInt8 := by
  have : ∀ k : Fin 10, k.val.digitChar.toNat.toUInt8 = (48 + k.val).toUInt8 := by decide
  exact this ⟨n, small⟩

theorem decimal_of_lt {n : Nat} (small : n < 10) : decimal n = [(48 + n).toUInt8] := by
  rw [decimal, Nat.toDigits_of_lt_base small, List.map_singleton, digitChar_digit small]

theorem decimal_of_le {n : Nat} (large : 10 ≤ n) : decimal n = decimal (n / 10) ++ [(48 + n % 10).toUInt8] := by
  rw [decimal, Nat.toDigits_of_base_le (by decide) large, List.map_append, List.map_singleton,
    digitChar_digit (Nat.mod_lt n (by decide))]
  rfl

/-- The digits from the right are the decimal number read backwards. -/
theorem reverse_digitsBack (n : Nat) : (digitsBack n).reverse = decimal n := by
  induction n using Nat.strongRecOn with
  | ind n ih =>
    rw [digitsBack]
    by_cases small : n < 10
    · rw [if_pos (Nat.div_eq_of_lt small), decimal_of_lt small, Nat.mod_eq_of_lt small]
      rfl
    · rw [if_neg (by omega), List.reverse_cons, ih (n / 10) (by omega), ← decimal_of_le (by omega)]

theorem readDigits_digit (acc : Nat) {n : Nat} (small : n < 10) :
    readDigits acc [(48 + n).toUInt8] = acc * 10 + n :=
  congrArg (acc * 10 + ·) (toNat_digit small)

theorem IsDigit.value_lt {d : UInt8} (digit : IsDigit d) : d.toNat - 48 < 10 := by
  have high : d.toNat ≤ 57 := UInt8.le_iff_toNat_le.1 digit.2
  omega

theorem readDigits_append (acc : Nat) (ds es : List UInt8) :
    readDigits acc (ds ++ es) = readDigits (readDigits acc ds) es := by
  induction ds generalizing acc with
  | nil => rfl
  | cons d ds ih => exact ih _

theorem readDigits_cons (acc : Nat) (d : UInt8) (ds : List UInt8) :
    readDigits acc (d :: ds) = readDigits (acc * 10 + (d.toNat - 48)) ds := by
  exact Eq.refl _

/-- What was read before counts in front of the digits. -/
theorem readDigits_shift (acc : Nat) (ds : List UInt8) :
    readDigits acc ds = acc * 10 ^ ds.length + readDigits 0 ds := by
  induction ds generalizing acc with
  | nil =>
    show acc = acc * 1 + 0
    omega
  | cons d ds ih =>
    rw [readDigits_cons, readDigits_cons, Nat.zero_mul, Nat.zero_add]
    generalize d.toNat - 48 = value
    have front := ih (acc * 10 + value)
    have alone := ih value
    rw [front, alone, List.length_cons, Nat.pow_succ]
    ring

/-- Reading a decimal number. -/
theorem readDigits_decimal (n : Nat) : readDigits 0 (decimal n) = n := by
  induction n using Nat.strongRecOn with
  | ind n ih =>
    by_cases small : n < 10
    · rw [decimal_of_lt small, readDigits_digit 0 small]
      omega
    · rw [decimal_of_le (by omega), readDigits_append, ih (n / 10) (by omega),
        readDigits_digit _ (Nat.mod_lt n (by decide))]
      omega

theorem isDigit_of_mem_decimal {n : Nat} {c : UInt8} (member : c ∈ decimal n) : IsDigit c := by
  induction n using Nat.strongRecOn with
  | ind n ih =>
    by_cases small : n < 10
    · rw [decimal_of_lt small, List.mem_singleton] at member
      exact member ▸ isDigit_digit small
    · rw [decimal_of_le (by omega), List.mem_append, List.mem_singleton] at member
      rcases member with front | rfl
      · exact ih (n / 10) (by omega) front
      · exact isDigit_digit (Nat.mod_lt n (by decide))

theorem isDigit_of_mem_digitsOf {k n : Nat} {c : UInt8} (member : c ∈ digitsOf k n) : IsDigit c := by
  induction k with
  | zero => cases member
  | succ k ih =>
    rcases List.mem_cons.1 member with rfl | later
    · exact isDigit_digit (Nat.mod_lt _ (by decide))
    · exact ih later

@[simp] theorem length_digitsOf (k n : Nat) : (digitsOf k n).length = k := by
  induction k with
  | zero => rfl
  | succ k ih => rw [digitsOf, List.length_cons, ih]

theorem readDigits_digitsOf (k n acc : Nat) : readDigits acc (digitsOf k n) = acc * 10 ^ k + n % 10 ^ k := by
  induction k generalizing acc with
  | zero =>
    show acc = acc * 1 + n % 1
    omega
  | succ k ih =>
    have split : n % 10 ^ (k + 1) = 10 ^ k * (n / 10 ^ k % 10) + n % 10 ^ k := by
      rw [Nat.pow_succ, Nat.mod_mul, Nat.add_comm]
    rw [digitsOf, ← List.singleton_append, readDigits_append, readDigits_digit acc (Nat.mod_lt _ (by decide)), ih,
      split, Nat.pow_succ, Nat.add_mul, Nat.mul_assoc, Nat.mul_comm 10 (10 ^ k), Nat.mul_comm (n / 10 ^ k % 10)]
    omega

/-- A run of `k` digits stays below `10 ^ k`. -/
theorem readDigits_lt {ds : List UInt8} (digits : ∀ d ∈ ds, IsDigit d) : readDigits 0 ds < 10 ^ ds.length := by
  induction ds with
  | nil => exact Nat.one_pos
  | cons d ds ih =>
    have first := (digits d List.mem_cons_self).value_lt
    have later := ih fun c hc => digits c (List.mem_cons_of_mem _ hc)
    have scaled : (d.toNat - 48) * 10 ^ ds.length ≤ 9 * 10 ^ ds.length := Nat.mul_le_mul_right _ (by omega)
    rw [readDigits_cons, List.length_cons, Nat.zero_mul, Nat.zero_add]
    generalize d.toNat - 48 = value at first scaled
    have front := readDigits_shift value ds
    rw [front, Nat.pow_succ]
    omega

theorem decimal_ne_nil (n : Nat) : decimal n ≠ [] := by simp [decimal]

/-- A number of `k` digits is below `10 ^ k`. -/
theorem length_decimal_le {n k : Nat} (positive : 0 < k) : (decimal n).length ≤ k ↔ n < 10 ^ k := by
  rw [decimal, List.length_map, Nat.length_toDigits_le_iff (by decide) positive]

end RubyPg
