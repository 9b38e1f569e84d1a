import RubyPg.TwoPass.Encoders
import Mathlib.Algebra.Order.Field.Rat
import Mathlib.Algebra.Order.Field.Power
import Mathlib.Data.Rat.Floor
import Mathlib.Tactic.FieldSimp
import Mathlib.Tactic.Linarith
import Mathlib.Tactic.NormNum

/-!
# The digits of a float

`pg_text_enc_float` scales a number by a power of ten, so that an integer of 16 digits is left of it. The exponent
is estimated from that of `frexp` (`exp10Of`), and is at most one too large. But where it is less than -293 the
power of ten is more than the largest `double`: the product is infinite, and converting it to an integer is undefined.
-/

namespace RubyPg.TwoPass
set_option autoImplicit false

/-- The number `mant * 2 ^ (exp - 1074)`. -/
def floatValue (mant : Fin (2 ^ 53)) (exp : Fin 2046) : ℚ := mant.val * 2 ^ ((exp.val : Int) - 1074)

/-- The largest `double`. -/
def dblMax : ℚ := ((2 ^ 53 - 1) * 2 ^ 971 : Nat)

/-- `pow(10, n)`; `none` is infinity. -/
def pow10 (n : Int) : Option ℚ := if (10 : ℚ) ^ n ≤ dblMax then some (10 ^ n) else none

/-- The conversion to `unsigned long long`, undefined for what does not fit. -/
def toUnsignedLongLong (x : Option ℚ) : Outcome Nat :=
  match x with
  | some x => if x < 2 ^ 64 then pure ⌊x⌋₊ else .error .undefined
  | none => .error .undefined

/-- The digits of a number, and the power of 10 of the first. -/
def floatDigitsExact (mant : Fin (2 ^ 53)) (exp : Fin 2046) : Outcome (Nat × Int) := do
  let exp10i := exp10Of (frexpExp mant exp)
  let ll ← toUnsignedLongLong ((pow10 (16 - 1 - exp10i)).map fun power => floatValue mant exp * power + 1 / 2)
  -- avoid leading zeros
  if ll < 1000000000000000 then pure (ll * 10, exp10i - 1) else pure (ll, exp10i)

/-- Where the conversion is defined, the digits are those of the encoder. -/
theorem floatDigitsExact_eq {api : CApi} {mant : Fin (2 ^ 53)} {exp : Fin 2046}
    (scaled : toUnsignedLongLong ((pow10 (16 - 1 - exp10Of (frexpExp mant exp))).map fun power =>
      floatValue mant exp * power + 1 / 2) = .ok (api.scaled mant exp (16 - 1 - exp10Of (frexpExp mant exp)))) :
    floatDigitsExact mant exp = .ok (floatDigits api mant exp) := by
  unfold floatDigitsExact floatDigits
  dsimp only
  rw [scaled]
  split
  · exact if_pos ‹_›
  · exact if_neg ‹_›

section Exponents

/-- The powers of two from 1 on, by their estimated power of ten. -/
theorem estimate_large : ∀ e < 1025, 10 ^ (exp10Of (e : Nat)).toNat ≤ 2 ^ e ∧
    2 * 2 ^ e * 10 ^ 15 + 10 ^ (exp10Of (e : Nat)).toNat ≤ 2 * 10 ^ 16 * 10 ^ (exp10Of (e : Nat)).toNat := by
  decide +kernel

/-- The powers of two below 1. -/
theorem estimate_small : ∀ m < 974, 2 ^ m ≤ 10 ^ (-exp10Of (-(m : Nat))).toNat ∧
    2 * 10 ^ (-exp10Of (-(m : Nat))).toNat * 10 ^ 15 + 2 ^ m ≤ 2 * 10 ^ 16 * 2 ^ m := by
  decide +kernel

variable {e : Int}

theorem exp10Of_nonneg (large : 0 ≤ e) : 0 ≤ exp10Of e := by
  unfold exp10Of
  omega

theorem exp10Of_nonpos (small : e ≤ 0) : exp10Of e ≤ 0 := by
  unfold exp10Of
  omega

/-- The estimate is at most one too large, and never too small. -/
theorem estimate (low : -973 ≤ e) (high : e ≤ 1024) :
    (10 : ℚ) ^ exp10Of e ≤ 2 ^ e ∧ 2 * 2 ^ e * 10 ^ 15 + (10 : ℚ) ^ exp10Of e ≤ 2 * 10 ^ 16 * 10 ^ exp10Of e := by
  rcases Int.le_total 0 e with large | small
  · obtain ⟨m, rfl⟩ := Int.eq_ofNat_of_zero_le large
    obtain ⟨x, power⟩ := Int.eq_ofNat_of_zero_le (exp10Of_nonneg large)
    obtain ⟨below, above⟩ := estimate_large m (by omega)
    rw [power, Int.toNat_natCast] at below above
    rw [power, zpow_natCast, zpow_natCast]
    constructor
    · exact_mod_cast below
    · exact_mod_cast above
  · obtain ⟨m, rfl⟩ := Int.exists_eq_neg_ofNat small
    obtain ⟨x, power⟩ := Int.exists_eq_neg_ofNat (exp10Of_nonpos small)
    obtain ⟨below, above⟩ := estimate_small m (by omega)
    rw [power, Int.neg_neg, Int.toNat_natCast] at below above
    rw [power, zpow_neg, zpow_neg, zpow_natCast, zpow_natCast]
    have below' : (2 : ℚ) ^ m ≤ 10 ^ x := by exact_mod_cast below
    have above' : 2 * (10 : ℚ) ^ x * 10 ^ 15 + 2 ^ m ≤ 2 * 10 ^ 16 * 2 ^ m := by exact_mod_cast above
    constructor
    · exact inv_anti₀ (by positivity) below'
    · field_simp
      linarith

/-- What the largest number with this exponent is scaled to. -/
theorem scaled_le (low : -973 ≤ e) (high : e ≤ 1024) : (2 : ℚ) ^ e * 10 ^ (15 - exp10Of e) + 1 / 2 ≤ 10 ^ 16 := by
  have above := (estimate low high).2
  have positive : (0 : ℚ) < 10 ^ exp10Of e := by positivity
  rw [zpow_sub₀ (by norm_num)]
  rw [show ((10 : ℚ) ^ (15 : Int)) = 10 ^ 15 by norm_num]
  field_simp
  linarith

/-- What the smallest number with this exponent is scaled to. -/
theorem le_scaled (low : -973 ≤ e) (high : e ≤ 1024) : (10 : ℚ) ^ 15 / 2 ≤ 2 ^ (e - 1) * 10 ^ (15 - exp10Of e) := by
  have below := (estimate low high).1
  have positive : (0 : ℚ) < 10 ^ exp10Of e := by positivity
  rw [zpow_sub_one₀ (by norm_num), zpow_sub₀ (by norm_num)]
  rw [show ((10 : ℚ) ^ (15 : Int)) = 10 ^ 15 by norm_num]
  field_simp
  linarith

end Exponents

section Range

variable {mant : Fin (2 ^ 53)} {exp : Fin 2046}

/-- `frexp`. -/
theorem frexp_bounds (positive : 0 < mant.val) :
    (2 : ℚ) ^ (frexpExp mant exp - 1) ≤ floatValue mant exp ∧ floatValue mant exp < 2 ^ frexpExp mant exp := by
  have low : (2 : ℚ) ^ Nat.log2 mant.val ≤ mant.val := by exact_mod_cast Nat.log2_self_le (by omega)
  have high : (mant.val : ℚ) < 2 ^ (Nat.log2 mant.val + 1) := by exact_mod_cast Nat.lt_log2_self
  have unit : (0 : ℚ) < 2 ^ ((exp.val : Int) - 1074) := by positivity
  have exponent : frexpExp mant exp = ((Nat.log2 mant.val + 1 : Nat) : Int) + ((exp.val : Int) - 1074) := by
    unfold frexpExp
    rw [if_neg (by omega)]
    push_cast
    ring
  have exponent' : frexpExp mant exp - 1 = (Nat.log2 mant.val : Int) + ((exp.val : Int) - 1074) := by
    rw [exponent]
    push_cast
    ring
  unfold floatValue
  rw [exponent', exponent, zpow_add₀ (by norm_num), zpow_add₀ (by norm_num), zpow_natCast, zpow_natCast]
  constructor
  · exact mul_le_mul_of_nonneg_right low unit.le
  · exact mul_lt_mul_of_pos_right high unit

theorem frexpExp_le (positive : 0 < mant.val) : frexpExp mant exp ≤ 1024 := by
  have log : Nat.log2 mant.val < 53 := (Nat.log2_lt (by omega)).2 mant.isLt
  have bound := exp.isLt
  unfold frexpExp
  rw [if_neg (by omega)]
  omega

/-- The exponents that are not too small, as numbers. -/
theorem le_frexpExp_iff (positive : 0 < mant.val) : -973 ≤ frexpExp mant exp ↔ (2 : ℚ) ^ (-974 : Int) ≤ floatValue mant exp := by
  obtain ⟨low, high⟩ := @frexp_bounds mant exp positive
  constructor
  · intro large
    exact (zpow_le_zpow_right₀ (by norm_num) (by omega)).trans low
  · intro large
    have less := (zpow_lt_zpow_iff_right₀ (by norm_num)).1 (large.trans_lt high)
    omega

/-- A power of ten is finite up to 308. -/
theorem pow10_finite {n : Int} (small : n ≤ 308) : pow10 n = some (10 ^ n) := by
  have inside : 10 ^ 308 ≤ (2 ^ 53 - 1) * 2 ^ 971 := by decide +kernel
  have bound : (10 : ℚ) ^ (308 : Int) ≤ dblMax := by
    unfold dblMax
    exact_mod_cast inside
  exact if_pos ((zpow_le_zpow_right₀ (by norm_num) small).trans bound)

theorem pow10_infinite {n : Int} (large : 309 ≤ n) : pow10 n = none := by
  have outside : (2 ^ 53 - 1) * 2 ^ 971 < 10 ^ 309 := by decide +kernel
  have bound : dblMax < (10 : ℚ) ^ (309 : Int) := by
    unfold dblMax
    exact_mod_cast outside
  have more : (10 : ℚ) ^ (309 : Int) ≤ 10 ^ n := zpow_le_zpow_right₀ (by norm_num) large
  exact if_neg (not_le.2 (bound.trans_le more))

end Range

/-- 16 digits, less than a hundred units of the last one away from the number. -/
def Digits (v : ℚ) (digits : Outcome (Nat × Int)) : Prop :=
  ∃ ll exp10i, digits = .ok (ll, exp10i) ∧ 10 ^ 15 ≤ ll ∧ ll < 10 ^ 16 ∧
    |(ll : ℚ) * 10 ^ (exp10i - 15) - v| < 10 ^ (exp10i - 13)

section Main

variable {mant : Fin (2 ^ 53)} {exp : Fin 2046}

/-- Far from 1 the product is infinite. -/
theorem floatDigitsExact_infinite (small : frexpExp mant exp < -973) : floatDigitsExact mant exp = .error .undefined := by
  have estimate : exp10Of (frexpExp mant exp) ≤ -294 := by
    unfold exp10Of
    omega
  unfold floatDigitsExact
  dsimp only
  rw [pow10_infinite (by omega)]
  rfl

/-- A product that is rounded and taken back is half a unit away at most. -/
theorem floor_close {v unit : ℚ} (positive : 0 < unit) (nonneg : 0 ≤ v) :
    |(⌊v * unit⁻¹ + 1 / 2⌋₊ : ℚ) * unit - v| ≤ unit / 2 := by
  have below := Nat.floor_le (a := v * unit⁻¹ + 1 / 2) (by positivity)
  have above := Nat.lt_floor_add_one (v * unit⁻¹ + 1 / 2)
  generalize (⌊v * unit⁻¹ + 1 / 2⌋₊ : ℚ) = ll at *
  have back : v * unit⁻¹ * unit = v := inv_mul_cancel_right₀ positive.ne' v
  have low := mul_le_mul_of_nonneg_right below positive.le
  have high := mul_lt_mul_of_pos_right above positive
  rw [abs_le]
  constructor
  · linarith
  · linarith

theorem hundred_units (x : Int) : (10 : ℚ) ^ (x - 13) = 100 * 10 ^ (x - 15) := by
  have exponent : x - 13 = x - 15 + 2 := by omega
  rw [exponent, zpow_add₀ (by norm_num)]
  ring

/-- Where the first digit is missing, the number is a tenth of what it was taken for. -/
theorem digits_corrected {v : ℚ} {ll : Nat} {x : Int} (least : 500000000000000 ≤ ll) (most : ll < 10000000000000000)
    (close : |(ll : ℚ) * 10 ^ (x - 15) - v| ≤ 10 ^ (x - 15) / 2) :
    Digits v (if ll < 1000000000000000 then pure (ll * 10, x - 1) else pure (ll, x)) := by
  have unit : (0 : ℚ) < 10 ^ (x - 15) := by positivity
  by_cases short : ll < 1000000000000000
  · have exponent : x - 15 = x - 1 - 15 + 1 := by omega
    have ten : (10 : ℚ) ^ (x - 15) = 10 * 10 ^ (x - 1 - 15) := by
      rw [exponent, zpow_add_one₀ (by norm_num), mul_comm]
    have same : ((ll * 10 : Nat) : ℚ) * 10 ^ (x - 1 - 15) = ll * 10 ^ (x - 15) := by
      rw [ten]
      push_cast
      ring
    rw [if_pos short]
    refine ⟨ll * 10, x - 1, rfl, by omega, by omega, ?_⟩
    rw [same, hundred_units]
    linarith
  · rw [if_neg short]
    refine ⟨ll, x, rfl, by omega, by omega, ?_⟩
    rw [hundred_units]
    linarith

/-- The rounded product of a number that is not so near to 0. -/
theorem digits_of_large (positive : 0 < mant.val) (large : -973 ≤ frexpExp mant exp) :
    Digits (floatValue mant exp) (floatDigitsExact mant exp) := by
  have high := @frexpExp_le mant exp positive
  have estimate : -293 ≤ exp10Of (frexpExp mant exp) := by
    unfold exp10Of
    omega
  obtain ⟨low_value, high_value⟩ := @frexp_bounds mant exp positive
  have top := scaled_le large high
  have bottom := le_scaled large high
  unfold floatDigitsExact
  dsimp only
  generalize exp10Of (frexpExp mant exp) = x at *
  generalize frexpExp mant exp = e at *
  generalize floatValue mant exp = v at *
  have nonneg : 0 ≤ v := low_value.trans' (by positivity)
  have unit : (0 : ℚ) < 10 ^ (x - 15) := by positivity
  have power : (0 : ℚ) < 10 ^ (15 - x) := by positivity
  have inverse : (10 : ℚ) ^ (15 - x) = (10 ^ (x - 15))⁻¹ := by
    rw [← zpow_neg, Int.neg_sub]
  have product_low := mul_le_mul_of_nonneg_right low_value power.le
  have product_high := mul_lt_mul_of_pos_right high_value power
  have close := floor_close unit nonneg
  rw [← inverse] at close
  have least : 500000000000000 ≤ ⌊v * 10 ^ (15 - x) + 1 / 2⌋₊ := by
    apply Nat.le_floor
    push_cast
    linarith
  have most : ⌊v * 10 ^ (15 - x) + 1 / 2⌋₊ < 10000000000000000 := by
    apply (Nat.floor_lt (by positivity)).2
    push_cast
    linarith
  have converted : toUnsignedLongLong (some (v * 10 ^ (15 - x) + 1 / 2)) = pure ⌊v * 10 ^ (15 - x) + 1 / 2⌋₊ :=
    if_pos (by linarith)
  have exponent : (16 : Int) - 1 - x = 15 - x := by omega
  rw [exponent, pow10_finite (by omega), Option.map_some, converted, pure_bind]
  exact digits_corrected least most close

/-- **The digits of a float** are extracted if, and only if, the number is not nearer to 0 than `2 ^ (-974)`. -/
theorem digits_extracted_iff (mant : Fin (2 ^ 53)) (exp : Fin 2046) (nonzero : 0 < mant.val) :
    Digits (floatValue mant exp) (floatDigitsExact mant exp) ↔ (2 : ℚ) ^ (-974 : Int) ≤ floatValue mant exp := by
  rw [← le_frexpExp_iff nonzero]
  constructor
  · rintro ⟨ll, exp10i, run, -⟩
    by_contra small
    rw [floatDigitsExact_infinite (by omega)] at run
    cases run
  · exact digits_of_large nonzero

/-- `1.5`. -/
theorem digits_extracted_half : Digits (floatValue 3 1073) (floatDigitsExact 3 1073) := by
  apply (digits_extracted_iff 3 1073 (by decide)).2
  have value : floatValue 3 1073 = 3 * 2 ^ (-1 : Int) := rfl
  have power : (2 : ℚ) ^ (-974 : Int) ≤ 2 ^ (-1 : Int) := zpow_le_zpow_right₀ (by norm_num) (by norm_num)
  have positive : (0 : ℚ) < 2 ^ (-1 : Int) := by positivity
  rw [value]
  linarith

/-- The smallest normal number, `2 ^ (-1022)`: the product is infinite. -/
theorem smallest_normal_lost : floatValue 1 52 = 2 ^ (-1022 : Int) ∧ ¬Digits (floatValue 1 52) (floatDigitsExact 1 52) := by
  constructor
  · exact one_mul _
  · rintro ⟨ll, exp10i, run, -⟩
    rw [floatDigitsExact_infinite (by decide)] at run
    cases run

end Main

end RubyPg.TwoPass
