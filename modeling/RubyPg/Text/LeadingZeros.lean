import RubyPg.Text.IntegerLong

/-!
# The variants of `count_leading_zero_bits`

Which of the three is compiled depends on the compiler. The builtin counts the zero bits in front of the highest set
bit. `_BitScanForward64` gives the index of the lowest one. The mask of the loop is a shift of an `int` by 63, which
is undefined, and no value an `int` may have makes the loop right (`shiftLoop_wrong`).
-/

namespace RubyPg.Text
set_option autoImplicit false
open Ascii TwoPass Writer

/-- `e1 << e2` of the type `int`. -/
def shiftInt (e1 e2 : Nat) : Outcome Int :=
  if e2 < 32 ∧ e1 * 2 ^ e2 < 2 ^ 31 then pure ((e1 * 2 ^ e2 : Nat) : Int) else .error .undefined

/-- The loop, with its mask and the number of turns that are left. -/
def shiftLoop (mask : Outcome Int) : Nat → Nat → BitVec 64 → Outcome Int
  | 0, a, _ => pure a
  | left + 1, a, x => do
    let bit ← mask
    if x &&& BitVec.ofInt 64 bit ≠ 0 then pure a else shiftLoop mask left (a + 1) (x <<< 1)

/-- What is compiled. The parameter is what the intrinsic leaves for zero, which its documentation does not say. -/
inductive Variant where
  | builtin (zero : Int)
  | bitScanForward (zero : Int)
  | portable

/-- `count_leading_zero_bits`. -/
def Variant.countLeadingZeroBits : Variant → BitVec 64 → Outcome Int
  | builtin zero, x => pure (if x = 0 then int32 zero else x.clz.toNat)
  | bitScanForward zero, x => pure (if x = 0 then int32 zero else x.ctz.toNat)
  | portable, x => shiftLoop (shiftInt 1 (8 * 8 - 1)) (8 * 8) 0 x

/-- The width of `size_t`, the type of `sizeof`. -/
structure SizeT where
  bits : Nat
  wide : bits = 32 ∨ bits = 64

/-- The size that the first call of `pg_text_enc_integer` answers for a Fixnum. -/
def Variant.integerSize (variant : Variant) (sizeT : SizeT) (sll : Int) : Outcome Int := do
  let ll := BitVec.ofInt 64 (if sll < 0 then -sll else sll)
  let count ← variant.countLeadingZeroBits ll
  let len := int32 ((8 * 8 - count) % 2 ^ sizeT.bits / 3)
  pure (if sll < 0 then len + 2 else len + 1)

/-- The second call writes no more characters than the first one answers. -/
def Variant.Announces (variant : Variant) (sizeT : SizeT) (sll : Int) : Prop :=
  ∃ size : Int, variant.integerSize sizeT sll = .ok size ∧ (writeInteger sll).length ≤ size

/-- Where a count is right: the index of the lowest bit only if as many zeros are in front of the highest. -/
def Variant.CountsAt : Variant → BitVec 64 → Prop
  | builtin _, _ => True
  | bitScanForward _, x => ∃ k m, x.toNat = 2 ^ k * (2 * m + 1) ∧ 2 ^ (63 - k) ≤ x.toNat ∧ x.toNat < 2 ^ (64 - k)
  | portable, _ => False

/-- Where the size is enough: with the index of the lowest bit only for numbers that are divided by a small power of
two, or are small. -/
def Variant.AnnouncesAt : Variant → Int → Prop
  | builtin _, _ => True
  | bitScanForward _, sll => ∀ k m, sll.natAbs = 2 ^ k * (2 * m + 1) → sll.natAbs < 10 ^ ((64 - k) / 3 + 1)
  | portable, _ => False

section Bits

variable {x : BitVec 64} {k m : Nat}

theorem pos_of_ne_zero (nonzero : x ≠ 0) : 0 < x.toNat := by
  apply Nat.pos_of_ne_zero
  intro zero
  exact nonzero (BitVec.eq_of_toNat_eq zero)

/-- The number of leading zeros is that of the power of two below the number. -/
theorem clz_eq (small : k < 64) (low : 2 ^ (63 - k) ≤ x.toNat) (high : x.toNat < 2 ^ (64 - k)) : x.clz.toNat = k := by
  have nonzero : x ≠ 0 := by
    rintro rfl
    exact absurd low (Nat.not_le_of_lt (Nat.pow_pos (by decide)))
  have low' : 2 ^ (64 - 1 - x.clz.toNat) ≤ x.toNat := BitVec.two_pow_sub_clz_le_toNat_of_ne_zero (by decide) nonzero
  have high' : x.toNat < 2 ^ (64 - x.clz.toNat) := BitVec.toNat_lt_two_pow_sub_clz
  have less := (Nat.pow_lt_pow_iff_right (by decide)).1 (Nat.lt_of_le_of_lt low high')
  have more := (Nat.pow_lt_pow_iff_right (by decide)).1 (Nat.lt_of_le_of_lt low' high)
  omega

theorem clz_bounds (nonzero : x ≠ 0) :
    x.clz.toNat < 64 ∧ 2 ^ (63 - x.clz.toNat) ≤ x.toNat ∧ x.toNat < 2 ^ (64 - x.clz.toNat) := by
  refine ⟨?_, ?_, ?_⟩
  · exact BitVec.lt_def.1 (BitVec.clz_lt_iff_ne_zero.2 nonzero)
  · exact BitVec.two_pow_sub_clz_le_toNat_of_ne_zero (by decide) nonzero
  · exact BitVec.toNat_lt_two_pow_sub_clz

/-- The builtin is what the size of the encoder is computed with. -/
theorem builtin_leadingZeroBits {left : Nat} (answer : left = 63 ∨ left = 64) :
    LeadingZeroBits fun n => if n = 0 then left else (BitVec.ofNat 64 n).clz.toNat where
  zero := answer
  positive n positive fits := by
    have value : (BitVec.ofNat 64 n).toNat = n := by
      rw [BitVec.toNat_ofNat, Nat.mod_eq_of_lt fits]
    have log : Nat.log2 n < 64 := (Nat.log2_lt (by omega)).2 fits
    rw [if_neg (by omega)]
    apply clz_eq (by omega)
    · rw [value, Nat.sub_sub_self (by omega)]
      exact Nat.log2_self_le (by omega)
    · have next : 64 - (63 - Nat.log2 n) = Nat.log2 n + 1 := by omega
      rw [value, next]
      exact Nat.lt_log2_self

/-- An odd number in front of `k` zero bits. -/
theorem testBit_shape (k m j : Nat) (low : j ≤ k) : (2 ^ k * (2 * m + 1)).testBit j = decide (j = k) := by
  rw [Nat.testBit_two_pow_mul]
  by_cases same : j = k
  · subst same
    simp
  · simp [same]
    omega

/-- The index of the lowest set bit. -/
theorem ctz_eq (shape : x.toNat = 2 ^ k * (2 * m + 1)) : x.ctz.toNat = k := by
  have nonzero : x ≠ 0 := by
    rintro rfl
    have positive : 0 < 2 ^ k * (2 * m + 1) := Nat.mul_pos (Nat.pow_pos (by decide)) (Nat.succ_pos _)
    exact absurd shape (Nat.ne_of_lt positive)
  have set : x.toNat.testBit x.ctz.toNat = true := BitVec.getLsbD_true_ctz_of_ne_zero nonzero
  rw [shape] at set
  by_contra other
  rcases Nat.lt_or_gt_of_ne other with less | more
  · rw [testBit_shape k m _ (Nat.le_of_lt less), decide_eq_true_eq] at set
    exact other set
  · have clear : x.toNat.testBit k = false := BitVec.getLsbD_false_of_lt_ctz more
    rw [shape, testBit_shape k m k (Nat.le_refl k), decide_eq_false_iff_not] at clear
    exact clear rfl

theorem ctz_shape (nonzero : x ≠ 0) : ∃ m, x.toNat = 2 ^ x.ctz.toNat * (2 * m + 1) := by
  have set : x.toNat.testBit x.ctz.toNat = true := BitVec.getLsbD_true_ctz_of_ne_zero nonzero
  have divides : 2 ^ x.ctz.toNat ∣ x.toNat := by
    apply Nat.dvd_of_mod_eq_zero
    apply Nat.eq_of_testBit_eq
    intro j
    rw [Nat.testBit_mod_two_pow, Nat.zero_testBit]
    by_cases below : j < x.ctz.toNat
    · have clear : x.toNat.testBit j = false := BitVec.getLsbD_false_of_lt_ctz below
      rw [clear, Bool.and_false]
    · rw [decide_eq_false below, Bool.false_and]
  obtain ⟨q, whole⟩ := divides
  have odd : q % 2 = 1 := by
    rw [whole, Nat.testBit_two_pow_mul] at set
    simpa using set
  refine ⟨q / 2, ?_⟩
  have halves : 2 * (q / 2) + 1 = q := by omega
  rw [halves]
  exact whole

/-- The index of the lowest bit is the number of leading zeros if the bits lie symmetrically. -/
theorem ctz_eq_clz_iff (nonzero : x ≠ 0) (zero : Int) :
    x.ctz.toNat = x.clz.toNat ↔ (Variant.bitScanForward zero).CountsAt x := by
  constructor
  · intro same
    obtain ⟨-, low, high⟩ := clz_bounds nonzero
    obtain ⟨m, shape⟩ := ctz_shape nonzero
    rw [← same] at low high
    exact ⟨x.ctz.toNat, m, shape, low, high⟩
  · rintro ⟨k, m, shape, low, high⟩
    have index := ctz_eq shape
    have small : x.ctz.toNat < 64 := BitVec.lt_def.1 (BitVec.ctz_lt_iff_ne_zero.2 nonzero)
    rw [index, clz_eq (by omega) low high]

end Bits

section Loop

/-- The shift of the mask has no value. -/
theorem shiftInt_mask : shiftInt 1 (8 * 8 - 1) = .error .undefined := if_neg (by decide)

theorem portable_undefined (x : BitVec 64) : Variant.portable.countLeadingZeroBits x = .error .undefined := by
  show shiftLoop (shiftInt 1 (8 * 8 - 1)) (63 + 1) 0 x = _
  rw [shiftInt_mask]
  rfl

/-- The loop does not count backwards. -/
theorem le_shiftLoop {mask count : Int} {left a : Nat} {x : BitVec 64} (run : shiftLoop (.ok mask) left a x = .ok count) :
    a ≤ count := by
  induction left generalizing a x with
  | zero =>
    cases run
    exact Int.le_refl _
  | succ left ih =>
    change (if x &&& BitVec.ofInt 64 mask ≠ 0 then pure (a : Int) else shiftLoop (.ok mask) left (a + 1) (x <<< 1)) = _ at run
    split at run
    · cases run
      exact Int.le_refl _
    · have later := ih run
      omega

/-- The bit of an `int` that is taken as `unsigned long long`. -/
theorem getLsbD_int {mask : Int} (low : -2147483648 ≤ mask) (high : mask < 2147483648) {j : Nat} (upper : j = 62 ∨ j = 63) :
    (BitVec.ofInt 64 mask).getLsbD j = decide (mask < 0) := by
  have value : ((BitVec.ofInt 64 mask).toNat : Int) = mask % 18446744073709551616 := by
    rw [BitVec.toNat_ofInt]
    omega
  have bit : (BitVec.ofInt 64 mask).getLsbD j = decide ((BitVec.ofInt 64 mask).toNat / 2 ^ j % 2 = 1) :=
    Nat.testBit_eq_decide_div_mod_eq
  rw [bit, decide_eq_decide]
  rcases upper with rfl | rfl
  · omega
  · omega

/-- Whatever `int` the shift may give, the loop is wrong for `2 ^ 63` or for `2 ^ 62`. -/
theorem shiftLoop_wrong {mask : Int} (low : -2147483648 ≤ mask) (high : mask < 2147483648) :
    ∃ x : BitVec 64, x ≠ 0 ∧ shiftLoop (.ok mask) (8 * 8) 0 x ≠ .ok x.clz.toNat := by
  have step : ∀ x : BitVec 64, shiftLoop (.ok mask) (63 + 1) 0 x =
      if x &&& BitVec.ofInt 64 mask ≠ 0 then .ok 0 else shiftLoop (.ok mask) 63 1 (x <<< 1) := fun _ => rfl
  by_cases negative : mask < 0
  · have two : (BitVec.twoPow 64 62).clz.toNat = 1 := by decide
    have tested : BitVec.twoPow 64 62 &&& BitVec.ofInt 64 mask ≠ 0 := by
      rw [BitVec.twoPow_and, getLsbD_int low high (.inl rfl), decide_eq_true negative]
      decide
    refine ⟨BitVec.twoPow 64 62, by decide, ?_⟩
    rw [two, step, if_pos tested]
    simp
  · have one : (BitVec.twoPow 64 63).clz.toNat = 0 := by decide
    have tested : BitVec.twoPow 64 63 &&& BitVec.ofInt 64 mask = 0 := by
      rw [BitVec.twoPow_and, getLsbD_int low high (.inr rfl), decide_eq_false negative]
      rfl
    refine ⟨BitVec.twoPow 64 63, by decide, ?_⟩
    rw [one, step, if_neg (not_not_intro tested)]
    intro run
    have counted := le_shiftLoop run
    omega

end Loop

section Size

variable {sizeT : SizeT} {i : Int}

/-- A Fixnum without its sign fits. -/
theorem toNat_magnitude (fixnum : isFixnum i = true) :
    i.natAbs < 2 ^ 63 ∧ (BitVec.ofInt 64 (if i < 0 then -i else i)).toNat = i.natAbs := by
  simp only [isFixnum, Bool.and_eq_true, decide_eq_true_eq] at fixnum
  rw [BitVec.toNat_ofInt]
  split
  · omega
  · omega

/-- For zero any answer of the intrinsic is enough: not even a negative difference makes the size negative. -/
theorem zero_size (sizeT : SizeT) (zero : Int) : 0 ≤ int32 ((8 * 8 - int32 zero) % 2 ^ sizeT.bits / 3) := by
  obtain ⟨low, high⟩ := int32_bounds zero
  generalize int32 zero = count at low high
  rcases sizeT.wide with narrow | wide
  · rw [narrow, int32_eq (by omega) (by omega)]
    omega
  · rw [wide]
    by_cases small : count ≤ 64
    · rw [int32_eq (by omega) (by omega)]
      omega
    · have cut : int32 ((8 * 8 - count) % 2 ^ 64 / 3) =
          int32 ((8 * 8 - count) % 2 ^ 64 / 3 - 1431655765 * ((2 ^ 32 : Nat) : Int)) :=
        (Int.sub_mul_bmod_self_right _ _ _).symm
      rw [cut, int32_eq (by omega) (by omega)]
      omega

/-- The characters of the second call are the digits and the sign. -/
theorem length_writeInteger (i : Int) :
    (writeInteger i).length = (decimal i.natAbs).length + if i < 0 then 1 else 0 := by
  rw [writeInteger_eq, integerText]
  split
  · rw [List.length_cons]
  · rfl

/-- With a count of less than 64 the size is compared digit by digit. -/
theorem announces_count {variant : Variant} {count : Nat} (small : count ≤ 64)
    (counts : variant.countLeadingZeroBits (BitVec.ofInt 64 (if i < 0 then -i else i)) = .ok count) :
    variant.Announces sizeT i ↔ i.natAbs < 10 ^ ((64 - count) / 3 + 1) := by
  have len : int32 ((8 * 8 - (count : Int)) % 2 ^ sizeT.bits / 3) = ((64 - count) / 3 : Nat) := by
    have inside : (8 * 8 - (count : Int)) % 2 ^ sizeT.bits = (64 - count : Nat) := by
      rcases sizeT.wide with narrow | wide
      · rw [narrow]
        omega
      · rw [wide]
        omega
    rw [inside, int32_eq (by omega) (by omega)]
    omega
  have size : variant.integerSize sizeT i = .ok (((64 - count) / 3 : Nat) + (1 + if i < 0 then 1 else 0)) := by
    unfold Variant.integerSize
    dsimp only
    rw [counts]
    show Except.ok (if i < 0 then int32 ((8 * 8 - (count : Int)) % 2 ^ sizeT.bits / 3) + 2
      else int32 ((8 * 8 - (count : Int)) % 2 ^ sizeT.bits / 3) + 1) = _
    rw [len]
    split
    · rfl
    · rfl
  unfold Variant.Announces
  rw [← length_decimal_le (Nat.succ_pos _), length_writeInteger, size]
  constructor
  · rintro ⟨_, ⟨⟩, enough⟩
    split at enough
    · omega
    · omega
  · intro enough
    refine ⟨_, rfl, ?_⟩
    split
    · omega
    · omega

/-- The magnitude of a Fixnum that is not zero has a leading zero, and is not zero either. -/
theorem magnitude_ne_zero (fixnum : isFixnum i = true) (nonzero : i ≠ 0) :
    BitVec.ofInt 64 (if i < 0 then -i else i) ≠ 0 := by
  have value := (toNat_magnitude fixnum).2
  intro zero
  rw [zero] at value
  have none : (0 : BitVec 64).toNat = 0 := rfl
  omega

theorem builtin_counts {x : BitVec 64} (nonzero : x ≠ 0) (zero : Int) :
    (Variant.builtin zero).countLeadingZeroBits x = .ok (x.clz.toNat : Int) := congrArg Except.ok (if_neg nonzero)

theorem bitScan_counts {x : BitVec 64} (nonzero : x ≠ 0) (zero : Int) :
    (Variant.bitScanForward zero).countLeadingZeroBits x = .ok (x.ctz.toNat : Int) := congrArg Except.ok (if_neg nonzero)

/-- Zero is one character. -/
theorem announces_zero (sizeT : SizeT) {variant : Variant} {zero : Int}
    (counts : variant.countLeadingZeroBits 0 = .ok (int32 zero)) : variant.Announces sizeT 0 := by
  have size : variant.integerSize sizeT 0 = .ok (int32 ((8 * 8 - int32 zero) % 2 ^ sizeT.bits / 3) + 1) := by
    show (variant.countLeadingZeroBits 0 >>= _) = _
    rw [counts]
    rfl
  have one : (writeInteger 0).length = 1 := by
    rw [length_writeInteger, Int.natAbs_zero, decimal_of_lt (by decide)]
    rfl
  have nonneg := zero_size sizeT zero
  refine ⟨_, size, ?_⟩
  omega

/-- The builtin. -/
theorem builtin_announces (sizeT : SizeT) (zero : Int) (fixnum : isFixnum i = true) :
    (Variant.builtin zero).Announces sizeT i := by
  by_cases none : i = 0
  · rw [none]
    exact announces_zero sizeT rfl
  · have nonzero := magnitude_ne_zero fixnum none
    have value := (toNat_magnitude fixnum).2
    obtain ⟨small, -, high⟩ := clz_bounds nonzero
    apply (announces_count (Nat.le_of_lt small) (builtin_counts nonzero zero)).2
    rw [← length_decimal_le (Nat.succ_pos _)]
    apply length_decimal_le_bits
    rwa [value] at high

/-- The index of the lowest bit. -/
theorem bitScan_announces_iff (sizeT : SizeT) (zero : Int) (fixnum : isFixnum i = true) :
    (Variant.bitScanForward zero).Announces sizeT i ↔ (Variant.bitScanForward zero).AnnouncesAt i := by
  by_cases none : i = 0
  · subst none
    refine iff_of_true (announces_zero sizeT rfl) ?_
    intro k m _
    exact Nat.pow_pos (by decide)
  · have nonzero := magnitude_ne_zero fixnum none
    have value := (toNat_magnitude fixnum).2
    have small := BitVec.lt_def.1 (BitVec.ctz_lt_iff_ne_zero.2 nonzero)
    rw [announces_count (Nat.le_of_lt small) (bitScan_counts nonzero zero)]
    constructor
    · intro enough k m shape
      rwa [ctz_eq (value.trans shape)] at enough
    · intro enough
      obtain ⟨m, shape⟩ := ctz_shape nonzero
      exact enough _ m (value.symm.trans shape)

end Size

/-- **The number of leading zero bits.** The builtin always counts it, the index of the lowest bit is it where the bits
lie symmetrically, and the loop never has a value. So the size is enough with the builtin, and with the index where the
number is small enough for the power of two that divides it. -/
theorem leading_zero_bits_iff (variant : Variant) (sizeT : SizeT) :
    (∀ x : BitVec 64, x ≠ 0 → (variant.countLeadingZeroBits x = .ok x.clz.toNat ↔ variant.CountsAt x)) ∧
    ∀ i, isFixnum i = true → (variant.Announces sizeT i ↔ variant.AnnouncesAt i) := by
  cases variant with
  | builtin zero =>
    constructor
    · intro x nonzero
      exact iff_of_true (builtin_counts nonzero zero) trivial
    · intro i fixnum
      exact iff_of_true (builtin_announces sizeT zero fixnum) trivial
  | bitScanForward zero =>
    constructor
    · intro x nonzero
      rw [bitScan_counts nonzero zero, ← ctz_eq_clz_iff nonzero zero, Except.ok.injEq, Int.natCast_inj]
    · intro i fixnum
      exact bitScan_announces_iff sizeT zero fixnum
  | portable =>
    constructor
    · intro x _
      rw [portable_undefined]
      exact iff_of_false (by simp) id
    · intro i _
      refine iff_of_false ?_ id
      rintro ⟨size, answer, -⟩
      unfold Variant.integerSize at answer
      dsimp only at answer
      rw [portable_undefined] at answer
      cases answer

/-- `2 ^ 61` under each of them. -/
theorem leading_zero_bits_high :
    (Variant.builtin 63).countLeadingZeroBits (BitVec.twoPow 64 61) = .ok 2 ∧
    (Variant.builtin 63).Announces ⟨64, .inr rfl⟩ (2 ^ 61) ∧ ¬(Variant.bitScanForward 0).Announces ⟨64, .inr rfl⟩ (2 ^ 61) := by
  refine ⟨?_, ?_, ?_⟩
  · exact ((leading_zero_bits_iff (.builtin 63) ⟨64, .inr rfl⟩).1 _ (by decide)).2 trivial
  · exact ((leading_zero_bits_iff (.builtin 63) ⟨64, .inr rfl⟩).2 _ (by decide)).2 trivial
  · intro announces
    have small := ((leading_zero_bits_iff (.bitScanForward 0) ⟨64, .inr rfl⟩).2 _ (by decide)).1 announces
    exact absurd (small 61 0 rfl) (by decide)

/-- `2 ^ 61` has two leading zeros, and 19 digits. The index of its lowest bit makes the size 2; and the loop has no
value at all. -/
theorem lowest_bit_counted :
    (BitVec.twoPow 64 61).clz.toNat = 2 ∧ (Variant.bitScanForward 0).countLeadingZeroBits (BitVec.twoPow 64 61) = .ok 61 ∧
    (Variant.bitScanForward 0).integerSize ⟨64, .inr rfl⟩ (2 ^ 61) = .ok 2 ∧ (writeInteger (2 ^ 61)).length = 19 ∧
    Variant.portable.countLeadingZeroBits (BitVec.twoPow 64 61) = .error .undefined := by
  decide +kernel

end RubyPg.Text
