import RubyPg.Lib.Numeral
import RubyPg.TwoPass.Encoding

/-!
# The layout of a float

`pg_text_enc_float` writes its digits from right to left, at places counted from the left, and counts the ones it has
kept. What it leaves is a numeral without gaps (`Writer.Laid`) for just the number that its digits and the exponent
stand for, with the zeros at the end of the fraction trimmed.
-/

namespace RubyPg.TwoPass
set_option autoImplicit false
open Ascii Writer

/-- The digits of a number in one of the two formats. -/
def formatAt (ll : Nat) (exp10i : Int) (out : Nat) : Writer Stop Nat :=
  if exp10i ≤ -5 ∨ exp10i ≥ 15 then exponentFormat ll exp10i out else plainFormat ll exp10i out

/-- What `pg_text_enc_float` writes for a number of this sign, with these digits and this power of 10 of the first. -/
def layoutFloat (neg : Bool) (ll : Nat) (exp10i : Int) (out : Nat) : Writer Stop Nat :=
  if neg then do
    store out minus
    let len ← formatAt ll exp10i (out + 1)
    pure (1 + len)
  else formatAt ll exp10i out

/-- The encoder lays its digits out so. -/
theorem floatSecond_layout {api : CApi} {value : Value} {neg : Bool} {mant : Fin (2 ^ 53)} {exp : Fin 2046}
    (read : api.num2dbl value = .ok (.finite neg mant exp)) (out : Nat) :
    floatSecond api value out =
      layoutFloat (neg && mant.val != 0) (floatDigits api mant exp).1 (floatDigits api mant exp).2 out := by
  unfold floatSecond
  rw [read]
  rfl

section Loops

variable {out k ll lz j : Nat} {kept : Bytes} {s₀ s : Buf}

/-- Nothing lies anywhere. -/
theorem laid_nil {i : Nat} (laid : Laid i [] s₀ s) (j : Nat) : Laid j [] s₀ s where
  here := rfl
  frame i _ := laid.frame i (by simp only [List.length_nil]; omega)
  log := by
    obtain ⟨w, log, inside⟩ := laid.log
    refine ⟨w, log, fun i => ?_⟩
    rw [inside, List.length_nil]
    omega

theorem div_pow_succ (n k : Nat) : n / 10 ^ (k + 1) = n / 10 / 10 ^ k := by
  rw [Nat.div_div_eq_div_mul, Nat.pow_succ, Nat.mul_comm]

/-- Behind a digit that was kept all are. -/
theorem fractionLoop_whole (out ll : Nat) (some : kept ≠ []) (laid : Laid (out + (k + 2)) kept s₀ s) :
    ∃ s', fractionLoop out k ll kept.length s = (.ok (ll / 10 ^ k, k + kept.length), s') ∧
      Laid (out + 2) (digitsOf k ll ++ kept) s₀ s' := by
  induction k generalizing ll kept s with
  | zero =>
    refine ⟨s, ?_, laid⟩
    rw [Nat.pow_zero, Nat.div_one, Nat.zero_add]
    rfl
  | succ k ih =>
    have counted : kept.length ≠ 0 := fun none => some (List.eq_nil_of_length_eq_zero none)
    obtain ⟨s', run, laid'⟩ := ih (ll / 10) (List.cons_ne_nil _ _) (laid.cons (digitChar (ll % 10)))
    refine ⟨s', ?_, ?_⟩
    · rw [fractionLoop, if_pos (.inr counted), store_bind, div_pow_succ, Nat.add_assoc, Nat.add_comm 1]
      exact run
    · rw [digitsOf_succ, List.append_assoc]
      exact laid'

/-- The digits of the fraction without the zeros at its end. -/
theorem fractionLoop_run (out ll : Nat) (s : Buf) :
    ∃ s', fractionLoop out k ll 0 s = (.ok (ll / 10 ^ k, (trimZeros (digitsOf k ll)).length), s') ∧
      Laid (out + 2) (trimZeros (digitsOf k ll)) s s' := by
  induction k generalizing ll with
  | zero =>
    refine ⟨s, ?_, .nothing _ _⟩
    rw [Nat.pow_zero, Nat.div_one]
    rfl
  | succ k ih =>
    rw [digitsOf_succ, div_pow_succ, fractionLoop]
    by_cases zero : ll % 10 = 0
    · rw [if_neg (by simp [zero]), zero]
      have trimmed : trimZeros (digitsOf k (ll / 10) ++ [(48 + 0).toUInt8]) = trimZeros (digitsOf k (ll / 10)) :=
        trimZeros_zero _
      rw [trimmed]
      exact ih (ll / 10)
    · have digit : (48 + ll % 10).toUInt8 ≠ 0x30 := fun same =>
        zero ((digit_eq_zero_iff (Nat.mod_lt _ (by decide))).1 same)
      obtain ⟨s', run, laid⟩ := fractionLoop_whole (k := k) out (ll / 10) (List.cons_ne_nil _ _)
        (.stored (out + (k + 2)) (digitChar (ll % 10)) s)
      rw [if_pos (.inl zero), store_bind, trimZeros_digit _ digit]
      refine ⟨s', ?_, laid⟩
      rw [List.length_append, length_digitsOf]
      exact run

/-- The point comes in front of the digits, where there are any. -/
theorem storeDot_run {fraction : Bytes} (laid : Laid (out + 2) fraction s₀ s) :
    ∃ s', (storeDot out fraction.length : Writer Stop Nat) s = (.ok (Numeral.fractionText fraction).length, s') ∧
      Laid (out + 1) (Numeral.fractionText fraction) s₀ s' := by
  unfold storeDot Numeral.fractionText
  by_cases none : fraction = []
  · subst none
    exact ⟨s, rfl, laid_nil laid _⟩
  · have counted : fraction.length ≠ 0 := fun zero => none (List.eq_nil_of_length_eq_zero zero)
    rw [if_pos counted, if_neg none]
    exact ⟨_, rfl, laid.cons dot⟩

/-- Once the point is behind it, the loop keeps every digit. -/
theorem plainLoop_whole (lz ll : Nat) (some : kept ≠ []) (front : k ≤ lz + 1) (laid : Laid (out + k) kept s₀ s) :
    ∃ s', plainLoop lz out k ll kept.length s = (.ok (k + kept.length), s') ∧ Laid out (digitsOf k ll ++ kept) s₀ s' := by
  induction k generalizing ll kept s with
  | zero =>
    refine ⟨s, ?_, laid⟩
    rw [Nat.zero_add]
    rfl
  | succ k ih =>
    have counted : kept.length ≠ 0 := fun none => some (List.eq_nil_of_length_eq_zero none)
    cases k with
    | zero =>
      rw [digitsOf_succ, List.append_assoc]
      refine ⟨_, ?_, laid.cons (digitChar (ll % 10))⟩
      rw [plainLoop, if_pos (.inr counted), store_bind, Nat.add_comm]
      rfl
    | succ k =>
      obtain ⟨s', run, laid'⟩ := ih (ll / 10) (List.cons_ne_nil _ _) (by omega) (laid.cons (digitChar (ll % 10)))
      refine ⟨s', ?_, ?_⟩
      · rw [plainLoop, if_neg (by omega), if_pos (.inr (.inl counted)), store_bind, Nat.add_assoc (k + 1), Nat.add_comm 1]
        exact run
      · rw [digitsOf_succ (k + 1), List.append_assoc]
        exact laid'

/-- The point and what is in front of it. -/
theorem plainLoop_point (lz ll : Nat) (laid : Laid (out + (lz + 2)) kept s₀ s) :
    ∃ s', plainLoop lz out (lz + 2) ll kept.length s = (.ok (lz + 1 + (kept.length + 1)), s') ∧
      Laid out (digitsOf (lz + 1) ll ++ dot :: kept) s₀ s' := by
  obtain ⟨s', run, laid'⟩ := plainLoop_whole lz (ll / 10) (List.cons_ne_nil _ _) (Nat.le_succ lz)
    ((laid.cons dot).cons (digitChar (ll % 10)))
  refine ⟨s', ?_, ?_⟩
  · rw [plainLoop, if_pos rfl, store_bind, store_bind, Nat.add_assoc lz 1, Nat.add_comm 1]
    exact run
  · rw [digitsOf_succ, List.append_assoc]
    exact laid'

/-- The digits of the fraction in front of one that was kept. -/
theorem plainLoop_fraction (lz ll : Nat) (some : kept ≠ []) (laid : Laid (out + (lz + 2 + j)) kept s₀ s) :
    ∃ s', plainLoop lz out (lz + 2 + j) ll kept.length s = (.ok (lz + 1 + (j + kept.length + 1)), s') ∧
      Laid out (digitsOf (lz + 1) (ll / 10 ^ j) ++ dot :: (digitsOf j ll ++ kept)) s₀ s' := by
  induction j generalizing ll kept s with
  | zero =>
    rw [Nat.pow_zero, Nat.div_one, Nat.zero_add]
    exact plainLoop_point lz ll laid
  | succ j ih =>
    have counted : kept.length ≠ 0 := fun none => some (List.eq_nil_of_length_eq_zero none)
    have index : lz + 2 + (j + 1) = lz + 1 + j + 2 := by omega
    have index' : lz + 2 + j = lz + 1 + j + 1 := by omega
    rw [index'] at ih
    rw [index] at laid
    obtain ⟨s', run, laid'⟩ := ih (ll / 10) (List.cons_ne_nil _ _) (laid.cons (digitChar (ll % 10)))
    refine ⟨s', ?_, ?_⟩
    · rw [index, plainLoop, if_neg (by omega), if_pos (.inr (.inl counted)), store_bind, Nat.add_assoc j, Nat.add_comm 1]
      exact run
    · rw [div_pow_succ, digitsOf_succ j, List.append_assoc]
      exact laid'

/-- The digits, of which the fraction has at least one. -/
theorem plainLoop_run (s : Buf) :
    ∃ s', plainLoop lz out (lz + 1 + j + 2) ll 0 s =
        (.ok (lz + 1 + ((48 + ll / 10 ^ j % 10).toUInt8 :: trimZeros (digitsOf j ll)).length + 1), s') ∧
      Laid out (digitsOf (lz + 1) (ll / 10 ^ (j + 1)) ++ dot :: (48 + ll / 10 ^ j % 10).toUInt8 :: trimZeros (digitsOf j ll))
        s s' := by
  induction j generalizing ll with
  | zero =>
    obtain ⟨s', run, laid⟩ := plainLoop_point lz (ll / 10) (.stored (out + (lz + 2)) (digitChar (ll % 10)) s)
    refine ⟨s', ?_, ?_⟩
    · rw [plainLoop, if_neg (by omega), if_pos (.inr (.inr (by push_cast; omega))), store_bind, Nat.pow_zero, Nat.div_one]
      exact run
    · rw [Nat.pow_one, Nat.pow_zero, Nat.div_one]
      exact laid
  | succ j ih =>
    have index : lz + 1 + (j + 1) = lz + 1 + j + 1 := rfl
    rw [div_pow_succ ll (j + 1), div_pow_succ ll j, plainLoop, if_neg (by omega), digitsOf_succ j]
    by_cases zero : ll % 10 = 0
    · have none : ¬(ll % 10 ≠ 0 ∨ 0 ≠ 0 ∨ ((lz + 1 + (j + 1) : Nat) + 1 : Int) - 2 = lz) := by
        push_cast
        omega
      have trimmed : trimZeros (digitsOf j (ll / 10) ++ [(48 + 0).toUInt8]) = trimZeros (digitsOf j (ll / 10)) :=
        trimZeros_zero _
      rw [if_neg none, zero, trimmed]
      exact ih
    · have digit : (48 + ll % 10).toUInt8 ≠ 0x30 := fun same =>
        zero ((digit_eq_zero_iff (Nat.mod_lt _ (by decide))).1 same)
      have place : lz + 1 + (j + 1) + 1 = lz + 2 + (j + 1) := by omega
      obtain ⟨s', run, laid⟩ := plainLoop_fraction (j := j + 1) lz (ll / 10) (List.cons_ne_nil _ _)
        (.stored (out + (lz + 2 + (j + 1))) (digitChar (ll % 10)) s)
      rw [if_pos (.inl zero), store_bind, trimZeros_digit _ digit, place]
      refine ⟨s', ?_, laid⟩
      rw [List.length_cons, List.length_append, length_digitsOf]
      exact run

end Loops

section Formats

variable {out : Nat} (s : Buf)

/-- An integer, written backwards and reversed. -/
theorem writeIntegerAt_laid (sll : Int) (out : Nat) :
    ∃ s', writeIntegerAt sll out s = (.ok (signedDecimal sll).length, s') ∧ Laid out (signedDecimal sll) s s' := by
  have length : (signedDecimal sll).length = integerLength sll := rfl
  have fills := writeIntegerAt_fills sll out
  have inside := writeIntegerAt_bounded sll out
  have all := writeIntegerAt_ends sll out
  rw [Text.writeInteger_eq] at fills
  exact Laid.of_fills fills inside (all.mono fun _ _ written => written.2) s

/-- The digits of the exponent format: one in front of the point. -/
theorem exponentFormat_run (ll : Nat) (exp10i : Int) :
    ∃ s', exponentFormat ll exp10i out s =
        (.ok ((Numeral.fractionText (trimZeros (digitsOf 15 ll))).length + 2 + (signedDecimal exp10i).length), s') ∧
      Laid out ((48 + ll / 10 ^ 15 % 10).toUInt8 :: Numeral.fractionText (trimZeros (digitsOf 15 ll)) ++
        Numeral.exponentText (some exp10i)) s s' := by
  obtain ⟨s₁, run₁, laid₁⟩ := fractionLoop_run (k := 15) out ll s
  obtain ⟨s₂, run₂, laid₂⟩ := storeDot_run laid₁
  have laid₃ := laid₂.cons (digitChar (ll / 10 ^ 15 % 10))
  have laid₄ := laid₃.snoc 0x65
  obtain ⟨s₅, run₅, laid₅⟩ := writeIntegerAt_laid _ exp10i _
  refine ⟨s₅, ?_, ?_⟩
  · unfold exponentFormat
    rw [Method.bind_ok run₁]
    dsimp only
    rw [Method.bind_ok run₂, store_bind, store_bind]
    exact Method.bind_ok run₅
  · have place : (digitChar (ll / 10 ^ 15 % 10) :: Numeral.fractionText (trimZeros (digitsOf 15 ll)) ++ [0x65]).length =
        (Numeral.fractionText (trimZeros (digitsOf 15 ll))).length + 2 := List.length_append
    rw [← place] at laid₅
    have laid := laid₄.behind laid₅
    rw [List.append_assoc] at laid
    exact laid

/-- The other format. -/
theorem plainFormat_run (ll : Nat) {exp10i : Int} (low : -5 < exp10i) (high : exp10i < 15) :
    ∃ s', plainFormat ll exp10i out s = (.ok (exp10i.toNat + 1 +
        ((48 + ll / 10 ^ (14 - exp10i).toNat % 10).toUInt8 :: trimZeros (digitsOf (14 - exp10i).toNat ll)).length + 1), s') ∧
      Laid out (digitsOf (exp10i.toNat + 1) (ll / 10 ^ ((14 - exp10i).toNat + 1)) ++
        dot :: (48 + ll / 10 ^ (14 - exp10i).toNat % 10).toUInt8 :: trimZeros (digitsOf (14 - exp10i).toNat ll)) s s' := by
  have places : 17 + (-exp10i).toNat = exp10i.toNat + 1 + (14 - exp10i).toNat + 2 := by omega
  unfold plainFormat
  rw [places]
  exact plainLoop_run s

end Formats

section Numerals

variable (neg : Bool) (ll : Nat) (exp10i : Int)

/-- A numeral like `1.5e300`. -/
def exponentNumeral : Numeral where
  negative := neg
  whole := [(48 + ll / 10 ^ 15 % 10).toUInt8]
  fraction := trimZeros (digitsOf 15 ll)
  exponent := some exp10i
  digits c member := by
    rcases List.mem_append.1 member with whole | fraction
    · rw [List.mem_singleton.1 whole]
      exact isDigit_digit (Nat.mod_lt _ (by decide))
    · exact isDigit_of_mem_digitsOf (mem_of_mem_trimZeros fraction)
  nonempty := List.cons_ne_nil _ _

/-- A numeral like `0.001` or `12.0`. -/
def plainNumeral : Numeral where
  negative := neg
  whole := digitsOf (exp10i.toNat + 1) (ll / 10 ^ ((14 - exp10i).toNat + 1))
  fraction := (48 + ll / 10 ^ (14 - exp10i).toNat % 10).toUInt8 :: trimZeros (digitsOf (14 - exp10i).toNat ll)
  exponent := none
  digits c member := by
    rcases List.mem_append.1 member with whole | fraction
    · exact isDigit_of_mem_digitsOf whole
    · rcases List.mem_cons.1 fraction with rfl | later
      · exact isDigit_digit (Nat.mod_lt _ (by decide))
      · exact isDigit_of_mem_digitsOf (mem_of_mem_trimZeros later)
  nonempty := List.cons_ne_nil _ _

/-- The numeral that is laid out. -/
def floatNumeral : Numeral :=
  if exp10i ≤ -5 ∨ exp10i ≥ 15 then exponentNumeral neg ll exp10i else plainNumeral neg ll exp10i

variable {neg ll exp10i}

theorem value_exponentNumeral (digits : ll < 10 ^ 16) :
    (exponentNumeral neg ll exp10i).value = (if neg then -1 else 1) * (ll * 10 ^ (exp10i - 15)) := by
  have trimmed := scaled_trimZeros (readDigits 0 [(48 + ll / 10 ^ 15 % 10).toUInt8]) exp10i (digitsOf 15 ll)
  have whole : readDigits (readDigits 0 [(48 + ll / 10 ^ 15 % 10).toUInt8]) (digitsOf 15 ll) = ll := by
    rw [← readDigits_append]
    have all := readDigits_digitsOf 16 ll 0
    rw [Nat.mod_eq_of_lt digits, Nat.zero_mul, Nat.zero_add] at all
    exact all
  rw [whole, ← readDigits_append, length_digitsOf] at trimmed
  exact congrArg _ trimmed

theorem value_plainNumeral (digits : ll < 10 ^ 16) (low : -5 < exp10i) (high : exp10i < 15) :
    (plainNumeral neg ll exp10i).value = (if neg then -1 else 1) * (ll * 10 ^ (exp10i - 15)) := by
  obtain ⟨j, count⟩ : ∃ j, (14 - exp10i).toNat = j := ⟨_, rfl⟩
  have whole : readDigits (readDigits 0 (digitsOf (exp10i.toNat + 1) (ll / 10 ^ (j + 1)) ++ [(48 + ll / 10 ^ j % 10).toUInt8]))
      (digitsOf j ll) = ll := by
    have bound : ll < 10 ^ (exp10i.toNat + 1 + (j + 1)) :=
      Nat.lt_of_lt_of_le digits (Nat.pow_le_pow_right (by decide) (by omega))
    have all := readDigits_digitsOf (exp10i.toNat + 1 + (j + 1)) ll 0
    rw [Nat.mod_eq_of_lt bound, Nat.zero_mul, Nat.zero_add, digitsOf_add] at all
    rw [← readDigits_append, List.append_assoc]
    exact all
  have trimmed := scaled_trimZeros
    (readDigits 0 (digitsOf (exp10i.toNat + 1) (ll / 10 ^ (j + 1)) ++ [(48 + ll / 10 ^ j % 10).toUInt8])) (-1) (digitsOf j ll)
  have exponent : -1 - (j : Int) = exp10i - 15 := by omega
  have count' : (0 : Int) - ((trimZeros (digitsOf j ll)).length + 1 : Nat) = -1 - (trimZeros (digitsOf j ll)).length := by
    push_cast
    omega
  rw [whole, ← readDigits_append, List.append_assoc, length_digitsOf, exponent, ← count'] at trimmed
  subst count
  exact congrArg _ trimmed

end Numerals

section Main

variable {neg : Bool} {ll : Nat} {exp10i : Int}

/-- The text of a numeral without its sign. -/
theorem formatAt_run (ll : Nat) (exp10i : Int) (out : Nat) (s : Buf) :
    ∃ s', formatAt ll exp10i out s = (.ok (floatNumeral false ll exp10i).text.length, s') ∧
      Laid out (floatNumeral false ll exp10i).text s s' := by
  unfold formatAt floatNumeral
  by_cases far : exp10i ≤ -5 ∨ exp10i ≥ 15
  · rw [if_pos far, if_pos far]
    obtain ⟨s', run, laid⟩ := @exponentFormat_run out s ll exp10i
    refine ⟨s', ?_, laid⟩
    have length : (exponentNumeral false ll exp10i).text.length =
        (Numeral.fractionText (trimZeros (digitsOf 15 ll))).length + 2 + (signedDecimal exp10i).length := by
      show ((48 + ll / 10 ^ 15 % 10).toUInt8 :: (Numeral.fractionText (trimZeros (digitsOf 15 ll)) ++
        0x65 :: signedDecimal exp10i)).length = _
      rw [List.length_cons, List.length_append, List.length_cons]
      omega
    rw [run, length]
  · rw [if_neg far, if_neg far]
    obtain ⟨s', run, laid⟩ := @plainFormat_run out s ll exp10i (by omega) (by omega)
    have text : (plainNumeral false ll exp10i).text = digitsOf (exp10i.toNat + 1) (ll / 10 ^ ((14 - exp10i).toNat + 1)) ++
        dot :: (48 + ll / 10 ^ (14 - exp10i).toNat % 10).toUInt8 :: trimZeros (digitsOf (14 - exp10i).toNat ll) := by
      show digitsOf _ _ ++ ((dot :: _ :: trimZeros _) ++ []) = _
      rw [List.append_nil]
    rw [text]
    refine ⟨s', ?_, laid⟩
    rw [run, List.length_append, length_digitsOf, Nat.add_assoc]
    rfl

/-- The sign comes first. -/
theorem text_neg (ll : Nat) (exp10i : Int) : (floatNumeral true ll exp10i).text = minus :: (floatNumeral false ll exp10i).text := by
  unfold floatNumeral
  split
  · rfl
  · rfl

/-- The whole text, from the pointer on. -/
theorem layoutFloat_run (neg : Bool) (ll : Nat) (exp10i : Int) (out : Nat) (s : Buf) :
    ∃ s', layoutFloat neg ll exp10i out s = (.ok (floatNumeral neg ll exp10i).text.length, s') ∧
      Laid out (floatNumeral neg ll exp10i).text s s' := by
  cases neg with
  | false => exact formatAt_run ll exp10i out s
  | true =>
    obtain ⟨s', run, laid⟩ := formatAt_run ll exp10i (out + 1) ⟨s.mem.put out minus, out :: s.log⟩
    rw [text_neg]
    refine ⟨s', ?_, Laid.behind (.stored out minus s) laid⟩
    unfold layoutFloat
    rw [if_pos rfl, store_bind, Method.bind_ok run, List.length_cons, Nat.add_comm]
    rfl

theorem value_floatNumeral (digits : ll < 10 ^ 16) :
    (floatNumeral neg ll exp10i).value = (if neg then -1 else 1) * (ll * 10 ^ (exp10i - 15)) := by
  unfold floatNumeral
  split
  · exact value_exponentNumeral digits
  · exact value_plainNumeral digits (by omega) (by omega)

/-- The exponents of a `double` have up to three digits. -/
theorem length_signedDecimal (low : -324 ≤ exp10i) (high : exp10i ≤ 308) : (signedDecimal exp10i).length ≤ 4 := by
  have digits : (decimal exp10i.natAbs).length ≤ 3 := (length_decimal_le (by decide)).2 (by omega)
  unfold signedDecimal
  split
  · exact Nat.succ_le_succ digits
  · omega

theorem length_trimZeros (ds : Bytes) : (trimZeros ds).length ≤ ds.length := (List.rdropWhile_prefix _ _).length_le

/-- The text fits the place that is reserved. -/
theorem length_floatNumeral (low : -324 ≤ exp10i) (high : exp10i ≤ 308) : (floatNumeral neg ll exp10i).text.length ≤ 23 := by
  have sign : (if neg then [(0x2d : UInt8)] else []).length ≤ 1 := by
    split
    · exact Nat.le_refl _
    · exact Nat.zero_le _
  unfold floatNumeral
  split
  · have exponent := length_signedDecimal low high
    have trimmed := length_trimZeros (digitsOf 15 ll)
    have point : (Numeral.fractionText (trimZeros (digitsOf 15 ll))).length ≤ (trimZeros (digitsOf 15 ll)).length + 1 := by
      unfold Numeral.fractionText
      split
      · exact Nat.zero_le _
      · exact Nat.le_refl _
    rw [length_digitsOf] at trimmed
    show ((if neg then [(0x2d : UInt8)] else []) ++ ((48 + ll / 10 ^ 15 % 10).toUInt8 ::
      (Numeral.fractionText (trimZeros (digitsOf 15 ll)) ++ 0x65 :: signedDecimal exp10i))).length ≤ 23
    rw [List.length_append, List.length_cons, List.length_append, List.length_cons]
    omega
  · have trimmed := length_trimZeros (digitsOf (14 - exp10i).toNat ll)
    rw [length_digitsOf] at trimmed
    show ((if neg then [(0x2d : UInt8)] else []) ++ (digitsOf (exp10i.toNat + 1) (ll / 10 ^ ((14 - exp10i).toNat + 1)) ++
      ((dot :: (48 + ll / 10 ^ (14 - exp10i).toNat % 10).toUInt8 :: trimZeros (digitsOf (14 - exp10i).toNat ll)) ++ []))).length
        ≤ 23
    rw [List.length_append, List.length_append, length_digitsOf, List.append_nil, List.length_cons, List.length_cons]
    omega

theorem trimmed_floatNumeral (neg : Bool) (ll : Nat) (exp10i : Int) : (floatNumeral neg ll exp10i).Trimmed := by
  unfold floatNumeral
  split
  · exact .inl (getLast?_trimZeros _)
  · rcases getLast?_cons_trimZeros (48 + ll / 10 ^ (14 - exp10i).toNat % 10).toUInt8 (digitsOf (14 - exp10i).toNat ll) with
      last | alone
    · exact .inl last
    · exact .inr ⟨rfl, alone⟩

/-- The exponent is written where the number is far from 1; else a digit is behind the point. -/
theorem exponent_floatNumeral (neg : Bool) (ll : Nat) (exp10i : Int) :
    ((floatNumeral neg ll exp10i).exponent ≠ none ↔ exp10i ≤ -5 ∨ 15 ≤ exp10i) ∧
    ((floatNumeral neg ll exp10i).exponent = none → (floatNumeral neg ll exp10i).fraction ≠ []) := by
  unfold floatNumeral
  by_cases far : exp10i ≤ -5 ∨ exp10i ≥ 15
  · rw [if_pos far]
    constructor
    · exact iff_of_true (by simp [exponentNumeral]) far
    · intro none
      cases none
  · rw [if_neg far]
    constructor
    · exact iff_of_false (fun some => some rfl) far
    · intro _
      exact List.cons_ne_nil _ _

end Main

/-- **The layout of a float.** For any digits and any exponent of a `double`, and whatever is in memory, the encoder
returns the length of a numeral that denotes just their number, and has written all its characters and nothing else;
no other numeral has this text. The zeros at the end of its fraction are trimmed; it has an exponent if, and only if,
the number is far from 1, and else a digit on each side of the point. No more than the 23 bytes that are reserved are
used. -/
theorem float_layout (neg : Bool) {ll : Nat} {exp10i : Int} (digits : ll < 10 ^ 16) (low : -324 ≤ exp10i)
    (high : exp10i ≤ 308) (out : Nat) (s : Buf) :
    ∃ (numeral : Numeral) (s' : Buf), layoutFloat neg ll exp10i out s = (.ok numeral.text.length, s') ∧
      Laid out numeral.text s s' ∧ numeral.value = (if neg then -1 else 1) * (ll * 10 ^ (exp10i - 15)) ∧ numeral.Trimmed ∧
      (numeral.exponent ≠ none ↔ exp10i ≤ -5 ∨ 15 ≤ exp10i) ∧ (numeral.exponent = none → numeral.fraction ≠ []) ∧
      numeral.text.length ≤ 23 ∧ ∀ other : Numeral, other.text = numeral.text → other = numeral := by
  obtain ⟨s', run, laid⟩ := layoutFloat_run neg ll exp10i out s
  obtain ⟨far, near⟩ := exponent_floatNumeral neg ll exp10i
  refine ⟨floatNumeral neg ll exp10i, s', run, laid, ?_, ?_, far, near, ?_, fun other same => Numeral.eq_of_text_eq same⟩
  · exact value_floatNumeral digits
  · exact trimmed_floatNumeral neg ll exp10i
  · exact length_floatNumeral low high

/-- `-1.5e300`, into memory full of zeros. -/
theorem float_layout_far :
    ∃ (numeral : Numeral) (s' : Buf), layoutFloat true 1500000000000000 300 0 ⟨fun _ => 0, []⟩ = (.ok numeral.text.length, s') ∧
      numeral.value = -1 * (1500000000000000 * 10 ^ (300 - 15)) := by
  obtain ⟨numeral, s', run, -, value, -⟩ := @float_layout true 1500000000000000 300 (by decide)
    (by decide) (by decide) 0 ⟨fun _ => 0, []⟩
  exact ⟨numeral, s', run, value⟩

/-- `-1.5e300`, `0.001` and `0.0`. -/
example : (floatNumeral true 1500000000000000 300).text = [0x2d, 0x31, 0x2e, 0x35, 0x65, 0x33, 0x30, 0x30] ∧
    (floatNumeral false 1000000000000000 (-3)).text = [0x30, 0x2e, 0x30, 0x30, 0x31] ∧
    (floatNumeral false 0 (-1)).text = [0x30, 0x2e, 0x30] := by
  decide +kernel

end RubyPg.TwoPass
