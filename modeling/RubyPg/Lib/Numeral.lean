import RubyPg.Lib.Decimal
import Mathlib.Algebra.Order.Field.Power
import Mathlib.Algebra.Order.Field.Rat
import Mathlib.Data.List.DropRight
import Mathlib.Tactic.NormNum

/-!
# Decimal numerals

A numeral with sign, decimal point and a power of ten, its text and its value. The text determines the numeral
(`Numeral.eq_of_text_eq`), and zeros at the end of the fraction do not count (`scaled_trimZeros`).
-/

namespace RubyPg
set_option autoImplicit false

/-- Digits in front of the point and behind it, and perhaps a power of ten. -/
structure Numeral where
  negative : Bool
  whole : List UInt8
  fraction : List UInt8
  exponent : Option Int
  digits : ∀ c ∈ whole ++ fraction, IsDigit c
  nonempty : whole ≠ []

/-- A decimal number with its sign. -/
def signedDecimal (i : Int) : List UInt8 := if i < 0 then 0x2d :: decimal i.natAbs else decimal i.natAbs

namespace Numeral

/-- The point and the digits behind it, where there are any. -/
def fractionText (fraction : List UInt8) : List UInt8 := if fraction = [] then [] else 0x2e :: fraction

def exponentText : Option Int → List UInt8
  | none => []
  | some e => 0x65 :: signedDecimal e

/-- `-1.5e300`. -/
def text (n : Numeral) : List UInt8 :=
  (if n.negative then [0x2d] else []) ++ (n.whole ++ (fractionText n.fraction ++ exponentText n.exponent))

/-- The number it denotes. -/
def value (n : Numeral) : ℚ :=
  (if n.negative then -1 else 1) * (readDigits 0 (n.whole ++ n.fraction) * 10 ^ (n.exponent.getD 0 - n.fraction.length))

/-- No zeros are at the end of the fraction, but for one that stands alone behind the point. -/
def Trimmed (n : Numeral) : Prop :=
  n.fraction.getLast? ≠ some 0x30 ∨ n.exponent = none ∧ n.fraction = [0x30]

end Numeral

/-- Without the zeros at the end. -/
def trimZeros (ds : List UInt8) : List UInt8 := ds.rdropWhile (· == 0x30)

section Digits

theorem digit_eq_zero_iff {n : Nat} (small : n < 10) : (48 + n).toUInt8 = 0x30 ↔ n = 0 := by
  have : ∀ k : Fin 10, (48 + k.val).toUInt8 = 0x30 ↔ k.val = 0 := by decide
  exact this ⟨n, small⟩

/-- The last digit is the remainder. -/
theorem digitsOf_succ (k n : Nat) : digitsOf (k + 1) n = digitsOf k (n / 10) ++ [(48 + n % 10).toUInt8] := by
  induction k with
  | zero =>
    show [(48 + n / 1 % 10).toUInt8] = [(48 + n % 10).toUInt8]
    rw [Nat.div_one]
  | succ k ih =>
    have front : n / 10 ^ (k + 1) = n / 10 / 10 ^ k := by rw [Nat.div_div_eq_div_mul, Nat.pow_succ, Nat.mul_comm]
    rw [digitsOf, ih, front]
    rfl

/-- The digits in front, and those behind. -/
theorem digitsOf_add (k j n : Nat) : digitsOf (k + j) n = digitsOf k (n / 10 ^ j) ++ digitsOf j n := by
  induction j generalizing n with
  | zero =>
    show digitsOf k n = digitsOf k (n / 1) ++ []
    rw [Nat.div_one, List.append_nil]
  | succ j ih =>
    have front : n / 10 ^ (j + 1) = n / 10 / 10 ^ j := by rw [Nat.div_div_eq_div_mul, Nat.pow_succ, Nat.mul_comm]
    rw [← Nat.add_assoc, digitsOf_succ, ih, digitsOf_succ j n, front, List.append_assoc]

theorem trimZeros_zero (ds : List UInt8) : trimZeros (ds ++ [0x30]) = trimZeros ds :=
  List.rdropWhile_concat_pos _ _ _ rfl

theorem trimZeros_digit (ds : List UInt8) {d : UInt8} (nonzero : d ≠ 0x30) : trimZeros (ds ++ [d]) = ds ++ [d] :=
  List.rdropWhile_concat_neg _ _ _ (by simpa using nonzero)

theorem mem_of_mem_trimZeros {ds : List UInt8} {d : UInt8} (member : d ∈ trimZeros ds) : d ∈ ds :=
  (List.rdropWhile_prefix _ _).subset member

/-- What is left does not end in zero. -/
theorem getLast?_trimZeros (ds : List UInt8) : (trimZeros ds).getLast? ≠ some 0x30 := by
  intro last
  obtain ⟨nonempty, ends⟩ := List.mem_getLast?_eq_getLast last
  have other := List.rdropWhile_last_not (· == 0x30) ds nonempty
  exact other (by rw [beq_iff_eq]; exact ends.symm)

/-- A digit may be in front. -/
theorem getLast?_cons_trimZeros (d : UInt8) (ds : List UInt8) :
    (d :: trimZeros ds).getLast? ≠ some 0x30 ∨ d :: trimZeros ds = [0x30] := by
  have last := getLast?_trimZeros ds
  cases left : trimZeros ds with
  | nil =>
    by_cases zero : d = 0x30
    · exact .inr (by rw [zero])
    · exact .inl (by simpa using zero)
  | cons e es =>
    rw [left] at last
    rw [List.getLast?_cons_cons]
    exact .inl last

/-- Zeros at the end of a fraction do not count. -/
theorem scaled_trimZeros (acc : Nat) (e : Int) (ds : List UInt8) :
    (readDigits acc (trimZeros ds) : ℚ) * 10 ^ (e - (trimZeros ds).length) = readDigits acc ds * 10 ^ (e - ds.length) := by
  induction ds using List.reverseRecOn with
  | nil => rfl
  | append_singleton ds d ih =>
    by_cases zero : d = 0x30
    · subst zero
      have read : readDigits acc (ds ++ [0x30]) = readDigits acc ds * 10 := readDigits_append acc ds [0x30]
      have exponent : e - ds.length = e - ((ds.length + 1 : Nat) : Int) + 1 := by
        push_cast
        ring
      rw [trimZeros_zero, ih, read, List.length_append, List.length_singleton, exponent, zpow_add_one₀ (by norm_num)]
      push_cast
      ring
    · rw [trimZeros_digit ds zero]

end Digits

section Text

/-- Digits in front of something else. -/
theorem append_digits_inj {ds es rest rest' : List UInt8} (digits : ∀ c ∈ ds, IsDigit c) (digits' : ∀ c ∈ es, IsDigit c)
    (stops : ∀ c ∈ rest.head?, ¬IsDigit c) (stops' : ∀ c ∈ rest'.head?, ¬IsDigit c) (same : ds ++ rest = es ++ rest') :
    ds = es ∧ rest = rest' := by
  induction ds generalizing es with
  | nil =>
    cases es with
    | nil => exact ⟨rfl, same⟩
    | cons e es =>
      rw [List.nil_append] at same
      subst same
      exact absurd (digits' e List.mem_cons_self) (stops e rfl)
  | cons d ds ih =>
    cases es with
    | nil =>
      rw [List.nil_append] at same
      subst same
      exact absurd (digits d List.mem_cons_self) (stops' d rfl)
    | cons e es =>
      obtain ⟨rfl, tails⟩ := List.cons.inj same
      obtain ⟨rfl, rests⟩ := ih (fun c member => digits c (List.mem_cons_of_mem _ member))
        (fun c member => digits' c (List.mem_cons_of_mem _ member)) tails
      exact ⟨rfl, rests⟩

theorem decimal_injective {m n : Nat} (same : decimal m = decimal n) : m = n := by
  rw [← readDigits_decimal m, same, readDigits_decimal]

theorem minus_notMem_decimal {n : Nat} {rest : List UInt8} (same : decimal n = 0x2d :: rest) : False := by
  have digit := isDigit_of_mem_decimal (n := n) (c := 0x2d) (by rw [same]; exact List.mem_cons_self)
  revert digit
  decide

theorem signedDecimal_injective {i j : Int} (same : signedDecimal i = signedDecimal j) : i = j := by
  unfold signedDecimal at same
  split at same
  · split at same
    · have magnitude := decimal_injective (List.cons.inj same).2
      omega
    · exact (minus_notMem_decimal same.symm).elim
  · split at same
    · exact (minus_notMem_decimal same).elim
    · have magnitude := decimal_injective same
      omega

namespace Numeral

theorem head?_exponentText {e : Option Int} {c : UInt8} (head : c ∈ (exponentText e).head?) : c = 0x65 := by
  cases e with
  | none => cases head
  | some e => exact (Option.some.inj head).symm

theorem exponentText_injective {e e' : Option Int} (same : exponentText e = exponentText e') : e = e' := by
  cases e with
  | none =>
    cases e' with
    | none => rfl
    | some e' => cases same
  | some e =>
    cases e' with
    | none => cases same
    | some e' => exact congrArg Option.some (signedDecimal_injective (List.cons.inj same).2)

/-- Behind the digits comes no digit. -/
theorem head?_rest {fraction : List UInt8} {e : Option Int} {c : UInt8}
    (head : c ∈ (fractionText fraction ++ exponentText e).head?) : ¬IsDigit c := by
  unfold fractionText at head
  split at head
  · rw [head?_exponentText head]
    decide
  · cases head
    decide

variable {m n : Numeral}

theorem fraction_eq (digits : ∀ c ∈ m.fraction, IsDigit c) (digits' : ∀ c ∈ n.fraction, IsDigit c)
    (same : fractionText m.fraction ++ exponentText m.exponent = fractionText n.fraction ++ exponentText n.exponent) :
    m.fraction = n.fraction ∧ m.exponent = n.exponent := by
  have stop : ∀ {e : Option Int} (c : UInt8), c ∈ (exponentText e).head? → ¬IsDigit c := by
    intro e c head
    rw [head?_exponentText head]
    decide
  have point : ∀ {e : Option Int} {rest : List UInt8}, exponentText e ≠ 0x2e :: rest := by
    intro e rest same
    have letter := head?_exponentText (e := e) (c := 0x2e) (by rw [same]; rfl)
    revert letter
    decide
  unfold fractionText at same
  split at same
  · rename_i none
    split at same
    · rename_i none'
      exact ⟨none.trans none'.symm, exponentText_injective same⟩
    · exact (point same).elim
  · split at same
    · exact (point same.symm).elim
    · obtain ⟨fractions, exponents⟩ := append_digits_inj digits digits' stop stop (List.cons.inj same).2
      exact ⟨fractions, exponentText_injective exponents⟩

/-- A numeral does not begin like a negative one without its sign. -/
theorem body_ne_minus (n : Numeral) {rest rest' : List UInt8} : n.whole ++ rest ≠ 0x2d :: rest' := by
  intro same
  obtain ⟨d, ds, whole⟩ := List.exists_cons_of_ne_nil n.nonempty
  rw [whole] at same
  have digit := n.digits d (by rw [whole]; exact List.mem_cons_self)
  rw [(List.cons.inj same).1] at digit
  revert digit
  decide

/-- The text determines the numeral. -/
theorem eq_of_text_eq (same : m.text = n.text) : m = n := by
  have bodies : m.negative = n.negative ∧ m.whole ++ (fractionText m.fraction ++ exponentText m.exponent) =
      n.whole ++ (fractionText n.fraction ++ exponentText n.exponent) := by
    unfold text at same
    cases negative : m.negative with
    | false =>
      cases negative' : n.negative with
      | false =>
        rw [negative, negative'] at same
        exact ⟨rfl, same⟩
      | true =>
        rw [negative, negative'] at same
        exact (body_ne_minus m same).elim
    | true =>
      cases negative' : n.negative with
      | false =>
        rw [negative, negative'] at same
        exact (body_ne_minus n same.symm).elim
      | true =>
        rw [negative, negative'] at same
        exact ⟨rfl, (List.cons.inj same).2⟩
  obtain ⟨signs, rest⟩ := bodies
  obtain ⟨wholes, rest⟩ := append_digits_inj (fun c member => m.digits c (List.mem_append_left _ member))
    (fun c member => n.digits c (List.mem_append_left _ member)) (fun _ => head?_rest) (fun _ => head?_rest) rest
  obtain ⟨fractions, exponents⟩ := fraction_eq (fun c member => m.digits c (List.mem_append_right _ member))
    (fun c member => n.digits c (List.mem_append_right _ member)) rest
  cases m
  cases n
  cases signs
  cases wholes
  cases fractions
  cases exponents
  rfl

end Numeral

end Text

end RubyPg
