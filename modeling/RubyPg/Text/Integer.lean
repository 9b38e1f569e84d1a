import RubyPg.Coder

/-!
# `PG::TextEncoder::Integer` and `PG::TextDecoder::Integer`

`pg_text_enc_integer` of `ext/pg_text_encoder.c` writes a Fixnum itself, digits first to
last reversed in place, and leaves everything else to `to_s`; `pg_text_dec_integer` of
`ext/pg_text_decoder.c` reads up to 18 characters itself and leaves the rest to
`rb_cstr2inum`. Both branches of the encoder write the same text (`encode_int`), which the
decoder reads back (`pgTextDecInteger_integerText`).
-/

namespace RubyPg.Text
set_option autoImplicit false
open Ascii

/-- `pg_obj_to_i`. -/
def pgObjToI (rt : Runtime) : Value → Outcome Value
  | .int i => pure (.int i)
  | .float d => pure (.float d)
  | value => rt.toI value

/-- `count_leading_zero_bits`. For zero, where the builtin is undefined, the hardware answers
63 or 64; both give the same size below. -/
def countLeadingZeroBits (x : Nat) : Nat := if x = 0 then 64 else 63 - Nat.log2 x

/-- The size `pg_text_enc_integer` announces for a Fixnum. -/
def integerSize (sll : Int) : Nat :=
  let len := (64 - countLeadingZeroBits sll.natAbs) / 3
  if sll < 0 then len + 2 else len + 1

/-- What the second call of `pg_text_enc_integer` writes: the digits backwards, the sign, and
the whole string reversed. -/
def writeInteger (sll : Int) : Bytes :=
  (digitsBack sll.natAbs ++ if sll < 0 then [minus] else []).reverse

/-- `pg_text_enc_integer`. -/
def pgTextEncInteger (rt : Runtime) : Encoder := fun value => do
  match ← pgObjToI rt value with
  | .int sll =>
    if isFixnum sll then pure (.size (integerSize sll) (pure (writeInteger sll)))
    else pgCoderEncToS rt (.int sll)
  | other => pgCoderEncToS rt other

/-- The digit loop of `pg_text_dec_integer`; `none` is its `error`. -/
def readInteger (i : Nat) : Bytes → Option Nat
  | [] => some i
  | digit :: rest =>
    if digit = nul then some i
    else if IsDigit digit then readInteger (i * 10 + (digit.toNat - 48)) rest
    else none

/-- The conversion by hand: a minus sign or a digit, then digits up to the NUL. -/
def fastInteger : Bytes → Option Int
  | [] => none
  | digit :: rest =>
    if digit = minus then (readInteger 0 rest).map fun i : Nat => -(i : Int)
    else if IsDigit digit then (readInteger (digit.toNat - 48) rest).map Int.ofNat
    else none

/-- `pg_text_dec_integer`. -/
def pgTextDecInteger (rt : Runtime) : Decoder := fun val =>
  match if val.length ≤ 18 then fastInteger val else none with
  | some i => pure (.int i)
  | none => pure (.int (rt.cstr2inum (cString val)))

/-- The decimal text of an integer. -/
def integerText (i : Int) : Bytes := if i < 0 then minus :: decimal i.natAbs else decimal i.natAbs

theorem writeInteger_eq (i : Int) : writeInteger i = integerText i := by
  rw [writeInteger, integerText, List.reverse_append, reverse_digitsBack]
  split <;> rfl

/-- What converts to an Integer is encoded as its decimal text. -/
theorem encode_of_objToI {rt : Runtime} {value : Value} {i : Int} (converted : pgObjToI rt value = .ok (.int i)) :
    (pgTextEncInteger rt).encode value = .ok (integerText i) := by
  unfold Encoder.encode pgTextEncInteger
  rw [converted]
  by_cases fixnum : isFixnum i = true
  · simp only [bind, Except.bind, pure, Except.pure, fixnum, if_true, writeInteger_eq]
  · simp only [bind, Except.bind, pure, Except.pure, if_neg fixnum, pgCoderEncToS]
    rfl

/-- Fixnums and Bignums are encoded as their decimal text. -/
theorem encode_int (rt : Runtime) (i : Int) : (pgTextEncInteger rt).encode (.int i) = .ok (integerText i) :=
  encode_of_objToI rfl

theorem ne_nul_of_isDigit {c : UInt8} (digit : IsDigit c) : c ≠ nul := by
  rintro rfl
  exact absurd digit (by decide)

theorem ne_minus_of_isDigit {c : UInt8} (digit : IsDigit c) : c ≠ minus := by
  rintro rfl
  exact absurd digit (by decide)

theorem nul_notMem_decimal (n : Nat) : nul ∉ decimal n := fun h => ne_nul_of_isDigit (isDigit_of_mem_decimal h) rfl

theorem nul_notMem_integerText (i : Int) : nul ∉ integerText i := by
  unfold integerText
  split
  · simp +decide [nul_notMem_decimal]
  · exact nul_notMem_decimal _

/-- The digit loop reads any run of digits. -/
theorem readInteger_digits {ds : Bytes} (digits : ∀ d ∈ ds, IsDigit d) (i : Nat) :
    readInteger i ds = some (readDigits i ds) := by
  induction ds generalizing i with
  | nil => rfl
  | cons d ds ih =>
    have digit := digits d List.mem_cons_self
    rw [readInteger, if_neg (ne_nul_of_isDigit digit), if_pos digit, ih fun c hc => digits c (List.mem_cons_of_mem _ hc)]
    rfl

theorem fastInteger_digits {ds : Bytes} (nonempty : ds ≠ []) (digits : ∀ d ∈ ds, IsDigit d) :
    fastInteger ds = some (readDigits 0 ds : Int) := by
  obtain ⟨d, rest, rfl⟩ := List.exists_cons_of_ne_nil nonempty
  have digit := digits d List.mem_cons_self
  have first : readDigits (d.toNat - 48) rest = readDigits 0 (d :: rest) :=
    congrArg (readDigits · rest) (by omega)
  rw [fastInteger, if_neg (ne_minus_of_isDigit digit), if_pos digit,
    readInteger_digits fun c hc => digits c (List.mem_cons_of_mem _ hc), first]
  rfl

/-- The decoder reads the decimal text of any integer. -/
theorem pgTextDecInteger_integerText {rt : Runtime} (reads : rt.ReadsIntegers) (i : Int) :
    pgTextDecInteger rt (integerText i) = .ok (.int i) := by
  have digits : ∀ d ∈ decimal i.natAbs, IsDigit d := fun d hd => isDigit_of_mem_decimal hd
  have nonempty := decimal_ne_nil i.natAbs
  have value := readDigits_decimal i.natAbs
  have fast : fastInteger (integerText i) = some i := by
    unfold integerText
    split
    · rw [fastInteger, if_pos rfl, readInteger_digits digits, value, Option.map_some]
      congr 1
      omega
    · rw [fastInteger_digits nonempty digits, value]
      congr 1
      omega
  have slow : rt.cstr2inum (integerText i) = i := by
    unfold integerText
    split
    · rw [reads.minus _ nonempty digits, value]
      omega
    · rw [reads.digits _ nonempty digits, value]
      omega
  unfold pgTextDecInteger
  by_cases short : (integerText i).length ≤ 18
  · rw [if_pos short, fast]
    rfl
  · rw [if_neg short]
    dsimp only
    rw [cString_of_notMem (nul_notMem_integerText i), slow]
    rfl

/-- A number of `b` bits has at most `b / 3 + 1` decimal digits. -/
theorem length_decimal_le_bits {n b : Nat} (bits : n < 2 ^ b) : (decimal n).length ≤ b / 3 + 1 := by
  rw [length_decimal_le (by omega)]
  calc n < 2 ^ b := bits
    _ ≤ 2 ^ (3 * (b / 3 + 1)) := Nat.pow_le_pow_right (by decide) (by omega)
    _ = 8 ^ (b / 3 + 1) := Nat.pow_mul 2 3 _
    _ ≤ 10 ^ (b / 3 + 1) := Nat.pow_le_pow_left (by decide) _

/-- The size announced for a Fixnum is enough for its text. -/
theorem length_integerText_le {i : Int} (fixnum : isFixnum i = true) : (integerText i).length ≤ integerSize i := by
  have small : i.natAbs < 2 ^ 63 := by
    simp only [isFixnum, Bool.and_eq_true, decide_eq_true_eq] at fixnum
    omega
  have digits : (decimal i.natAbs).length ≤ (64 - countLeadingZeroBits i.natAbs) / 3 + 1 := by
    unfold countLeadingZeroBits
    by_cases zero : i.natAbs = 0
    · rw [if_pos zero, zero, decimal_of_lt (by decide)]
      decide
    · have := (Nat.log2_lt zero).2 small
      rw [if_neg zero]
      exact length_decimal_le_bits (lt_of_lt_of_le Nat.lt_log2_self (Nat.pow_le_pow_right (by decide) (by omega)))
  unfold integerText integerSize
  split <;> simp only [List.length_cons] <;> omega

end RubyPg.Text
