import RubyPg.TwoPass.Encoding

/-!
# Integers in a `long`

The conversion by hand of `pg_text_dec_integer` runs on a `long` and makes a Fixnum of it. With at most 18
characters neither leaves its range (`fastLong_eq`), and what it accepts it reads as `rb_cstr2inum` does
(`pgTextDecIntegerLong_eq`). The size that the encoder announces depends on the number of leading zero bits,
which for zero is any of two (`LeadingZeroBits`).
-/

namespace RubyPg.Text
set_option autoImplicit false
open Ascii TwoPass Writer

/-- A `long` of 64 bits. Signed overflow is undefined. -/
def long (n : Int) : Outcome Int := if -(2 ^ 63) ≤ n ∧ n < 2 ^ 63 then pure n else .error .undefined

/-- `LONG2FIX`, which takes what fits a Fixnum. -/
def long2fix (n : Int) : Outcome Int := if isFixnum n then pure n else .error .undefined

/-- The digit loop of `pg_text_dec_integer` on its `long`. -/
def readLong (i : Int) : Bytes → Outcome (Option Int)
  | [] => pure (some i)
  | digit :: rest =>
    if digit = nul then pure (some i)
    else if IsDigit digit then do
      let tens ← long (i * 10)
      let i ← long (tens + (digit.toNat - 48 : Nat))
      readLong i rest
    else pure none

/-- `LONG2FIX(neg ? -i : i)`, without an error. -/
def fixed (neg : Bool) : Option Int → Outcome (Option Int)
  | none => pure none
  | some i => do
    let i ← long (if neg then -i else i)
    let i ← long2fix i
    pure (some i)

/-- The conversion by hand. -/
def fastLong : Bytes → Outcome (Option Int)
  | [] => pure none
  | digit :: rest =>
    if digit = minus then readLong 0 rest >>= fixed true
    else if IsDigit digit then readLong (digit.toNat - 48 : Nat) rest >>= fixed false
    else pure none

/-- `pg_text_dec_integer`. -/
def pgTextDecIntegerLong (rt : Runtime) : Decoder := fun val => do
  match ← if val.length ≤ 18 then fastLong val else pure none with
  | some i => pure (.int i)
  | none => pure (.int (rt.cstr2inum (cString val)))

section Decoding

theorem long_eq {n : Int} (low : -1000000000000000000 < n) (high : n < 1000000000000000000) : long n = pure n :=
  if_pos (by omega)

theorem long2fix_eq {n : Int} (low : -1000000000000000000 < n) (high : n < 1000000000000000000) : long2fix n = pure n := by
  unfold long2fix isFixnum
  rw [if_pos (by simp only [Bool.and_eq_true, decide_eq_true_eq]; omega)]

/-- What is read so far and the characters left have not more than 18 digits together. -/
theorem readLong_eq {rest : Bytes} {i k : Nat} (small : i < 10 ^ k) (room : k + rest.length ≤ 18) :
    readLong i rest = .ok ((readInteger i rest).map Int.ofNat) ∧
      ∀ n, readInteger i rest = some n → n < 1000000000000000000 := by
  have bound : 10 ^ k ≤ 10 ^ 18 := Nat.pow_le_pow_right (by decide) (by omega)
  induction rest generalizing i k with
  | nil =>
    constructor
    · rfl
    · intro n read
      cases read
      omega
  | cons digit rest ih =>
    rw [List.length_cons] at room
    unfold readLong readInteger
    by_cases beyond : digit = nul
    · rw [if_pos beyond, if_pos beyond]
      constructor
      · rfl
      · intro n read
        cases read
        omega
    rw [if_neg beyond, if_neg beyond]
    by_cases isDigit : IsDigit digit
    · have value := isDigit.value_lt
      have power : 10 ^ (k + 1) = 10 * 10 ^ k := by rw [Nat.pow_succ, Nat.mul_comm]
      have bound' : 10 ^ (k + 1) ≤ 10 ^ 18 := Nat.pow_le_pow_right (by decide) (by omega)
      have next : i * 10 + (digit.toNat - 48) < 10 ^ (k + 1) := by omega
      have tens : long ((i : Int) * 10) = pure ((i : Int) * 10) := long_eq (by omega) (by omega)
      have sum : long ((i : Int) * 10 + (digit.toNat - 48 : Nat)) = pure ((i * 10 + (digit.toNat - 48) : Nat) : Int) := by
        rw [long_eq (by omega) (by omega)]
        push_cast
        rfl
      rw [if_pos isDigit, if_pos isDigit, tens, pure_bind, sum, pure_bind]
      exact ih next (by omega) bound'
    · rw [if_neg isDigit, if_neg isDigit]
      constructor
      · rfl
      · intro n read
        cases read

theorem fixed_eq (neg : Bool) {n : Nat} (small : n < 1000000000000000000) :
    fixed neg (some (n : Int)) = pure (some (if neg then -(n : Int) else n)) := by
  cases neg with
  | false =>
    show (long (n : Int) >>= fun i => long2fix i >>= fun i => pure (some i)) = pure (some (n : Int))
    rw [long_eq (by omega) (by omega), pure_bind, long2fix_eq (by omega) (by omega), pure_bind]
  | true =>
    show (long (-(n : Int)) >>= fun i => long2fix i >>= fun i => pure (some i)) = pure (some (-(n : Int)))
    rw [long_eq (by omega) (by omega), pure_bind, long2fix_eq (by omega) (by omega), pure_bind]

/-- The number that the loop has read fits a Fixnum with either sign. -/
theorem fixed_read {neg : Bool} {i : Int} {rest : Bytes} {read : Option Nat} (run : readLong i rest = .ok (read.map Int.ofNat))
    (small : ∀ n, read = some n → n < 1000000000000000000) :
    readLong i rest >>= fixed neg = .ok (read.map fun n : Nat => if neg then -(n : Int) else n) := by
  rw [run]
  cases read with
  | none => rfl
  | some n => exact fixed_eq neg (small n rfl)

/-- With at most 18 characters no `long` overflows. -/
theorem fastLong_eq {val : Bytes} (short : val.length ≤ 18) : fastLong val = .ok (fastInteger val) := by
  cases val with
  | nil => rfl
  | cons digit rest =>
    rw [List.length_cons] at short
    rw [fastLong, fastInteger]
    by_cases negative : digit = minus
    · obtain ⟨run, small⟩ := @readLong_eq rest 0 0 (by decide) (by omega)
      rw [if_pos negative, if_pos negative]
      exact fixed_read run small
    rw [if_neg negative, if_neg negative]
    by_cases isDigit : IsDigit digit
    · obtain ⟨run, small⟩ := @readLong_eq rest (digit.toNat - 48) 1 isDigit.value_lt (by omega)
      rw [if_pos isDigit, if_pos isDigit]
      exact fixed_read run small
    · rw [if_neg isDigit, if_neg isDigit]
      rfl

variable {rt : Runtime}

theorem pgTextDecIntegerLong_same (rt : Runtime) (val : Bytes) : pgTextDecIntegerLong rt val = pgTextDecInteger rt val := by
  unfold pgTextDecIntegerLong pgTextDecInteger
  by_cases short : val.length ≤ 18
  · rw [if_pos short, if_pos short, fastLong_eq short]
    cases fastInteger val with
    | none => rfl
    | some i => rfl
  · rw [if_neg short, if_neg short]
    rfl

/-- What the loop accepts are digits up to the NUL. -/
theorem readInteger_some {rest : Bytes} {i n : Nat} (read : readInteger i rest = some n) :
    (∀ d ∈ cString rest, IsDigit d) ∧ n = readDigits i (cString rest) := by
  induction rest generalizing i with
  | nil =>
    cases read
    exact ⟨List.forall_mem_nil _, rfl⟩
  | cons digit rest ih =>
    rw [readInteger] at read
    by_cases beyond : digit = nul
    · rw [if_pos beyond] at read
      cases read
      have none : cString (digit :: rest) = [] := by
        subst beyond
        rfl
      rw [none]
      exact ⟨List.forall_mem_nil _, rfl⟩
    · have front : cString (digit :: rest) = digit :: cString rest := by
        unfold cString
        rw [List.takeWhile_cons_of_pos (by simpa using beyond)]
      rw [if_neg beyond] at read
      by_cases isDigit : IsDigit digit
      · rw [if_pos isDigit] at read
        obtain ⟨digits, value⟩ := ih read
        rw [front, readDigits_cons]
        exact ⟨List.forall_mem_cons.2 ⟨isDigit, digits⟩, value⟩
      · rw [if_neg isDigit] at read
        cases read

/-- What the conversion by hand accepts, `rb_cstr2inum` reads as the same number. -/
theorem cstr2inum_of_fast (reads : rt.ReadsIntegers) (lone : rt.cstr2inum [minus] = 0) {val : Bytes} {i : Int}
    (fast : fastInteger val = some i) : rt.cstr2inum (cString val) = i := by
  cases val with
  | nil => cases fast
  | cons digit rest =>
    rw [fastInteger] at fast
    by_cases negative : digit = minus
    · subst negative
      rw [if_pos rfl, Option.map_eq_some_iff] at fast
      obtain ⟨n, read, rfl⟩ := fast
      obtain ⟨digits, rfl⟩ := readInteger_some read
      have front : cString (minus :: rest) = minus :: cString rest := rfl
      rw [front]
      by_cases empty : cString rest = []
      · rw [empty, lone]
        rfl
      · exact reads.minus _ empty digits
    · rw [if_neg negative] at fast
      by_cases isDigit : IsDigit digit
      · rw [if_pos isDigit, Option.map_eq_some_iff] at fast
        obtain ⟨n, read, rfl⟩ := fast
        have whole : readInteger 0 (digit :: rest) = some n := by
          rw [readInteger, if_neg (ne_nul_of_isDigit isDigit), if_pos isDigit, Nat.zero_mul, Nat.zero_add]
          exact read
        obtain ⟨digits, rfl⟩ := readInteger_some whole
        apply reads.digits _ _ digits
        unfold cString
        rw [List.takeWhile_cons_of_pos (by simpa using ne_nul_of_isDigit isDigit)]
        exact List.cons_ne_nil _ _
      · rw [if_neg isDigit] at fast
        cases fast

/-- The decoder is `rb_cstr2inum`. -/
theorem pgTextDecIntegerLong_eq (reads : rt.ReadsIntegers) (lone : rt.cstr2inum [minus] = 0) (val : Bytes) :
    pgTextDecIntegerLong rt val = .ok (.int (rt.cstr2inum (cString val))) := by
  rw [pgTextDecIntegerLong_same]
  unfold pgTextDecInteger
  by_cases short : val.length ≤ 18
  · rw [if_pos short]
    cases fast : fastInteger val with
    | none => rfl
    | some i =>
      rw [cstr2inum_of_fast reads lone fast]
      rfl
  · rw [if_neg short]
    rfl

end Decoding

section Encoding

/-- `count_leading_zero_bits`: what the builtin answers for zero is left open. -/
structure LeadingZeroBits (clz : Nat → Nat) : Prop where
  zero : clz 0 = 63 ∨ clz 0 = 64
  positive : ∀ x, 0 < x → x < 2 ^ 64 → clz x = 63 - Nat.log2 x

theorem leadingZeroBits_count : LeadingZeroBits countLeadingZeroBits where
  zero := .inr rfl
  positive x positive _ := if_neg (by omega)

/-- The size that `pg_text_enc_integer` announces, with its `unsigned long long`. -/
def integerSizeLong (clz : Nat → Nat) (sll : Int) : Nat :=
  let ll := ((if sll < 0 then -sll else sll) % 2 ^ 64).toNat
  let len := (64 - clz ll) / 3
  if sll < 0 then len + 2 else len + 1

/-- For zero both answers give the same size. -/
theorem integerSizeLong_eq {clz : Nat → Nat} (bits : LeadingZeroBits clz) {i : Int} (fixnum : isFixnum i = true) :
    integerSizeLong clz i = integerSize i := by
  have small : i.natAbs < 2 ^ 63 := by
    simp only [isFixnum, Bool.and_eq_true, decide_eq_true_eq] at fixnum
    omega
  have magnitude : ((if i < 0 then -i else i) % 2 ^ 64).toNat = i.natAbs := by
    split
    · omega
    · omega
  have quotient : (64 - clz i.natAbs) / 3 = (64 - countLeadingZeroBits i.natAbs) / 3 := by
    by_cases zero : i.natAbs = 0
    · rw [zero]
      rcases bits.zero with answer | answer
      · rw [answer]
        rfl
      · rw [answer]
        rfl
    · rw [bits.positive _ (by omega) (by omega), leadingZeroBits_count.positive _ (by omega) (by omega)]
  unfold integerSizeLong integerSize
  dsimp only
  rw [magnitude, quotient]

end Encoding

/-- **Integers as text.** The decoder gives what `rb_cstr2inum` gives, and nothing overflows on the way; Integers come
back; and the second call of the encoder writes no more characters than the first one announces. -/
theorem text_integers {rt : Runtime} (reads : rt.ReadsIntegers) (lone : rt.cstr2inum [minus] = 0) :
    (∀ val, pgTextDecIntegerLong rt val = .ok (.int (rt.cstr2inum (cString val)))) ∧
    (∀ i, ∃ s, (pgTextEncInteger rt).encode (.int i) = .ok s ∧ pgTextDecIntegerLong rt s = .ok (.int i)) ∧
    ∀ clz, LeadingZeroBits clz → ∀ i, isFixnum i = true → ∀ out,
      Puts out (integerText i) (integerText i).length (writeIntegerAt i out) ∧
        (integerText i).length ≤ integerSizeLong clz i := by
  refine ⟨?_, ?_, ?_⟩
  · exact pgTextDecIntegerLong_eq reads lone
  · intro i
    refine ⟨integerText i, encode_int rt i, ?_⟩
    rw [pgTextDecIntegerLong_same]
    exact pgTextDecInteger_integerText reads i
  · intro clz bits i fixnum out
    constructor
    · have puts := writeIntegerAt_puts i out
      rwa [writeInteger_eq] at puts
    · rw [integerSizeLong_eq bits fixnum]
      exact length_integerText_le fixnum

/-- The smallest Fixnum takes 20 of the 23 characters that are announced. -/
theorem text_integers_smallest :
    (∃ s, (pgTextEncInteger .sample).encode (.int (-4611686018427387904)) = .ok s ∧
      pgTextDecIntegerLong .sample s = .ok (.int (-4611686018427387904))) ∧
    (integerText (-4611686018427387904)).length ≤ integerSizeLong countLeadingZeroBits (-4611686018427387904) := by
  obtain ⟨-, back, size⟩ := text_integers Runtime.sample_readsIntegers rfl
  constructor
  · exact back _
  · exact (size _ leadingZeroBits_count _ (by decide) 0).2

end RubyPg.Text
