import RubyPg.Base64
import RubyPg.Coder
import RubyPg.Lib.CInt
import RubyPg.Lib.Nbo
import RubyPg.Text.Integer
import RubyPg.Time

/-!
# The encoders that write into memory

The encoder functions of `ext/pg_text_encoder.c` and `ext/pg_binary_encoder.c` that answer the
first call with a size, at the level of single stores: the second call is a program that
writes behind the pointer `out` it is given, and returns the length. What it finds in
`*intermediate` is what the first call put there.
-/

namespace RubyPg.TwoPass
set_option autoImplicit false
open Ascii Writer

/-- What the C API of Ruby and libc compute for the encoders. -/
structure CApi extends Runtime where
  num2int : Value → Outcome Int
  num2long : Value → Outcome Int
  num2ll : Value → Outcome Int
  num2dbl : Value → Outcome Double
  /-- The bits of a `float` and of a `double`. -/
  floatBits : Double → Int
  doubleBits : Double → Int
  /-- `(unsigned long long)(dvalue * pow(10, n) + 0.5)`, for the absolute value of a number. -/
  scaled : Fin (2 ^ 53) → Fin 2046 → Int → Nat
  /-- `rb_time_timespec`. -/
  timespec : Value → Outcome (Int × Int)
  /-- `value.getlocal`, as seconds, nanoseconds and offset. -/
  getlocal : Value → Outcome (Int × Nat × Int)
  /-- `year`, `month` and `day` of the Gregorian date. -/
  gregorian : Value → Outcome (Value × Value × Value)
  /-- `to_s('F')` of a BigDecimal, and `to_s` of other objects. -/
  numericText : Value → Bytes
  inspect : Value → String

/-- `NUM2INT` and its kind: Integers of the C type are taken, and others raise RangeError. -/
structure Converts (bound : Int) (num2 : Value → Outcome Int) : Prop where
  fits : ∀ i : Int, -bound ≤ i → i < bound → num2 (.int i) = .ok i
  raises : ∀ i : Int, ¬(-bound ≤ i ∧ i < bound) → ∃ msg, num2 (.int i) = .error (.exn .rangeError msg)

/-- What an encoder function answers to the first call: the size of the buffer that the second
call needs, or a finished String. -/
inductive Answer where
  | size (n : Nat) (second : Nat → Writer Stop Nat)
  | string (s : Bytes)

/-- An encoder function. -/
abbrev EncFunc := Value → Outcome Answer

variable (api : CApi)

/-- `pg_coder_enc_to_s`. -/
def pgCoderEncToS : EncFunc := fun value => pure (.string (rbObjAsString api.toRuntime value))

/-- A second call that stores some bytes. -/
def block (bytes : Bytes) (out : Nat) : Writer Stop Nat := do
  storeAll out bytes
  pure bytes.length

/-- `while (start < out) { swap }`. -/
def reverseInPlace : Nat → Nat → Nat → Writer Stop Unit
  | 0, _, _ => pure ()
  | fuel + 1, start, stop =>
    if start < stop then do
      let swap ← load start
      let other ← load stop
      store start other
      store stop swap
      reverseInPlace fuel (start + 1) (stop - 1)
    else pure ()

/-- The second call of `pg_text_enc_integer`: the digits backwards, the sign, and all of it
reversed. -/
def writeIntegerAt (sll : Int) (out : Nat) : Writer Stop Nat := do
  let digits := digitsBack sll.natAbs ++ if sll < 0 then [minus] else []
  storeAll out digits
  reverseInPlace digits.length out (out + digits.length - 1)
  pure digits.length

/-- `pg_text_enc_integer`. -/
def pgTextEncInteger : EncFunc := fun value => do
  match ← Text.pgObjToI api.toRuntime value with
  | .int sll =>
    if isFixnum sll then pure (.size (Text.integerSize sll) (writeIntegerAt sll))
    else pgCoderEncToS api (.int sll)
  | other => pgCoderEncToS api other

/-- `pg_text_enc_boolean`. -/
def pgTextEncBoolean : EncFunc
  | .false => pure (.size 1 (block [0x66]))
  | .true => pure (.size 1 (block [0x74]))
  | .int i => do
    let l ← api.num2long (.int i)
    if l = 0 then pure (.size 1 (block [0x30]))
    else if l = 1 then pure (.size 1 (block [0x31]))
    else pgTextEncInteger api (.int i)
  | value => pgCoderEncToS api value

/-- The power of 2 that `frexp` gives. -/
def frexpExp (mant : Fin (2 ^ 53)) (exp : Fin 2046) : Int :=
  if mant.val = 0 then 0 else (Nat.log2 mant.val : Int) + 1 + (exp.val - 1074)

/-- `(int)floor(exp2i * 0.30102999566398114)`; no product comes so near to an integer that rounding
it would matter. -/
def exp10Of (exp2i : Int) : Int := exp2i * 30102999566398114 / 100000000000000000

/-- `'0' + remainder`. -/
def digitChar (remainder : Nat) : UInt8 := (48 + remainder).toUInt8

/-- The fraction digits of the exponent format, from right to left, for `i = k + 1` down to 2. -/
def fractionLoop (out : Nat) : Nat → Nat → Nat → Writer Stop (Nat × Nat)
  | 0, ll, len => pure (ll, len)
  | k + 1, ll, len =>
    if ll % 10 ≠ 0 ∨ len ≠ 0 then do
      store (out + (k + 2)) (digitChar (ll % 10))
      fractionLoop out k (ll / 10) (len + 1)
    else fractionLoop out k (ll / 10) len

/-- The decimal point, where there are fraction digits. -/
def storeDot (out len : Nat) : Writer Stop Nat :=
  if len ≠ 0 then do
    store (out + 1) dot
    pure (len + 1)
  else pure len

/-- The exponent format, `1.23e45`. -/
def exponentFormat (ll : Nat) (exp10i : Int) (out : Nat) : Writer Stop Nat := do
  let (ll, len) ← fractionLoop out 15 ll 0
  let len ← storeDot out len
  store out (digitChar (ll % 10))
  store (out + (len + 1)) 0x65
  let n ← writeIntegerAt exp10i (out + (len + 2))
  pure (len + 2 + n)

/-- The digits of the other format, from right to left, for `i = k - 1` down to 0. -/
def plainLoop (lz out : Nat) : Nat → Nat → Nat → Writer Stop Nat
  | 0, _, len => pure len
  | 1, ll, len =>
    if ll % 10 ≠ 0 ∨ len ≠ 0 then do
      store out (digitChar (ll % 10))
      pure (len + 1)
    else pure len
  | k + 2, ll, len =>
    if k = lz then do
      -- the decimal point and the digit in front of it
      store (out + (k + 1)) dot
      store (out + k) (digitChar (ll % 10))
      plainLoop lz out k (ll / 10) (len + 2)
    else if ll % 10 ≠ 0 ∨ len ≠ 0 ∨ (k + 1 : Int) - 2 = lz then do
      store (out + (k + 1)) (digitChar (ll % 10))
      plainLoop lz out (k + 1) (ll / 10) (len + 1)
    else plainLoop lz out (k + 1) (ll / 10) len

/-- The format without exponent, `0.001234` or `123450.0`. -/
def plainFormat (ll : Nat) (exp10i : Int) (out : Nat) : Writer Stop Nat :=
  plainLoop exp10i.toNat out (17 + (-exp10i).toNat) ll 0

/-- The digits of a number, and the power of 10 of the first. -/
def floatDigits (mant : Fin (2 ^ 53)) (exp : Fin 2046) : Nat × Int :=
  let exp10i := exp10Of (frexpExp mant exp)
  let ll := api.scaled mant exp (16 - 1 - exp10i)
  -- avoid leading zeros
  if ll < 1000000000000000 then (ll * 10, exp10i - 1) else (ll, exp10i)

/-- The absolute value of a number. -/
def writeFloatAt (mant : Fin (2 ^ 53)) (exp : Fin 2046) (out : Nat) : Writer Stop Nat :=
  let (ll, exp10i) := floatDigits api mant exp
  if exp10i ≤ -5 ∨ exp10i ≥ 15 then exponentFormat ll exp10i out else plainFormat ll exp10i out

/-- The second call of `pg_text_enc_float`. -/
def floatSecond (value : Value) (out : Nat) : Writer Stop Nat := do
  match ← Method.ofExcept (api.num2dbl value) with
  | .inf true => block [0x2d, 0x49, 0x6e, 0x66, 0x69, 0x6e, 0x69, 0x74, 0x79] out
  | .inf false => block [0x49, 0x6e, 0x66, 0x69, 0x6e, 0x69, 0x74, 0x79] out
  | .nan => block [0x4e, 0x61, 0x4e] out
  | .finite neg mant exp =>
    if neg && mant.val != 0 then do
      store out minus
      let len ← writeFloatAt api mant exp (out + 1)
      pure (1 + len)
    else writeFloatAt api mant exp out

/-- `pg_text_enc_float`. -/
def pgTextEncFloat : EncFunc := fun value => pure (.size (1 + 16 + 1 + 1 + 1 + 3) (floatSecond api value))

/-- `pg_text_enc_numeric`. -/
def pgTextEncNumeric : EncFunc
  | .int i => pgTextEncInteger api (.int i)
  | .float d => pgTextEncFloat api (.float d)
  | value => pure (.string (api.numericText value))

/-- `hextab`. -/
def hextab (i : UInt8) : UInt8 := if i < 10 then 48 + i else 97 + (i - 10)

/-- The hexadecimal text of a byte string. -/
def hexText (s : Bytes) : Bytes := backslash :: 0x78 :: s.flatMap fun c : UInt8 => [hextab (c >>> 4), hextab (c &&& 0xf)]

/-- `pg_text_enc_bytea`. -/
def pgTextEncBytea : EncFunc := fun value =>
  let str := rbObjAsString api.toRuntime value
  let size := str.length
  if size > 2147483647 / 2 - 2 then
    rbRaise .argumentError s!"too large input string for PG::TextEncoder::Bytea: {size}"
  else pure (.size (2 + size * 2) (block (hexText str)))

/-- `pg_bin_enc_boolean`. -/
def pgBinEncBoolean : EncFunc
  | .true => pure (.size 1 (block [1]))
  | .false => pure (.size 1 (block [0]))
  | _ => rbRaise .typeError "wrong data for binary boolean converter"

/-- A second call that writes an integer of `k` bytes. -/
def nboSecond (k : Nat) (l : Outcome Int) (out : Nat) : Writer Stop Nat := do
  block (writeNbo k (← Method.ofExcept l)) out

/-- `pg_bin_enc_int2`, `pg_bin_enc_int4` and `pg_bin_enc_int8`, over the size and the conversion. -/
def binEncInt (k : Nat) (num2 : Value → Outcome Int) : EncFunc := fun value => do
  let intermediate ← Text.pgObjToI api.toRuntime value
  pure (.size k (nboSecond k (num2 intermediate)))

/-- `pg_bin_enc_int2`. -/
def pgBinEncInt2 : EncFunc := binEncInt api 2 api.num2int

/-- `pg_bin_enc_int4`. -/
def pgBinEncInt4 : EncFunc := binEncInt api 4 api.num2long

/-- `pg_bin_enc_int8`. -/
def pgBinEncInt8 : EncFunc := binEncInt api 8 api.num2ll

/-- `pg_bin_enc_float4`. -/
def pgBinEncFloat4 : EncFunc := fun value => pure (.size 4 (nboSecond 4 ((api.num2dbl value).map api.floatBits)))

/-- `pg_bin_enc_float8`. -/
def pgBinEncFloat8 : EncFunc := fun value => pure (.size 8 (nboSecond 8 ((api.num2dbl value).map api.doubleBits)))

/-- The infinity that a String stands for, by its first characters. -/
def infinityOf : Bytes → Option Bool
  | 0x49 :: _ => some true
  | 0x69 :: _ => some true
  | 0x2d :: 0x49 :: _ => some false
  | 0x2d :: 0x69 :: _ => some false
  | _ => none

/-- The timestamp of a time, in microseconds since 2000. -/
def timestampOf (sec nsec : Int) : Int := (sec - 10957 * 24 * 3600) * 1000000 + nsec.tdiv 1000

/-- The timestamp that the second call finds in `*intermediate`. -/
def timestampValue : Value → Outcome Int
  | .true => pure 0x7FFFFFFFFFFFFFFF
  | .false => pure (-0x7FFFFFFFFFFFFFFF - 1)
  | value => do
    let (sec, nsec) ← api.timespec value
    pure (timestampOf sec nsec)

/-- `pg_bin_enc_timestamp`. -/
def pgBinEncTimestamp (flags : Nat) : EncFunc
  | .str s =>
    match infinityOf s with
    | some positive => pure (.size 8 (nboSecond 8 (timestampValue api (if positive then .true else .false))))
    | none => pgCoderEncToS api (.str s)
  | value =>
    if dbLocal flags then do
      let (sec, nsec, utcOffset) ← api.getlocal value
      pure (.size 8 (nboSecond 8 (pure (timestampOf sec nsec + utcOffset * 1000000))))
    else pure (.size 8 (nboSecond 8 (timestampValue api value)))

/-- `date2j`. -/
def date2j (year month day : Int) : Int :=
  let (month, year) := if month > 2 then (int32 (month + 1), int32 (year + 4800)) else (int32 (month + 13), int32 (year + 4799))
  let century := year.tdiv 100
  let julian := int32 (int32 (year * 365) - 32167)
  let julian := int32 (julian + int32 (int32 (year.tdiv 4 - century) + century.tdiv 4))
  int32 (julian + int32 ((int32 (7834 * month)).tdiv 256 + day))

/-- The day that the second call of `pg_bin_enc_date` writes. -/
def dateValue : Value → Outcome Int
  | .true => pure 0x7FFFFFFF
  | .false => pure (-0x7FFFFFFF - 1)
  | value => do
    let (year, month, day) ← api.gregorian value
    pure (int32 (date2j (← api.num2int year) (← api.num2int month) (← api.num2int day) - 2451545))

/-- `pg_bin_enc_date`. -/
def pgBinEncDate : EncFunc
  | .str s =>
    match infinityOf s with
    | some positive => pure (.size 4 (nboSecond 4 (dateValue api (if positive then .true else .false))))
    | none => pgCoderEncToS api (.str s)
  | value => pure (.size 4 (nboSecond 4 (dateValue api value)))

end RubyPg.TwoPass
