import Mathlib.Algebra.Order.Ring.Int
import Mathlib.Data.List.TakeWhile
import RubyPg.Lib.Decimal

/-!
# Ruby values, bytes and exceptions

The `VALUE`s the coders see. Strings are byte strings: the encoding index that
`PG_ENCODING_SET_NOCHECK` attaches to a result is not part of the model.
`Fixnum` and `Bignum` are one constructor, split by `isFixnum` where the C code
asks for `T_FIXNUM`. What Ruby itself computes (`to_s` and `to_i` of arbitrary
objects, `rb_cstr2inum`) is the `Runtime`, a parameter of the coders.
-/

namespace RubyPg
set_option autoImplicit false

abbrev Bytes := List UInt8

namespace Ascii

abbrev nul : UInt8 := 0x00
abbrev tab : UInt8 := 0x09
abbrev newline : UInt8 := 0x0a
abbrev vtab : UInt8 := 0x0b
abbrev formfeed : UInt8 := 0x0c
abbrev cr : UInt8 := 0x0d
abbrev space : UInt8 := 0x20
abbrev dquote : UInt8 := 0x22
abbrev lparen : UInt8 := 0x28
abbrev rparen : UInt8 := 0x29
abbrev plus : UInt8 := 0x2b
abbrev comma : UInt8 := 0x2c
abbrev minus : UInt8 := 0x2d
abbrev dot : UInt8 := 0x2e
abbrev zero : UInt8 := 0x30
abbrev nine : UInt8 := 0x39
abbrev colon : UInt8 := 0x3a
abbrev equals : UInt8 := 0x3d
abbrev upperA : UInt8 := 0x41
abbrev upperL : UInt8 := 0x4c
abbrev upperN : UInt8 := 0x4e
abbrev upperU : UInt8 := 0x55
abbrev upperZ : UInt8 := 0x5a
abbrev lbracket : UInt8 := 0x5b
abbrev backslash : UInt8 := 0x5c
abbrev rbracket : UInt8 := 0x5d
abbrev lbrace : UInt8 := 0x7b
abbrev rbrace : UInt8 := 0x7d

/-- The bytes of `"NULL"`. -/
abbrev null : Bytes := [upperN, upperU, upperL, upperL]

end Ascii

/-- The exception classes the modelled functions raise. -/
inductive ErrClass where
  | typeError | argumentError | rangeError | runtimeError | nameError | noMethodError | connectionBad
  | frozenError | indexError | keyError
deriving DecidableEq, Repr

/-- Why a call does not return a value: a Ruby exception with its message, undefined behaviour
of C, or the model's recursion bound (`fuel`), which no C function has. -/
inductive Stop where
  | exn (cls : ErrClass) (msg : String)
  | undefined
  | fuel
deriving DecidableEq, Repr

/-- A result of modelled code that may raise. -/
abbrev Outcome (α : Type) := Except Stop α

/-- A sequence that returns has returned in its first step. -/
theorem Outcome.of_bind {α β : Type} {x : Outcome α} {f : α → Outcome β} {b : β} (returned : (x >>= f) = .ok b) :
    ∃ a, x = .ok a ∧ f a = .ok b := by
  cases x with
  | error stop => cases returned
  | ok a => exact ⟨a, rfl, returned⟩

/-- A sequence raises in its first step or behind it. -/
theorem Outcome.error_of_bind {α β : Type} {x : Outcome α} {f : α → Outcome β} {stop : Stop}
    (raised : (x >>= f) = .error stop) : x = .error stop ∨ ∃ a, x = .ok a ∧ f a = .error stop := by
  cases x with
  | error stop =>
    cases raised
    exact .inl rfl
  | ok a => exact .inr ⟨a, rfl, raised⟩

/-- Two sequences agree that agree behind what their first step returns. -/
theorem Outcome.bind_congr {α β : Type} {x : Outcome α} {f g : α → Outcome β} (same : ∀ a, x = .ok a → f a = g a) :
    x >>= f = x >>= g := by
  cases x with
  | error stop => rfl
  | ok a => exact same a rfl

/-- The C string at the start of a buffer: the bytes in front of the first NUL. -/
def cString (s : Bytes) : Bytes := s.takeWhile (· != Ascii.nul)

theorem cString_of_notMem {s : Bytes} (nonul : Ascii.nul ∉ s) : cString s = s := by
  rw [cString, List.takeWhile_eq_self_iff]
  intro c hc
  simpa using fun e : c = Ascii.nul => nonul (e ▸ hc)

/-- A C string as a `%s` puts it into a message, byte by byte. -/
def showCString (s : Bytes) : String := String.ofList ((cString s).map fun b => Char.ofNat b.toNat)

/-- `rb_raise`. -/
def rbRaise {α : Type} (cls : ErrClass) (msg : String) : Outcome α := .error (.exn cls msg)

/-- A C `double` by class: the sign, and for finite numbers the exact value
`mant * 2 ^ (exp - 1074)`. -/
inductive Double where
  | nan
  | inf (neg : Bool)
  | finite (neg : Bool) (mant : Fin (2 ^ 53)) (exp : Fin 2046)
deriving DecidableEq, Repr

/-- A Ruby object. `time` carries the seconds and nanoseconds of `rb_time_timespec`
and the `utc_offset`; `date` the proleptic Gregorian fields; `obj` is any other object. -/
inductive Value where
  | nil
  | true
  | false
  | int (i : Int)
  | float (d : Double)
  | str (s : Bytes)
  | ary (xs : List Value)
  | time (sec : Int) (nsec : Nat) (utcOffset : Int)
  | date (year month day : Int)
  | obj (id : Nat)

/-- A field that may be NULL as a value. -/
def fieldValue : Option Bytes → Value
  | none => .nil
  | some field => .str field

/-- `NUM2INT` of an Integer. -/
def num2int (i : Int) : Outcome Int :=
  if -(2 ^ 31) ≤ i ∧ i < 2 ^ 31 then pure i
  else if ¬(-(2 ^ 63) ≤ i ∧ i < 2 ^ 63) then rbRaise .rangeError "bignum too big to convert into 'long'"
  else if i < 0 then rbRaise .rangeError s!"integer {i} too small to convert to 'int'"
  else rbRaise .rangeError s!"integer {i} too big to convert to 'int'"

/-- `TYPE(v) == T_FIXNUM` on a 64-bit Ruby. -/
def isFixnum (i : Int) : Bool := decide (-(2 ^ 62) ≤ i) && decide (i < 2 ^ 62)

/-- What Ruby computes outside the extension. -/
structure Runtime where
  /-- `to_s` of an object that is neither a String nor an Integer. -/
  toS : Value → Bytes
  /-- `to_i` of an object that is not numeric. -/
  toI : Value → Outcome Value
  /-- `rb_cstr2inum(val, 10)` on a C string. -/
  cstr2inum : Bytes → Int

/-- What is assumed of `rb_cstr2inum`: it reads decimal digits behind an optional minus sign. -/
structure Runtime.ReadsIntegers (rt : Runtime) : Prop where
  digits : ∀ ds, ds ≠ [] → (∀ d ∈ ds, IsDigit d) → rt.cstr2inum ds = readDigits 0 ds
  minus : ∀ ds, ds ≠ [] → (∀ d ∈ ds, IsDigit d) → rt.cstr2inum (Ascii.minus :: ds) = -(readDigits 0 ds : Int)

/-- A Ruby whose integers are written with an optional minus and decimal digits, and whose
other objects have neither a text nor an integer value; for concrete runs. -/
def Runtime.sample : Runtime where
  toS _ := []
  toI _ := rbRaise .typeError "no to_i"
  cstr2inum
    | 0x2d :: ds => -(readDigits 0 ds : Int)
    | ds => (readDigits 0 ds : Int)

theorem Runtime.sample_readsIntegers : Runtime.sample.ReadsIntegers := by
  refine ⟨fun ds _ digits => ?_, fun ds _ _ => rfl⟩
  unfold Runtime.sample
  dsimp only
  split
  · exact absurd (digits _ List.mem_cons_self) (by decide)
  · rfl

end RubyPg
