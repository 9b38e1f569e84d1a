import RubyPg.Value

/-!
# Encoders and composite coders

The encoder protocol of `ext/pg_text_encoder.c`: the first call (`out == NULL`)
answers either with a size, to be followed by a second call, or, by returning -1,
with a finished String. At this level the second call is the byte string it leaves
in `out[0..len-1]` when it finds the intermediate value of the first.
-/

namespace RubyPg
set_option autoImplicit false

/-- What an encoder function answers when `out == NULL`. -/
inductive FirstPass where
  | size (n : Nat) (second : Outcome Bytes)
  | string (s : Bytes)

/-- An encoder function. -/
abbrev Encoder := Value → Outcome FirstPass

/-- The bytes an encoder produces, as every caller obtains them: the String of a
one-pass answer, else what the second call writes. -/
def Encoder.encode (this : Encoder) (value : Value) : Outcome Bytes := do
  match ← this value with
  | .string s => pure s
  | .size _ second => second

/-- The contract of the two calls for one value: the size of the first is an `int`, and the second
call writes no more. -/
def KeepsContract (enc : Encoder) (value : Value) : Prop :=
  ∀ n second, enc value = .ok (.size n second) → n < 2 ^ 31 ∧ ∀ written, second = .ok written → written.length ≤ n

/-- `rb_obj_as_string`. -/
def rbObjAsString (rt : Runtime) : Value → Bytes
  | .str s => s
  | .int i => if i < 0 then Ascii.minus :: decimal i.natAbs else decimal i.natAbs
  | v => rt.toS v

/-- `pg_coder_enc_to_s`: `PG::TextEncoder::String` and the fall-back without encoder. -/
def pgCoderEncToS (rt : Runtime) : Encoder := fun value => pure (.string (rbObjAsString rt value))

@[simp] theorem pgCoderEncToS_encode_str (rt : Runtime) (s : Bytes) :
    (pgCoderEncToS rt).encode (.str s) = .ok s := rfl

/-- `t_pg_composite_coder` of an encoder. -/
structure CompositeCoder where
  elem : Encoder
  needsQuotation : Bool := true
  dimensions : Int := -1
  delimiter : UInt8 := Ascii.comma

/-- A decoder function on `val[0..len-1]`, with `val[len] = 0` for text data. -/
abbrev Decoder := Bytes → Outcome Value

/-- `PG_CODER_FORMAT_ERROR_*`: what the flags say about malformed input. -/
inductive FormatError where
  | default | raise | toString | toPartial
deriving DecidableEq, Repr

/-- `t_pg_composite_coder` of a decoder. -/
structure CompositeDecoder where
  elem : Decoder
  delimiter : UInt8 := Ascii.comma
  formatError : FormatError := .default

/-- `pg_text_dec_string`. -/
def pgTextDecString : Decoder := fun val => pure (.str val)

end RubyPg
