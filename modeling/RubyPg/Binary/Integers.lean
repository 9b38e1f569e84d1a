import RubyPg.TwoPass.Encoding
import RubyPg.TwoPass.Overflow

/-!
# Binary integers

`pg_bin_dec_integer` and the binary coders that `register_default_types` of `lib/pg/basic_type_registry.rb` registers
for the integer types. `NUM2INT` and `NUM2LONG` take more than the two and four bytes that are written then, and the
coder of `oid` is that of `int2`.
-/

namespace RubyPg.Binary
set_option autoImplicit false
open TwoPass

/-- `pg_bin_dec_integer`. -/
def pgBinDecInteger (val : Bytes) (tuple field : Int) : Outcome Value :=
  if val.length = 2 ∨ val.length = 4 ∨ val.length = 8 then pure (.int (readNbo val))
  else rbRaise .typeError
    s!"wrong data for binary integer converter in tuple {tuple} field {field} length {val.length}"

/-- The encoder classes. -/
inductive IntegerEncoder where
  | int2 | int4 | int8
deriving DecidableEq, Repr

def IntegerEncoder.enc : IntegerEncoder → Enc
  | int2 => .int2
  | int4 => .int4
  | int8 => .int8

/-- The decoder class. -/
inductive IntegerDecoder where
  | integer
deriving DecidableEq, Repr

def IntegerDecoder.decode : IntegerDecoder → Bytes → Int → Int → Outcome Value
  | integer => pgBinDecInteger

/-- `@coders_by_name[1]`, as far as it holds integer coders. -/
structure IntegerCoders where
  encoder : String → Option IntegerEncoder := fun _ => none
  decoder : String → Option IntegerDecoder := fun _ => none

namespace IntegerCoders

/-- `register_type 1`. -/
def registerType (coders : IntegerCoders) (name : String) (encoder : IntegerEncoder) (decoder : IntegerDecoder) : IntegerCoders where
  encoder other := if other = name then some encoder else coders.encoder other
  decoder other := if other = name then some decoder else coders.decoder other

/-- `alias_type 1`. -/
def aliasType (coders : IntegerCoders) (new old : String) : IntegerCoders where
  encoder other := if other = new then coders.encoder old else coders.encoder other
  decoder other := if other = new then coders.decoder old else coders.decoder other

/-- `register_default_types`; the types registered behind have other names. -/
def registerDefaultTypes : IntegerCoders :=
  let coders := registerType {} "int2" .int2 .integer
  let coders := registerType coders "int4" .int4 .integer
  let coders := registerType coders "int8" .int8 .integer
  aliasType coders "oid" "int2"

end IntegerCoders

/-- The integer types of PostgreSQL. -/
inductive IntegerType where
  | int2 | int4 | int8 | oid
deriving DecidableEq, Repr

namespace IntegerType

def name : IntegerType → String
  | int2 => "int2"
  | int4 => "int4"
  | int8 => "int8"
  | oid => "oid"

/-- The number of bytes on the wire. -/
def width : IntegerType → Nat
  | int2 => 2
  | int4 => 4
  | int8 => 8
  | oid => 4

/-- The Integers that are stored as they are, or refused because they do not fit into the type that is converted to. -/
def Takes : IntegerType → Int → Prop
  | int2, i => -(2 ^ 15) ≤ i ∧ i < 2 ^ 15 ∨ ¬(-(2 ^ 31) ≤ i ∧ i < 2 ^ 31)
  | int4, i => -(2 ^ 31) ≤ i ∧ i < 2 ^ 31 ∨ ¬(-(2 ^ 63) ≤ i ∧ i < 2 ^ 63)
  | int8, _ => True
  | oid, i => ¬(-(2 ^ 31) ≤ i ∧ i < 2 ^ 31)

end IntegerType

/-- The registered encoder raises, or it writes as many bytes as the type has and the registered decoder makes the
Integer of them. -/
def StoredOrRefused (api : CApi) (type : IntegerType) (i : Int) : Prop :=
  ∃ encoder decoder, IntegerCoders.registerDefaultTypes.encoder type.name = some encoder ∧
    IntegerCoders.registerDefaultTypes.decoder type.name = some decoder ∧
      match (encoder.enc.encoder api).encode (.int i) with
      | .ok bytes => bytes.length = type.width ∧ ∀ tuple field, decoder.decode bytes tuple field = .ok (.int i)
      | .error (.exn _ _) => True
      | .error _ => False

/-- What is assumed of `NUM2INT`, `NUM2LONG` and `NUM2LL`. -/
structure ReadsIntegers (api : CApi) : Prop where
  num2int : Converts (2 ^ 31) api.num2int
  num2long : Converts (2 ^ 63) api.num2long
  num2ll : Converts (2 ^ 63) api.num2ll

section Encode

variable {api : CApi} {num2 : Value → Outcome Int} {bound i : Int} {k : Nat} {e : Enc}

/-- What is read is what was written if it fits. -/
theorem readNbo_writeNbo_iff : readNbo (writeNbo (k + 1) i) = i ↔
    -((256 ^ (k + 1) : Nat) : Int) ≤ i * 2 ∧ i * 2 < ((256 ^ (k + 1) : Nat) : Int) := by
  constructor
  · intro same
    have bounds := readNbo_bounds (length_writeNbo (k + 1) i)
    rwa [same] at bounds
  · rintro ⟨low, high⟩
    exact readNbo_writeNbo low high

theorem pgBinDecInteger_writeNbo (size : k = 2 ∨ k = 4 ∨ k = 8) (tuple field : Int) :
    pgBinDecInteger (writeNbo k i) tuple field = .ok (.int (readNbo (writeNbo k i))) := by
  unfold pgBinDecInteger
  rw [length_writeNbo, if_pos size]
  rfl

/-- The encoder of an Integer writes its low bytes, or raises. -/
theorem encode_integer (func : e.func api = binEncInt api k num2) (converts : Converts bound num2) :
    (-bound ≤ i ∧ i < bound → (e.encoder api).encode (.int i) = .ok (writeNbo k i)) ∧
      (¬(-bound ≤ i ∧ i < bound) → ∃ msg, (e.encoder api).encode (.int i) = .error (.exn .rangeError msg)) := by
  have first : e.func api (.int i) = .ok (.size k (nboSecond k (num2 (.int i)))) := by
    rw [func]
    rfl
  rw [encode_of_size first, written_nboSecond]
  constructor
  · rintro ⟨low, high⟩
    rw [converts.fits i low high]
    rfl
  · intro outside
    obtain ⟨msg, raised⟩ := converts.raises i outside
    refine ⟨msg, ?_⟩
    rw [raised]
    rfl

/-- Where the encoder is that of the type, the Integers are stored or refused that fit into its bytes or into no C
integer of the conversion. -/
theorem stored_or_refused {type : IntegerType} {encoder : IntegerEncoder} (func : encoder.enc.func api = binEncInt api k num2)
    (registered : IntegerCoders.registerDefaultTypes.encoder type.name = some encoder)
    (decoded : IntegerCoders.registerDefaultTypes.decoder type.name = some .integer) (size : k = 2 ∨ k = 4 ∨ k = 8)
    (converts : Converts bound num2) :
    StoredOrRefused api type i ↔ k = type.width ∧ readNbo (writeNbo k i) = i ∨ ¬(-bound ≤ i ∧ i < bound) := by
  obtain ⟨stored, refused⟩ := encode_integer (i := i) func converts
  constructor
  · rintro ⟨enc, dec, known, known', outcome⟩
    cases registered.symm.trans known
    cases decoded.symm.trans known'
    by_cases fits : -bound ≤ i ∧ i < bound
    · rw [stored fits] at outcome
      obtain ⟨length, same⟩ := outcome
      have value := Value.int.inj (Except.ok.inj ((pgBinDecInteger_writeNbo size 0 0).symm.trans (same 0 0)))
      exact .inl ⟨(length_writeNbo k i).symm.trans length, value⟩
    · exact .inr fits
  · intro either
    refine ⟨encoder, .integer, registered, decoded, ?_⟩
    by_cases fits : -bound ≤ i ∧ i < bound
    · obtain ⟨width, same⟩ := either.resolve_right (not_not.2 fits)
      rw [stored fits]
      refine ⟨(length_writeNbo k i).trans width, fun tuple field => ?_⟩
      exact (pgBinDecInteger_writeNbo size tuple field).trans (by rw [same])
    · obtain ⟨msg, raised⟩ := refused fits
      rw [raised]
      trivial

end Encode

/-- **The binary integer coders are exact or refuse** exactly for these Integers. -/
theorem integers_stored_iff {api : CApi} (reads : ReadsIntegers api) (type : IntegerType) (i : Int) :
    StoredOrRefused api type i ↔ type.Takes i := by
  cases type with
  | int2 =>
    refine (stored_or_refused rfl rfl rfl (.inl rfl) reads.num2int).trans (or_congr ?_ Iff.rfl)
    refine (and_iff_right rfl).trans (readNbo_writeNbo_iff.trans ?_)
    have size : ((256 ^ (1 + 1) : Nat) : Int) = 65536 := by decide
    omega
  | int4 =>
    refine (stored_or_refused rfl rfl rfl (.inr (.inl rfl)) reads.num2long).trans (or_congr ?_ Iff.rfl)
    refine (and_iff_right rfl).trans (readNbo_writeNbo_iff.trans ?_)
    have size : ((256 ^ (3 + 1) : Nat) : Int) = 4294967296 := by decide
    omega
  | int8 =>
    refine (stored_or_refused rfl rfl rfl (.inr (.inr rfl)) reads.num2ll).trans ?_
    refine iff_of_true ?_ trivial
    by_cases fits : -(2 ^ 63) ≤ i ∧ i < 2 ^ 63
    · refine .inl ⟨rfl, readNbo_writeNbo_iff.2 ?_⟩
      have size : ((256 ^ (7 + 1) : Nat) : Int) = 18446744073709551616 := by decide
      omega
    · exact .inr fits
  | oid =>
    refine (stored_or_refused rfl rfl rfl (.inl rfl) reads.num2int).trans ?_
    constructor
    · rintro (⟨width, -⟩ | refused)
      · exact absurd width (by decide)
      · exact refused
    · exact .inr

theorem sample_readsIntegers : ReadsIntegers CApi.sample :=
  ⟨CApi.sampleNum2_converts 31, CApi.sampleNum2_converts 63, CApi.sampleNum2_converts 63⟩

/-- The greatest `int2` is stored. -/
theorem integers_stored_int2 : StoredOrRefused CApi.sample .int2 32767 :=
  (integers_stored_iff sample_readsIntegers .int2 32767).2 (.inl (by decide))

/-- The next Integer is stored as -32768, 2^32 as 0, and an `oid` in two bytes. -/
theorem integers_not_stored :
    ((Enc.int2.encoder CApi.sample).encode (.int 32768) = .ok (writeNbo 2 (-32768)) ∧ ¬StoredOrRefused CApi.sample .int2 32768) ∧
      ((Enc.int4.encoder CApi.sample).encode (.int 4294967296) = .ok (writeNbo 4 0) ∧
        ¬StoredOrRefused CApi.sample .int4 4294967296) ∧
      (Enc.int2.encoder CApi.sample).encode (.int 1) = .ok (writeNbo 2 1) ∧ ¬StoredOrRefused CApi.sample .oid 1 := by
  have small : (Enc.int2.encoder CApi.sample).encode (.int 32768) = .ok (writeNbo 2 (-32768)) := rfl
  have wide : (Enc.int4.encoder CApi.sample).encode (.int 4294967296) = .ok (writeNbo 4 0) := rfl
  have oid : (Enc.int2.encoder CApi.sample).encode (.int 1) = .ok (writeNbo 2 1) := rfl
  refine ⟨⟨small, ?_⟩, ⟨wide, ?_⟩, oid, ?_⟩
  · rintro ⟨encoder, decoder, known, -, outcome⟩
    cases (rfl : IntegerCoders.registerDefaultTypes.encoder "int2" = some .int2).symm.trans known
    rw [show IntegerEncoder.int2.enc = .int2 from rfl, small] at outcome
    have value := Value.int.inj (Except.ok.inj ((pgBinDecInteger_writeNbo (.inl rfl) 0 0).symm.trans (outcome.2 0 0)))
    exact absurd value (by decide)
  · rintro ⟨encoder, decoder, known, -, outcome⟩
    cases (rfl : IntegerCoders.registerDefaultTypes.encoder "int4" = some .int4).symm.trans known
    rw [show IntegerEncoder.int4.enc = .int4 from rfl, wide] at outcome
    have value := Value.int.inj (Except.ok.inj ((pgBinDecInteger_writeNbo (.inr (.inl rfl)) 0 0).symm.trans (outcome.2 0 0)))
    exact absurd value (by decide)
  · rintro ⟨encoder, decoder, known, -, outcome⟩
    cases (rfl : IntegerCoders.registerDefaultTypes.encoder "oid" = some .int2).symm.trans known
    rw [show IntegerEncoder.int2.enc = .int2 from rfl, oid] at outcome
    exact absurd outcome.1 (by decide)

end RubyPg.Binary
