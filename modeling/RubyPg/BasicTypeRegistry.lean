import RubyPg.Text.TimestampForm
import RubyPg.Text.Unquoted
import RubyPg.TwoPass.FloatText
import RubyPg.TwoPass.Overflow

/-!
# Array encoders of the basic types

`DONT_QUOTE_TYPES`, the array coders of `CoderMap#initialize` and the types that `register_default_types` of
`lib/pg/basic_type_registry.rb` registers for text, as far as their arrays go unquoted, with the encoders of
`lib/pg/text_encoder/date.rb` and `lib/pg/text_encoder/timestamp.rb`. What an encoder does not format itself
it passes through as text, and an unquoted array stands or falls with these texts.
-/

namespace RubyPg.BasicTypeRegistry
set_option autoImplicit false
open Ascii TwoPass

/-- What Ruby does for the encoders that are written in Ruby. -/
structure RubyApi extends CApi where
  /-- The Gregorian date as text, for an object with `gregorian?`. -/
  gregorianText : Nat → Option (Outcome Value)
  /-- `strftime`, with or without the time zone, for an object that responds to it. -/
  strftime : Bool → Nat → Option (Outcome Value)
  /-- `to_str` of an object that is no String. -/
  toStr : Value → Outcome Bytes

section Code

variable (api : RubyApi)

/-- `%Y`. -/
def yearFormat (year : Int) : Bytes := if year < 0 then minus :: Text.yearText year.natAbs else Text.yearText year.natAbs

/-- `%Y-%m-%d`. -/
def dateFormat (year month day : Int) : Bytes :=
  yearFormat year ++ minus :: (digitsOf 2 month.toNat ++ minus :: digitsOf 2 day.toNat)

/-- `%H:%M:%S.%N`. -/
def clockFormat (hour min sec : Int) (nsec : Nat) : Bytes :=
  digitsOf 2 hour.toNat ++ colon :: (digitsOf 2 min.toNat ++ colon :: (digitsOf 2 sec.toNat ++ dot :: digitsOf 9 nsec))

/-- `%:z`. -/
def zoneFormat (utcOffset : Int) : Bytes :=
  (if utcOffset < 0 then minus else plus) ::
    (digitsOf 2 (utcOffset.natAbs / 3600) ++ colon :: digitsOf 2 (utcOffset.natAbs % 3600 / 60))

/-- `PG::TextEncoder::Date#encode`. -/
def encodeDate : Value → Outcome Value
  | .date year month day => pure (.str (dateFormat year month day))
  | .obj id => (api.gregorianText id).getD (pure (.obj id))
  | value => pure value

/-- `encode` of `PG::TextEncoder::TimestampWithoutTimeZone` and `TimestampWithTimeZone`. -/
def encodeTimestamp (withZone : Bool) : Value → Outcome Value
  | .time sec nsec utcOffset =>
    let c := Civil.ofSeconds (sec + utcOffset)
    pure (.str (dateFormat c.year c.mon c.day ++ space :: (clockFormat c.hour c.min c.sec nsec ++
      if withZone then space :: zoneFormat utcOffset else [])))
  | .date year month day =>
    pure (.str (dateFormat year month day ++ space :: (clockFormat 0 0 0 0 ++
      if withZone then space :: zoneFormat 0 else [])))
  | .obj id => (api.strftime withZone id).getD (pure (.obj id))
  | value => pure value

/-- `StringValue`. -/
def stringValue : Value → Outcome Bytes
  | .str s => pure s
  | value => api.toStr value

/-- `pg_text_enc_in_ruby`. -/
def pgTextEncInRuby (encode : Value → Outcome Value) (value : Value) : Outcome Bytes := do
  stringValue api (← encode value)

/-- The classes of the encoders. -/
inductive TextEncoder where
  | integer | boolean | float | timestampWithoutTimeZone | timestampWithTimeZone | date
deriving DecidableEq, Repr

/-- The encoder function of a class. -/
def TextEncoder.enc : TextEncoder → Enc
  | .integer => .textInteger
  | .boolean => .textBoolean
  | .float => .textFloat
  | .timestampWithoutTimeZone => .onePass (pgTextEncInRuby api (encodeTimestamp api false))
  | .timestampWithTimeZone => .onePass (pgTextEncInRuby api (encodeTimestamp api true))
  | .date => .onePass (pgTextEncInRuby api (encodeDate api))

/-- `@coders_by_name[0][:encoder]`. -/
abbrev Coders := String → Option TextEncoder

/-- `register_type`. -/
def registerType (coders : Coders) (name : String) (encoder : TextEncoder) : Coders :=
  fun other => if other = name then some encoder else coders other

/-- `alias_type`. -/
def aliasType (coders : Coders) (new old : String) : Coders :=
  fun other => if other = new then coders old else coders other

/-- `register_default_types`. -/
def registerDefaultTypes : Coders :=
  let coders := registerType (fun _ => none) "int2" .integer
  let coders := aliasType coders "int4" "int2"
  let coders := aliasType coders "int8" "int2"
  let coders := aliasType coders "oid" "int2"
  let coders := registerType coders "bool" .boolean
  let coders := registerType coders "float4" .float
  let coders := aliasType coders "float8" "float4"
  let coders := registerType coders "timestamp" .timestampWithoutTimeZone
  let coders := registerType coders "timestamptz" .timestampWithTimeZone
  registerType coders "date" .date

/-- `DONT_QUOTE_TYPES`. -/
def dontQuoteTypes : List String :=
  ["int2", "int4", "int8", "float4", "float8", "oid", "bool", "date", "timestamp", "timestamptz"]

/-- The coder that `CoderMap#initialize` makes for the arrays of a type. -/
def arrayCoder (name : String) : Option CompositeCoder :=
  (registerDefaultTypes name).map fun encoder =>
    { elem := (encoder.enc api).encoder api.toCApi, needsQuotation := !dontQuoteTypes.contains name }

/-- The text that `pg_text_enc_integer` makes of something that is no Integer. -/
def integerPasses (value : Value) : Option Bytes :=
  match Text.pgObjToI api.toRuntime value with
  | .ok (.int _) => none
  | .ok other => some (rbObjAsString api.toRuntime other)
  | .error _ => none

/-- The text that `pg_text_enc_boolean` makes of something that is no Boolean or Integer. -/
def booleanPasses : Value → Option Bytes
  | .true | .false | .int _ => none
  | value => some (rbObjAsString api.toRuntime value)

/-- The text that `PG::TextEncoder::Date` makes of something that is no Date. -/
def datePasses : Value → Option Bytes
  | .date _ _ _ => none
  | value => (pgTextEncInRuby api (encodeDate api) value).toOption

/-- The text that the timestamp encoders make of something that is no Time or Date. -/
def timestampPasses (withZone : Bool) : Value → Option Bytes
  | .time _ _ _ | .date _ _ _ => none
  | value => (pgTextEncInRuby api (encodeTimestamp api withZone) value).toOption

/-- The text of a value that its encoder does not format itself. -/
def TextEncoder.passes : TextEncoder → Value → Option Bytes
  | .integer => integerPasses api
  | .boolean => booleanPasses api
  | .float => fun _ => none
  | .timestampWithoutTimeZone => timestampPasses api false
  | .timestampWithTimeZone => timestampPasses api true
  | .date => datePasses api

end Code

/-- Every listed type is registered, and its arrays are not quoted. -/
theorem arrayCoder_listed (api : RubyApi) {name : String} (listed : name ∈ dontQuoteTypes) :
    ∃ encoder, registerDefaultTypes name = some encoder ∧
      arrayCoder api name = some { elem := (encoder.enc api).encoder api.toCApi, needsQuotation := false } := by
  have known : ∀ name ∈ dontQuoteTypes, (registerDefaultTypes name).isSome = true := by decide
  obtain ⟨encoder, registered⟩ := Option.isSome_iff_exists.1 (known name listed)
  refine ⟨encoder, registered, ?_⟩
  rw [arrayCoder, registered, List.contains_iff_mem.2 listed]
  rfl

/-- A text that is read as itself between commas. -/
def PlainText (t : Bytes) : Prop := (∀ c ∈ t, Text.PlainChar comma c) ∧ t ≠ null

/-- A value that goes to the encoder of the elements. -/
def Leaf (v : Value) : Prop := v ≠ .nil ∧ ∀ vs, v ≠ .ary vs

/-- The values whose leaves pass only plain texts through, and no empty text that is alone in an array. -/
inductive Safe (passes : Value → Option Bytes) : Value → Prop where
  | nil : Safe passes .nil
  | leaf {v : Value} (isLeaf : Leaf v) (plain : ∀ t, passes v = some t → PlainText t) : Safe passes v
  | ary {vs : List Value} (filled : ∀ v, vs = [v] → Leaf v → passes v ≠ some []) (safe : ∀ v ∈ vs, Safe passes v) :
      Safe passes (.ary vs)

/-- What an encoder makes of a value: a text of its own, or the one that it passes through. -/
structure Formats (passes : Value → Option Bytes) (elem : Encoder) : Prop where
  own : ∀ v text, passes v = none → elem.encode v = .ok text → text ≠ [] ∧ PlainText text
  through : ∀ v t text, passes v = some t → elem.encode v = .ok text → text = t

section Safe

variable {passes : Value → Option Bytes} {elem : Encoder}

theorem clear_text_iff {t : Bytes} : Text.Clear (.str t) ↔ PlainText t := by
  constructor
  · rintro ⟨⟩
    rename_i plain notNull
    exact ⟨plain, notNull⟩
  · exact fun plain => .text plain.1 plain.2

theorem clear_ary_iff {vs : List Value} : Text.Clear (.ary vs) ↔ vs ≠ [.str []] ∧ ∀ v ∈ vs, Text.Clear v := by
  constructor
  · rintro ⟨⟩
    rename_i filled clear
    exact ⟨filled, clear⟩
  · exact fun clear => .array clear.1 clear.2

theorem safe_leaf_iff {v : Value} (isLeaf : Leaf v) : Safe passes v ↔ ∀ t, passes v = some t → PlainText t := by
  constructor
  · intro safe
    cases safe with
    | nil => exact absurd rfl isLeaf.1
    | leaf _ plain => exact plain
    | ary => exact absurd rfl (isLeaf.2 _)
  · exact .leaf isLeaf

theorem safe_ary_iff {vs : List Value} :
    Safe passes (.ary vs) ↔ (∀ v, vs = [v] → Leaf v → passes v ≠ some []) ∧ ∀ v ∈ vs, Safe passes v := by
  constructor
  · intro safe
    cases safe with
    | leaf isLeaf => exact absurd rfl (isLeaf.2 vs)
    | ary filled safe => exact ⟨filled, safe⟩
  · exact fun safe => .ary safe.1 safe.2

theorem echo_leaf {v : Value} (isLeaf : Leaf v) : Text.echo elem v = (do pure (.str (← elem.encode v))) := by
  cases v with
  | nil => exact absurd rfl isLeaf.1
  | ary vs => exact absurd rfl (isLeaf.2 vs)
  | _ => unfold Text.echo; rfl

/-- The text of a leaf is plain exactly if it is one of the encoder's own, or the one passed through is. -/
theorem Formats.leaf (formats : Formats passes elem) {v w : Value} (isLeaf : Leaf v) (echoed : Text.echo elem v = .ok w) :
    (Text.Clear w ↔ Safe passes v) ∧ (w = .str [] ↔ passes v = some []) := by
  rw [echo_leaf isLeaf] at echoed
  obtain ⟨text, encoded, same⟩ := Outcome.of_bind echoed
  cases same
  rw [clear_text_iff, safe_leaf_iff isLeaf]
  cases passed : passes v with
  | none =>
    obtain ⟨nonempty, plain⟩ := formats.own v text passed encoded
    refine ⟨⟨fun _ t none => (nomatch none), fun _ => plain⟩, fun empty => ?_, fun none => (nomatch none)⟩
    cases empty
    exact absurd rfl nonempty
  | some t =>
    obtain rfl := formats.through v t text passed encoded
    refine ⟨⟨fun plain t' same => ?_, fun plain => plain text rfl⟩, fun empty => ?_, fun empty => ?_⟩
    · cases same
      exact plain
    · cases empty
      rfl
    · cases empty
      rfl

theorem Formats.single (formats : Formats passes elem) {vs ws : List Value} (echoed : Text.echoes elem vs = .ok ws) :
    ws ≠ [.str []] ↔ ∀ v, vs = [v] → Leaf v → passes v ≠ some [] := by
  constructor
  · rintro filled v rfl isLeaf empty
    unfold Text.echoes at echoed
    obtain ⟨w, first, echoed⟩ := Outcome.of_bind echoed
    cases echoed
    exact filled (congrArg (fun w => [w]) ((formats.leaf isLeaf first).2.2 empty))
  · rintro filled rfl
    match vs with
    | [] =>
      unfold Text.echoes at echoed
      cases echoed
    | v :: rest =>
      unfold Text.echoes at echoed
      obtain ⟨w, first, echoed⟩ := Outcome.of_bind echoed
      obtain ⟨ws, others, same⟩ := Outcome.of_bind echoed
      cases same
      have none : rest = [] := by
        cases rest with
        | nil => rfl
        | cons v' rest =>
          unfold Text.echoes at others
          obtain ⟨w', -, others⟩ := Outcome.of_bind others
          obtain ⟨ws', -, same⟩ := Outcome.of_bind others
          cases same
      subst none
      by_cases isLeaf : Leaf v
      · exact filled v rfl isLeaf ((formats.leaf isLeaf first).2.1 rfl)
      · cases v with
        | nil =>
          unfold Text.echo at first
          cases first
        | ary vs =>
          unfold Text.echo at first
          obtain ⟨ws, -, same⟩ := Outcome.of_bind first
          cases same
        | _ => exact isLeaf ⟨Value.noConfusion, fun _ => Value.noConfusion⟩

mutual

/-- The echo of a value is clear exactly if the value is safe. -/
theorem Formats.clear_iff (formats : Formats passes elem) {v w : Value} (echoed : Text.echo elem v = .ok w) :
    Text.Clear w ↔ Safe passes v := by
  match v with
  | .nil =>
    unfold Text.echo at echoed
    cases echoed
    exact ⟨fun _ => .nil, fun _ => .nil⟩
  | .ary vs =>
    unfold Text.echo at echoed
    obtain ⟨ws, inner, same⟩ := Outcome.of_bind echoed
    cases same
    rw [clear_ary_iff, safe_ary_iff, formats.single inner, formats.clear_all_iff inner]
  | .true | .false | .int _ | .float _ | .str _ | .time _ _ _ | .date _ _ _ | .obj _ =>
    exact (formats.leaf ⟨Value.noConfusion, fun _ => Value.noConfusion⟩ echoed).1

theorem Formats.clear_all_iff (formats : Formats passes elem) {vs ws : List Value}
    (echoed : Text.echoes elem vs = .ok ws) : (∀ w ∈ ws, Text.Clear w) ↔ ∀ v ∈ vs, Safe passes v := by
  match vs with
  | [] =>
    unfold Text.echoes at echoed
    cases echoed
    simp only [List.not_mem_nil, false_implies, implies_true]
  | v :: rest =>
    unfold Text.echoes at echoed
    obtain ⟨w, first, echoed⟩ := Outcome.of_bind echoed
    obtain ⟨ws, others, same⟩ := Outcome.of_bind echoed
    cases same
    rw [List.forall_mem_cons, List.forall_mem_cons, formats.clear_iff first, formats.clear_all_iff others]

end

end Safe

/-- The characters of the texts that the encoders format. -/
def formatChar (c : UInt8) : Bool := floatChar c || c == colon || c == space || c == plus

theorem plainText_of_chars {text : Bytes} (chars : ∀ c ∈ text, formatChar c = true) : PlainText text := by
  refine ⟨fun c member => ?_, ?_⟩
  · have char := chars c member
    constructor <;> rintro rfl <;> exact absurd char (by decide)
  · rintro rfl
    exact absurd (chars upperU (by decide)) (by decide)

theorem formatChar_digit {c : UInt8} (digit : IsDigit c) : formatChar c = true := by
  rw [formatChar, floatChar, numberChar, decide_eq_true digit]
  rfl

theorem formatChar_digitsOf {k n : Nat} {c : UInt8} (member : c ∈ digitsOf k n) : formatChar c = true :=
  formatChar_digit (isDigit_of_mem_digitsOf member)

theorem formatChar_yearFormat {year : Int} {c : UInt8} (member : c ∈ yearFormat year) : formatChar c = true := by
  unfold yearFormat at member
  split at member
  · rcases List.mem_cons.1 member with rfl | digit
    · decide
    · exact formatChar_digit (Text.isDigit_of_mem_yearText digit)
  · exact formatChar_digit (Text.isDigit_of_mem_yearText member)

theorem formatChar_dateFormat {year month day : Int} {c : UInt8} (member : c ∈ dateFormat year month day) :
    formatChar c = true := by
  rcases List.mem_append.1 member with year | member
  · exact formatChar_yearFormat year
  rcases List.mem_cons.1 member with rfl | member
  · decide
  rcases List.mem_append.1 member with month | member
  · exact formatChar_digitsOf month
  rcases List.mem_cons.1 member with rfl | day
  · decide
  · exact formatChar_digitsOf day

theorem formatChar_clockFormat {hour min sec : Int} {nsec : Nat} {c : UInt8} (member : c ∈ clockFormat hour min sec nsec) :
    formatChar c = true := by
  rcases List.mem_append.1 member with hour | member
  · exact formatChar_digitsOf hour
  rcases List.mem_cons.1 member with rfl | member
  · decide
  rcases List.mem_append.1 member with min | member
  · exact formatChar_digitsOf min
  rcases List.mem_cons.1 member with rfl | member
  · decide
  rcases List.mem_append.1 member with sec | member
  · exact formatChar_digitsOf sec
  rcases List.mem_cons.1 member with rfl | nsec
  · decide
  · exact formatChar_digitsOf nsec

theorem formatChar_zoneFormat {utcOffset : Int} {c : UInt8} (member : c ∈ zoneFormat utcOffset) : formatChar c = true := by
  rcases List.mem_cons.1 member with rfl | member
  · split <;> decide
  rcases List.mem_append.1 member with hours | member
  · exact formatChar_digitsOf hours
  rcases List.mem_cons.1 member with rfl | minutes
  · decide
  · exact formatChar_digitsOf minutes

/-- A date, and what stands behind it in a timestamp. -/
theorem plain_timestamp {year month day hour min sec utcOffset : Int} {nsec : Nat} {withZone : Bool} :
    PlainText (dateFormat year month day ++ space :: (clockFormat hour min sec nsec ++
      if withZone then space :: zoneFormat utcOffset else [])) := by
  refine plainText_of_chars fun c member => ?_
  rcases List.mem_append.1 member with date | member
  · exact formatChar_dateFormat date
  rcases List.mem_cons.1 member with rfl | member
  · decide
  rcases List.mem_append.1 member with clock | member
  · exact formatChar_clockFormat clock
  cases withZone with
  | false => cases member
  | true =>
    rcases List.mem_cons.1 member with rfl | zone
    · decide
    · exact formatChar_zoneFormat zone

theorem integerText_plain (i : Int) : Text.integerText i ≠ [] ∧ PlainText (Text.integerText i) := by
  refine ⟨fun empty => ?_, plainText_of_chars fun c member => ?_⟩
  · have positive := integerLength_pos i
    rw [integerLength, empty] at positive
    cases positive
  · unfold Text.integerText at member
    split at member
    · rcases List.mem_cons.1 member with rfl | digit
      · decide
      · exact formatChar_digit (isDigit_of_mem_decimal digit)
    · exact formatChar_digit (isDigit_of_mem_decimal member)

section Encoders

variable {api : RubyApi}

theorem encode_onePass {f : Value → Outcome Bytes} {value : Value} :
    ((Enc.onePass f).encoder api.toCApi).encode value = f value := by
  unfold Encoder.encode Enc.encoder Enc.func
  cases f value with
  | error stop => rfl
  | ok text => rfl

theorem eq_ok_of_toOption {x : Outcome Bytes} {t : Bytes} (passed : x.toOption = some t) : x = .ok t := by
  cases x with
  | error stop => cases passed
  | ok t' =>
    cases passed
    rfl

/-- What an encoder that is written in Ruby passes through. -/
theorem formats_inRuby {passes : Value → Option Bytes} {encode : Value → Outcome Value}
    (own : ∀ v text, passes v = none → pgTextEncInRuby api encode v = .ok text → text ≠ [] ∧ PlainText text)
    (through : ∀ v t, passes v = some t → pgTextEncInRuby api encode v = .ok t) :
    Formats passes ((Enc.onePass (pgTextEncInRuby api encode)).encoder api.toCApi) := by
  constructor
  · intro v text none encoded
    rw [encode_onePass] at encoded
    exact own v text none encoded
  · intro v t text passed encoded
    rw [encode_onePass] at encoded
    cases (through v t passed).symm.trans encoded
    rfl

theorem formats_integer : Formats (integerPasses api) (Enc.textInteger.encoder api.toCApi) := by
  rw [textInteger_encoder]
  constructor
  · intro v text none encoded
    unfold integerPasses at none
    cases converted : Text.pgObjToI api.toRuntime v with
    | error stop =>
      unfold Encoder.encode Text.pgTextEncInteger at encoded
      rw [converted] at encoded
      cases encoded
    | ok intermediate =>
      rw [converted] at none
      cases intermediate with
      | int i =>
        cases (Text.encode_of_objToI converted).symm.trans encoded
        exact integerText_plain i
      | _ => cases none
  · intro v t text passed encoded
    unfold integerPasses at passed
    unfold Encoder.encode Text.pgTextEncInteger at encoded
    cases converted : Text.pgObjToI api.toRuntime v with
    | error stop =>
      rw [converted] at passed
      cases passed
    | ok intermediate =>
      rw [converted] at passed encoded
      cases intermediate with
      | int i => cases passed
      | _ =>
        cases passed
        cases encoded
        rfl

theorem encode_block {bytes : Bytes} {value : Value} {n : Nat}
    (first : pgTextEncBoolean api.toCApi value = .ok (.size n (block bytes))) :
    (Enc.textBoolean.encoder api.toCApi).encode value = .ok bytes :=
  (encode_of_size (e := .textBoolean) first).trans (written_of_puts (block_puts bytes 0) rfl)

theorem formats_boolean : Formats (booleanPasses api) (Enc.textBoolean.encoder api.toCApi) := by
  have letter : ∀ {c : UInt8}, formatChar c = true → [c] ≠ [] ∧ PlainText [c] := fun char =>
    ⟨List.cons_ne_nil _ _, plainText_of_chars fun d member => List.mem_singleton.1 member ▸ char⟩
  constructor
  · intro v text none encoded
    cases v with
    | true =>
      cases (encode_block rfl).symm.trans encoded
      exact letter (by decide)
    | false =>
      cases (encode_block rfl).symm.trans encoded
      exact letter (by decide)
    | int i =>
      have first : pgTextEncBoolean api.toCApi (.int i) = (api.num2long (.int i) >>= fun l =>
          if l = 0 then pure (.size 1 (block [0x30])) else if l = 1 then pure (.size 1 (block [0x31]))
          else pgTextEncInteger api.toCApi (.int i)) := rfl
      cases long : api.num2long (.int i) with
      | error stop =>
        rw [long] at first
        unfold Encoder.encode Enc.encoder Enc.func at encoded
        rw [first] at encoded
        cases encoded
      | ok l =>
        rw [long] at first
        replace first : pgTextEncBoolean api.toCApi (.int i) = if l = 0 then pure (.size 1 (block [0x30]))
          else if l = 1 then pure (.size 1 (block [0x31])) else pgTextEncInteger api.toCApi (.int i) := first
        by_cases isZero : l = 0
        · rw [if_pos isZero] at first
          cases (encode_block first).symm.trans encoded
          exact letter (by decide)
        · rw [if_neg isZero] at first
          by_cases isOne : l = 1
          · rw [if_pos isOne] at first
            cases (encode_block first).symm.trans encoded
            exact letter (by decide)
          · rw [if_neg isOne] at first
            have integer : (Enc.textBoolean.encoder api.toCApi).encode (.int i) = .ok (Text.integerText i) := by
              rw [← Text.encode_int api.toRuntime i, ← textInteger_encoder]
              unfold Encoder.encode Enc.encoder Enc.func
              rw [first]
            cases integer.symm.trans encoded
            exact integerText_plain i
    | _ => cases none
  · intro v t text passed encoded
    cases v with
    | true | false | int i => cases passed
    | _ =>
      cases passed
      cases encoded
      rfl

theorem formats_float : Formats (fun _ => none) (Enc.textFloat.encoder api.toCApi) := by
  constructor
  · intro v text none encoded
    obtain ⟨nonempty, chars⟩ := @floatSecond_text api.toCApi v text encoded
    refine ⟨nonempty, plainText_of_chars fun c member => ?_⟩
    rw [formatChar, chars c member]
    rfl
  · intro v t text passed encoded
    cases passed

theorem formats_date : Formats (datePasses api) ((Enc.onePass (pgTextEncInRuby api (encodeDate api))).encoder api.toCApi) := by
  apply formats_inRuby
  · intro v text none encoded
    unfold datePasses at none
    split at none
    · rename_i year month day
      cases encoded
      refine ⟨fun empty => ?_, plainText_of_chars fun c member => formatChar_dateFormat member⟩
      exact List.append_ne_nil_of_right_ne_nil _ (List.cons_ne_nil _ _) empty
    · rw [encoded] at none
      cases none
  · intro v t passed
    unfold datePasses at passed
    split at passed
    · cases passed
    · exact eq_ok_of_toOption passed

theorem formats_timestamp (withZone : Bool) : Formats (timestampPasses api withZone)
    ((Enc.onePass (pgTextEncInRuby api (encodeTimestamp api withZone))).encoder api.toCApi) := by
  apply formats_inRuby
  · intro v text none encoded
    unfold timestampPasses at none
    split at none
    · cases encoded
      exact ⟨List.append_ne_nil_of_right_ne_nil _ (List.cons_ne_nil _ _), plain_timestamp⟩
    · cases encoded
      exact ⟨List.append_ne_nil_of_right_ne_nil _ (List.cons_ne_nil _ _), plain_timestamp⟩
    · rw [encoded] at none
      cases none
  · intro v t passed
    unfold timestampPasses at passed
    split at passed
    · cases passed
    · cases passed
    · exact eq_ok_of_toOption passed

/-- Every registered encoder formats what it does not pass through. -/
theorem TextEncoder.formats (encoder : TextEncoder) :
    Formats (encoder.passes api) ((encoder.enc api).encoder api.toCApi) := by
  cases encoder with
  | integer => exact formats_integer
  | boolean => exact formats_boolean
  | float => exact formats_float
  | timestampWithoutTimeZone => exact formats_timestamp false
  | timestampWithTimeZone => exact formats_timestamp true
  | date => exact formats_date

end Encoders

/-- What the registered encoder of a type passes through. -/
def passedThrough (api : RubyApi) (name : String) (value : Value) : Option Bytes :=
  (registerDefaultTypes name).bind fun encoder => encoder.passes api value

/-- **The arrays of a type that is not quoted are decoded as they were exactly if all texts that the encoder
of the type passes through are safe.** -/
theorem unquoted_array_iff (api : RubyApi) (formatError : FormatError) {name : String} (listed : name ∈ dontQuoteTypes)
    {coder : CompositeCoder} (made : arrayCoder api name = some coder) {entries : List Value} {text : Bytes}
    (written : (Text.pgTextEncArray api.toRuntime coder).encode (.ary entries) = .ok text) :
    Text.pgTextDecArray { elem := pgTextDecString, formatError } text = Text.echo coder.elem (.ary entries) ↔
      Safe (passedThrough api name) (.ary entries) := by
  obtain ⟨encoder, registered, known⟩ := arrayCoder_listed api listed
  cases known.symm.trans made
  obtain ⟨answer, first, second⟩ := Outcome.of_bind written
  obtain ⟨text', array, same⟩ := Outcome.of_bind first
  cases same
  cases second
  have unquoted : Text.Unquoted { elem := (encoder.enc api).encoder api.toCApi, needsQuotation := false } :=
    ⟨rfl, Int.negSucc_lt_zero 0, rfl⟩
  have passes : passedThrough api name = encoder.passes api := by
    funext value
    rw [passedThrough, registered]
    rfl
  rw [Text.unquoted_decodes_iff unquoted rfl rfl array, passes]
  obtain ⟨vs, echoed, -⟩ := unquoted.writeArray array
  have whole : Text.echo ((encoder.enc api).encoder api.toCApi) (.ary entries) = .ok (.ary vs) := by
    unfold Text.echo
    rw [echoed]
    rfl
  rw [whole, ← encoder.formats.clear_iff whole]
  constructor
  · exact fun clear => clear _ rfl
  · rintro clear v ⟨⟩
    exact clear

/-- A Ruby without other objects. -/
def RubyApi.sample : RubyApi where
  toCApi := CApi.sample
  gregorianText _ := none
  strftime _ _ := none
  toStr _ := rbRaise .typeError "no implicit conversion into String"

/-- The array coder of `bool`. -/
def sampleBooleans : CompositeCoder :=
  { elem := (TextEncoder.boolean.enc .sample).encoder RubyApi.sample.toCApi, needsQuotation := false }

/-- `[true, [false, nil], "yes"]` is read back from `{t,{f,NULL},yes}`. -/
theorem unquoted_array_booleans :
    Text.pgTextDecArray { elem := pgTextDecString }
        [0x7b, 0x74, 0x2c, 0x7b, 0x66, 0x2c, 0x4e, 0x55, 0x4c, 0x4c, 0x7d, 0x2c, 0x79, 0x65, 0x73, 0x7d] =
      Text.echo sampleBooleans.elem (.ary [.true, .ary [.false, .nil], .str [0x79, 0x65, 0x73]]) ↔
        Safe (passedThrough .sample "bool") (.ary [.true, .ary [.false, .nil], .str [0x79, 0x65, 0x73]]) := by
  refine @unquoted_array_iff .sample .default "bool" (by decide) sampleBooleans rfl _ _ ?_
  simp [Encoder.encode, Text.pgTextEncArray, Text.writeArray, Text.writeEntries, Text.writeEntry, sampleBooleans]
  rfl

/-- With `["t,f"]` of the type `bool` the array `{t,f}` has two elements. -/
theorem unquoted_array_split :
    arrayCoder .sample "bool" = some sampleBooleans ∧
      (Text.pgTextEncArray Runtime.sample sampleBooleans).encode (.ary [.str [0x74, 0x2c, 0x66]]) =
        .ok [0x7b, 0x74, 0x2c, 0x66, 0x7d] ∧
      Text.echo sampleBooleans.elem (.ary [.str [0x74, 0x2c, 0x66]]) = .ok (.ary [.str [0x74, 0x2c, 0x66]]) ∧
      Text.pgTextDecArray { elem := pgTextDecString } [0x7b, 0x74, 0x2c, 0x66, 0x7d] =
        .ok (.ary [.str [0x74], .str [0x66]]) := by
  have isLeaf : Leaf (.str [0x74, 0x2c, 0x66]) := ⟨Value.noConfusion, fun _ => Value.noConfusion⟩
  refine ⟨rfl, ?_, ?_, rfl⟩
  · simp [Encoder.encode, Text.pgTextEncArray, Text.writeArray, Text.writeEntries, Text.writeEntry, sampleBooleans]
    rfl
  · unfold Text.echo Text.echoes
    rw [echo_leaf isLeaf]
    rfl

end RubyPg.BasicTypeRegistry
