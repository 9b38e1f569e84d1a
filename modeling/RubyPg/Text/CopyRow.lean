import RubyPg.TypeMap
import RubyPg.Lib.Scan

/-!
# `PG::TextEncoder::CopyRow` and `PG::TextDecoder::CopyRow`

`pg_text_enc_copy_row` and `pg_text_dec_copy_row` of `ext/pg_copy_coder.c`. The encoder
escapes a finished String left to right and the output of a second pass right to left.
The decoder scans a field up to its end while de-escaping it, compares the raw field
with the null marker, and only then casts the de-escaped one.
-/

namespace RubyPg.Text
set_option autoImplicit false
open Ascii

/-- `t_pg_copycoder`, without the type map. -/
structure CopyCoder where
  delimiter : UInt8 := tab
  nullString : Bytes := [backslash, upperN]

/-- The bytes that get a backslash in front. -/
def copySpecial (delimiter ch : UInt8) : Bool :=
  ch == backslash || ch == newline || ch == cr || ch == delimiter

/-- The one-pass branch: copy the String with backslash escaping, left to right. -/
def copyEscape (delimiter : UInt8) : Bytes → Bytes
  | [] => []
  | ch :: rest =>
    if copySpecial delimiter ch then backslash :: ch :: copyEscape delimiter rest
    else ch :: copyEscape delimiter rest

/-- The two-pass branch: the text stands at the output position and is moved to the right,
right to left, until all backslashes are placed. -/
def copyShift (delimiter : UInt8) (written : Bytes) : Bytes :=
  escapeShift (copySpecial delimiter) (fun _ => backslash) written.reverse (written.countP (copySpecial delimiter)) []

/-- One column of `pg_text_enc_copy_row`. -/
def copyColumn (this : CopyCoder) (typemap : EncoderMap) (entry : Value) (i : Nat) : Outcome Bytes :=
  match entry with
  | .nil => pure this.nullString
  | entry => do
    match ← typemap.typecastQueryParam entry i entry with
    | .string subint => pure (copyEscape this.delimiter subint)
    | .size _ second => do pure (copyShift this.delimiter (← second))

/-- The loop over the columns, from column `i` on. -/
def copyColumns (this : CopyCoder) (typemap : EncoderMap) : List Value → Nat → Outcome Bytes
  | [], _ => pure []
  | entry :: rest, i => do
    let written ← copyColumn this typemap entry i
    let following ← copyColumns this typemap rest (i + 1)
    pure ((if i > 0 then [this.delimiter] else []) ++ written ++ following)

/-- `pg_text_enc_copy_row` on an Array. -/
def pgTextEncCopyRow (this : CopyCoder) (typemap : EncoderMap) (value : List Value) : Outcome Bytes := do
  typemap.fitToQuery (.ary value)
  let columns ← copyColumns this typemap value 0
  pure (columns ++ [newline])

/-- `ISOCTAL`. -/
def isOctal (c : UInt8) : Bool := decide (0x30 ≤ c) && decide (c ≤ 0x37)

/-- `GetDecimalFromHex`, `none` for -1. -/
def getDecimalFromHex (hex : UInt8) : Option Nat :=
  if 0x30 ≤ hex ∧ hex ≤ 0x39 then some (hex.toNat - 0x30)
  else if 0x61 ≤ hex ∧ hex ≤ 0x66 then some (hex.toNat - 0x61 + 10)
  else if 0x41 ≤ hex ∧ hex ≤ 0x46 then some (hex.toNat - 0x41 + 10)
  else none

/-- One more octal digit at `cur`, if there is one. -/
def moreOctal (s : Bytes) (val cur : Nat) : Option (Nat × Nat) :=
  if cur < s.length ∧ isOctal (s.getD cur nul) then some (val * 8 + ((s.getD cur nul).toNat - 0x30), cur + 1)
  else none

/-- `\\013`: up to three octal digits, of which `c` is the first. -/
def octalEscape (s : Bytes) (c : UInt8) (cur : Nat) : UInt8 × Nat :=
  let val := c.toNat - 0x30
  match moreOctal s val cur with
  | none => (val.toUInt8, cur)
  | some (val, cur) =>
    match moreOctal s val cur with
    | none => (val.toUInt8, cur)
    | some (val, cur) => ((val % 256).toUInt8, cur)

/-- `\\x3F`: up to two hex digits behind `x`; without any the `x` is literal. -/
def hexEscape (s : Bytes) (cur : Nat) : UInt8 × Nat :=
  if cur < s.length then
    match getDecimalFromHex (s.getD cur nul) with
    | none => (0x78, cur)
    | some val =>
      if cur + 1 < s.length then
        match getDecimalFromHex (s.getD (cur + 1) nul) with
        | none => (val.toUInt8, cur + 1)
        | some val2 => ((val * 16 + val2).toUInt8, cur + 2)
      else (val.toUInt8, cur + 1)
  else (0x78, cur)

/-- The `switch` on the character behind a backslash: the byte it stands for, and the
position behind the escape. -/
def copyUnescape (s : Bytes) (c : UInt8) (cur : Nat) : UInt8 × Nat :=
  if isOctal c then octalEscape s c cur
  else if c = 0x78 then hexEscape s cur
  else if c = 0x62 then (0x08, cur)
  else if c = 0x66 then (formfeed, cur)
  else if c = 0x6e then (newline, cur)
  else if c = 0x72 then (cr, cur)
  else if c = 0x74 then (tab, cur)
  else if c = 0x76 then (vtab, cur)
  else (c, cur)

/-- Where the scan of a field stopped: whether a delimiter ended it, the end of the raw
field, the position behind it, and the de-escaped field. -/
structure ScannedField where
  foundDelim : Bool
  endPtr : Nat
  cur : Nat
  field : Bytes

/-- The inner loop of `pg_text_dec_copy_row`. -/
def scanField (delimc : UInt8) (s : Bytes) : Nat → Nat → Bytes → Outcome ScannedField
  | 0, _, _ => .error .fuel
  | fuel + 1, cur, field =>
    if s.length ≤ cur then pure ⟨false, cur, cur, field⟩
    else
      let c := s.getD cur nul
      if c = delimc then pure ⟨true, cur, cur + 1, field⟩
      else if c = newline then pure ⟨false, cur, cur + 1, field⟩
      else if c = backslash then
        -- a lone backslash at the very end is dropped
        if s.length ≤ cur + 1 then pure ⟨false, cur, cur + 1, field⟩
        else
          let escaped := copyUnescape s (s.getD (cur + 1) nul) (cur + 2)
          scanField delimc s fuel escaped.2 (field ++ [escaped.1])
      else scanField delimc s fuel (cur + 1) (field ++ [c])

/-- `strncmp(s1, s2, n) == 0` on two byte strings of length `n`. -/
def strncmpEq : Bytes → Bytes → Bool
  | c1 :: s1, c2 :: s2 => if c1 ≠ c2 then false else if c1 = nul then true else strncmpEq s1 s2
  | _, _ => true

/-- The value of a field: `nil` if the raw input matched the null marker, else the cast of the
de-escaped one. -/
def copyFieldValue (this : CopyCoder) (typemap : DecoderMap) (raw field : Bytes) (fieldno : Nat) : Outcome Value :=
  if raw.length = this.nullString.length ∧ strncmpEq raw this.nullString then pure .nil
  else typemap.typecastCopyGet field fieldno

/-- The outer loop of `pg_text_dec_copy_row`, from field `fieldno` on. -/
def copyFields (this : CopyCoder) (typemap : DecoderMap) (s : Bytes) :
    Nat → Nat → Nat → List Value → Outcome (List Value)
  | 0, _, _, _ => .error .fuel
  | fuel + 1, start, fieldno, array => do
    let scanned ← scanField this.delimiter s (s.length + 1) start []
    if scanned.foundDelim = false ∧ scanned.cur < s.length then
      let position := scanned.cur + 1
      rbRaise .argumentError s!"trailing data after linefeed at position: {position}"
    else do
      let raw := (s.drop start).take (scanned.endPtr - start)
      let value ← copyFieldValue this typemap raw scanned.field fieldno
      if scanned.foundDelim then copyFields this typemap s fuel scanned.cur (fieldno + 1) (array ++ [value])
      else pure (array ++ [value])

/-- `pg_text_dec_copy_row`. -/
def pgTextDecCopyRow (this : CopyCoder) (typemap : DecoderMap) : Decoder := fun s => do
  let array ← copyFields this typemap s (s.length + 1) 0 0 []
  pure (.ary array)

end RubyPg.Text
