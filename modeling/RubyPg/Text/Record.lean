import RubyPg.TypeMap
import RubyPg.Lib.Scan

/-!
# `PG::TextEncoder::Record` and `PG::TextDecoder::Record`

`pg_text_enc_record` and `pg_text_dec_record` of `ext/pg_record_coder.c`. Every column but
`nil` is put between quotes with its quotes and backslashes doubled; as in the COPY encoder
a finished String is copied left to right and the output of a second pass is moved in place.
The decoder reads a NUL-terminated string, like the record parser of the server.
-/

namespace RubyPg.Text
set_option autoImplicit false
open Ascii

/-- The bytes that are doubled. -/
def recordSpecial (ch : UInt8) : Bool := ch == dquote || ch == backslash

/-- The one-pass branch: copy the String, left to right. -/
def recordEscape : Bytes → Bytes
  | [] => []
  | ch :: rest => if recordSpecial ch then ch :: ch :: recordEscape rest else ch :: recordEscape rest

/-- The two-pass branch: move the text to the right until all doubles are placed. -/
def recordShift (written : Bytes) : Bytes :=
  escapeShift recordSpecial id written.reverse (written.countP recordSpecial) []

/-- One column of `pg_text_enc_record`; nothing is written for `nil`. -/
def recordColumn (typemap : EncoderMap) (entry : Value) (i : Nat) : Outcome Bytes :=
  match entry with
  | .nil => pure []
  | entry => do
    match ← typemap.typecastQueryParam entry i entry with
    | .string subint => pure (dquote :: recordEscape subint ++ [dquote])
    | .size _ second => do pure (dquote :: recordShift (← second) ++ [dquote])

/-- The loop over the columns, from column `i` on. -/
def recordColumns (typemap : EncoderMap) : List Value → Nat → Outcome Bytes
  | [], _ => pure []
  | entry :: rest, i => do
    let written ← recordColumn typemap entry i
    let following ← recordColumns typemap rest (i + 1)
    pure ((if i > 0 then [comma] else []) ++ written ++ following)

/-- `pg_text_enc_record`. A value that is not an Array and that the type map lets pass is read
as one by `RARRAY_LEN`. -/
def pgTextEncRecord (typemap : EncoderMap) : Encoder := fun value => do
  typemap.fitToQuery value
  match value with
  | .ary columns => do
    let body ← recordColumns typemap columns 0
    pure (.string (lparen :: body ++ [rparen]))
  | _ => .error .undefined

/-- `record_isspace`. -/
def recordIsspace (ch : UInt8) : Bool :=
  ch == space || ch == tab || ch == newline || ch == cr || ch == vtab || ch == formfeed

/-- The errors of `pg_text_dec_record`. -/
def malformedRecord {α : Type} (inputLine : Bytes) (reason : String) : Outcome α :=
  let line := showCString inputLine
  rbRaise .argumentError s!"malformed record literal: \"{line}\" - {reason}"

/-- The loop that extracts one column, up to the comma or parenthesis outside quotes: the position
of that and the de-quoted text. -/
def scanColumn (s : Bytes) : Nat → Nat → Bool → Bytes → Outcome (Nat × Bytes)
  | 0, _, _, _ => .error .fuel
  | fuel + 1, cur, inquote, field =>
    let ch := s.getD cur nul
    if inquote = false ∧ (ch = comma ∨ ch = rparen) then pure (cur, field)
    else if ch = nul then malformedRecord s "Unexpected end of input."
    else if ch = backslash then
      if s.getD (cur + 1) nul = nul then malformedRecord s "Unexpected end of input."
      else scanColumn s fuel (cur + 2) inquote (field ++ [s.getD (cur + 1) nul])
    else if ch = dquote then
      if inquote = false then scanColumn s fuel (cur + 1) true field
      else if s.getD (cur + 1) nul = dquote then
        -- doubled quote within quote sequence
        scanColumn s fuel (cur + 2) inquote (field ++ [s.getD (cur + 1) nul])
      else scanColumn s fuel (cur + 1) false field
    else scanColumn s fuel (cur + 1) inquote (field ++ [ch])

/-- One column at `cur`: completely empty input means `nil`. -/
def recordField (typemap : DecoderMap) (s : Bytes) (cur fieldno : Nat) : Outcome (Nat × Value) :=
  if s.getD cur nul = comma ∨ s.getD cur nul = rparen then pure (cur, .nil)
  else do
    let (cur, field) ← scanColumn s (s.length + 1) cur false []
    let value ← typemap.typecastCopyGet field fieldno
    pure (cur, value)

/-- The loop over the columns: the position behind the closing parenthesis and the values. -/
def recordFields (typemap : DecoderMap) (s : Bytes) :
    Nat → Nat → Nat → List Value → Outcome (Nat × List Value)
  | 0, _, _, _ => .error .fuel
  | fuel + 1, cur, fieldno, array => do
    let (cur, value) ← recordField typemap s cur fieldno
    if s.getD cur nul = comma then recordFields typemap s fuel (cur + 1) (fieldno + 1) (array ++ [value])
    else if s.getD cur nul = rparen then pure (cur + 1, array ++ [value])
    else malformedRecord s "Too few columns."

/-- `pg_text_dec_record`. -/
def pgTextDecRecord (typemap : DecoderMap) : Decoder := fun s => do
  let cur := skipWhile recordIsspace s 0
  if s.getD cur nul ≠ lparen then malformedRecord s "Missing left parenthesis."
  else do
    let (cur, array) ← recordFields typemap s (s.length + 1) (cur + 1) 0 []
    if s.getD (skipWhile recordIsspace s cur) nul ≠ nul then malformedRecord s "Junk after right parenthesis."
    else pure (.ary array)

end RubyPg.Text
