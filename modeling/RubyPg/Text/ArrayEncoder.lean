import RubyPg.Coder
import RubyPg.Lib.Scan

/-!
# `PG::TextEncoder::Array`

`quote_array_buffer`, `quote_string`, `write_array` and `pg_text_enc_array` of
`ext/pg_text_encoder.c`. The output is the byte string written so far; growing the
Ruby string under it (`pg_rb_str_ensure_capa`) does not show at this level.
-/

namespace RubyPg.Text
set_option autoImplicit false
open Ascii

/-- The case folding of `rbpg_strncasecmp`: ASCII capitals go to lower case. -/
def foldCase (c : UInt8) : UInt8 := if upperA ≤ c ∧ c ≤ upperZ then c + 0x20 else c

/-- `rbpg_strncasecmp(s1, s2, n) == 0` on two strings of `n` bytes. -/
def strncasecmpEq : Bytes → Bytes → Bool
  | c1 :: s1, c2 :: s2 =>
    if c1 ≠ c2 ∧ foldCase c1 ≠ foldCase c2 then false
    else if c1 = nul then true
    else strncasecmpEq s1 s2
  | _, _ => true

/-- The characters `quote_array_buffer` prefixes with a backslash. -/
def needsBackslash (ch : UInt8) : Bool := ch == dquote || ch == backslash

/-- The other characters that force quotes. -/
def needsQuotes (delimiter ch : UInt8) : Bool :=
  ch == lbrace || ch == rbrace || ch == delimiter || ch == space || ch == tab ||
    ch == newline || ch == cr || ch == vtab || ch == formfeed

/-- Whether `quote_array_buffer` puts quotes around the string. -/
def needquote (delimiter : UInt8) (input : Bytes) : Bool :=
  input.length == 0 || (input.length == 4 && strncasecmpEq input null) ||
    input.any fun ch => needsBackslash ch || needsQuotes delimiter ch

/-- `quote_array_buffer`, from `p_in` to `p_out`: the end quote, the characters from right to
left with their backslashes, the start quote. -/
def quoteArrayBuffer (delimiter : UInt8) (input : Bytes) : Bytes :=
  if needquote delimiter input then
    dquote :: escapeBack needsBackslash (fun _ => backslash) input.reverse [dquote]
  else input

/-- `quote_string`: both passes of the element encoder, then the quoting function. -/
def quoteString (this : Encoder) (value : Value) (withQuote : Bool) (quoteBuffer : Bytes → Bytes) :
    Outcome Bytes := do
  let written ← this.encode value
  pure (if withQuote then quoteBuffer written else written)

/-- The error of `write_array` on a value nested less deep than `dimensions`. -/
def lessDimensions {α : Type} (dimension dimensions : Int) : Outcome α :=
  rbRaise .argumentError
    s!"less array dimensions to encode ({dimension}) than expected ({dimensions})"

/-- The `default:` branch of `write_array`: a normal value at the last dimension. -/
def writeElement (this : CompositeCoder) (entry : Value) (dimension : Int) : Outcome Bytes :=
  if decide (0 ≤ this.dimensions) && dimension != this.dimensions then
    lessDimensions dimension this.dimensions
  else quoteString this.elem entry this.needsQuotation (quoteArrayBuffer this.delimiter)

mutual

/-- `write_array`: the braces around the entries. -/
def writeArray (this : CompositeCoder) (value : List Value) (dimension : Int) : Outcome Bytes :=
  if value.isEmpty && decide (0 ≤ this.dimensions) && dimension != this.dimensions then
    lessDimensions dimension this.dimensions
  else do
    let body ← writeEntries this value dimension
    pure (lbrace :: body ++ [rbrace])

/-- The loop of `write_array`, with the delimiter in front of every entry but the first. -/
def writeEntries (this : CompositeCoder) (value : List Value) (dimension : Int) : Outcome Bytes :=
  match value with
  | [] => pure []
  | [entry] => writeEntry this entry dimension
  | entry :: rest => do
    let written ← writeEntry this entry dimension
    let following ← writeEntries this rest dimension
    pure (written ++ this.delimiter :: following)

/-- One entry: `NULL`, a sub-array, or an element. -/
def writeEntry (this : CompositeCoder) (entry : Value) (dimension : Int) : Outcome Bytes :=
  match entry with
  | .nil =>
    if decide (0 ≤ this.dimensions) && dimension != this.dimensions then
      lessDimensions dimension this.dimensions
    else pure null
  | .ary sub =>
    if decide (this.dimensions < 0) || decide (dimension < this.dimensions) then
      writeArray this sub (dimension + 1)
    else writeElement this (.ary sub) dimension
  | other => writeElement this other dimension

end

/-- `pg_text_enc_array`: arrays are written, other values pass through as text. -/
def pgTextEncArray (rt : Runtime) (this : CompositeCoder) : Encoder
  | .ary xs => do pure (.string (← writeArray this xs 1))
  | other => pgCoderEncToS rt other

end RubyPg.Text
