import RubyPg.TypeMap
import RubyPg.Lib.Field

/-!
# `PG::BinaryEncoder::CopyRow` and `PG::BinaryDecoder::CopyRow`

`pg_bin_enc_copy_row` and `pg_bin_dec_copy_row` of `ext/pg_copy_coder.c`. The file header, if there
is one, stands in front of the first row and is recognised by its signature. The functions of the
type maps are those for the binary format.
-/

namespace RubyPg.Binary
set_option autoImplicit false
open Reader

/-- `BinarySignature`. -/
def binarySignature : Bytes := [0x50, 0x47, 0x43, 0x4f, 0x50, 0x59, 0x0a, 0xff, 0x0d, 0x0a, 0x00]

/-- `RSTRING_LENINT`. -/
def rstringLenint (s : Bytes) : Outcome Int :=
  let len := s.length
  if len ≥ 2 ^ 31 then rbRaise .rangeError s!"integer {len} too big to convert to 'int'" else pure len

/-- One column of `pg_bin_enc_copy_row`. The size of the first call is written in front of what the
second call writes. -/
def binCopyColumn (typemap : EncoderMap) (entry : Value) (i : Nat) : Outcome Bytes :=
  match entry with
  | .nil => pure (writeNbo 4 (-1))
  | entry => do
    match ← typemap.typecastQueryParam entry i entry with
    | .string subint => do
      let strlen ← rstringLenint subint
      pure (writeNbo 4 strlen ++ subint)
    | .size strlen second => do
      let written ← second
      pure (writeNbo 4 strlen ++ written)

/-- The loop over the columns, from column `i` on. -/
def binCopyColumns (typemap : EncoderMap) : List Value → Nat → Outcome Bytes
  | [], _ => pure []
  | entry :: rest, i => do
    let written ← binCopyColumn typemap entry i
    let following ← binCopyColumns typemap rest (i + 1)
    pure (written ++ following)

/-- `pg_bin_enc_copy_row` on an Array. -/
def pgBinEncCopyRow (typemap : EncoderMap) (value : List Value) : Outcome Bytes :=
  let columns := value.length
  if columns ≥ 32768 then
    rbRaise .argumentError s!"too many columns in array for PG::BinaryEncoder::CopyRow: {columns}"
  else do
    typemap.fitToQuery (.ary value)
    let written ← binCopyColumns typemap value 0
    pure (writeNbo 2 columns ++ written)

/-- The error at `length_error`. -/
def lengthError (pos : Nat) : Stop :=
  let position := pos + 1
  .exn .argumentError s!"premature end of COPY data at position: {position}"

/-- The error about what stands behind a row. -/
def trailingData (pos : Nat) : Stop :=
  let position := pos + 1
  .exn .argumentError s!"trailing data after row data at position: {position}"

/-- The flags and the extension of the file header. -/
def dropExtension : Reader Stop Unit := do
  let _ ← take lengthError 4
  let extBytes ← takeIf lengthError 4 fun c => decide (0 ≤ readNbo c)
  let _ ← take lengthError (readNbo extBytes).toNat
  pure ()

/-- The file header is dropped. -/
def dropHeader : Reader Stop Unit := do
  let s ← Method.read
  if 11 ≤ s.rest.length ∧ s.rest.take 11 = binarySignature then do
    advance 11
    dropExtension
  else pure ()

/-- One field of `pg_bin_dec_copy_row`. -/
def binCopyField (typemap : DecoderMap) (fieldno : Nat) : Reader Stop Value :=
  field lengthError .nil fun fieldStr => typemap.typecastCopyGet fieldStr fieldno

/-- The loop over `n` fields, from field `fieldno` on. -/
def binCopyFields (typemap : DecoderMap) : Nat → Nat → Reader Stop (List Value)
  | 0, _ => pure []
  | n + 1, fieldno => do
    let fieldValue ← binCopyField typemap fieldno
    let array ← binCopyFields typemap n (fieldno + 1)
    pure (fieldValue :: array)

/-- A row, or the trailer. -/
def binCopyRow (typemap : DecoderMap) : Reader Stop Value := do
  let nfields ← take lengthError 2
  if readNbo nfields < 0 then
    if readNbo nfields ≠ -1 then fail lengthError else pure .nil
  else do
    let array ← binCopyFields typemap (readNbo nfields).toNat 0
    pure (.ary array)

/-- `pg_bin_dec_copy_row`. -/
def pgBinDecCopyRow (typemap : DecoderMap) : Decoder := fun inputLine =>
  ((do
    let array ← (do
      dropHeader
      binCopyRow typemap)
    atEnd trailingData
    pure array : Reader Stop Value) ⟨0, inputLine⟩).1

end RubyPg.Binary
