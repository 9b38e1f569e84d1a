import RubyPg.Text.CopyRow
import RubyPg.Text.FieldStrings

/-!
# The COPY row decoder on its field buffer

`Buffered.pgTextDecCopyRow` is `pg_text_dec_copy_row` once more, with the fields de-escaped
into the one Ruby String that the source reuses: a NULL field leaves its bytes in there and
only moves the pointer back. It answers as the decoder on values.
-/

namespace RubyPg.Text
set_option autoImplicit false
open Ascii

namespace Buffered

/-- Where the scan of a field stopped, with the field in the buffer. -/
structure ScannedBuffer where
  foundDelim : Bool
  endPtr : Nat
  cur : Nat
  field : FieldBuffer UInt8

/-- The inner loop of `pg_text_dec_copy_row`. -/
def scanField (delimc : UInt8) (s : Bytes) : Nat → Nat → FieldBuffer UInt8 → Outcome ScannedBuffer
  | 0, _, _ => .error .fuel
  | fuel + 1, cur, field =>
    if s.length ≤ cur then pure ⟨false, cur, cur, field⟩
    else
      let c := s.getD cur nul
      if c = delimc then pure ⟨true, cur, cur + 1, field⟩
      else if c = newline then pure ⟨false, cur, cur + 1, field⟩
      else if c = backslash then
        if s.length ≤ cur + 1 then pure ⟨false, cur, cur + 1, field⟩
        else
          let escaped := copyUnescape s (s.getD (cur + 1) nul) (cur + 2)
          scanField delimc s fuel escaped.2 (field.put escaped.1)
      else scanField delimc s fuel (cur + 1) (field.put c)

/-- The end of a field: `nil` if the raw input matched the null marker, else what the type map returns. -/
def pushField (this : CopyCoder) (typemap : ObjectMap) (raw : Bytes) (fieldno : Nat) (field : FieldBuffer UInt8)
    (array : List (Slot Value)) : Outcome FieldRow :=
  if raw.length = this.nullString.length ∧ strncmpEq raw this.nullString then pure (field.rewind, array ++ [.value .nil])
  else giveField typemap fieldno field array

/-- The outer loop of `pg_text_dec_copy_row`. -/
def copyFields (this : CopyCoder) (typemap : ObjectMap) (s : Bytes) : Nat → Nat → Nat → FieldRow → Outcome FieldRow
  | 0, _, _, _ => .error .fuel
  | fuel + 1, start, fieldno, row => do
    let scanned ← scanField this.delimiter s (s.length + 1) start row.1
    if scanned.foundDelim = false ∧ scanned.cur < s.length then
      let position := scanned.cur + 1
      rbRaise .argumentError s!"trailing data after linefeed at position: {position}"
    else do
      let raw := (s.drop start).take (scanned.endPtr - start)
      let row ← pushField this typemap raw fieldno scanned.field row.2
      if scanned.foundDelim then copyFields this typemap s fuel scanned.cur (fieldno + 1) row
      else pure row

/-- `pg_text_dec_copy_row`. -/
def pgTextDecCopyRow (this : CopyCoder) (typemap : ObjectMap) : Decoder := fun s => do
  let row ← copyFields this typemap s (s.length + 1) 0 0 (.new, [])
  pure (.ary (row.2.map (row.1.deref .str)))

section Agreement

variable {this : CopyCoder} {typemap : ObjectMap} {s : Bytes} {array : List (Slot Value)} {values : List Value}

/-- A field is scanned to the buffer as it is read. -/
structure Unescaped (array : List (Slot Value)) (values : List Value) (x : ScannedBuffer) (y : ScannedField) : Prop where
  foundDelim : x.foundDelim = y.foundDelim
  endPtr : x.endPtr = y.endPtr
  cur : x.cur = y.cur
  keeps : FieldBuffer.Keeps .str x.field array values y.field

theorem scanField_related {delimc : UInt8} {fuel cur : Nat} {b : FieldBuffer UInt8} {field : Bytes}
    (keeps : FieldBuffer.Keeps .str b array values field) :
    Related (Unescaped array values) (scanField delimc s fuel cur b) (Text.scanField delimc s fuel cur field) := by
  induction fuel generalizing cur b field with
  | zero => exact .error _
  | succ fuel ih =>
    unfold scanField Text.scanField
    dsimp only
    split
    · exact .pure ⟨rfl, rfl, rfl, keeps⟩
    split
    · exact .pure ⟨rfl, rfl, rfl, keeps⟩
    split
    · exact .pure ⟨rfl, rfl, rfl, keeps⟩
    split
    · split
      · exact .pure ⟨rfl, rfl, rfl, keeps⟩
      · exact ih (keeps.put _)
    · exact ih (keeps.put _)

theorem pushField_related {raw field : Bytes} {fieldno : Nat} {b : FieldBuffer UInt8}
    (keeps : FieldBuffer.Keeps .str b array values field) :
    Related (fun row value => Ready row (values ++ [value])) (pushField this typemap raw fieldno b array)
      (copyFieldValue this typemap.values raw field fieldno) := by
  unfold pushField copyFieldValue
  split
  · exact .pure (keeps.rewind.pushValue .nil)
  · exact giveField_related keeps

theorem copyFields_related {fuel start fieldno : Nat} {row : FieldRow} (ready : Ready row values) :
    Related Ready (copyFields this typemap s fuel start fieldno row)
      (Text.copyFields this typemap.values s fuel start fieldno values) := by
  induction fuel generalizing start fieldno row values with
  | zero => exact .error _
  | succ fuel ih =>
    unfold copyFields Text.copyFields
    apply (scanField_related ready).bind
    rintro ⟨found, endPtr, cur, b⟩ ⟨found', endPtr', cur', field⟩ ⟨rfl, rfl, rfl, keeps⟩
    dsimp only
    split
    · exact .error _
    apply (pushField_related keeps).bind
    intro row value ready
    split
    · exact ih ready
    · exact .pure ready

/-- **The field buffer does not show** in a COPY row either: what a NULL field or the field before left in it is in
no other field. -/
theorem pgTextDecCopyRow_eq (this : CopyCoder) (typemap : ObjectMap) (s : Bytes) :
    pgTextDecCopyRow this typemap s = Text.pgTextDecCopyRow this typemap.values s := by
  have fresh : Ready (.new, []) [] := FieldBuffer.Keeps.new
  apply Related.eq
  unfold pgTextDecCopyRow Text.pgTextDecCopyRow
  apply (copyFields_related fresh).bind
  intro row values ready
  exact .pure (congrArg Value.ary ready.reads)

end Agreement

end Buffered

end RubyPg.Text
