import RubyPg.Lib.FieldBuffer
import RubyPg.Lib.Related
import RubyPg.TypeMap

/-!
# The String that the row decoders reuse

`pg_text_dec_record` and `pg_text_dec_copy_row` write every field to one Ruby String and hand
that to the type map. What comes back may be the String itself: then it belongs to the array,
and the next field gets a new one (`giveField`).
-/

namespace RubyPg.Text
set_option autoImplicit false

/-- What a type map returns for a String object: the object itself, or another value. -/
inductive Cast where
  | itself
  | value (v : Value)

def Cast.toValue (field : Bytes) : Cast → Value
  | .itself => .str field
  | .value v => v

/-- `typecast_copy_get` on String objects. -/
structure ObjectMap where
  typecastCopyGet : Bytes → Nat → Outcome Cast

/-- `pg_tmas_typecast_copy_get` returns the String it got. -/
def ObjectMap.allStrings : ObjectMap where
  typecastCopyGet _ _ := pure .itself

/-- The same map on what the Strings hold. -/
def ObjectMap.values (typemap : ObjectMap) : DecoderMap where
  typecastCopyGet field fieldno := do pure ((← typemap.typecastCopyGet field fieldno).toValue field)

theorem ObjectMap.values_allStrings : ObjectMap.allStrings.values = .allStrings := rfl

/-- The String that is written to and the array so far. -/
abbrev FieldRow := FieldBuffer UInt8 × List (Slot Value)

/-- The end of a field that is not NULL: set the length, cast, push, and take a new String if this one was
pushed itself. -/
def giveField (typemap : ObjectMap) (fieldno : Nat) (b : FieldBuffer UInt8) (array : List (Slot Value)) :
    Outcome FieldRow := do
  let b := b.setLen
  match ← typemap.typecastCopyGet b.current.value fieldno with
  | .itself => pure (b.renew.rewind, array ++ [.object b.fieldStr])
  | .value v => pure (b.rewind, array ++ [.value v])

/-- The array on the Strings is the array of the values, and the buffer is ready for the next field. -/
def Ready (row : FieldRow) (values : List Value) : Prop :=
  FieldBuffer.Keeps .str row.1 row.2 values []

theorem giveField_related {typemap : ObjectMap} {fieldno : Nat} {b : FieldBuffer UInt8} {array : List (Slot Value)}
    {values : List Value} {field : Bytes} (keeps : FieldBuffer.Keeps .str b array values field) :
    Related (fun row value => Ready row (values ++ [value])) (giveField typemap fieldno b array)
      (typemap.values.typecastCopyGet field fieldno) := by
  obtain ⟨kept, value⟩ := keeps.setLen
  unfold giveField ObjectMap.values
  dsimp only
  rw [value]
  refine .bind_same fun cast _ => ?_
  cases cast with
  | itself => exact .pure (kept.pushObject value).rewind
  | value v => exact .pure (kept.pushValue v).rewind

end RubyPg.Text
