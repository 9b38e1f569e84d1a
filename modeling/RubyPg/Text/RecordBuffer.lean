import RubyPg.Text.ArrayBounds
import RubyPg.Text.FieldStrings
import RubyPg.Text.Record

/-!
# The record decoder on its field buffer

`Buffered` is `pg_text_dec_record` once more, with each read of the input checked against its
terminator and with the fields in the one Ruby String that the source reuses. It answers as the
decoder on values (`Buffered.pgTextDecRecord_eq`): nothing is read behind the terminator, and
the Strings in the array hold what they held when they were pushed.
-/

namespace RubyPg.Text
set_option autoImplicit false
open Ascii

namespace Buffered

/-- The loop that extracts one column. -/
def scanColumn (s : Bytes) : Nat → Nat → Bool → FieldBuffer UInt8 → Outcome (Nat × FieldBuffer UInt8)
  | 0, _, _, _ => .error .fuel
  | fuel + 1, cur, inquote, field => do
    let ch ← Guarded.charAt s cur
    if inquote = false ∧ (ch = comma ∨ ch = rparen) then pure (cur, field)
    else if ch = nul then malformedRecord s "Unexpected end of input."
    else if ch = backslash then do
      let next ← Guarded.charAt s (cur + 1)
      if next = nul then malformedRecord s "Unexpected end of input."
      else scanColumn s fuel (cur + 2) inquote (field.put next)
    else if ch = dquote then
      if inquote = false then scanColumn s fuel (cur + 1) true field
      else do
        let next ← Guarded.charAt s (cur + 1)
        if next = dquote then scanColumn s fuel (cur + 2) inquote (field.put next)
        else scanColumn s fuel (cur + 1) false field
    else scanColumn s fuel (cur + 1) inquote (field.put ch)

/-- One column at `cur`. -/
def recordField (typemap : ObjectMap) (s : Bytes) (cur fieldno : Nat) (row : FieldRow) : Outcome (Nat × FieldRow) := do
  let ch ← Guarded.charAt s cur
  if ch = comma ∨ ch = rparen then pure (cur, row.1, row.2 ++ [.value .nil])
  else do
    let (cur, field) ← scanColumn s (s.length + 1) cur false row.1
    let row ← giveField typemap fieldno field row.2
    pure (cur, row)

/-- The loop over the columns. -/
def recordFields (typemap : ObjectMap) (s : Bytes) : Nat → Nat → Nat → FieldRow → Outcome (Nat × FieldRow)
  | 0, _, _, _ => .error .fuel
  | fuel + 1, cur, fieldno, row => do
    let (cur, row) ← recordField typemap s cur fieldno row
    let ch ← Guarded.charAt s cur
    if ch = comma then recordFields typemap s fuel (cur + 1) (fieldno + 1) row
    else if ch = rparen then pure (cur + 1, row)
    else malformedRecord s "Too few columns."

/-- `pg_text_dec_record`. -/
def pgTextDecRecord (typemap : ObjectMap) : Decoder := fun s => do
  let cur ← Guarded.skipWhile recordIsspace s (s.length + 1) 0
  let ch ← Guarded.charAt s cur
  if ch ≠ lparen then malformedRecord s "Missing left parenthesis."
  else do
    let (cur, row) ← recordFields typemap s (s.length + 1) (cur + 1) 0 (.new, [])
    let cur ← Guarded.skipWhile recordIsspace s (s.length + 1) cur
    let ch ← Guarded.charAt s cur
    if ch ≠ nul then malformedRecord s "Junk after right parenthesis."
    else pure (.ary (row.2.map (row.1.deref .str)))

section Agreement

variable {typemap : ObjectMap} {s : Bytes} {array : List (Slot Value)} {values : List Value}

/-- A column is extracted to the buffer as it is read, up to a position in the string. -/
structure Extracted (s : Bytes) (array : List (Slot Value)) (values : List Value) (x : Nat × FieldBuffer UInt8)
    (y : Nat × Bytes) : Prop where
  cur : x.1 = y.1
  within : y.1 ≤ s.length
  keeps : FieldBuffer.Keeps .str x.2 array values y.2

theorem scanColumn_related {fuel cur : Nat} {inquote : Bool} {b : FieldBuffer UInt8} {field : Bytes}
    (within : cur ≤ s.length) (keeps : FieldBuffer.Keeps .str b array values field) :
    Related (Extracted s array values) (scanColumn s fuel cur inquote b) (Text.scanColumn s fuel cur inquote field) := by
  induction fuel generalizing cur inquote b field with
  | zero => exact .error _
  | succ fuel ih =>
    rw [scanColumn, Text.scanColumn, Guarded.charAt_of_le within, pure_bind]
    by_cases ends : inquote = false ∧ (s.getD cur nul = comma ∨ s.getD cur nul = rparen)
    · rw [if_pos ends, if_pos ends]
      exact .pure ⟨rfl, within, keeps⟩
    rw [if_neg ends, if_neg ends]
    by_cases isNul : s.getD cur nul = nul
    · rw [if_pos isNul, if_pos isNul]
      exact .error _
    have inside : cur + 1 ≤ s.length := (Rest.of_getD rfl isNul).lt
    rw [if_neg isNul, if_neg isNul, Guarded.charAt_of_le inside]
    by_cases isBackslash : s.getD cur nul = backslash
    · rw [if_pos isBackslash, if_pos isBackslash, pure_bind]
      by_cases atEnd : s.getD (cur + 1) nul = nul
      · rw [if_pos atEnd, if_pos atEnd]
        exact .error _
      · rw [if_neg atEnd, if_neg atEnd]
        exact ih (Rest.of_getD rfl atEnd).lt (keeps.put _)
    rw [if_neg isBackslash, if_neg isBackslash]
    by_cases isDquote : s.getD cur nul = dquote
    · rw [if_pos isDquote, if_pos isDquote]
      by_cases outside : inquote = false
      · rw [if_pos outside, if_pos outside]
        exact ih inside keeps
      rw [if_neg outside, if_neg outside, pure_bind]
      by_cases doubled : s.getD (cur + 1) nul = dquote
      · rw [if_pos doubled, if_pos doubled]
        exact ih (Rest.of_getD doubled (by decide)).lt (keeps.put _)
      · rw [if_neg doubled, if_neg doubled]
        exact ih inside keeps
    · rw [if_neg isDquote, if_neg isDquote]
      exact ih inside (keeps.put _)

/-- A column is pushed as the value that is read. -/
structure Pushed (s : Bytes) (values : List Value) (x : Nat × FieldRow) (y : Nat × Value) : Prop where
  cur : x.1 = y.1
  within : y.1 ≤ s.length
  ready : Ready x.2 (values ++ [y.2])

theorem recordField_related {cur fieldno : Nat} {row : FieldRow} (within : cur ≤ s.length) (ready : Ready row values) :
    Related (Pushed s values) (recordField typemap s cur fieldno row)
      (Text.recordField typemap.values s cur fieldno) := by
  unfold recordField Text.recordField
  rw [Guarded.charAt_of_le within, pure_bind]
  by_cases empty : s.getD cur nul = comma ∨ s.getD cur nul = rparen
  · rw [if_pos empty, if_pos empty]
    exact .pure ⟨rfl, within, FieldBuffer.Keeps.pushValue ready .nil⟩
  · rw [if_neg empty, if_neg empty]
    apply (scanColumn_related within ready).bind
    rintro ⟨x, b⟩ ⟨y, field⟩ ⟨rfl, inside, keeps⟩
    apply (giveField_related keeps).bind
    intro row value ready
    exact .pure ⟨rfl, inside, ready⟩

/-- The columns are pushed as the values that are read. -/
structure Filled (s : Bytes) (x : Nat × FieldRow) (y : Nat × List Value) : Prop where
  cur : x.1 = y.1
  within : y.1 ≤ s.length
  ready : Ready x.2 y.2

theorem recordFields_related {fuel cur fieldno : Nat} {row : FieldRow} (within : cur ≤ s.length) (ready : Ready row values) :
    Related (Filled s) (recordFields typemap s fuel cur fieldno row)
      (Text.recordFields typemap.values s fuel cur fieldno values) := by
  induction fuel generalizing cur fieldno row values with
  | zero => exact .error _
  | succ fuel ih =>
    rw [recordFields, Text.recordFields]
    apply (recordField_related within ready).bind
    rintro ⟨x, row⟩ ⟨y, value⟩ ⟨rfl, inside, ready⟩
    dsimp only at inside ready ⊢
    rw [Guarded.charAt_of_le inside, pure_bind]
    by_cases isComma : s.getD x nul = comma
    · rw [if_pos isComma, if_pos isComma]
      exact ih (Rest.of_getD isComma (by decide)).lt ready
    rw [if_neg isComma, if_neg isComma]
    by_cases isRparen : s.getD x nul = rparen
    · rw [if_pos isRparen, if_pos isRparen]
      exact .pure ⟨rfl, (Rest.of_getD isRparen (by decide)).lt, ready⟩
    · rw [if_neg isRparen, if_neg isRparen]
      exact .error _

/-- **The field buffer does not show**: the decoder on its reused String answers as the one on values, and it
reads nothing behind the terminator. -/
theorem pgTextDecRecord_eq (typemap : ObjectMap) (s : Bytes) :
    pgTextDecRecord typemap s = Text.pgTextDecRecord typemap.values s := by
  have start : skipWhile recordIsspace s 0 ≤ s.length := skipWhile_le (Nat.zero_le _)
  apply Related.eq
  unfold pgTextDecRecord Text.pgTextDecRecord
  dsimp only
  rw [Guarded.skipWhile_eq (by decide) (Nat.zero_le _) (by omega), pure_bind, Guarded.charAt_of_le start, pure_bind]
  by_cases opened : s.getD (skipWhile recordIsspace s 0) nul = lparen
  · rw [if_neg (not_not.2 opened), if_neg (not_not.2 opened)]
    have fresh : Ready (.new, []) [] := FieldBuffer.Keeps.new
    apply (recordFields_related (Rest.of_getD opened (by decide)).lt fresh).bind
    rintro ⟨x, row⟩ ⟨y, values⟩ ⟨rfl, inside, ready⟩
    dsimp only at inside ready ⊢
    rw [Guarded.skipWhile_eq (by decide) inside (by omega), pure_bind, Guarded.charAt_of_le (skipWhile_le inside), pure_bind]
    split
    · exact .error _
    · exact .pure (congrArg Value.ary ready.reads)
  · rw [if_pos opened, if_pos opened]
    exact .error _

end Agreement

end Buffered

end RubyPg.Text
