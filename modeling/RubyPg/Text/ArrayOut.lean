import RubyPg.Text.ArrayDimensions

/-!
# Array values as PostgreSQL writes them

`array_out` puts the delimiter of the element type between the elements, and quotes an element if it is empty, spells
NULL, or has the delimiter, a brace, a quote, a backslash or whitespace in it. A decoder with the same delimiter splits
such a text into the same elements (`pgTextDecArray_arrayOut`).
-/

namespace RubyPg.Text
set_option autoImplicit false
open Ascii

/-- A value of an array type: NULLs, the texts of elements, and the arrays of a further dimension. -/
inductive Item where
  | null
  | text (s : Bytes) (nonul : nul ∉ s)
  | array (items : List Item)

/-- A character that makes `array_out` quote an element. -/
def forcesQuotes (delimiter c : UInt8) : Bool :=
  c == delimiter || c == lbrace || c == rbrace || c == dquote || c == backslash || arrayIsspace c

/-- An element that `array_out` quotes. -/
def outQuotes (delimiter : UInt8) (s : Bytes) : Bool :=
  s.isEmpty || s.map foldCase == null.map foldCase || s.any (forcesQuotes delimiter)

/-- An element. -/
def outText (delimiter : UInt8) (s : Bytes) : Bytes :=
  if outQuotes delimiter s then dquote :: (s.flatMap arrayEsc ++ [dquote]) else s

mutual

/-- `array_out`, for one entry. -/
def arrayOut (delimiter : UInt8) : Item → Bytes
  | .null => null
  | .text s _ => outText delimiter s
  | .array items => lbrace :: (arrayOutItems delimiter items ++ [rbrace])

/-- The entries with the delimiter between them. -/
def arrayOutItems (delimiter : UInt8) : List Item → Bytes
  | [] => []
  | [item] => arrayOut delimiter item
  | item :: next :: items => arrayOut delimiter item ++ delimiter :: arrayOutItems delimiter (next :: items)

end

/-- The value with the same elements, as the decoder of the elements reads them. -/
inductive SameElements (elem : Decoder) : Item → Value → Prop where
  | null : SameElements elem .null .nil
  | text {s : Bytes} {nonul : nul ∉ s} {v : Value} (decoded : elem s = .ok v) : SameElements elem (.text s nonul) v
  | array {entries : List (Item × Value)} (each : ∀ e ∈ entries, SameElements elem e.1 e.2) :
      SameElements elem (.array (entries.map Prod.fst)) (.ary (entries.map Prod.snd))

section Reads

variable {dec : CompositeDecoder}

/-- What goes unquoted is read as it stands. -/
theorem plain_of_outQuotes {d : UInt8} {s : Bytes} (unquoted : outQuotes d s = false) (nonul : nul ∉ s) :
    s ≠ [] ∧ s ≠ null ∧ ∀ c ∈ s, PlainChar d c := by
  simp only [outQuotes, Bool.or_eq_false_iff, List.any_eq_false, forcesQuotes, Bool.or_eq_true, beq_iff_eq, not_or] at unquoted
  obtain ⟨⟨nonempty, notNull⟩, chars⟩ := unquoted
  refine ⟨?_, ?_, ?_⟩
  · rintro rfl
    cases nonempty
  · rintro rfl
    revert notNull
    decide
  · intro c member
    obtain ⟨⟨⟨⟨⟨delimiter, left⟩, right⟩, quote⟩, -⟩, -⟩ := chars c member
    exact ⟨delimiter, quote, left, right, fun same => nonul (same ▸ member)⟩

theorem reads_outText (plain : PlainDelimiter dec.delimiter) {s : Bytes} {v : Value} (nonul : nul ∉ s)
    (decoded : dec.elem s = .ok v) : Reads dec (outText dec.delimiter s) v := by
  unfold outText
  cases quoted : outQuotes dec.delimiter s with
  | true => exact reads_quoted plain.dquote (quoted_arrayEsc s) decoded
  | false =>
    obtain ⟨-, notNull, chars⟩ := plain_of_outQuotes quoted nonul
    exact reads_run chars notNull decoded

/-- No entry looks like the end of an array. -/
theorem opens_arrayOut (d : UInt8) (item : Item) : Opens (arrayOut d item) := by
  cases item with
  | null => exact ⟨_, _, rfl, by decide⟩
  | array items => exact ⟨_, _, rfl, by decide⟩
  | text s nonul =>
    unfold arrayOut outText
    cases quoted : outQuotes d s with
    | true => exact ⟨_, _, rfl, by decide⟩
    | false =>
      obtain ⟨nonempty, -, chars⟩ := plain_of_outQuotes quoted nonul
      obtain ⟨c, rest, rfl⟩ := List.exists_cons_of_ne_nil nonempty
      exact ⟨c, rest, rfl, (chars c List.mem_cons_self).rbrace⟩

/-- The entries of an array, given each one. -/
theorem readsEntries_arrayOutItems (plain : PlainDelimiter dec.delimiter) {entries : List (Item × Value)}
    (each : ∀ e ∈ entries, Reads dec (arrayOut dec.delimiter e.1) e.2) :
    (arrayOutItems dec.delimiter (entries.map Prod.fst) = [] ∧ entries.map Prod.snd = []) ∨
      (Opens (arrayOutItems dec.delimiter (entries.map Prod.fst)) ∧
        ReadsEntries dec (arrayOutItems dec.delimiter (entries.map Prod.fst)) (entries.map Prod.snd)) := by
  induction entries with
  | nil => exact .inl ⟨rfl, rfl⟩
  | cons e entries ih =>
    have first := each e List.mem_cons_self
    have later := ih fun e' member => each e' (List.mem_cons_of_mem _ member)
    cases entries with
    | nil => exact .inr ⟨opens_arrayOut _ _, .single first⟩
    | cons e' entries =>
      obtain ⟨-, following⟩ := later.resolve_left fun empty => by cases empty.2
      obtain ⟨c, rest, text, other⟩ := opens_arrayOut dec.delimiter e.1
      refine .inr ⟨⟨c, rest ++ dec.delimiter :: _, congrArg (· ++ dec.delimiter :: _) text, other⟩, ?_⟩
      exact .cons plain.rbrace first following

/-- Every entry is read as the value with the same elements. -/
theorem SameElements.reads (plain : PlainDelimiter dec.delimiter) {item : Item} {v : Value} (splits : SameElements dec.elem item v) :
    Reads dec (arrayOut dec.delimiter item) v := by
  induction splits with
  | null => exact reads_null plain
  | @text s nonul v decoded => exact reads_outText plain nonul decoded
  | @array entries each ih => exact reads_subarray plain.lbrace (readsEntries_arrayOutItems plain ih)

/-- The decoder gives back the elements of an array, with any bounds of the dimensions in front. -/
theorem pgTextDecArray_arrayOut (plain : PlainDelimiter dec.delimiter) {items : List Item} {v : Value} {front : Bytes}
    (splits : SameElements dec.elem (.array items) v) (bounds : front = [] ∨ Decoration front) :
    pgTextDecArray dec (front ++ arrayOut dec.delimiter (.array items)) = .ok v := by
  have bare : pgTextDecArray dec (arrayOut dec.delimiter (.array items)) = .ok v := by
    cases splits with
    | @array entries each =>
      have reads := readsEntries_arrayOutItems plain fun e member => (each e member).reads plain
      exact pgTextDecArray_braces reads
  rcases bounds with rfl | decoration
  · exact bare
  · exact (pgTextDecArray_decorated dec decoration _).trans bare

end Reads

end RubyPg.Text
