import RubyPg.Text.ArrayRoundTrip
import RubyPg.Text.CopyRowRoundTrip
import RubyPg.Text.Integer
import RubyPg.Text.RecordRoundTrip

/-!
# Nested text coders

Trees of text coders over String, Integer, Array and Record, with an encoder and a decoder
for each tree. Every layer quotes in its own way; what a layer needs of the one inside is
only that its texts are free of NUL and decode to the value (`Transparent`). That is kept by
Array and Record, so it holds of every tree, and a COPY row of such columns reads back too.
-/

namespace RubyPg.Text
set_option autoImplicit false
open Ascii

/-- A tree of text coders. -/
inductive TextCoder where
  | string
  | integer
  | array (elem : TextCoder) (dimensions : Nat)
  | record (columns : List TextCoder)

mutual

/-- The encoder of a tree. -/
def TextCoder.encoder (rt : Runtime) : TextCoder → Encoder
  | .string => pgCoderEncToS rt
  | .integer => pgTextEncInteger rt
  | .array elem dimensions => pgTextEncArray rt { elem := elem.encoder rt, dimensions }
  | .record columns => pgTextEncRecord (.byColumn (columnEncoders rt columns) (.allStrings rt))

/-- The column encoders of a `PG::TypeMapByColumn`. -/
def columnEncoders (rt : Runtime) : List TextCoder → List (Option Encoder)
  | [] => []
  | column :: columns => some (column.encoder rt) :: columnEncoders rt columns

end

mutual

/-- The matching decoder of a tree. -/
def TextCoder.decoder (rt : Runtime) : TextCoder → Decoder
  | .string => pgTextDecString
  | .integer => pgTextDecInteger rt
  | .array elem _ => pgTextDecArray { elem := elem.decoder rt }
  | .record columns => pgTextDecRecord (.byColumn (columnDecoders rt columns) .allStrings)

/-- The column decoders of a `PG::TypeMapByColumn`. -/
def columnDecoders (rt : Runtime) : List TextCoder → List (Option Decoder)
  | [] => []
  | column :: columns => some (column.decoder rt) :: columnDecoders rt columns

end

/-- Arrays nested exactly `dimensions` deep over `leaf` values and `nil`s, at one depth; only the
innermost ones may be empty. -/
inductive DeepArray (leaf : Value → Prop) (dimensions : Nat) : Nat → Value → Prop where
  | nil : DeepArray leaf dimensions dimensions .nil
  | leaf {v : Value} (isLeaf : leaf v) : DeepArray leaf dimensions dimensions v
  | sub {depth : Nat} {xs : List Value} (deeper : depth < dimensions) (empty : xs = [] → depth + 1 = dimensions)
      (entries : ∀ x ∈ xs, DeepArray leaf dimensions (depth + 1) x) : DeepArray leaf dimensions depth (.ary xs)

mutual

/-- The values of the shape of a tree. -/
def TextCoder.Shape : TextCoder → Value → Prop
  | .string, v => ∃ s, v = .str s ∧ nul ∉ s
  | .integer, v => ∃ i, v = .int i
  | .array elem dimensions, v =>
    ∃ xs, v = .ary xs ∧ (xs = [] → 1 = dimensions) ∧ ∀ x ∈ xs, DeepArray elem.Shape dimensions 1 x
  | .record columns, v => columns ≠ [] ∧ ∃ vs, v = .ary vs ∧ RowShape columns vs

/-- Rows with one value, or `nil`, for each column. -/
def RowShape : List TextCoder → List Value → Prop
  | [], vs => vs = []
  | column :: columns, vs => ∃ v rest, vs = v :: rest ∧ (v = .nil ∨ column.Shape v) ∧ RowShape columns rest

end

/-- The encoder writes a NUL-free text for every value of the shape, and the decoder reads it back. -/
def Transparent (rt : Runtime) (coder : TextCoder) : Prop :=
  ∀ v, coder.Shape v → v ≠ .nil ∧ ∃ text, (coder.encoder rt).encode v = .ok text ∧ nul ∉ text ∧
    coder.decoder rt text = .ok v

section Layers

variable {rt : Runtime}

theorem transparent_string : Transparent rt .string := by
  rintro v ⟨s, rfl, nonul⟩
  exact ⟨by simp, s, rfl, nonul, rfl⟩

theorem transparent_integer (reads : rt.ReadsIntegers) : Transparent rt .integer := by
  rintro v ⟨i, rfl⟩
  exact ⟨by simp, integerText i, encode_int rt i, nul_notMem_integerText i, pgTextDecInteger_integerText reads i⟩

/-- Deep arrays over a transparent element coder fit the array coders. -/
theorem DeepArray.fits {elem : TextCoder} {dimensions depth : Nat} {v : Value} (transparent : Transparent rt elem)
    (deep : DeepArray elem.Shape dimensions depth v) :
    Fits { elem := elem.encoder rt, dimensions } { elem := elem.decoder rt } depth v := by
  induction deep with
  | nil => exact .nil (Or.inr rfl)
  | leaf isLeaf =>
    obtain ⟨notNil, text, encoded, nonul, decoded⟩ := transparent _ isLeaf
    exact .leaf (Or.inr rfl) notNil (fun _ _ => Int.natCast_nonneg _) encoded nonul decoded
  | sub deeper empty _ ih =>
    refine .sub (Or.inr (Int.ofNat_lt.2 deeper)) (fun h => Or.inr ?_) fun x hx => ?_
    · show _ = (dimensions : Int)
      have := empty h
      omega
    · exact_mod_cast ih x hx

theorem plainDelimiter_comma : PlainDelimiter comma := by constructor <;> decide

theorem transparent_array {elem : TextCoder} (dimensions : Nat) (transparent : Transparent rt elem) :
    Transparent rt (.array elem dimensions) := by
  rintro v ⟨xs, rfl, empty, entries⟩
  refine ⟨by simp, ?_⟩
  have matching : Matching { elem := elem.encoder rt, dimensions } { elem := elem.decoder rt } :=
    ⟨rfl, rfl, plainDelimiter_comma⟩
  have fits : FitsArray { elem := elem.encoder rt, dimensions } { elem := elem.decoder rt } xs := by
    refine ⟨fun h => Or.inr ?_, fun x hx => (entries x hx).fits transparent⟩
    show _ = (dimensions : Int)
    have := empty h
    omega
  obtain ⟨text, encoded, nonul, decoded⟩ := array_round_trip matching fits
  refine ⟨text, ?_, nonul, decoded⟩
  simp only [TextCoder.encoder, Encoder.encode, pgTextEncArray, encoded, bind, Except.bind, pure, Except.pure]

/-- What the column maps of a row hold at column `k`, for a row of the shape. -/
theorem RowShape.column {columns : List TextCoder} {row : List Value} (shape : RowShape columns row) {k : Nat}
    {w : Value} (found : row[k]? = some w) :
    ∃ c ∈ columns, (w = .nil ∨ c.Shape w) ∧ (columnEncoders rt columns)[k]? = some (some (c.encoder rt)) ∧
      (columnDecoders rt columns)[k]? = some (some (c.decoder rt)) := by
  induction columns generalizing row k with
  | nil =>
    obtain rfl : row = [] := shape
    cases found
  | cons column columns ih =>
    obtain ⟨v, rest, rfl, first, shape⟩ := shape
    cases k with
    | zero =>
      obtain rfl : v = w := by simpa using found
      exact ⟨column, List.mem_cons_self, first, by simp [columnEncoders], by simp [columnDecoders]⟩
    | succ k =>
      obtain ⟨c, member, value, encoder, decoder⟩ := ih shape (by simpa using found)
      exact ⟨c, List.mem_cons_of_mem _ member, value, by simpa [columnEncoders] using encoder,
        by simpa [columnDecoders] using decoder⟩

theorem RowShape.length {columns : List TextCoder} {row : List Value} (shape : RowShape columns row) :
    (columnEncoders rt columns).length = row.length := by
  induction columns generalizing row with
  | nil =>
    obtain rfl : row = [] := shape
    rfl
  | cons column columns ih =>
    obtain ⟨v, rest, rfl, -, shape⟩ := shape
    simp [columnEncoders, ih shape]

theorem RowShape.ne_nil {columns : List TextCoder} {row : List Value} (shape : RowShape columns row)
    (nonempty : columns ≠ []) : row ≠ [] := by
  obtain ⟨column, columns, rfl⟩ := List.exists_cons_of_ne_nil nonempty
  obtain ⟨v, rest, rfl, -⟩ := shape
  simp

/-- The type map of a row accepts the rows of the shape. -/
theorem RowShape.accepted {columns : List TextCoder} {row : List Value} (shape : RowShape columns row) :
    (EncoderMap.byColumn (columnEncoders rt columns) (.allStrings rt)).fitToQuery (.ary row) = .ok () := by
  simp only [EncoderMap.byColumn, shape.length, ne_eq, not_true_eq_false, if_false]
  rfl

/-- A column of a row, as the two type maps treat it. -/
theorem RowShape.coded {columns : List TextCoder} {row : List Value} (shape : RowShape columns row)
    (transparent : ∀ c ∈ columns, Transparent rt c) {k : Nat} {w : Value} (found : row[k]? = some w) :
    w = .nil ∨ (w ≠ .nil ∧ ∃ text,
      ((EncoderMap.byColumn (columnEncoders rt columns) (.allStrings rt)).typecastQueryParam w k).encode w = .ok text ∧
      nul ∉ text ∧
      (DecoderMap.byColumn (columnDecoders rt columns) .allStrings).typecastCopyGet text k = .ok w) := by
  obtain ⟨c, member, rfl | value, encoder, decoder⟩ := @RowShape.column rt columns row shape k w found
  · exact Or.inl rfl
  · obtain ⟨notNil, text, encoded, nonul, decoded⟩ := transparent c member w value
    refine Or.inr ⟨notNil, text, ?_, nonul, ?_⟩
    · simpa [EncoderMap.byColumn, encoder] using encoded
    · have inside : ¬(columnDecoders rt columns).length ≤ k := by
        intro outside
        rw [List.getElem?_eq_none outside] at decoder
        cases decoder
      simpa [DecoderMap.byColumn, inside, decoder] using decoded

theorem transparent_record {columns : List TextCoder} (transparent : ∀ c ∈ columns, Transparent rt c) :
    Transparent rt (.record columns) := by
  rintro v ⟨nonempty, row, rfl, shape⟩
  refine ⟨by simp, record_round_trip (shape.ne_nil nonempty) shape.accepted fun k w found => ?_⟩
  rcases shape.coded transparent found with rfl | ⟨notNil, text, encoded, nonul, decoded⟩
  · exact .nil
  · exact .value notNil encoded nonul decoded

mutual

/-- Every tree of text coders is transparent. -/
theorem TextCoder.transparent (reads : rt.ReadsIntegers) : (coder : TextCoder) → Transparent rt coder
  | .string => transparent_string
  | .integer => transparent_integer reads
  | .array elem dimensions => transparent_array dimensions (elem.transparent reads)
  | .record columns => transparent_record (columns_transparent reads columns)

theorem columns_transparent (reads : rt.ReadsIntegers) :
    (columns : List TextCoder) → ∀ c ∈ columns, Transparent rt c
  | [] => by simp
  | column :: columns => List.forall_mem_cons.2 ⟨column.transparent reads, columns_transparent reads columns⟩

end

end Layers

/-- With the default delimiter no escaped text is the default null marker. -/
theorem flatMap_copyEsc_ne_null (text : Bytes) : text.flatMap (copyEsc tab) ≠ [backslash, upperN] := by
  intro same
  cases text with
  | nil => cases same
  | cons ch rest =>
    rw [List.flatMap_cons, copyEsc, markEsc] at same
    by_cases special : copySpecial tab ch = true
    · rw [if_pos special] at same
      simp only [List.cons_append, List.nil_append, List.cons.injEq, true_and] at same
      rw [same.1] at special
      exact absurd special (by decide)
    · rw [if_neg special] at same
      simp only [List.cons_append, List.nil_append, List.cons.injEq] at same
      rw [same.1] at special
      exact special (by decide)

/-- **Nested text codecs compose.** For every tree of text coders and every value of its shape, and for
every COPY row with one tree per column, decoding the encoded bytes returns the value. -/
theorem nested_text_round_trip (rt : Runtime) (reads : rt.ReadsIntegers) :
    (∀ (coder : TextCoder) (v : Value), coder.Shape v → ((coder.encoder rt).encode v >>= coder.decoder rt) = .ok v) ∧
    ∀ (columns : List TextCoder) (row : List Value), columns ≠ [] → RowShape columns row →
      (pgTextEncCopyRow {} (.byColumn (columnEncoders rt columns) (.allStrings rt)) row >>=
        pgTextDecCopyRow {} (.byColumn (columnDecoders rt columns) .allStrings)) = .ok (.ary row) := by
  constructor
  · intro coder v shape
    obtain ⟨-, text, encoded, -, decoded⟩ := coder.transparent reads v shape
    rw [encoded]
    exact decoded
  · intro columns row nonempty shape
    have delimiter : CopyDelimiter tab :=
      .of_plain (by decide) (by decide) (by decide) (by decide)
    have marker : NullMarker tab [backslash, upperN] := ⟨by decide, by decide, by decide, Or.inl rfl⟩
    have fits : ∀ k w, row[k]? = some w → CopyFits {} (.byColumn (columnEncoders rt columns) (.allStrings rt))
        (.byColumn (columnDecoders rt columns) .allStrings) k w := by
      intro k w found
      rcases shape.coded (columns_transparent reads columns) found with rfl | ⟨notNil, text, encoded, -, decoded⟩
      · exact .nil
      · exact .value notNil encoded decoded (flatMap_copyEsc_ne_null text)
    obtain ⟨text, encoded, decoded⟩ :=
      copy_row_round_trip delimiter marker (shape.ne_nil nonempty) shape.accepted fits
    rw [encoded]
    exact decoded

/-- A record of a two-dimensional array of integers and a string, and a COPY row of such a record and a
big integer. -/
theorem nested_text_round_trip_sample :
    (((TextCoder.record [.array .integer 2, .string]).encoder .sample).encode
        (.ary [.ary [.ary [.int (-7), .nil], .ary []], .str [dquote, comma]]) >>=
      (TextCoder.record [.array .integer 2, .string]).decoder .sample) =
      .ok (.ary [.ary [.ary [.int (-7), .nil], .ary []], .str [dquote, comma]]) ∧
    (pgTextEncCopyRow {} (.byColumn (columnEncoders .sample [.record [.string], .integer]) (.allStrings .sample))
        [.ary [.nil], .int (10 ^ 20)] >>=
      pgTextDecCopyRow {} (.byColumn (columnDecoders .sample [.record [.string], .integer]) .allStrings)) =
      .ok (.ary [.ary [.nil], .int (10 ^ 20)]) := by
  obtain ⟨trees, rows⟩ := nested_text_round_trip .sample Runtime.sample_readsIntegers
  constructor
  · apply trees
    refine ⟨by simp, _, rfl, _, _, rfl, Or.inr ⟨_, rfl, by simp, ?_⟩, _, _, rfl, Or.inr ⟨_, rfl, by decide⟩, rfl⟩
    intro x hx
    simp only [List.mem_cons, List.not_mem_nil, or_false] at hx
    rcases hx with rfl | rfl
    · refine .sub (by decide) (by simp) fun y hy => ?_
      simp only [List.mem_cons, List.not_mem_nil, or_false] at hy
      rcases hy with rfl | rfl
      · exact .leaf ⟨-7, rfl⟩
      · exact .nil
    · exact .sub (by decide) (by simp) (by simp)
  · apply rows
    · simp
    · exact ⟨_, _, rfl, Or.inr ⟨by simp, _, rfl, _, _, rfl, Or.inl rfl, rfl⟩, _, _, rfl, Or.inr ⟨_, rfl⟩, rfl⟩

end RubyPg.Text
