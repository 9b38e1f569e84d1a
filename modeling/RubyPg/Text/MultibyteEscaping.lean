import Mathlib.Data.Bool.AllAny
import RubyPg.Encodings
import RubyPg.Text.ArrayRoundTrip
import RubyPg.Text.RecordRoundTrip
import RubyPg.Text.CopyRowRoundTrip

/-!
# Escaping in multibyte encodings

The loops of `quote_array_buffer`, `pg_text_enc_record` and `pg_text_enc_copy_row` look at
bytes. Here their inputs are strings of an encoding, given by the characters, and each output
is listed as pieces: the bytes of the layout and the strings between them. The list of an
array is `CharTree.pieces`, that of a row `recordPieces` or `copyPieces`; the encoders write
these pieces with their byte-wise escaping (`writeEntry_pieces`, `record_pieces`,
`copy_pieces`).

`escaping_respects_iff` says when that is right: iff no character of several bytes has a byte
that the encoder escapes. There are such characters in the encodings of `backslashTrails`, and
for `COPY` with a letter as delimiter in those of `asciiTrails`; in all others the escaping is
always right (`array_respects`, `record_respects`, `copy_respects`).
-/

namespace RubyPg.Text
set_option autoImplicit false
open Ascii

/-- A byte of the layout. -/
def layout (b : UInt8) : Piece UInt8 := .raw [[b]]

/-- Entries with a separator between them. -/
def separated (sep : Piece UInt8) : List (List (Piece UInt8)) → List (Piece UInt8)
  | [] => []
  | first :: rest => first ++ rest.flatMap fun entry => sep :: entry

/-- An array of strings and `nil`s, nested to any depth. A string is given by its characters. -/
inductive CharTree where
  | null
  | str (chars : List Bytes)
  | ary (entries : List CharTree)

mutual

/-- The Ruby value. -/
def CharTree.value : CharTree → Value
  | .null => .nil
  | .str chars => .str chars.flatten
  | .ary entries => .ary (entryValues entries)

def entryValues : List CharTree → List Value
  | [] => []
  | entry :: rest => entry.value :: entryValues rest

end

mutual

/-- The strings in it. -/
def CharTree.strings : CharTree → List (List Bytes)
  | .null => []
  | .str chars => [chars]
  | .ary entries => entryStrings entries

def entryStrings : List CharTree → List (List Bytes)
  | [] => []
  | entry :: rest => entry.strings ++ entryStrings rest

end

mutual

/-- No array stands where the dimensions of the coder make it an element. -/
def CharTree.Nests (dimensions : Int) : CharTree → Int → Prop
  | .ary entries, dimension => (dimensions < 0 ∨ dimension < dimensions) ∧ EntriesNest dimensions entries (dimension + 1)
  | _, _ => True

def EntriesNest (dimensions : Int) : List CharTree → Int → Prop
  | [], _ => True
  | entry :: rest, dimension => entry.Nests dimensions dimension ∧ EntriesNest dimensions rest dimension

end

/-- A string in an array: escaped unless the coder is set not to quote. -/
def stringPieces (this : CompositeCoder) (chars : List Bytes) : List (Piece UInt8) :=
  if this.needsQuotation then
    if needquote this.delimiter chars.flatten then [layout dquote, .text chars, layout dquote] else [.text chars]
  else [.raw chars]

mutual

/-- The text of an entry. -/
def CharTree.pieces (this : CompositeCoder) : CharTree → List (Piece UInt8)
  | .null => [.raw (null.map fun b => [b])]
  | .str chars => stringPieces this chars
  | .ary entries =>
    layout lbrace :: (separated (layout this.delimiter) (entryPieces this entries) ++ [layout rbrace])

def entryPieces (this : CompositeCoder) : List CharTree → List (List (Piece UInt8))
  | [] => []
  | entry :: rest => entry.pieces this :: entryPieces this rest

end

/-- A column of a row: `nil`, or a string by its characters. -/
abbrev Column := Option (List Bytes)

/-- The Ruby value. -/
def columnValue : Column → Value
  | none => .nil
  | some chars => .str chars.flatten

/-- The text of a column of a record. -/
def recordColumnPieces : Column → List (Piece UInt8)
  | none => []
  | some chars => [layout dquote, .text chars, layout dquote]

/-- The text of a record. -/
def recordPieces (row : List Column) : List (Piece UInt8) :=
  layout lparen :: (separated (layout comma) (row.map recordColumnPieces) ++ [layout rparen])

/-- The text of a column of `COPY`, with the null string by its characters. -/
def copyColumnPieces (nullChars : List Bytes) : Column → List (Piece UInt8)
  | none => [.raw nullChars]
  | some chars => [.text chars]

/-- The text of a row of `COPY`. -/
def copyPieces (delimiter : UInt8) (nullChars : List Bytes) (row : List Column) : List (Piece UInt8) :=
  separated (layout delimiter) (row.map (copyColumnPieces nullChars)) ++ [layout newline]

/-- What the array encoder writes for a piece. -/
abbrev arrayBytes : Piece UInt8 → Bytes := Piece.bytes needsBackslash fun _ => backslash

/-- A separator between two entries. -/
theorem separated_cons (sep : Piece UInt8) (first second : List (Piece UInt8)) (rest : List (List (Piece UInt8))) :
    separated sep (first :: second :: rest) = first ++ sep :: separated sep (second :: rest) := rfl

section Arrays

variable {rt : Runtime} {this : CompositeCoder}

/-- A string is written as its pieces. -/
theorem quoteString_pieces (strings : this.elem = pgCoderEncToS rt) (chars : List Bytes) :
    quoteString this.elem (.str chars.flatten) this.needsQuotation (quoteArrayBuffer this.delimiter) =
      .ok ((stringPieces this chars).flatMap arrayBytes) := by
  have encoded : this.elem.encode (.str chars.flatten) = .ok chars.flatten := by
    rw [strings, pgCoderEncToS_encode_str]
  rw [quoteString, encoded, stringPieces]
  cases this.needsQuotation with
  | false => simp [bind, Except.bind, pure, Except.pure, Piece.bytes]
  | true =>
    cases quoted : needquote this.delimiter chars.flatten with
    | true => simp [bind, Except.bind, pure, Except.pure, quoteArrayBuffer_quoted quoted, Piece.bytes, layout, arrayEsc]
    | false =>
      have plain : chars.flatten.countP needsBackslash = 0 := by
        rw [List.countP_eq_zero]
        intro b hb
        simp only [needquote, Bool.or_eq_false_iff, List.any_eq_false, Bool.or_eq_true, not_or] at quoted
        exact (quoted.2 b hb).1
      simp [bind, Except.bind, pure, Except.pure, quoteArrayBuffer_plain quoted, Piece.bytes,
        flatMap_markEsc_plain _ _ plain]

/-- The closing bytes around the entries. -/
theorem flatMap_layout (b : UInt8) : arrayBytes (layout b) = [b] := rfl

/-- Braces around entries that are written as theirs. -/
theorem writeArray_pieces {entries : List CharTree} {dimension : Int} {out : Bytes}
    (inner : ∀ body, writeEntries this (entryValues entries) dimension = .ok body →
      body = (separated (layout this.delimiter) (entryPieces this entries)).flatMap arrayBytes)
    (written : writeArray this (entryValues entries) dimension = .ok out) :
    out = ((CharTree.ary entries).pieces this).flatMap arrayBytes := by
  rw [writeArray] at written
  split at written
  · cases written
  · obtain ⟨body, entriesWritten, closed⟩ := Outcome.of_bind written
    cases closed
    rw [CharTree.pieces, inner body entriesWritten]
    simp [flatMap_layout]

mutual

/-- An entry is written as its pieces. -/
theorem writeEntry_pieces (strings : this.elem = pgCoderEncToS rt) (tree : CharTree) (dimension : Int)
    {out : Bytes} (nests : tree.Nests this.dimensions dimension)
    (written : writeEntry this tree.value dimension = .ok out) : out = (tree.pieces this).flatMap arrayBytes := by
  match tree, nests, written with
  | .null, _, written =>
    rw [CharTree.value, writeEntry] at written
    split at written
    · cases written
    · cases written
      rfl
  | .str chars, _, written =>
    rw [CharTree.value, writeEntry.eq_def] at written
    simp only [writeElement] at written
    split at written
    · cases written
    · rw [quoteString_pieces strings] at written
      cases written
      rfl
  | .ary entries, nests, written =>
    rw [CharTree.Nests] at nests
    rw [CharTree.value, writeEntry, if_pos (by simpa using nests.1)] at written
    apply writeArray_pieces _ written
    intro body inner
    exact writeEntries_pieces strings entries (dimension + 1) nests.2 inner

/-- The entries of one array are written as theirs, with the delimiter between them. -/
theorem writeEntries_pieces (strings : this.elem = pgCoderEncToS rt) (entries : List CharTree) (dimension : Int)
    {out : Bytes} (nest : EntriesNest this.dimensions entries dimension)
    (written : writeEntries this (entryValues entries) dimension = .ok out) :
    out = (separated (layout this.delimiter) (entryPieces this entries)).flatMap arrayBytes := by
  match entries, nest, written with
  | [], _, written =>
    rw [entryValues, writeEntries] at written
    cases written
    rfl
  | [entry], nest, written =>
    rw [EntriesNest] at nest
    rw [entryValues, entryValues, writeEntries] at written
    rw [writeEntry_pieces strings entry dimension nest.1 written]
    simp [entryPieces, separated]
  | entry :: second :: rest, nest, written =>
    rw [EntriesNest] at nest
    rw [entryValues, entryValues] at written
    unfold writeEntries at written
    obtain ⟨first, one, written⟩ := Outcome.of_bind written
    obtain ⟨following, others, joined⟩ := Outcome.of_bind written
    cases joined
    rw [entryPieces, entryPieces, separated_cons, ← entryPieces]
    rw [writeEntry_pieces strings entry dimension nest.1 one,
      writeEntries_pieces strings (second :: rest) dimension nest.2 others]
    simp [flatMap_layout]

end

end Arrays

section Rows

variable {rt : Runtime}

/-- What the record encoder writes for a piece. -/
abbrev recordBytes : Piece UInt8 → Bytes := Piece.bytes recordSpecial id

/-- What the `COPY` encoder writes for a piece. -/
abbrev copyBytes (delimiter : UInt8) : Piece UInt8 → Bytes := Piece.bytes (copySpecial delimiter) fun _ => backslash

theorem recordColumn_pieces (column : Column) (i : Nat) :
    recordColumn (.allStrings rt) (columnValue column) i = .ok ((recordColumnPieces column).flatMap recordBytes) := by
  cases column with
  | none => rfl
  | some chars =>
    rw [columnValue, recordColumn_eq (.allStrings rt) i (by simp)]
    simp [EncoderMap.allStrings, recordQuoted, recordColumnPieces, Piece.bytes, layout, bind, Except.bind, pure,
      Except.pure]

/-- Every column but the first stands behind a comma. -/
theorem recordColumns_behind (row : List Column) (i : Nat) :
    recordColumns (.allStrings rt) (row.map columnValue) (i + 1) =
      .ok (((row.map recordColumnPieces).flatMap fun entry => layout comma :: entry).flatMap recordBytes) := by
  induction row generalizing i with
  | nil => rfl
  | cons column row ih =>
    rw [List.map_cons, recordColumns, recordColumn_pieces, ih]
    simp [bind, Except.bind, pure, Except.pure, layout, Piece.bytes]

/-- A record is written as its pieces. -/
theorem record_pieces (row : List Column) :
    (pgTextEncRecord (.allStrings rt)).encode (.ary (row.map columnValue)) =
      .ok ((recordPieces row).flatMap recordBytes) := by
  cases row with
  | nil => rfl
  | cons column row =>
    have columns : recordColumns (.allStrings rt) ((column :: row).map columnValue) 0 =
        .ok ((separated (layout comma) ((column :: row).map recordColumnPieces)).flatMap recordBytes) := by
      rw [List.map_cons, recordColumns, recordColumn_pieces, recordColumns_behind]
      simp [separated, bind, Except.bind, pure, Except.pure]
    simp only [Encoder.encode, pgTextEncRecord, columns]
    simp [EncoderMap.allStrings, recordPieces, layout, Piece.bytes, bind, Except.bind, pure, Except.pure]

variable {this : CopyCoder} {nullChars : List Bytes}

theorem copyColumn_pieces (marker : this.nullString = nullChars.flatten) (column : Column) (i : Nat) :
    copyColumn this (.allStrings rt) (columnValue column) i =
      .ok ((copyColumnPieces nullChars column).flatMap (copyBytes this.delimiter)) := by
  cases column with
  | none => simp [columnValue, copyColumn, marker, copyColumnPieces, Piece.bytes, pure, Except.pure]
  | some chars =>
    rw [columnValue, copyColumn_eq this (.allStrings rt) i (by simp)]
    simp [EncoderMap.allStrings, copyColumnPieces, Piece.bytes, bind, Except.bind, pure, Except.pure]

/-- Every column but the first stands behind a delimiter. -/
theorem copyColumns_behind (marker : this.nullString = nullChars.flatten) (row : List Column) (i : Nat) :
    copyColumns this (.allStrings rt) (row.map columnValue) (i + 1) =
      .ok (((row.map (copyColumnPieces nullChars)).flatMap fun entry => layout this.delimiter :: entry).flatMap
        (copyBytes this.delimiter)) := by
  induction row generalizing i with
  | nil => rfl
  | cons column row ih =>
    rw [List.map_cons, copyColumns, copyColumn_pieces marker, ih]
    simp [bind, Except.bind, pure, Except.pure, layout, Piece.bytes]

/-- A row of `COPY` is written as its pieces. -/
theorem copy_pieces (marker : this.nullString = nullChars.flatten) (row : List Column) :
    pgTextEncCopyRow this (.allStrings rt) (row.map columnValue) =
      .ok ((copyPieces this.delimiter nullChars row).flatMap (copyBytes this.delimiter)) := by
  cases row with
  | nil => rfl
  | cons column row =>
    have columns : copyColumns this (.allStrings rt) ((column :: row).map columnValue) 0 =
        .ok ((separated (layout this.delimiter) ((column :: row).map (copyColumnPieces nullChars))).flatMap
          (copyBytes this.delimiter)) := by
      rw [List.map_cons, copyColumns, copyColumn_pieces marker, copyColumns_behind marker]
      simp [separated, bind, Except.bind, pure, Except.pure]
    simp only [pgTextEncCopyRow, columns]
    simp [EncoderMap.allStrings, copyPieces, layout, Piece.bytes, bind, Except.bind, pure, Except.pure]

end Rows

section Pieces

variable {P : Piece UInt8 → Prop} {Q : List Bytes → Prop}

theorem forall_separated {sep : Piece UInt8} (holds : P sep) (entries : List (List (Piece UInt8))) :
    (∀ p ∈ separated sep entries, P p) ↔ ∀ entry ∈ entries, ∀ p ∈ entry, P p := by
  cases entries with
  | nil => simp [separated]
  | cons first rest =>
    have behind : (∀ p ∈ rest.flatMap fun entry => sep :: entry, P p) ↔ ∀ entry ∈ rest, ∀ p ∈ entry, P p := by
      simp only [List.forall_mem_flatMap, List.forall_mem_cons]
      exact forall₂_congr fun entry _ => and_iff_right holds
    rw [separated, List.forall_mem_append, List.forall_mem_cons, behind]

/-- A string between quotes. -/
theorem forall_quoted (quote : P (layout dquote)) (chars : List Bytes) :
    (∀ p ∈ [layout dquote, .text chars, layout dquote], P p) ↔ P (.text chars) := by
  simp [quote]

variable {this : CompositeCoder}

mutual

/-- What holds of the layout holds of all pieces iff it does of the strings. -/
theorem CharTree.forall_pieces (layouts : ∀ b ∈ [lbrace, rbrace, this.delimiter], P (layout b))
    (nil : P (.raw (null.map fun b => [b]))) (string : ∀ chars, (∀ p ∈ stringPieces this chars, P p) ↔ Q chars)
    (tree : CharTree) : (∀ p ∈ tree.pieces this, P p) ↔ ∀ chars ∈ tree.strings, Q chars := by
  cases tree with
  | null => simpa [CharTree.pieces, CharTree.strings] using nil
  | str chars => simp [CharTree.pieces, CharTree.strings, string]
  | ary entries =>
    rw [CharTree.pieces, CharTree.strings, List.forall_mem_cons, List.forall_mem_append, List.forall_mem_singleton,
      forall_separated (layouts _ (by simp)), forall_entryPieces layouts nil string entries]
    simp only [layouts lbrace (by simp), layouts rbrace (by simp), true_and, and_true]

theorem forall_entryPieces (layouts : ∀ b ∈ [lbrace, rbrace, this.delimiter], P (layout b))
    (nil : P (.raw (null.map fun b => [b]))) (string : ∀ chars, (∀ p ∈ stringPieces this chars, P p) ↔ Q chars)
    (entries : List CharTree) :
    (∀ entry ∈ entryPieces this entries, ∀ p ∈ entry, P p) ↔ ∀ chars ∈ entryStrings entries, Q chars := by
  cases entries with
  | nil => simp [entryPieces, entryStrings]
  | cons entry rest =>
    rw [entryPieces, entryStrings, List.forall_mem_cons, List.forall_mem_append,
      CharTree.forall_pieces layouts nil string entry, forall_entryPieces layouts nil string rest]

end

/-- The same for the columns of a row. -/
theorem forall_columns {pieces : Column → List (Piece UInt8)} {sep : Piece UInt8} (holds : P sep)
    (nil : ∀ p ∈ pieces none, P p) (string : ∀ chars, (∀ p ∈ pieces (some chars), P p) ↔ Q chars) (row : List Column) :
    (∀ p ∈ separated sep (row.map pieces), P p) ↔ ∀ chars, some chars ∈ row → Q chars := by
  rw [forall_separated holds, List.forall_mem_map]
  constructor
  · intro all chars mem
    exact (string chars).1 (all (some chars) mem)
  · intro all column mem
    cases column with
    | none => exact nil
    | some chars => exact (string chars).2 (all chars mem)

end Pieces

section Respects

variable {rt : Runtime} {entry : String × String} {charset : Charset}

/-- A byte of the layout is a character. -/
theorem coded_layout (found : Listed entry charset) {b : UInt8} (low : b ≤ 0x7f) : (layout b).Coded charset.code := by
  intro c mem
  rw [layout, Piece.content, List.mem_singleton] at mem
  exact mem ▸ found.ascii b low

theorem arrayMarks : Marks needsBackslash (· == backslash) fun _ => backslash := by
  constructor
  · intro b _
    rfl
  · intro b isMark
    simp [needsBackslash, isMark]

theorem recordMarks : Marks recordSpecial recordSpecial id := ⟨fun _ special => special, fun _ special => special⟩

theorem copyMarks (delimiter : UInt8) : Marks (copySpecial delimiter) (· == backslash) fun _ => backslash := by
  constructor
  · intro b _
    rfl
  · intro b isMark
    simp [copySpecial, isMark]

section Array

variable {this : CompositeCoder}

/-- Everything an array encoder writes for strings of an encoding are characters of it. -/
theorem CharTree.coded (found : Listed entry charset) (ascii : this.delimiter ≤ 0x7f) {tree : CharTree}
    (valid : ∀ chars ∈ tree.strings, ∀ c ∈ chars, c ∈ charset.code) :
    ∀ p ∈ tree.pieces this, p.Coded charset.code := by
  have layouts : ∀ b ∈ [lbrace, rbrace, this.delimiter], b ≤ 0x7f := by simp +decide [ascii]
  refine (CharTree.forall_pieces (P := Piece.Coded charset.code) ?_ ?_ ?_ tree).2 valid
  · exact fun b mem => coded_layout found (layouts b mem)
  · have letters : ∀ b ∈ Ascii.null, b ≤ 0x7f := List.all_iff_forall_prop.1 (by decide)
    intro c mem
    obtain ⟨b, hb, rfl⟩ := List.mem_map.1 mem
    exact found.ascii b (letters b hb)
  · intro chars
    rw [stringPieces]
    split
    · split
      · exact forall_quoted (coded_layout found (by decide)) chars
      · exact List.forall_mem_singleton
    · exact List.forall_mem_singleton

/-- Its strings are whole iff no character of several bytes has a quote or backslash in it. -/
theorem CharTree.whole_iff (tree : CharTree) : (∀ p ∈ tree.pieces this, p.AllWhole needsBackslash) ↔
    ∀ chars ∈ tree.strings, this.needsQuotation = true → ∀ c ∈ chars, Whole needsBackslash c := by
  apply CharTree.forall_pieces
  · exact fun _ _ => trivial
  · trivial
  · intro chars
    rw [stringPieces]
    split
    · rename_i quoted
      split
      · rw [forall_quoted trivial, Piece.AllWhole]
        simp [quoted]
      · simp [Piece.AllWhole, quoted]
    · rename_i unquoted
      simp [Piece.AllWhole, unquoted]

theorem writeArray_of_encode {entries : List Value} {out : Bytes}
    (encoded : (pgTextEncArray rt this).encode (.ary entries) = .ok out) : writeArray this entries 1 = .ok out := by
  obtain ⟨answer, called, finished⟩ := Outcome.of_bind encoded
  obtain ⟨text, written, answered⟩ := Outcome.of_bind called
  cases answered
  cases finished
  exact written

/-- An array respects the characters iff it is not quoted or its strings are whole. -/
theorem array_respects_iff (found : Listed entry charset) {entries : List CharTree} {out : Bytes}
    (strings : this.elem = pgCoderEncToS rt) (ascii : this.delimiter ≤ 0x7f)
    (nest : EntriesNest this.dimensions entries 1)
    (valid : ∀ chars ∈ entryStrings entries, ∀ c ∈ chars, c ∈ charset.code)
    (encoded : (pgTextEncArray rt this).encode (.ary (entryValues entries)) = .ok out) :
    Respects charset.code needsBackslash (fun _ => backslash) (· == backslash) ((CharTree.ary entries).pieces this) out ↔
      (this.needsQuotation = true → ∀ chars ∈ entryStrings entries, ∀ c ∈ chars, Whole needsBackslash c) := by
  have coded : ∀ p ∈ (CharTree.ary entries).pieces this, p.Coded charset.code :=
    CharTree.coded found ascii valid
  have written : out = ((CharTree.ary entries).pieces this).flatMap arrayBytes :=
    writeArray_pieces (fun body => writeEntries_pieces strings entries 1 nest) (writeArray_of_encode encoded)
  rw [written, respects_iff found.free arrayMarks (fun _ _ => found.ascii _ (by decide)) coded, CharTree.whole_iff,
    CharTree.strings]
  exact ⟨fun all quoted chars mem => all chars mem quoted, fun all chars mem quoted => all quoted chars mem⟩

end Array

/-- A record respects the characters iff its strings are whole. -/
theorem record_respects_iff (found : Listed entry charset) {row : List Column}
    (valid : ∀ chars, some chars ∈ row → ∀ c ∈ chars, c ∈ charset.code) :
    Respects charset.code recordSpecial id recordSpecial (recordPieces row) ((recordPieces row).flatMap recordBytes) ↔
      ∀ chars, some chars ∈ row → ∀ c ∈ chars, Whole recordSpecial c := by
  have low : ∀ b, recordSpecial b = true → b ≤ 0x7f := by
    intro b special
    simp only [recordSpecial, Bool.or_eq_true, beq_iff_eq] at special
    rcases special with rfl | rfl
    · decide
    · decide
  have coded : ∀ p ∈ recordPieces row, p.Coded charset.code := by
    rw [recordPieces, List.forall_mem_cons, List.forall_mem_append, List.forall_mem_singleton]
    refine ⟨coded_layout found (by decide), ?_, coded_layout found (by decide)⟩
    refine (forall_columns (P := Piece.Coded charset.code) (coded_layout found (by decide)) ?_ ?_ row).2 valid
    · intro p mem
      cases mem
    · exact forall_quoted (coded_layout found (by decide))
  rw [respects_iff found.free recordMarks (fun b special => found.ascii b (low b special)) coded, recordPieces,
    List.forall_mem_cons, List.forall_mem_append, List.forall_mem_singleton]
  have columns : (∀ p ∈ separated (layout comma) (row.map recordColumnPieces), p.AllWhole recordSpecial) ↔
      ∀ chars, some chars ∈ row → ∀ c ∈ chars, Whole recordSpecial c := by
    apply forall_columns
    · trivial
    · intro p mem
      cases mem
    · exact forall_quoted trivial
  rw [columns]
  exact ⟨fun all => all.2.1, fun all => ⟨trivial, all, trivial⟩⟩

/-- A row of `COPY` respects the characters iff its strings are whole. -/
theorem copy_respects_iff (found : Listed entry charset) {delimiter : UInt8} {nullChars : List Bytes} {row : List Column}
    (ascii : delimiter ≤ 0x7f) (marker : ∀ c ∈ nullChars, c ∈ charset.code)
    (valid : ∀ chars, some chars ∈ row → ∀ c ∈ chars, c ∈ charset.code) :
    Respects charset.code (copySpecial delimiter) (fun _ => backslash) (· == backslash)
        (copyPieces delimiter nullChars row) ((copyPieces delimiter nullChars row).flatMap (copyBytes delimiter)) ↔
      ∀ chars, some chars ∈ row → ∀ c ∈ chars, Whole (copySpecial delimiter) c := by
  have coded : ∀ p ∈ copyPieces delimiter nullChars row, p.Coded charset.code := by
    rw [copyPieces, List.forall_mem_append, List.forall_mem_singleton]
    refine ⟨?_, coded_layout found (by decide)⟩
    refine (forall_columns (P := Piece.Coded charset.code) (coded_layout found ascii) ?_ ?_ row).2 valid
    · intro p mem
      rw [copyColumnPieces, List.mem_singleton] at mem
      exact mem ▸ marker
    · intro chars
      exact List.forall_mem_singleton
  rw [respects_iff found.free (copyMarks delimiter) (fun _ _ => found.ascii _ (by decide)) coded, copyPieces,
    List.forall_mem_append, List.forall_mem_singleton]
  have columns : (∀ p ∈ separated (layout delimiter) (row.map (copyColumnPieces nullChars)),
      p.AllWhole (copySpecial delimiter)) ↔ ∀ chars, some chars ∈ row → ∀ c ∈ chars, Whole (copySpecial delimiter) c := by
    apply forall_columns
    · trivial
    · intro p mem
      rw [copyColumnPieces, List.mem_singleton] at mem
      exact mem ▸ trivial
    · intro chars
      exact List.forall_mem_singleton
  rw [columns]
  exact ⟨And.left, fun all => ⟨all, trivial⟩⟩

/-- The characters of most encodings are whole to the array and record encoders. -/
theorem whole_quote (found : Listed entry charset) (other : entry.1 ∉ backslashTrails) {c : Bytes}
    (coded : c ∈ charset.code) : Whole needsBackslash c := by
  intro long b mem
  obtain ⟨noQuote, noBackslash⟩ := found.quote_free other coded long
  rw [needsBackslash, Bool.or_eq_false_iff, beq_eq_false_iff_ne, beq_eq_false_iff_ne]
  exact ⟨fun e => noQuote (e ▸ mem), fun e => noBackslash (e ▸ mem)⟩

/-- So are they to the encoder of `COPY`, with any ASCII delimiter, but in one more encoding. -/
theorem whole_copy (found : Listed entry charset) (other : entry.1 ∉ asciiTrails) {delimiter : UInt8}
    (ascii : delimiter ≤ 0x7f) {c : Bytes} (coded : c ∈ charset.code) : Whole (copySpecial delimiter) c := by
  intro long b mem
  have high : 0x7f < b := found.ascii_free other coded long mem
  have differs : ∀ e : UInt8, e ≤ 0x7f → b ≠ e := fun e low same => UInt8.not_lt.2 low (same ▸ high)
  simp only [copySpecial, Bool.or_eq_false_iff, beq_eq_false_iff_ne]
  exact ⟨⟨⟨differs _ (by decide), differs _ (by decide)⟩, differs _ (by decide)⟩, differs _ ascii⟩

/-- Where no quote and no backslash can be half a character, an array respects all characters. -/
theorem array_respects (found : Listed entry charset) (other : entry.1 ∉ backslashTrails) {this : CompositeCoder}
    {entries : List CharTree} {out : Bytes} (strings : this.elem = pgCoderEncToS rt) (ascii : this.delimiter ≤ 0x7f)
    (nest : EntriesNest this.dimensions entries 1)
    (valid : ∀ chars ∈ entryStrings entries, ∀ c ∈ chars, c ∈ charset.code)
    (encoded : (pgTextEncArray rt this).encode (.ary (entryValues entries)) = .ok out) :
    Respects charset.code needsBackslash (fun _ => backslash) (· == backslash)
      ((CharTree.ary entries).pieces this) out := by
  rw [array_respects_iff found strings ascii nest valid encoded]
  exact fun _ chars mem c hc => whole_quote found other (valid chars mem c hc)

/-- Where no ASCII code can be half a character, a row of `COPY` respects all characters. -/
theorem copy_respects (found : Listed entry charset) (other : entry.1 ∉ asciiTrails) {delimiter : UInt8}
    {nullChars : List Bytes} {row : List Column} (ascii : delimiter ≤ 0x7f)
    (marker : ∀ c ∈ nullChars, c ∈ charset.code) (valid : ∀ chars, some chars ∈ row → ∀ c ∈ chars, c ∈ charset.code) :
    Respects charset.code (copySpecial delimiter) (fun _ => backslash) (· == backslash)
      (copyPieces delimiter nullChars row) ((copyPieces delimiter nullChars row).flatMap (copyBytes delimiter)) := by
  rw [copy_respects_iff found ascii marker valid]
  exact fun chars mem c hc => whole_copy found other ascii (valid chars mem c hc)

/-- Where no quote and no backslash can be half a character, a record respects all characters. -/
theorem record_respects (found : Listed entry charset) (other : entry.1 ∉ backslashTrails) {row : List Column}
    (valid : ∀ chars, some chars ∈ row → ∀ c ∈ chars, c ∈ charset.code) :
    Respects charset.code recordSpecial id recordSpecial (recordPieces row) ((recordPieces row).flatMap recordBytes) := by
  rw [record_respects_iff found valid]
  exact fun chars mem c hc => whole_quote found other (valid chars mem c hc)

end Respects

/-- **Escaping respects multibyte characters** exactly where no character of more than one byte
has a byte that the encoder escapes: a quote or backslash for arrays and records, a backslash,
line feed, carriage return or the delimiter for rows of `COPY`. -/
theorem escaping_respects_iff (rt : Runtime) {entry : String × String} (listed : entry ∈ pgEncPg2rubyMapping) :
    ∃ charset, rbEncFind entry.2 = some charset ∧ PrefixFree charset.code ∧
      (∀ (this : CompositeCoder) (entries : List CharTree) (out : Bytes), this.elem = pgCoderEncToS rt →
        this.delimiter ≤ 0x7f → EntriesNest this.dimensions entries 1 →
        (∀ chars ∈ entryStrings entries, ∀ c ∈ chars, c ∈ charset.code) →
        (pgTextEncArray rt this).encode (.ary (entryValues entries)) = .ok out →
        (Respects charset.code needsBackslash (fun _ => backslash) (· == backslash)
            ((CharTree.ary entries).pieces this) out ↔
          (this.needsQuotation = true → ∀ chars ∈ entryStrings entries, ∀ c ∈ chars, Whole needsBackslash c))) ∧
      (∀ row : List Column, (∀ chars, some chars ∈ row → ∀ c ∈ chars, c ∈ charset.code) →
        ∃ out, (pgTextEncRecord (.allStrings rt)).encode (.ary (row.map columnValue)) = .ok out ∧
          (Respects charset.code recordSpecial id recordSpecial (recordPieces row) out ↔
            ∀ chars, some chars ∈ row → ∀ c ∈ chars, Whole recordSpecial c)) ∧
      ∀ (this : CopyCoder) (nullChars : List Bytes) (row : List Column), this.delimiter ≤ 0x7f →
        Spells charset.code nullChars this.nullString →
        (∀ chars, some chars ∈ row → ∀ c ∈ chars, c ∈ charset.code) →
        ∃ out, pgTextEncCopyRow this (.allStrings rt) (row.map columnValue) = .ok out ∧
          (Respects charset.code (copySpecial this.delimiter) (fun _ => backslash) (· == backslash)
              (copyPieces this.delimiter nullChars row) out ↔
            ∀ chars, some chars ∈ row → ∀ c ∈ chars, Whole (copySpecial this.delimiter) c) := by
  obtain ⟨charset, found⟩ := listed_charset listed
  refine ⟨charset, found.found, found.free, ?_, ?_, ?_⟩
  · intro this entries out strings ascii nest valid encoded
    exact array_respects_iff found strings ascii nest valid encoded
  · intro row valid
    exact ⟨_, record_pieces row, record_respects_iff found valid⟩
  · intro this nullChars row ascii marker valid
    exact ⟨_, copy_pieces marker.spelled.symm row, copy_respects_iff found ascii marker.coded valid⟩

/-- The default array encoder of strings. -/
def stringCoder (rt : Runtime) : CompositeCoder := { elem := pgCoderEncToS rt }

/-- An array of one string. -/
theorem encode_one_string (rt : Runtime) (s : Bytes) :
    (pgTextEncArray rt (stringCoder rt)).encode (.ary [.str s]) = .ok (lbrace :: quoteArrayBuffer comma s ++ [rbrace]) := by
  have leaf : writeEntry (stringCoder rt) (.str s) 1 = .ok (quoteArrayBuffer comma s) :=
    writeEntry_leaf (Or.inl (Int.negSucc_lt_zero 0)) (by simp) (by simp)
  have entries : writeEntries (stringCoder rt) [.str s] 1 = .ok (quoteArrayBuffer comma s) := by
    rw [writeEntries, leaf]
  have array : writeArray (stringCoder rt) [.str s] 1 = .ok (lbrace :: quoteArrayBuffer comma s ++ [rbrace]) := by
    rw [writeArray, if_neg (by simp), entries]
    rfl
  simp only [Encoder.encode, pgTextEncArray, array]
  rfl

/-- Two characters of Shift-JIS, `95 5D` and the quote: each is escaped as a whole. -/
theorem escaping_respects_sjis : ∃ charset, rbEncFind "Windows-31J" = some charset ∧
    Respects charset.code needsBackslash (fun _ => backslash) (· == backslash)
      ((CharTree.ary [.str [[0x95, 0x5d], [dquote]]]).pieces (stringCoder .sample))
      [lbrace, dquote, 0x95, 0x5d, backslash, dquote, dquote, rbrace] ∧
    (∃ out, (pgTextEncRecord (.allStrings .sample)).encode (.ary [.str [0x95, 0x5d, dquote]]) = .ok out ∧
      Respects charset.code recordSpecial id recordSpecial (recordPieces [some [[0x95, 0x5d], [dquote]]]) out) ∧
    ∃ out, pgTextEncCopyRow {} (.allStrings .sample) [.str [0x95, 0x5d, tab]] = .ok out ∧
      Respects charset.code (copySpecial tab) (fun _ => backslash) (· == backslash)
        (copyPieces tab [[backslash], [upperN]] [some [[0x95, 0x5d], [tab]]]) out := by
  obtain ⟨charset, found, -, array, record, copy⟩ :=
    @escaping_respects_iff .sample ("SJIS", "Windows-31J") (by decide)
  cases found
  have one : ∀ {P : Bytes → Prop} (string : List Bytes), (∀ c ∈ string, P c) →
      ∀ chars, some chars ∈ [some string] → ∀ c ∈ chars, P c := by
    intro P string holds chars mem
    cases List.mem_singleton.1 mem
    exact holds
  refine ⟨windows31J, rfl, ?_, ?_, ?_⟩
  · refine (array (stringCoder .sample) [.str [[0x95, 0x5d], [dquote]]] _ rfl (by decide) ⟨trivial, trivial⟩ ?_ ?_).2 ?_
    · decide
    · exact encode_one_string .sample [0x95, 0x5d, dquote]
    · decide
  · obtain ⟨out, encoded, respects⟩ := record [some [[0x95, 0x5d], [dquote]]] (one [[0x95, 0x5d], [dquote]] (by decide))
    exact ⟨out, encoded, respects.2 (one [[0x95, 0x5d], [dquote]] (by decide))⟩
  · obtain ⟨out, encoded, respects⟩ := copy {} [[backslash], [upperN]] [some [[0x95, 0x5d], [tab]]] (by decide)
      ⟨by decide, rfl⟩ (one [[0x95, 0x5d], [tab]] (by decide))
    exact ⟨out, encoded, respects.2 (one [[0x95, 0x5d], [tab]] (by decide))⟩

/-- The character `95 5C` of Shift-JIS gets a backslash into its middle. -/
theorem half_character_escaped : ∃ charset, ("SJIS", "Windows-31J") ∈ pgEncPg2rubyMapping ∧
    rbEncFind "Windows-31J" = some charset ∧ [0x95, 0x5c] ∈ charset.code ∧
    (pgTextEncArray .sample (stringCoder .sample)).encode (.ary [.str [0x95, 0x5c]]) =
      .ok [lbrace, dquote, 0x95, backslash, 0x5c, dquote, rbrace] ∧
    ¬Respects charset.code needsBackslash (fun _ => backslash) (· == backslash)
      ((CharTree.ary [.str [[0x95, 0x5c]]]).pieces (stringCoder .sample))
      [lbrace, dquote, 0x95, backslash, 0x5c, dquote, rbrace] ∧
    (pgTextEncRecord (.allStrings .sample)).encode (.ary [.str [0x95, 0x5c]]) =
      .ok [lparen, dquote, 0x95, 0x5c, 0x5c, dquote, rparen] ∧
    ¬Respects charset.code recordSpecial id recordSpecial (recordPieces [some [[0x95, 0x5c]]])
      [lparen, dquote, 0x95, 0x5c, 0x5c, dquote, rparen] ∧
    pgTextEncCopyRow {} (.allStrings .sample) [.str [0x95, 0x5c]] = .ok [0x95, backslash, 0x5c, newline] ∧
    ¬Respects charset.code (copySpecial tab) (fun _ => backslash) (· == backslash)
      (copyPieces tab [[backslash], [upperN]] [some [[0x95, 0x5c]]]) [0x95, backslash, 0x5c, newline] := by
  refine ⟨windows31J, by decide, rfl, rfl, encode_one_string .sample [0x95, 0x5c], ?_, rfl, ?_, rfl, ?_⟩
  · exact fun respects => absurd respects.placed (by decide)
  · exact fun respects => absurd respects.placed (by decide)
  · exact fun respects => absurd respects.placed (by decide)

end RubyPg.Text
