import RubyPg.Text.CopyRow

/-!
# The COPY row decoder reads back what the COPY row encoder writes

Both branches of the encoder write the same escaping of a column (`copyColumn_eq`), and the
scan of the decoder undoes it up to the delimiter or newline that ends the field
(`scanField_escaped`). A column reads back when its escaped form differs from the null marker
(`ReadsColumn`); `copyFields_columns` chains the columns of a row.
-/

namespace RubyPg.Text
set_option autoImplicit false
open Ascii

/-- What the encoder writes for one byte. -/
abbrev copyEsc (delimiter : UInt8) : UInt8 → Bytes := markEsc (copySpecial delimiter) fun _ => backslash

theorem copyEscape_eq (d : UInt8) (s : Bytes) : copyEscape d s = s.flatMap (copyEsc d) := by
  induction s with
  | nil => rfl
  | cons ch s ih =>
    rw [copyEscape, List.flatMap_cons, copyEsc, markEsc, ih]
    split <;> rfl

theorem copyShift_eq (d : UInt8) (written : Bytes) : copyShift d written = written.flatMap (copyEsc d) := by
  rw [copyShift, ← List.countP_reverse, escapeShift_eq, List.reverse_reverse, List.append_nil]

/-- One column that is not `nil`, whichever pass its encoder chose. -/
theorem copyColumn_eq (this : CopyCoder) (typemap : EncoderMap) {entry : Value} (i : Nat) (notNil : entry ≠ .nil) :
    copyColumn this typemap entry i =
      (do let written ← (typemap.typecastQueryParam entry i).encode entry
          pure (written.flatMap (copyEsc this.delimiter))) := by
  rw [Encoder.encode]
  cases answered : typemap.typecastQueryParam entry i entry with
  | error e => cases entry <;> first | exact absurd rfl notNil | simp only [copyColumn, answered, bind, Except.bind]
  | ok answer =>
    cases answer with
    | string s =>
      cases entry <;> first
        | exact absurd rfl notNil
        | simp only [copyColumn, answered, bind, Except.bind, pure, Except.pure, copyEscape_eq]
    | size n second =>
      cases second with
      | error e => cases entry <;> first | exact absurd rfl notNil | simp only [copyColumn, answered, bind, Except.bind]
      | ok written =>
        cases entry <;> first
          | exact absurd rfl notNil
          | simp only [copyColumn, answered, bind, Except.bind, pure, Except.pure, copyShift_eq]

/-- A delimiter whose escaped form the decoder takes literally. -/
structure CopyDelimiter (d : UInt8) : Prop where
  backslash : d ≠ backslash
  newline : d ≠ newline
  literal : ∀ s cur, copyUnescape s d cur = (d, cur)

/-- Every byte the encoder escapes is taken literally behind its backslash. -/
theorem CopyDelimiter.unescape {d ch : UInt8} (delimiter : CopyDelimiter d) (special : copySpecial d ch = true)
    (s : Bytes) (cur : Nat) : copyUnescape s ch cur = (ch, cur) := by
  simp only [copySpecial, Bool.or_eq_true, beq_iff_eq] at special
  rcases special with ((rfl | rfl) | rfl) | rfl
  · rfl
  · rfl
  · rfl
  · exact delimiter.literal s cur

section Scanning

variable {d : UInt8} {s : Bytes}

/-- The scan takes one escaped byte. -/
theorem scanField_byte (delimiter : CopyDelimiter d) {ch : UInt8} {rest field : Bytes} {fuel cur : Nat}
    (here : Rest s cur (copyEsc d ch ++ rest)) :
    scanField d s (fuel + 1) cur field = scanField d s fuel (cur + (copyEsc d ch).length) (field ++ [ch]) := by
  unfold copyEsc markEsc at here ⊢
  by_cases special : copySpecial d ch = true
  · simp only [special, if_true, List.cons_append, List.nil_append] at here ⊢
    have second : Rest s (cur + 1) (ch :: rest) := here.next
    rw [scanField, if_neg (by have := here.lt; omega)]
    simp only [here.getD, second.getD, delimiter.unescape special]
    rw [if_neg delimiter.backslash.symm, if_neg (by decide), if_pos trivial, if_neg (by have := second.lt; omega)]
    rfl
  · have literal : copySpecial d ch = false := by simpa using special
    simp only [literal, Bool.false_eq_true, if_false, List.cons_append, List.nil_append] at here ⊢
    simp only [copySpecial, Bool.or_eq_true, beq_iff_eq, not_or] at special
    obtain ⟨⟨⟨notBackslash, notNewline⟩, -⟩, notDelim⟩ := special
    rw [scanField, if_neg (by have := here.lt; omega)]
    simp only [here.getD]
    rw [if_neg notDelim, if_neg notNewline, if_neg notBackslash]
    rfl

/-- The scan takes an escaped field. -/
theorem scanField_escaped (delimiter : CopyDelimiter d) {word rest field : Bytes} {fuel cur : Nat}
    (here : Rest s cur (word.flatMap (copyEsc d) ++ rest)) :
    scanField d s (fuel + word.length) cur field =
      scanField d s fuel (cur + (word.flatMap (copyEsc d)).length) (field ++ word) := by
  induction word generalizing cur field with
  | nil => simp
  | cons ch word ih =>
    rw [List.flatMap_cons, List.append_assoc] at here
    rw [List.length_cons, ← Nat.add_assoc, scanField_byte delimiter here, ih here.skip]
    simp [Nat.add_assoc]

/-- The scan takes a run of bytes that mean nothing to it. -/
theorem scanField_raw {word rest field : Bytes} {fuel cur : Nat} (here : Rest s cur (word ++ rest))
    (raw : ∀ ch ∈ word, ch ≠ d ∧ ch ≠ newline ∧ ch ≠ backslash) :
    scanField d s (fuel + word.length) cur field = scanField d s fuel (cur + word.length) (field ++ word) := by
  induction word generalizing cur field with
  | nil => simp
  | cons ch word ih =>
    have here : Rest s cur (ch :: (word ++ rest)) := here
    obtain ⟨notDelim, notNewline, notBackslash⟩ := raw ch List.mem_cons_self
    rw [List.length_cons, ← Nat.add_assoc, scanField, if_neg (by have := here.lt; omega)]
    simp only [here.getD]
    rw [if_neg notDelim, if_neg notNewline, if_neg notBackslash,
      ih here.next fun c hc => raw c (List.mem_cons_of_mem _ hc)]
    simp [Nat.add_assoc, Nat.add_comm 1]

/-- The scan ends at the delimiter or at the newline. -/
theorem scanField_end {ch : UInt8} {rest field : Bytes} {fuel cur : Nat} (here : Rest s cur (ch :: rest))
    (ends : ch = d ∨ ch = newline) :
    scanField d s (fuel + 1) cur field = .ok ⟨decide (ch = d), cur, cur + 1, field⟩ := by
  rw [scanField, if_neg (by have := here.lt; omega)]
  simp only [here.getD]
  by_cases delim : ch = d
  · simp [delim, pure, Except.pure]
  · rw [if_neg delim, if_pos (ends.resolve_left delim)]
    simp [delim, pure, Except.pure]

end Scanning

/-- A text that the scan takes up to the end of the field, whatever it de-escapes to. -/
def Scans (d : UInt8) (text field : Bytes) : Prop :=
  ∀ (s rest : Bytes) (ch : UInt8) (cur : Nat), Rest s cur (text ++ ch :: rest) → (ch = d ∨ ch = newline) →
    scanField d s (s.length + 1) cur [] = .ok ⟨decide (ch = d), cur + text.length, cur + text.length + 1, field⟩

/-- The escaped form of any byte string scans to it. -/
theorem scans_escaped {d : UInt8} (delimiter : CopyDelimiter d) (word : Bytes) :
    Scans d (word.flatMap (copyEsc d)) word := by
  intro s rest ch cur here ends
  have short := here.length_le
  have grows : word.length ≤ (word.flatMap (copyEsc d)).length :=
    length_le_flatMap_markEsc (copySpecial d) (fun _ => backslash) word
  rw [List.length_append, List.length_cons] at short
  obtain ⟨fuel, enough⟩ : ∃ n, s.length + 1 = n + 1 + word.length := ⟨s.length - word.length, by omega⟩
  rw [enough, scanField_escaped delimiter here, scanField_end here.skip ends]
  rfl

/-- The null markers the round trip is stated for. -/
structure NullMarker (d : UInt8) (nullString : Bytes) : Prop where
  nonul : nul ∉ nullString
  newline : newline ∉ nullString
  delimiter : d ∉ nullString
  backslash : nullString = [backslash, upperN] ∨ backslash ∉ nullString

/-- A null marker is scanned as one field. -/
theorem scans_null {d : UInt8} {nullString : Bytes} (delimiter : CopyDelimiter d) (marker : NullMarker d nullString) :
    ∃ field, Scans d nullString field := by
  rcases marker.backslash with rfl | noBackslash
  · refine ⟨[upperN], fun s rest ch cur here ends => ?_⟩
    have short := here.length_le
    obtain ⟨fuel, enough⟩ : ∃ n, s.length + 1 = n + 2 := ⟨s.length - 1, by simp at short; omega⟩
    have first : Rest s cur (Ascii.backslash :: upperN :: ch :: rest) := here
    rw [enough, scanField, if_neg (by have := first.lt; omega)]
    simp only [first.getD, first.next.getD]
    rw [if_neg delimiter.backslash.symm, if_neg (by decide), if_pos trivial,
      if_neg (by have := first.next.lt; omega)]
    exact scanField_end first.next.next ends
  · refine ⟨nullString, fun s rest ch cur here ends => ?_⟩
    have short := here.length_le
    rw [List.length_append, List.length_cons] at short
    obtain ⟨fuel, enough⟩ : ∃ n, s.length + 1 = n + 1 + nullString.length := ⟨s.length - nullString.length, by omega⟩
    rw [enough, scanField_raw here, scanField_end here.skip ends]
    · rfl
    · intro c hc
      exact ⟨fun e => marker.delimiter (e ▸ hc), fun e => marker.newline (e ▸ hc), fun e => noBackslash (e ▸ hc)⟩

/-- `strncmp` with a NUL-free string of the same length compares all bytes. -/
theorem strncmpEq_iff {a b : Bytes} (nonul : nul ∉ b) (length : a.length = b.length) :
    strncmpEq a b = true ↔ a = b := by
  induction a generalizing b with
  | nil => simp [List.length_eq_zero_iff.1 length.symm, strncmpEq]
  | cons x a ih =>
    obtain ⟨y, b, rfl⟩ := List.exists_cons_of_length_pos (by rw [← length]; simp)
    simp only [List.mem_cons, not_or] at nonul
    rw [strncmpEq]
    by_cases same : x = y
    · subst same
      have nonzero : x ≠ nul := fun e => nonul.1 e.symm
      simp only [ne_eq, not_true_eq_false, if_false, nonzero, List.cons.injEq, true_and]
      exact ih nonul.2 (by simpa using length)
    · simp [same]

/-- The text of column `i` is scanned as one field whose value is `v`: the null marker for `nil`,
else a text other than the null marker that the type map casts to `v`. -/
structure ReadsColumn (this : CopyCoder) (dec : DecoderMap) (i : Nat) (text : Bytes) (v : Value) : Prop where
  scans : ∃ field, Scans this.delimiter text field ∧ copyFieldValue this dec text field i = .ok v

/-- Columns that the coders of column `i` take there and back. -/
inductive CopyFits (this : CopyCoder) (enc : EncoderMap) (dec : DecoderMap) (i : Nat) : Value → Prop where
  | nil : CopyFits this enc dec i .nil
  | value {v : Value} {text : Bytes} (notNil : v ≠ .nil)
      (encoded : (enc.typecastQueryParam v i).encode v = .ok text) (decoded : dec.typecastCopyGet text i = .ok v)
      (unlikeNull : text.flatMap (copyEsc this.delimiter) ≠ this.nullString) : CopyFits this enc dec i v

section Rows

variable {this : CopyCoder} {enc : EncoderMap} {dec : DecoderMap}

/-- A fitting column is written and read back. -/
theorem CopyFits.reads (delimiter : CopyDelimiter this.delimiter) (marker : NullMarker this.delimiter this.nullString)
    {i : Nat} {v : Value} (fits : CopyFits this enc dec i v) :
    ∃ text, copyColumn this enc v i = .ok text ∧ ReadsColumn this dec i text v := by
  cases fits with
  | nil =>
    obtain ⟨field, scans⟩ := scans_null delimiter marker
    refine ⟨this.nullString, rfl, field, scans, ?_⟩
    rw [copyFieldValue, if_pos ⟨rfl, (strncmpEq_iff marker.nonul rfl).2 rfl⟩]
    rfl
  | @value _ text notNil encoded decoded unlikeNull =>
    refine ⟨text.flatMap (copyEsc this.delimiter), ?_, text, scans_escaped delimiter text, ?_⟩
    · rw [copyColumn_eq this enc i notNil, encoded]
      rfl
    · rw [copyFieldValue, if_neg, decoded]
      rintro ⟨length, same⟩
      exact unlikeNull ((strncmpEq_iff marker.nonul length).1 same)

/-- The columns from `i` on, up to the newline that ends the row, read as `vs`. -/
def ReadsColumns (this : CopyCoder) (dec : DecoderMap) (i : Nat) (text : Bytes) (vs : List Value) : Prop :=
  ∀ (s : Bytes) (fuel start : Nat) (array : List Value), Rest s start (text ++ [newline]) →
    text.length < fuel →
    copyFields this dec s fuel start i array = .ok (array ++ vs)

/-- One round of the outer loop, on a column that reads as `v`. -/
theorem copyFields_column {i : Nat} {text rest s : Bytes} {v : Value} {ch : UInt8} {fuel start : Nat}
    {array : List Value} (column : ReadsColumn this dec i text v) (here : Rest s start (text ++ ch :: rest))
    (ends : ch = this.delimiter ∨ (ch = newline ∧ rest = [] ∧ ch ≠ this.delimiter)) :
    copyFields this dec s (fuel + 1) start i array =
      if ch = this.delimiter then copyFields this dec s fuel (start + text.length + 1) (i + 1) (array ++ [v])
      else .ok (array ++ [v]) := by
  obtain ⟨field, scans, value⟩ := column
  have scanned := scans s rest ch start here (by tauto)
  have raw : (s.drop start).take (start + text.length - start) = text := by
    rw [here, Nat.add_sub_cancel_left, List.take_left]
  have notTrailing : ¬(decide (ch = this.delimiter) = false ∧ start + text.length + 1 < s.length) := by
    rintro ⟨notDelim, more⟩
    rcases ends with delim | ⟨-, rfl, -⟩
    · simp [delim] at notDelim
    · have := congrArg List.length here
      simp only [List.length_drop, List.length_append, List.length_cons, List.length_nil] at this
      omega
  rw [copyFields]
  simp only [scanned, bind, Except.bind, raw]
  rw [if_neg notTrailing]
  simp only [value]
  by_cases delim : ch = this.delimiter <;> simp [delim, pure, Except.pure]

/-- The last column. -/
theorem ReadsColumns.single {i : Nat} {text : Bytes} {v : Value} (notNewline : this.delimiter ≠ newline)
    (column : ReadsColumn this dec i text v) : ReadsColumns this dec i text [v] := by
  intro s fuel start array here enough
  obtain ⟨fuel, rfl⟩ : ∃ n, fuel = n + 1 := ⟨fuel - 1, by omega⟩
  rw [copyFields_column column here (Or.inr ⟨rfl, rfl, notNewline.symm⟩), if_neg notNewline.symm]

/-- A column, the delimiter and the columns behind it. -/
theorem ReadsColumns.cons {i : Nat} {text following : Bytes} {v : Value} {vs : List Value}
    (column : ReadsColumn this dec i text v) (rest : ReadsColumns this dec (i + 1) following vs) :
    ReadsColumns this dec i (text ++ this.delimiter :: following) (v :: vs) := by
  intro s fuel start array here enough
  obtain ⟨fuel, rfl⟩ : ∃ n, fuel = n + 1 := ⟨fuel - 1, by omega⟩
  rw [List.length_append, List.length_cons] at enough
  have here : Rest s start (text ++ this.delimiter :: (following ++ [newline])) := by simpa using here
  rw [copyFields_column column here (Or.inl rfl), if_pos rfl,
    rest s fuel _ _ here.skip.next (by omega)]
  simp

/-- A non-empty list of fitting columns, numbered from `i`, is written and read back. -/
theorem copyColumns_reads (delimiter : CopyDelimiter this.delimiter)
    (marker : NullMarker this.delimiter this.nullString) {v : Value} {vs : List Value} {i : Nat}
    (fits : ∀ k w, (v :: vs)[k]? = some w → CopyFits this enc dec (i + k) w) :
    ∃ text, copyColumns this enc (v :: vs) i = .ok ((if i > 0 then [this.delimiter] else []) ++ text) ∧
      ReadsColumns this dec i text (v :: vs) := by
  induction vs generalizing v i with
  | nil =>
    obtain ⟨text, encoded, column⟩ := (fits 0 v rfl).reads delimiter marker
    rw [Nat.add_zero] at encoded column
    refine ⟨text, ?_, .single delimiter.newline column⟩
    rw [copyColumns, encoded, copyColumns]
    simp [bind, Except.bind, pure, Except.pure]
  | cons w vs ih =>
    obtain ⟨text, encoded, column⟩ := (fits 0 v rfl).reads delimiter marker
    rw [Nat.add_zero] at encoded column
    obtain ⟨following, rest, reads⟩ := @ih w (i + 1) fun k x hx => by
      have := fits (k + 1) x (by simpa using hx)
      rwa [show i + (k + 1) = i + 1 + k by omega] at this
    refine ⟨text ++ this.delimiter :: following, ?_, .cons column reads⟩
    rw [copyColumns, encoded, rest]
    simp [bind, Except.bind, pure, Except.pure]

/-- **The COPY row round trip**, for any type maps: a non-empty row that fits them column by column. -/
theorem copy_row_round_trip (delimiter : CopyDelimiter this.delimiter)
    (marker : NullMarker this.delimiter this.nullString) {row : List Value} (nonempty : row ≠ [])
    (accepted : enc.fitToQuery (.ary row) = .ok ()) (fits : ∀ k w, row[k]? = some w → CopyFits this enc dec k w) :
    ∃ text, pgTextEncCopyRow this enc row = .ok text ∧ pgTextDecCopyRow this dec text = .ok (.ary row) := by
  obtain ⟨v, vs, rfl⟩ := List.exists_cons_of_ne_nil nonempty
  obtain ⟨text, encoded, reads⟩ := @copyColumns_reads this enc dec delimiter marker v vs 0
    fun k w hw => by simpa using fits k w hw
  refine ⟨text ++ [newline], ?_, ?_⟩
  · simp [pgTextEncCopyRow, accepted, encoded, bind, Except.bind, pure, Except.pure]
  · rw [pgTextDecCopyRow, reads _ _ 0 [] (.zero _) (by rw [List.length_append]; omega)]
    rfl

end Rows

/-- A delimiter that is neither a letter or digit the decoder gives a meaning behind a backslash
nor one of the other escaped bytes. -/
theorem CopyDelimiter.of_plain {d : UInt8} (notLower : ¬(0x61 ≤ d ∧ d ≤ 0x7a)) (notDigit : ¬(zero ≤ d ∧ d ≤ nine))
    (notBackslash : d ≠ Ascii.backslash) (notNewline : d ≠ Ascii.newline) : CopyDelimiter d := by
  refine ⟨notBackslash, notNewline, fun s cur => ?_⟩
  have letter : ∀ c : UInt8, 0x61 ≤ c → c ≤ 0x7a → d ≠ c := fun c lo hi e => notLower (e ▸ ⟨lo, hi⟩)
  have octal : isOctal d = false := by
    simp only [isOctal, Bool.and_eq_false_iff, decide_eq_false_iff_not]
    by_contra h
    rw [not_or, not_not, not_not] at h
    exact notDigit ⟨h.1, UInt8.le_trans h.2 (by decide)⟩
  simp +decide [copyUnescape, octal, letter]

/-- **COPY text row round trip.** With the default all-strings map, decoding what the encoder writes
for a non-empty row of byte strings and `nil`s returns the row. -/
theorem text_copy_row_round_trip (rt : Runtime) (delimiter : UInt8) (nullString : Bytes) (row : List Value)
    (notLower : ¬(0x61 ≤ delimiter ∧ delimiter ≤ 0x7a)) (notDigit : ¬(zero ≤ delimiter ∧ delimiter ≤ nine))
    (notOther : delimiter ∉ [dot, backslash, newline, cr])
    (nullPlain : nul ∉ nullString ∧ newline ∉ nullString ∧ delimiter ∉ nullString)
    (nullBackslash : nullString = [backslash, upperN] ∨ backslash ∉ nullString)
    (nonempty : row ≠ []) (strings : ∀ v ∈ row, v = .nil ∨ ∃ field, v = .str field)
    (unlikeNull : ∀ field, .str field ∈ row → copyEscape delimiter field ≠ nullString) :
    (pgTextEncCopyRow { delimiter, nullString } (.allStrings rt) row >>=
      pgTextDecCopyRow { delimiter, nullString } .allStrings) = .ok (.ary row) := by
  simp only [List.mem_cons, List.not_mem_nil, or_false, not_or] at notOther
  have fits : ∀ k w, row[k]? = some w → CopyFits { delimiter, nullString } (.allStrings rt) .allStrings k w := by
    intro k w found
    have member := List.mem_of_getElem? found
    rcases strings w member with rfl | ⟨field, rfl⟩
    · exact .nil
    · refine .value (by simp) (pgCoderEncToS_encode_str rt field) rfl ?_
      rw [← copyEscape_eq]
      exact unlikeNull field member
  have literal := CopyDelimiter.of_plain notLower notDigit notOther.2.1 notOther.2.2.1
  obtain ⟨text, encoded, decoded⟩ := @copy_row_round_trip { delimiter, nullString } (.allStrings rt) .allStrings
    literal ⟨nullPlain.1, nullPlain.2.1, nullPlain.2.2, nullBackslash⟩ row nonempty rfl fits
  rw [encoded]
  exact decoded

/-- A row with a NUL, a newline, the delimiter and a `nil`, with the default markers. -/
theorem text_copy_row_round_trip_specials :
    (pgTextEncCopyRow { delimiter := tab, nullString := [backslash, upperN] } (.allStrings .sample)
        [.str [nul, newline, tab], .nil, .str [backslash, upperN]] >>=
      pgTextDecCopyRow { delimiter := tab, nullString := [backslash, upperN] } .allStrings) =
      .ok (.ary [.str [nul, newline, tab], .nil, .str [backslash, upperN]]) := by
  apply text_copy_row_round_trip
  · decide
  · decide
  · decide
  · decide
  · exact Or.inl rfl
  · simp
  · simp
  · intro field member
    simp only [List.mem_cons, Value.str.injEq, reduceCtorEq, List.not_mem_nil, or_false, false_or] at member
    rcases member with rfl | rfl <;> decide

end RubyPg.Text
