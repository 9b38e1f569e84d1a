import RubyPg.Binary.CopyRowFormat
import RubyPg.Text.Integer

/-!
# The length in front of a binary COPY field

`pg_bin_enc_copy_row` writes in front of a field what the first call of its encoder asked for, not
what the second call wrote (`pg_bin_enc_array` next to it writes the latter). The contract of the
encoders lets the second call write less, so a row is well formed exactly if no column does that.
-/

namespace RubyPg.Binary
set_option autoImplicit false
open Reader

/-- The second call writes just what the first call asked for. -/
def IsExact (enc : Encoder) (value : Value) : Prop :=
  ∀ n second written, enc value = .ok (.size n second) → second = .ok written → written.length = n

/-- What the encoders make of the entries of a row, from column `i` on. -/
def contents (typemap : EncoderMap) : List Value → Nat → Outcome (List (Option Bytes))
  | [], _ => pure []
  | .nil :: rest, i => do
    let following ← contents typemap rest (i + 1)
    pure (none :: following)
  | entry :: rest, i => do
    let field ← (typemap.typecastQueryParam entry i).encode entry
    let following ← contents typemap rest (i + 1)
    pure (some field :: following)

/-- The output is the row of what was written for each field, each behind its length, and is read as
these fields. -/
def LengthsFit (typemap : EncoderMap) (value : List Value) (out : Bytes) : Prop :=
  ∃ fields, contents typemap value 0 = .ok fields ∧ out = rowText fields ∧
    Reads lengthError (binCopyRow .allStrings) out (.ary (fields.map fieldValue))

/-- What stands in the output for a column: `NULL`, or a number and the bytes that were written. -/
inductive Column (typemap : EncoderMap) (i : Nat) : Value → Bytes → Option Bytes → Prop where
  | null : Column typemap i .nil (fieldText none) none
  | exact {entry : Value} {written : Bytes} (given : entry ≠ .nil) (small : written.length < 2 ^ 31)
      (encoded : (typemap.typecastQueryParam entry i).encode entry = .ok written)
      (same : IsExact (typemap.typecastQueryParam entry i) entry) :
      Column typemap i entry (fieldText (some written)) (some written)
  | short {entry : Value} {written : Bytes} {n : Nat} (given : entry ≠ .nil) (small : n < 2 ^ 31)
      (encoded : (typemap.typecastQueryParam entry i).encode entry = .ok written) (less : written.length < n)
      (inexact : ¬IsExact (typemap.typecastQueryParam entry i) entry) :
      Column typemap i entry (writeNbo 4 n ++ written) (some written)

section Columns

variable {typemap : EncoderMap}

theorem binCopyColumn_column {entry : Value} {i : Nat} {text : Bytes}
    (contract : KeepsContract (typemap.typecastQueryParam entry i) entry)
    (encoded : binCopyColumn typemap entry i = .ok text) : ∃ field, Column typemap i entry text field := by
  by_cases null : entry = .nil
  · subst null
    cases encoded
    exact ⟨none, .null⟩
  rw [binCopyColumn.eq_2 typemap entry i null] at encoded
  obtain ⟨answer, first, encoded⟩ := Outcome.of_bind encoded
  cases answer with
  | string subint =>
    obtain ⟨strlen, fits, encoded⟩ := Outcome.of_bind encoded
    cases encoded
    have small : subint.length < 2 ^ 31 := by
      by_contra large
      rw [rstringLenint, if_pos (by omega)] at fits
      cases fits
    rw [rstringLenint, if_neg (by omega)] at fits
    cases fits
    refine ⟨some subint, .exact null small ?_ ?_⟩
    · rw [Encoder.encode, first]
      rfl
    · intro n second written again
      rw [first] at again
      cases again
  | size n second =>
    obtain ⟨written, wrote, encoded⟩ := Outcome.of_bind encoded
    cases encoded
    obtain ⟨small, bound⟩ := contract n second first
    have less := bound written wrote
    have whole : (typemap.typecastQueryParam entry i).encode entry = .ok written := by
      rw [Encoder.encode, first]
      exact wrote
    refine ⟨some written, ?_⟩
    by_cases same : written.length = n
    · subst same
      refine .exact null small whole ?_
      intro n' second' written' again wrote'
      rw [first] at again
      cases again
      rw [wrote] at wrote'
      cases wrote'
      rfl
    · exact .short null small whole (by omega) fun exact' => same (exact' n second written first wrote)

/-- The columns in the output, from column `i` on. -/
inductive Columns (typemap : EncoderMap) : Nat → List Value → Bytes → List (Option Bytes) → Prop where
  | nil {i : Nat} : Columns typemap i [] [] []
  | cons {i : Nat} {entry : Value} {rest : List Value} {text following : Bytes} {field : Option Bytes}
      {fields : List (Option Bytes)} (first : Column typemap i entry text field)
      (others : Columns typemap (i + 1) rest following fields) :
      Columns typemap i (entry :: rest) (text ++ following) (field :: fields)

theorem binCopyColumns_columns {value : List Value} {i : Nat} {text : Bytes}
    (contract : ∀ k entry, value[k]? = some entry → KeepsContract (typemap.typecastQueryParam entry (i + k)) entry)
    (encoded : binCopyColumns typemap value i = .ok text) : ∃ fields, Columns typemap i value text fields := by
  induction value generalizing i text with
  | nil =>
    cases encoded
    exact ⟨[], .nil⟩
  | cons entry rest ih =>
    obtain ⟨written, first, encoded⟩ := Outcome.of_bind encoded
    obtain ⟨following, others, encoded⟩ := Outcome.of_bind encoded
    cases encoded
    obtain ⟨field, column⟩ := binCopyColumn_column (contract 0 entry rfl) first
    have later : ∀ k e, rest[k]? = some e → KeepsContract (typemap.typecastQueryParam e (i + 1 + k)) e := by
      intro k e found
      rw [Nat.add_assoc, Nat.add_comm 1 k]
      exact contract (k + 1) e found
    obtain ⟨fields, columns⟩ := ih later others
    exact ⟨field :: fields, .cons column columns⟩

theorem Columns.contents {value : List Value} {i : Nat} {text : Bytes} {fields : List (Option Bytes)}
    (columns : Columns typemap i value text fields) : contents typemap value i = .ok fields := by
  induction columns with
  | nil => rfl
  | @cons i entry rest text following field fields first others ih =>
    cases first with
    | null =>
      rw [Binary.contents, ih]
      rfl
    | exact given small encoded same =>
      cases entry with
      | nil => exact absurd rfl given
      | _ =>
        rw [Binary.contents, encoded, ih]
        · rfl
        · exact given
    | short given small encoded less inexact =>
      cases entry with
      | nil => exact absurd rfl given
      | _ =>
        rw [Binary.contents, encoded, ih]
        · rfl
        · exact given

theorem Columns.length {value : List Value} {i : Nat} {text : Bytes} {fields : List (Option Bytes)}
    (columns : Columns typemap i value text fields) : fields.length = value.length := by
  induction columns with
  | nil => rfl
  | cons _ _ ih => rw [List.length_cons, List.length_cons, ih]

theorem Columns.small {value : List Value} {i : Nat} {text : Bytes} {fields : List (Option Bytes)}
    (columns : Columns typemap i value text fields) : ∀ s, some s ∈ fields → s.length < 2 ^ 31 := by
  induction columns with
  | nil => exact fun s member => nomatch member
  | cons first _ ih =>
    intro s member
    rcases List.mem_cons.1 member with same | member
    · cases first with
      | null => cases same
      | exact given small =>
        cases same
        exact small
      | short given small encoded less =>
        cases same
        omega
    · exact ih s member

/-- The columns are written in the format exactly if every encoder is exact. -/
theorem Columns.format_iff {value : List Value} {i : Nat} {text : Bytes} {fields : List (Option Bytes)}
    (columns : Columns typemap i value text fields) :
    text = fieldsText fields ↔
      ∀ k entry, value[k]? = some entry → entry ≠ .nil → IsExact (typemap.typecastQueryParam entry (i + k)) entry := by
  induction columns with
  | nil => exact iff_of_true rfl (by simp)
  | @cons i entry rest text following field fields first others ih =>
    have split : (∀ k e, (entry :: rest)[k]? = some e → e ≠ .nil → IsExact (typemap.typecastQueryParam e (i + k)) e) ↔
        (entry ≠ .nil → IsExact (typemap.typecastQueryParam entry i) entry) ∧
          ∀ k e, rest[k]? = some e → e ≠ .nil → IsExact (typemap.typecastQueryParam e (i + 1 + k)) e := by
      constructor
      · intro all
        refine ⟨all 0 entry rfl, fun k e found => ?_⟩
        rw [Nat.add_assoc, Nat.add_comm 1 k]
        exact all (k + 1) e found
      · rintro ⟨one, more⟩ k e found
        cases k with
        | zero =>
          cases found
          exact one
        | succ k =>
          have later := more k e found
          rwa [Nat.add_assoc, Nat.add_comm 1 k] at later
    rw [split, ← ih, fieldsText, List.flatMap_cons]
    cases first with
    | null =>
      rw [List.append_cancel_left_eq]
      exact ⟨fun same => ⟨fun given => absurd rfl given, same⟩, fun both => both.2⟩
    | exact given small encoded same =>
      rw [List.append_cancel_left_eq]
      exact ⟨fun format => ⟨fun _ => same, format⟩, fun both => both.2⟩
    | @short _ written n given small encoded less inexact =>
      refine iff_of_false ?_ fun both => inexact (both.1 given)
      intro same
      rw [fieldText, List.append_assoc, List.append_assoc] at same
      have lengths := congrArg readNbo (List.append_inj_left same (by simp))
      rw [readNbo_length small, readNbo_length (by omega)] at lengths
      omega

end Columns

/-- **The length of a field in a binary COPY row** is that of its bytes, and the row is read back, exactly
if no encoder of the row writes less in its second call than it asked for in its first. -/
theorem lengthsFit_iff {typemap : EncoderMap} {value : List Value} {out : Bytes}
    (contract : ∀ i entry, value[i]? = some entry → KeepsContract (typemap.typecastQueryParam entry i) entry)
    (encoded : pgBinEncCopyRow typemap value = .ok out) :
    LengthsFit typemap value out ↔
      ∀ i entry, value[i]? = some entry → entry ≠ .nil → IsExact (typemap.typecastQueryParam entry i) entry := by
  unfold pgBinEncCopyRow at encoded
  by_cases many : value.length ≥ 32768
  · rw [if_pos many] at encoded
    cases encoded
  rw [if_neg many] at encoded
  obtain ⟨_, -, encoded⟩ := Outcome.of_bind encoded
  obtain ⟨text, written, encoded⟩ := Outcome.of_bind encoded
  cases encoded
  have fromZero : ∀ k entry, value[k]? = some entry → KeepsContract (typemap.typecastQueryParam entry (0 + k)) entry := by
    intro k entry found
    rw [Nat.zero_add]
    exact contract k entry found
  obtain ⟨fields, columns⟩ := binCopyColumns_columns fromZero written
  have exactly := columns.format_iff
  simp only [Nat.zero_add] at exactly
  have count := columns.length
  rw [← exactly]
  constructor
  · rintro ⟨fields', same, format, -⟩
    rw [columns.contents] at same
    cases same
    rw [rowText, count] at format
    exact List.append_cancel_left format
  · rintro rfl
    have row : writeNbo 2 value.length ++ fieldsText fields = rowText fields := by rw [rowText, count]
    refine ⟨fields, columns.contents, row, ?_⟩
    rw [row]
    exact binCopyRow_reads (by omega) columns.small (casts_allStrings fields 0)

/-- One column of integers in decimal. -/
def integerColumn : EncoderMap := .byColumn [some (Text.pgTextEncInteger .sample)] (.allStrings .sample)

theorem integer_encodes {i : Int} (fixnum : isFixnum i = true) :
    Text.pgTextEncInteger .sample (.int i) = .ok (.size (Text.integerSize i) (.ok (Text.writeInteger i))) := by
  rw [Text.pgTextEncInteger]
  simp only [Text.pgObjToI, pure, Except.pure, bind, Except.bind, fixnum, if_true]

theorem integer_three : Text.pgTextEncInteger .sample (.int 3) = .ok (.size 1 (.ok [0x33])) := by
  have digits : Text.writeInteger 3 = [0x33] := by simp [Text.writeInteger, digitsBack]
  rw [integer_encodes (by decide), digits]
  rfl

/-- The size is guessed from the bits, three a digit: two digits for the four bits of 8. -/
theorem integer_eight : Text.pgTextEncInteger .sample (.int 8) = .ok (.size 2 (.ok [0x38])) := by
  have digits : Text.writeInteger 8 = [0x38] := by simp [Text.writeInteger, digitsBack]
  rw [integer_encodes (by decide), digits]
  rfl

theorem binCopyColumn_size {typemap : EncoderMap} {entry : Value} {i n : Nat} {written : Bytes} (given : entry ≠ .nil)
    (first : typemap.typecastQueryParam entry i entry = .ok (.size n (.ok written))) :
    binCopyColumn typemap entry i = .ok (writeNbo 4 n ++ written) := by
  rw [binCopyColumn, first]
  · rfl
  · exact given

/-- Two columns of integers and one of strings. -/
def threeColumns : EncoderMap :=
  .byColumn [some (Text.pgTextEncInteger .sample), some (Text.pgTextEncInteger .sample), none] (.allStrings .sample)

/-- The entries of a row `[3, nil, "ab"]` for `threeColumns`. -/
theorem threeColumns_cases {i : Nat} {entry : Value} (found : [Value.int 3, .nil, .str [0x61, 0x62]][i]? = some entry)
    {n : Nat} {second : Outcome Bytes} (first : threeColumns.typecastQueryParam entry i entry = .ok (.size n second)) :
    n = 1 ∧ second = .ok [0x33] := by
  match i, found with
  | 0, rfl =>
    cases integer_three.symm.trans first
    exact ⟨rfl, rfl⟩
  | 1, rfl => cases first
  | 2, rfl => cases first

theorem lengthsFit_three :
    LengthsFit threeColumns [.int 3, .nil, .str [0x61, 0x62]]
      [0, 3, 0, 0, 0, 1, 0x33, 0xff, 0xff, 0xff, 0xff, 0, 0, 0, 2, 0x61, 0x62] := by
  have encoded : pgBinEncCopyRow threeColumns [.int 3, .nil, .str [0x61, 0x62]] =
      .ok [0, 3, 0, 0, 0, 1, 0x33, 0xff, 0xff, 0xff, 0xff, 0, 0, 0, 2, 0x61, 0x62] := by
    have column := @binCopyColumn_size threeColumns (.int 3) 0 1 [0x33] Value.noConfusion integer_three
    rw [pgBinEncCopyRow, binCopyColumns, column]
    rfl
  refine (lengthsFit_iff ?_ encoded).2 ?_
  · intro i entry found n second first
    obtain ⟨rfl, rfl⟩ := threeColumns_cases found first
    exact ⟨by decide, fun written wrote => by cases wrote; decide⟩
  · intro i entry found given n second written first wrote
    obtain ⟨rfl, rfl⟩ := threeColumns_cases found first
    cases wrote
    rfl

/-- The integer encoder asks for two bytes for 8 and writes one: the row is one byte short. -/
theorem not_lengthsFit_eight :
    (∀ i entry, [Value.int 8][i]? = some entry → KeepsContract (integerColumn.typecastQueryParam entry i) entry) ∧
      pgBinEncCopyRow integerColumn [.int 8] = .ok [0, 1, 0, 0, 0, 2, 0x38] ∧
      ¬LengthsFit integerColumn [.int 8] [0, 1, 0, 0, 0, 2, 0x38] := by
  refine ⟨?_, ?_, ?_⟩
  · intro i entry found n second first
    obtain ⟨rfl, rfl⟩ : i = 0 ∧ entry = .int 8 := by
      cases i <;> simp_all
    cases integer_eight.symm.trans first
    constructor
    · decide
    · intro written wrote
      cases wrote
      decide
  · have column := @binCopyColumn_size integerColumn (.int 8) 0 2 [0x38] Value.noConfusion integer_eight
    rw [pgBinEncCopyRow, binCopyColumns, column]
    rfl
  · rintro ⟨fields, wrote, format, -⟩
    have single : contents integerColumn [.int 8] 0 = .ok [some [0x38]] := by
      have encoded : (integerColumn.typecastQueryParam (.int 8) 0).encode (.int 8) = .ok [0x38] := by
        have first : integerColumn.typecastQueryParam (.int 8) 0 (.int 8) = .ok (.size 2 (.ok [0x38])) := integer_eight
        rw [Encoder.encode, first]
        rfl
      rw [contents, encoded]
      · rfl
      · exact Value.noConfusion
    rw [single] at wrote
    cases wrote
    exact absurd format (by decide)

end RubyPg.Binary
