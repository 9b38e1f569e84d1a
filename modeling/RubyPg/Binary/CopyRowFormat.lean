import RubyPg.Binary.CopyRow

/-!
# The binary COPY row format

What the encoder writes is read back field by field, with or without the file header in front, and
every cut and every addition is noticed. A row does not look like a file header: one with the
field count `"PG"` would have to go on with the length `"COPY"` of its first field, which is over
a gigabyte.
-/

namespace RubyPg.Binary
set_option autoImplicit false
open Reader

/-- The fields of a row in the format. -/
def fieldsText (fields : List (Option Bytes)) : Bytes := fields.flatMap fieldText

/-- A row in the format. -/
def rowText (fields : List (Option Bytes)) : Bytes := writeNbo 2 fields.length ++ fieldsText fields

/-- The file trailer. -/
def trailer : Bytes := [0xff, 0xff]

/-- A file header with these flags and this extension. -/
def headerText (flags ext : Bytes) : Bytes := binarySignature ++ (flags ++ (writeNbo 4 ext.length ++ ext))

/-- What may stand in front of a row: nothing, or a file header. -/
inductive Framing : Bytes → Prop where
  | none : Framing []
  | header {flags ext : Bytes} (four : flags.length = 4) (stated : ext.length < 2 ^ 31) : Framing (headerText flags ext)

theorem readNbo_count {n : Nat} (few : n < 32768) : readNbo (writeNbo 2 n) = n := by
  have size : ((256 ^ 2 : Nat) : Int) = 65536 := by decide
  apply readNbo_writeNbo
  · omega
  · omega

section Encoder

variable (rt : Runtime)

theorem binCopyColumn_eq {field : Option Bytes} {i : Nat} (small : ∀ s, field = some s → s.length < 2 ^ 31) :
    binCopyColumn (.allStrings rt) (fieldValue field) i = .ok (fieldText field) := by
  cases field with
  | none => rfl
  | some s =>
    have fits : rstringLenint s = .ok (s.length : Int) := if_neg (Nat.not_le_of_lt (small s rfl))
    show (do
      let strlen ← rstringLenint s
      pure (writeNbo 4 strlen ++ s) : Outcome Bytes) = _
    rw [fits]
    rfl

theorem binCopyColumns_eq {fields : List (Option Bytes)} {i : Nat}
    (small : ∀ s, some s ∈ fields → s.length < 2 ^ 31) :
    binCopyColumns (.allStrings rt) (fields.map fieldValue) i = .ok (fieldsText fields) := by
  induction fields generalizing i with
  | nil => rfl
  | cons field rest ih =>
    have first : ∀ s, field = some s → s.length < 2 ^ 31 := by
      rintro s rfl
      exact small s List.mem_cons_self
    have later := @ih (i + 1) fun s member => small s (List.mem_cons_of_mem _ member)
    rw [List.map_cons, binCopyColumns, binCopyColumn_eq rt first, later]
    rfl

/-- The encoder writes the format. -/
theorem pgBinEncCopyRow_eq {fields : List (Option Bytes)} (few : fields.length < 32768)
    (small : ∀ s, some s ∈ fields → s.length < 2 ^ 31) :
    pgBinEncCopyRow (.allStrings rt) (fields.map fieldValue) = .ok (rowText fields) := by
  unfold pgBinEncCopyRow rowText
  rw [List.length_map]
  dsimp only
  rw [if_neg (Nat.not_le_of_lt few), binCopyColumns_eq rt small]
  rfl

end Encoder

section Decoder

variable {typemap : DecoderMap}

/-- The field `i` is cast to the value. -/
def CastsTo (typemap : DecoderMap) (i : Nat) (v : Value) : Option Bytes → Prop
  | none => v = .nil
  | some field => typemap.typecastCopyGet field i = .ok v

/-- The fields are cast to the values, from field `i` on. -/
def Casts (typemap : DecoderMap) : Nat → List (Option Bytes) → List Value → Prop
  | _, [], values => values = []
  | i, field :: rest, values =>
    ∃ v later, values = v :: later ∧ CastsTo typemap i v field ∧ Casts typemap (i + 1) rest later

theorem casts_allStrings (fields : List (Option Bytes)) (i : Nat) :
    Casts .allStrings i fields (fields.map fieldValue) := by
  induction fields generalizing i with
  | nil => rfl
  | cons field rest ih =>
    refine ⟨fieldValue field, rest.map fieldValue, rfl, ?_, ih (i + 1)⟩
    cases field with
    | none => rfl
    | some s => rfl

/-- One field is read. -/
theorem binCopyField_reads {field : Option Bytes} {v : Value} {i : Nat}
    (small : ∀ s, field = some s → s.length < 2 ^ 31) (casts : CastsTo typemap i v field) :
    Reads lengthError (binCopyField typemap i) (fieldText field) v := by
  apply Reads.field small
  · rintro rfl
    exact casts
  · rintro s rfl
    exact casts

theorem binCopyFields_reads {fields : List (Option Bytes)} {values : List Value} {i : Nat}
    (small : ∀ s, some s ∈ fields → s.length < 2 ^ 31) (casts : Casts typemap i fields values) :
    Reads lengthError (binCopyFields typemap fields.length i) (fieldsText fields) values := by
  induction fields generalizing i values with
  | nil =>
    cases casts
    exact .pure _
  | cons field rest ih =>
    obtain ⟨v, later, rfl, cast, casts⟩ := casts
    have first : ∀ s, field = some s → s.length < 2 ^ 31 := by
      rintro s rfl
      exact small s List.mem_cons_self
    have following := ih (fun s member => small s (List.mem_cons_of_mem _ member)) casts
    exact .bind (binCopyField_reads first cast) (.map following rfl)

/-- **A row is read back.** -/
theorem binCopyRow_reads {fields : List (Option Bytes)} {values : List Value} (few : fields.length < 32768)
    (small : ∀ s, some s ∈ fields → s.length < 2 ^ 31) (casts : Casts typemap 0 fields values) :
    Reads lengthError (binCopyRow typemap) (rowText fields) (.ary values) := by
  have count := readNbo_count few
  refine .bind (Reads.take (length_writeNbo 2 fields.length)) ?_
  rw [if_neg (by omega), count, Int.toNat_natCast]
  exact .map (binCopyFields_reads small casts) rfl

theorem trailer_reads : Reads lengthError (binCopyRow typemap) trailer .nil := by
  have minus : readNbo trailer = -1 := by decide
  refine .map (@Reads.take Stop lengthError trailer 2 rfl) ?_
  rw [if_pos (by omega), if_neg (not_not.2 minus)]

/-- The flags and an extension of the stated length are dropped. -/
theorem dropExtension_reads {flags ext : Bytes} (four : flags.length = 4) (stated : ext.length < 2 ^ 31) :
    Reads lengthError dropExtension (flags ++ (writeNbo 4 ext.length ++ ext)) () := by
  have length := readNbo_length stated
  refine .bind (Reads.take four) (.bind (Reads.takeIf (length_writeNbo 4 ext.length) ?_) ?_)
  · rw [length]
    exact decide_eq_true (Int.natCast_nonneg _)
  · rw [length, Int.toNat_natCast]
    exact .map (Reads.take rfl) rfl

end Decoder

section Headers

variable {typemap : DecoderMap} {fields : List (Option Bytes)}

/-- **A row does not look like a file header**, whatever follows it. -/
theorem rowText_unlike (few : fields.length < 32768) (first : ∀ s, fields.head? = some (some s) → s.length < 2 ^ 30)
    (rest : Bytes) : ¬binarySignature <+: rowText fields ++ rest := by
  rintro ⟨behind, same⟩
  have parts : [0x50, 0x47] ++ ([0x43, 0x4f, 0x50, 0x59] ++ ([0x0a, 0xff, 0x0d, 0x0a, 0x00] ++ behind)) =
      writeNbo 2 fields.length ++ (fieldsText fields ++ rest) := by
    rw [← List.append_assoc (writeNbo 2 _)]
    exact same
  obtain ⟨count, later⟩ := List.append_inj parts (length_writeNbo 2 fields.length).symm
  have many : fields.length = 20551 := by
    have value := readNbo_count few
    rw [← count, show readNbo [0x50, 0x47] = 20551 by decide] at value
    omega
  cases fields with
  | nil => cases many
  | cons field others =>
    have copy : readNbo [0x43, 0x4f, 0x50, 0x59] = 1129271385 := by decide
    cases field with
    | none =>
      rw [fieldsText, List.flatMap_cons, fieldText, List.append_assoc] at later
      have length := (List.append_inj later (length_writeNbo 4 _).symm).1
      rw [length] at copy
      exact absurd copy (by decide)
    | some s =>
      have small := first s rfl
      rw [fieldsText, List.flatMap_cons, fieldText, List.append_assoc, List.append_assoc] at later
      have length := (List.append_inj later (length_writeNbo 4 _).symm).1
      rw [length, readNbo_length (by omega)] at copy
      omega

theorem trailer_unlike (rest : Bytes) : ¬binarySignature <+: trailer ++ rest := by
  rintro ⟨behind, same⟩
  have first := congrArg List.head? same
  cases first

/-- Input that does not begin with the signature is left alone. -/
theorem dropHeader_none {input : Bytes} (unlike : ¬binarySignature <+: input) (pos : Nat) :
    dropHeader ⟨pos, input⟩ = (.ok (), ⟨pos, input⟩) := by
  have missing : ¬(11 ≤ input.length ∧ input.take 11 = binarySignature) := by
    rintro ⟨-, same⟩
    exact unlike ⟨input.drop 11, by rw [← same, List.take_append_drop]⟩
  unfold dropHeader
  rw [Method.read_bind, if_neg missing]
  rfl

/-- Behind the signature the flags and the extension are dropped. -/
theorem dropHeader_signature (input : Bytes) (pos : Nat) :
    dropHeader ⟨pos, binarySignature ++ input⟩ = dropExtension ⟨pos + 11, input⟩ := by
  have there : 11 ≤ (binarySignature ++ input).length ∧ (binarySignature ++ input).take 11 = binarySignature := by
    constructor
    · rw [List.length_append]
      exact Nat.le_add_right 11 _
    · exact @List.take_left _ binarySignature input
  unfold dropHeader
  rw [Method.read_bind, if_pos there]
  rfl

/-- The bytes `"COPY"` are too large a length for the rest of the signature. -/
theorem binCopyField_copy {part : Bytes} (inside : part <+: [0x43, 0x4f, 0x50, 0x59] ++ [0x0a, 0xff, 0x0d, 0x0a, 0x00])
    (cut : part ≠ [0x43, 0x4f, 0x50, 0x59] ++ [0x0a, 0xff, 0x0d, 0x0a, 0x00]) (i pos : Nat) :
    ∃ p s, binCopyField typemap i ⟨pos, part⟩ = (.error (lengthError p), s) := by
  have copy : readNbo [0x43, 0x4f, 0x50, 0x59] = 1129271385 := by decide
  have length := @Reads.take Stop lengthError [0x43, 0x4f, 0x50, 0x59] 4 rfl
  rcases prefix_append_cases inside cut with ⟨inside, cut⟩ | ⟨later, rfl, inside, -⟩
  · obtain ⟨p, s, run⟩ := length.cut pos part inside cut
    exact ⟨p, s, Method.bind_error run⟩
  · have few : later.length < 1129271385 := Nat.lt_of_le_of_lt inside.length_le (by decide)
    have missing : take lengthError 1129271385 ⟨pos + 4, later⟩ = (.error (lengthError (pos + 4)), ⟨pos + 4, later⟩) :=
      if_pos (Or.inl few)
    refine ⟨pos + 4, ⟨pos + 4, later⟩, (Method.bind_ok (length.whole pos later)).trans ?_⟩
    rw [if_neg (by omega), copy]
    exact Method.bind_error missing

/-- A file that ends within the signature is cut, too: it is read as a row of many fields. -/
theorem binCopyRow_signature {part : Bytes} (inside : part <+: binarySignature) (cut : part ≠ binarySignature)
    (pos : Nat) : ∃ p s, binCopyRow typemap ⟨pos, part⟩ = (.error (lengthError p), s) := by
  have many : (readNbo [0x50, 0x47]).toNat = 20550 + 1 := by decide
  have count := @Reads.take Stop lengthError [0x50, 0x47] 2 rfl
  have split : binarySignature = [0x50, 0x47] ++ ([0x43, 0x4f, 0x50, 0x59] ++ [0x0a, 0xff, 0x0d, 0x0a, 0x00]) := rfl
  rw [split] at inside cut
  rcases prefix_append_cases inside cut with ⟨inside, cut⟩ | ⟨later, rfl, inside, cut⟩
  · obtain ⟨p, s, run⟩ := count.cut pos part inside cut
    exact ⟨p, s, Method.bind_error run⟩
  · obtain ⟨p, s, run⟩ := @binCopyField_copy typemap later inside cut 0 (pos + 2)
    refine ⟨p, s, (Method.bind_ok (count.whole pos later)).trans ?_⟩
    rw [if_neg (by decide), many]
    exact Method.bind_error (Method.bind_error run)

/-- The reader of a whole message. -/
def binCopyMessage (typemap : DecoderMap) : Reader Stop Value := do
  dropHeader
  binCopyRow typemap

/-- What does not begin like a header is read as a row. -/
theorem row_reads {bs : Bytes} {v : Value} (unlike : ∀ rest, ¬binarySignature <+: bs ++ rest)
    (row : Reads lengthError (binCopyRow typemap) bs v) : Reads lengthError (binCopyMessage typemap) bs v := by
  constructor
  · intro pos rest
    rw [binCopyMessage, Method.bind_ok (dropHeader_none (unlike rest) pos)]
    exact row.whole pos rest
  · intro pos part inside cut
    have plain : ¬binarySignature <+: part := by
      intro signed
      obtain ⟨rest, rfl⟩ := inside
      apply unlike []
      rw [List.append_nil]
      exact signed.trans (List.prefix_append part rest)
    rw [binCopyMessage, Method.bind_ok (dropHeader_none plain pos)]
    exact row.cut pos part inside cut

/-- What is read as a row is read behind a header, too. -/
theorem header_reads {flags ext bs : Bytes} {v : Value} (four : flags.length = 4) (stated : ext.length < 2 ^ 31)
    (row : Reads lengthError (binCopyRow typemap) bs v) :
    Reads lengthError (binCopyMessage typemap) (headerText flags ext ++ bs) v := by
  have later : Reads lengthError (dropExtension >>= fun _ => binCopyRow typemap)
      ((flags ++ (writeNbo 4 ext.length ++ ext)) ++ bs) v := .bind (dropExtension_reads four stated) row
  have split : headerText flags ext ++ bs = binarySignature ++ ((flags ++ (writeNbo 4 ext.length ++ ext)) ++ bs) :=
    List.append_assoc _ _ _
  rw [split]
  constructor
  · intro pos rest
    have length : ∀ input : Bytes, (binarySignature ++ input).length = 11 + input.length := fun _ => List.length_append
    rw [binCopyMessage, List.append_assoc, Method.bind_congr (dropHeader_signature _ pos), later.whole,
      length, Nat.add_assoc]
  · intro pos part inside cut
    rcases prefix_append_cases inside cut with ⟨inside, cut⟩ | ⟨behind, rfl, inside, cut⟩
    · have plain : ¬binarySignature <+: part := fun signed => cut (inside.eq_of_length_le signed.length_le)
      rw [binCopyMessage, Method.bind_ok (dropHeader_none plain pos)]
      exact binCopyRow_signature inside cut pos
    · rw [binCopyMessage, Method.bind_congr (dropHeader_signature _ pos)]
      exact later.cut (pos + 11) behind inside cut

/-- **Framed rows and trailers are read.** -/
theorem Framing.reads {header bs : Bytes} {v : Value} (framing : Framing header)
    (unlike : ∀ rest, ¬binarySignature <+: bs ++ rest) (row : Reads lengthError (binCopyRow typemap) bs v) :
    Reads lengthError (binCopyMessage typemap) (header ++ bs) v := by
  cases framing with
  | none => exact row_reads unlike row
  | header four stated => exact header_reads four stated row

end Headers

/-- **The binary COPY row format.** What the encoder writes for a row is decoded to the row, and the
trailer to `nil`, each of them with a file header in front or without one; every part of such a
message is a premature end, and every byte behind it is noticed. -/
theorem bin_copy_row_format (rt : Runtime) (fields : List (Option Bytes)) (few : fields.length < 32768)
    (first : ∀ s, fields.head? = some (some s) → s.length < 2 ^ 30) (total : (rowText fields).length < 2 ^ 31)
    (header : Bytes) (framing : Framing header) :
    pgBinEncCopyRow (.allStrings rt) (fields.map fieldValue) = .ok (rowText fields) ∧
      ∀ message, (message = (header ++ rowText fields, Value.ary (fields.map fieldValue)) ∨
          message = (header ++ trailer, Value.nil)) →
        pgBinDecCopyRow .allStrings message.1 = .ok message.2 ∧
          (∀ part, part <+: message.1 → part ≠ message.1 →
            ∃ position, pgBinDecCopyRow .allStrings part = .error (lengthError position)) ∧
          ∀ extra, extra ≠ [] →
            pgBinDecCopyRow .allStrings (message.1 ++ extra) = .error (trailingData message.1.length) := by
  have small : ∀ s, some s ∈ fields → s.length < 2 ^ 31 := by
    intro s member
    have part : s.length ≤ (fieldsText fields).length := length_le_of_mem member
    rw [rowText, List.length_append] at total
    omega
  refine ⟨pgBinEncCopyRow_eq rt few small, ?_⟩
  have decoded : ∀ bs v, Reads lengthError (binCopyMessage .allStrings) bs v →
      pgBinDecCopyRow .allStrings bs = .ok v ∧
        (∀ part, part <+: bs → part ≠ bs → ∃ position, pgBinDecCopyRow .allStrings part = .error (lengthError position)) ∧
        ∀ extra, extra ≠ [] → pgBinDecCopyRow .allStrings (bs ++ extra) = .error (trailingData bs.length) := by
    intro bs v reads
    obtain ⟨whole, cut, trailing⟩ := reads.all trailingData
    refine ⟨whole 0, cut 0, ?_⟩
    intro extra more
    have raised := trailing 0 extra more
    rwa [Nat.zero_add] at raised
  rintro message (rfl | rfl)
  · apply decoded
    exact framing.reads (rowText_unlike few first) (binCopyRow_reads few small (casts_allStrings fields 0))
  · apply decoded
    exact framing.reads trailer_unlike trailer_reads

/-- A row with a `nil`, behind a header with two bytes of extension. -/
theorem bin_copy_row_format_header :
    pgBinDecCopyRow .allStrings (headerText [0, 0, 0, 0] [1, 2] ++ rowText [some [0x78, 0x00], none]) =
      .ok (.ary [.str [0x78, 0x00], .nil]) := by
  have format := bin_copy_row_format .sample [some [0x78, 0x00], none] (by decide) (by simp) (by decide)
    (headerText [0, 0, 0, 0] [1, 2]) (.header rfl (by decide))
  exact (format.2 _ (Or.inl rfl)).1

end RubyPg.Binary
