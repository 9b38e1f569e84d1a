import RubyPg.Text.Record

/-!
# The record decoder reads back what the record encoder writes

Both branches of the encoder write the same quoted column (`recordColumn_eq`), and the scan
of the decoder undoes it (`scanColumn_quoted`). `recordFields_columns` chains the columns up
to the closing parenthesis.
-/

namespace RubyPg.Text
set_option autoImplicit false
open Ascii

/-- What the encoder writes for one byte of a column. -/
abbrev recordEsc : UInt8 → Bytes := markEsc recordSpecial id

/-- A column between its quotes. -/
def recordQuoted (word : Bytes) : Bytes := dquote :: word.flatMap recordEsc ++ [dquote]

theorem recordEscape_eq (s : Bytes) : recordEscape s = s.flatMap recordEsc := by
  induction s with
  | nil => rfl
  | cons ch s ih =>
    rw [recordEscape, List.flatMap_cons, recordEsc, markEsc, ih]
    split <;> rfl

theorem recordShift_eq (written : Bytes) : recordShift written = written.flatMap recordEsc := by
  rw [recordShift, ← List.countP_reverse, escapeShift_eq, List.reverse_reverse, List.append_nil]

/-- One column that is not `nil`, whichever pass its encoder chose. -/
theorem recordColumn_eq (typemap : EncoderMap) {entry : Value} (i : Nat) (notNil : entry ≠ .nil) :
    recordColumn typemap entry i =
      (do let written ← (typemap.typecastQueryParam entry i).encode entry
          pure (recordQuoted written)) := by
  rw [Encoder.encode]
  cases answered : typemap.typecastQueryParam entry i entry with
  | error e => cases entry <;> first | exact absurd rfl notNil | simp only [recordColumn, answered, bind, Except.bind]
  | ok answer =>
    cases answer with
    | string s =>
      cases entry <;> first
        | exact absurd rfl notNil
        | simp only [recordColumn, answered, bind, Except.bind, pure, Except.pure, recordEscape_eq, recordQuoted]
    | size n second =>
      cases second with
      | error e =>
        cases entry <;> first | exact absurd rfl notNil | simp only [recordColumn, answered, bind, Except.bind]
      | ok written =>
        cases entry <;> first
          | exact absurd rfl notNil
          | simp only [recordColumn, answered, bind, Except.bind, pure, Except.pure, recordShift_eq, recordQuoted]

theorem nul_notMem_recordQuoted {word : Bytes} (nonul : nul ∉ word) : nul ∉ recordQuoted word := by
  have : nul ∉ word.flatMap recordEsc :=
    notMem_flatMap_markEsc recordSpecial id nonul fun d hd e => nonul (e ▸ hd)
  simp +decide [recordQuoted, this]

section Scanning

variable {s : Bytes}

/-- Inside quotes the scan takes one byte as the encoder writes it. -/
theorem scanColumn_byte {ch : UInt8} {rest field : Bytes} {fuel cur : Nat} (notNul : ch ≠ nul)
    (here : Rest s cur (recordEsc ch ++ rest)) :
    scanColumn s (fuel + 1) cur true field =
      scanColumn s fuel (cur + (recordEsc ch).length) true (field ++ [ch]) := by
  unfold recordEsc markEsc at here ⊢
  by_cases special : recordSpecial ch = true
  · simp only [special, if_true, List.cons_append, List.nil_append, id_eq] at here ⊢
    rw [scanColumn]
    simp only [here.getD, here.next.getD, Bool.true_eq_false, false_and, if_false]
    rw [if_neg notNul]
    simp only [recordSpecial, Bool.or_eq_true, beq_iff_eq] at special
    rcases special with rfl | rfl
    · rw [if_neg (by decide), if_pos rfl, if_pos rfl]
      rfl
    · rw [if_pos rfl]
      rfl
  · have literal : recordSpecial ch = false := by simpa using special
    simp only [literal, Bool.false_eq_true, if_false, List.cons_append, List.nil_append] at here ⊢
    simp only [recordSpecial, Bool.or_eq_true, beq_iff_eq, not_or] at special
    rw [scanColumn]
    simp only [here.getD, Bool.true_eq_false, false_and, if_false]
    rw [if_neg notNul, if_neg special.2, if_neg special.1]
    rfl

/-- Inside quotes the scan takes a whole word. -/
theorem scanColumn_escaped {word rest field : Bytes} {fuel cur : Nat} (nonul : nul ∉ word)
    (here : Rest s cur (word.flatMap recordEsc ++ rest)) :
    scanColumn s (fuel + word.length) cur true field =
      scanColumn s fuel (cur + (word.flatMap recordEsc).length) true (field ++ word) := by
  induction word generalizing cur field with
  | nil => simp
  | cons ch word ih =>
    rw [List.mem_cons, not_or] at nonul
    rw [List.flatMap_cons, List.append_assoc] at here
    rw [List.length_cons, ← Nat.add_assoc, scanColumn_byte (Ne.symm nonul.1) here, ih nonul.2 here.skip]
    simp [Nat.add_assoc]

/-- The scan takes a quoted column up to the comma or parenthesis behind it. -/
theorem scanColumn_quoted {word rest : Bytes} {ch : UInt8} {cur : Nat} (nonul : nul ∉ word)
    (here : Rest s cur (recordQuoted word ++ ch :: rest)) (ends : ch = comma ∨ ch = rparen) :
    scanColumn s (s.length + 1) cur false [] = .ok (cur + (recordQuoted word).length, word) := by
  have first : Rest s cur (dquote :: (word.flatMap recordEsc ++ dquote :: ch :: rest)) := by
    simpa [recordQuoted] using here
  have behind : Rest s (cur + 1 + (word.flatMap recordEsc).length) (dquote :: ch :: rest) := first.next.skip
  have grows : word.length ≤ (word.flatMap recordEsc).length := length_le_flatMap_markEsc recordSpecial id word
  have short := first.length_le
  simp only [List.length_cons, List.length_append] at short
  obtain ⟨fuel, enough⟩ : ∃ n, s.length = n + 2 + word.length := ⟨s.length - word.length - 2, by omega⟩
  have notQuote : ch ≠ dquote := by rcases ends with rfl | rfl <;> decide
  rw [scanColumn]
  simp only [first.getD]
  rw [if_neg (by decide), if_neg (by decide), if_neg (by decide), if_pos trivial, if_pos trivial, enough,
    scanColumn_escaped nonul first.next, scanColumn]
  simp only [behind.getD, behind.next.getD, Bool.true_eq_false, false_and, if_false]
  rw [if_neg (by decide), if_neg (by decide), if_pos trivial, if_neg notQuote, scanColumn]
  simp only [behind.next.getD, true_and]
  have length : (recordQuoted word).length = (word.flatMap recordEsc).length + 2 := by
    rw [recordQuoted, List.length_append, List.length_cons, List.length_singleton]
  rw [if_pos ends, List.nil_append, length, show cur + ((word.flatMap recordEsc).length + 2) =
    cur + 1 + (word.flatMap recordEsc).length + 1 by omega]
  rfl

end Scanning

/-- Columns that the coders of column `i` take there and back. -/
inductive RecordFits (enc : EncoderMap) (dec : DecoderMap) (i : Nat) : Value → Prop where
  | nil : RecordFits enc dec i .nil
  | value {v : Value} {text : Bytes} (notNil : v ≠ .nil)
      (encoded : (enc.typecastQueryParam v i).encode v = .ok text) (nonul : nul ∉ text)
      (decoded : dec.typecastCopyGet text i = .ok v) : RecordFits enc dec i v

/-- The text of column `i` is read as `v` up to the comma or parenthesis behind it. -/
structure ReadsField (dec : DecoderMap) (i : Nat) (text : Bytes) (v : Value) : Prop where
  nonul : nul ∉ text
  reads : ∀ (s rest : Bytes) (ch : UInt8) (cur : Nat), Rest s cur (text ++ ch :: rest) → (ch = comma ∨ ch = rparen) →
    recordField dec s cur i = .ok (cur + text.length, v)

section Records

variable {enc : EncoderMap} {dec : DecoderMap}

/-- A fitting column is written and read back. -/
theorem RecordFits.reads {i : Nat} {v : Value} (fits : RecordFits enc dec i v) :
    ∃ text, recordColumn enc v i = .ok text ∧ ReadsField dec i text v := by
  cases fits with
  | nil =>
    refine ⟨[], rfl, by simp, fun s rest ch cur here ends => ?_⟩
    have here : Rest s cur (ch :: rest) := here
    rw [recordField, here.getD, if_pos ends]
    rfl
  | @value _ text notNil encoded nonul decoded =>
    refine ⟨recordQuoted text, ?_, nul_notMem_recordQuoted nonul, fun s rest ch cur here ends => ?_⟩
    · rw [recordColumn_eq enc i notNil, encoded]
      rfl
    · have first : Rest s cur (dquote :: (text.flatMap recordEsc ++ [dquote] ++ ch :: rest)) := here
      rw [recordField, first.getD, if_neg (by decide), scanColumn_quoted nonul here ends]
      simp only [bind, Except.bind, decoded]
      rfl

/-- The columns from `i` on, up to the closing parenthesis, read as `vs`. -/
def ReadsFields (dec : DecoderMap) (i : Nat) (text : Bytes) (vs : List Value) : Prop :=
  ∀ (s : Bytes) (fuel cur : Nat) (array : List Value), Rest s cur (text ++ [rparen]) → text.length < fuel →
    recordFields dec s fuel cur i array = .ok (cur + text.length + 1, array ++ vs)

/-- The last column. -/
theorem ReadsFields.single {i : Nat} {text : Bytes} {v : Value} (field : ReadsField dec i text v) :
    ReadsFields dec i text [v] := by
  intro s fuel cur array here enough
  obtain ⟨fuel, rfl⟩ : ∃ n, fuel = n + 1 := ⟨fuel - 1, by omega⟩
  rw [recordFields, field.reads s [] rparen cur here (Or.inr rfl)]
  simp only [bind, Except.bind, here.skip.getD]
  rw [if_neg (by decide), if_pos trivial]
  rfl

/-- A column, the comma and the columns behind it. -/
theorem ReadsFields.cons {i : Nat} {text following : Bytes} {v : Value} {vs : List Value}
    (field : ReadsField dec i text v) (rest : ReadsFields dec (i + 1) following vs) :
    ReadsFields dec i (text ++ comma :: following) (v :: vs) := by
  intro s fuel cur array here enough
  obtain ⟨fuel, rfl⟩ : ∃ n, fuel = n + 1 := ⟨fuel - 1, by omega⟩
  have here : Rest s cur (text ++ comma :: (following ++ [rparen])) := by simpa using here
  rw [List.length_append, List.length_cons] at enough
  rw [recordFields, field.reads s _ comma cur here (Or.inl rfl)]
  simp only [bind, Except.bind, here.skip.getD]
  rw [if_pos trivial, rest s fuel _ _ here.skip.next (by omega)]
  simp [Nat.add_assoc, Nat.add_comm 1]

/-- A non-empty list of fitting columns, numbered from `i`, is written and read back. -/
theorem recordColumns_reads {v : Value} {vs : List Value} {i : Nat}
    (fits : ∀ k w, (v :: vs)[k]? = some w → RecordFits enc dec (i + k) w) :
    ∃ text, recordColumns enc (v :: vs) i = .ok ((if i > 0 then [comma] else []) ++ text) ∧ nul ∉ text ∧
      ReadsFields dec i text (v :: vs) := by
  induction vs generalizing v i with
  | nil =>
    obtain ⟨text, encoded, field⟩ := (fits 0 v rfl).reads
    rw [Nat.add_zero] at encoded field
    refine ⟨text, ?_, field.nonul, .single field⟩
    rw [recordColumns, encoded, recordColumns]
    simp [bind, Except.bind, pure, Except.pure]
  | cons w vs ih =>
    obtain ⟨text, encoded, field⟩ := (fits 0 v rfl).reads
    rw [Nat.add_zero] at encoded field
    obtain ⟨following, rest, nonul, reads⟩ := @ih w (i + 1) fun k x hx => by
      have := fits (k + 1) x (by simpa using hx)
      rwa [show i + (k + 1) = i + 1 + k by omega] at this
    refine ⟨text ++ comma :: following, ?_, by simp +decide [field.nonul, nonul], .cons field reads⟩
    rw [recordColumns, encoded, rest]
    simp [bind, Except.bind, pure, Except.pure]

/-- **The record round trip**, for any type maps: a record of at least one column that fits them. -/
theorem record_round_trip {row : List Value} (nonempty : row ≠ []) (accepted : enc.fitToQuery (.ary row) = .ok ())
    (fits : ∀ k w, row[k]? = some w → RecordFits enc dec k w) :
    ∃ text, (pgTextEncRecord enc).encode (.ary row) = .ok text ∧ nul ∉ text ∧
      pgTextDecRecord dec text = .ok (.ary row) := by
  obtain ⟨v, vs, rfl⟩ := List.exists_cons_of_ne_nil nonempty
  obtain ⟨body, encoded, nonul, reads⟩ := @recordColumns_reads enc dec v vs 0
    fun k w hw => by simpa using fits k w hw
  refine ⟨lparen :: body ++ [rparen], ?_, by simp +decide [nonul], ?_⟩
  · simp [Encoder.encode, pgTextEncRecord, accepted, encoded, bind, Except.bind, pure, Except.pure]
  · obtain ⟨s, hs⟩ : ∃ s, s = lparen :: body ++ [rparen] := ⟨_, rfl⟩
    have start : Rest s 0 (lparen :: (body ++ [rparen])) := by rw [hs]; exact .zero _
    have length : s.length = body.length + 2 := by simp [hs]
    have spaces : skipWhile recordIsspace s 0 = 0 := by
      rw [hs]
      simp +decide [skipWhile, recordIsspace]
    have behind : Rest s (0 + 1 + body.length + 1) [] := start.next.skip.next
    have ended : s.getD (skipWhile recordIsspace s (0 + 1 + body.length + 1)) nul = nul := by
      rw [skipWhile, behind]
      simp only [List.getD, List.takeWhile_nil, List.length_nil]
      rw [List.getElem?_eq_none (by omega)]
      rfl
    have done := reads s (s.length + 1) (0 + 1) [] start.next (by omega)
    rw [← hs]
    simp only [pgTextDecRecord, spaces, start.getD, bind, Except.bind, done, ended]
    rw [if_neg (by simp), if_neg (by simp)]
    rfl

end Records

end RubyPg.Text
