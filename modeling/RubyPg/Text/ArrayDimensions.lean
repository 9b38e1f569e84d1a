import RubyPg.Text.ArrayBounds
import RubyPg.Text.ArrayGrammar

/-!
# Dimension items in front of an array

`pg_text_dec_array` reads an array behind other text with the same `index` and against the
length of the whole string. `Reading.shift` moves a derivation behind that text, and with
enough fuel a loop has one answer (`Reading.unique`), so the body is read as if it stood
alone; what `Dims.skipDims` passes over leaves no trace.
-/

namespace RubyPg.Text
set_option autoImplicit false
open Ascii

/-- The same variables, `n` characters further on. -/
def ReadState.shift (n : Nat) (st : ReadState) : ReadState := { st with index := n + st.index }

/-- The same result, `n` characters further on. -/
def ReadResult.shift (n : Nat) (r : ReadResult) : ReadResult := { r with index := n + r.index }

section Shift

variable {this : CompositeDecoder} {front s : Bytes}

/-- A loop has one answer. -/
theorem Reading.unique {st : ReadState} {out out' : Outcome ReadResult} (behind : st.wordIndex ≤ st.index)
    (reading : Reading this s st out) (reading' : Reading this s st out') : out = out' := by
  have enough : 2 * (s.length - st.index) < 2 * (s.length - st.index) + 1 := Nat.lt_succ_self _
  rw [← Guarded.readLoop_eq reading _ behind enough, ← Guarded.readLoop_eq reading' _ behind enough]

/-- The end of a word does not look at the index. -/
theorem endWord_shift (n : Nat) (st : ReadState) : endWord this (st.shift n) = (endWord this st).map (.shift n) := by
  unfold endWord
  show (if st.escapeNext = true then _ else if st.openQuote = .never ∧ st.wordIndex = 4 ∧ st.text = null then _
    else this.elem st.text >>= _) = _
  by_cases escape : st.escapeNext = true
  · rw [if_pos escape, if_pos escape]
    rfl
  rw [if_neg escape, if_neg escape]
  by_cases spelled : st.openQuote = .never ∧ st.wordIndex = 4 ∧ st.text = null
  · rw [if_pos spelled, if_pos spelled]
    rfl
  rw [if_neg spelled, if_neg spelled]
  cases this.elem st.text with
  | error stop => rfl
  | ok val => rfl

theorem premature_shift (n : Nat) (st : ReadState) :
    premature this (st.shift n) = (premature this st).map (.shift n) := by
  unfold premature
  cases arrayParserError this "premature end of the array string" with
  | error stop => rfl
  | ok _ => rfl

/-- The loop reads behind other text as it does without it. -/
theorem Reading.shift {st : ReadState} {out : Outcome ReadResult} (reading : Reading this s st out) :
    Reading this (front ++ s) (st.shift front.length) (out.map (.shift front.length)) := by
  induction reading with
  | off here =>
    rw [← premature_shift]
    apply Reading.off
    rw [List.length_append]
    exact Nat.add_le_add_left here _
  | @raised st c t stop here outside ends ended =>
    have ended' : endWord this (st.shift front.length) = .error stop := by
      rw [endWord_shift, ended]
      rfl
    exact .raised (Rest.shift_iff.2 here) outside ends ended'
  | @close st st' t here outside ended =>
    have ended' : endWord this (st.shift front.length) = .ok (st'.shift front.length) := by
      rw [endWord_shift, ended]
      rfl
    have closed : Reading this (front ++ s) (st.shift front.length) (.ok (st'.shift front.length).result) :=
      .close (Rest.shift_iff.2 here) outside ended'
    exact closed
  | @delimiter st st' t out here outside notRbrace ended next ih =>
    have ended' : endWord this (st.shift front.length) = .ok (st'.shift front.length) := by
      rw [endWord_shift, ended]
      rfl
    exact .delimiter (Rest.shift_iff.2 here) outside notRbrace ended' ih
  | openQuotes here outside free next ih => exact .openQuotes (Rest.shift_iff.2 here) outside free ih
  | emptySub here outside free next ih => exact .emptySub (Rest.shift_iff.2 here) outside free ih
  | subRaised here outside free nonempty sub ih => exact .subRaised (Rest.shift_iff.2 here) outside free nonempty ih
  | sub here outside free nonempty inner next ihInner ih =>
    exact .sub (Rest.shift_iff.2 here) outside free nonempty ihInner ih
  | nul here outside free =>
    rw [← premature_shift]
    exact .nul (Rest.shift_iff.2 here) outside free
  | char here outside plain next ih => exact .char (Rest.shift_iff.2 here) outside plain ih
  | escaped here inside escape next ih => exact .escaped (Rest.shift_iff.2 here) inside escape ih
  | backslash here inside literal next ih => exact .backslash (Rest.shift_iff.2 here) inside literal ih
  | closeQuotes here inside literal next ih => exact .closeQuotes (Rest.shift_iff.2 here) inside literal ih
  | quoted here inside literal notBackslash notDquote next ih =>
    exact .quoted (Rest.shift_iff.2 here) inside literal notBackslash notDquote ih

/-- What stands behind an opening brace is read alike. -/
theorem readBody_shift (index : Nat) :
    readBody this (front ++ s) (front.length + index) = (readBody this s index).map (.shift front.length) := by
  obtain ⟨here, -⟩ | ⟨elsewhere, reading⟩ := readBody_cases this s index
  · have there : Rest (front ++ s) (front.length + index) (rbrace :: s.drop (index + 1)) := Rest.shift_iff.2 here
    rw [readBody, if_pos ⟨there.lt, there.getD nul⟩, readBody, if_pos ⟨here.lt, here.getD nul⟩]
    rfl
  · obtain ⟨there, -⟩ | ⟨-, reading'⟩ := readBody_cases this (front ++ s) (front.length + index)
    · exact absurd (Rest.shift_iff.1 there) (elsewhere _)
    · exact reading'.unique (Nat.zero_le _) reading.shift

end Shift

section Dimensions

variable {this : CompositeDecoder}

/-- The decorations in front of a body: whitespace, dimension items with whitespace between them, `=`, whitespace. -/
inductive Decoration : Bytes → Prop where
  | mk {before items between : Bytes} (leads : Blank before) (dims : Dims Blank items) (blank : Blank between) :
      Decoration (before ++ (items ++ equals :: between))

/-- Decorations lead to the opening brace behind them. -/
theorem readToClose_decorated {front : Bytes} (decoration : Decoration front) (body : Bytes) :
    readToClose this (front ++ lbrace :: body) = readBody this (front ++ lbrace :: body) (front.length + 1) := by
  obtain @⟨before, items, between, leads, dims, blank⟩ := decoration
  obtain ⟨s, whole⟩ : ∃ s, s = before ++ (items ++ equals :: between) ++ lbrace :: body := ⟨_, rfl⟩
  rw [← whole]
  have start : Rest s 0 (before ++ (items ++ equals :: (between ++ lbrace :: body))) := by
    rw [whole]
    simp [Rest]
  obtain ⟨n, some', skipped⟩ := @Dims.skipDims this s items dims (s.length + 1) 0 0 before _ leads start
    (by rw [whole]; simp only [List.length_append, List.length_cons]; omega)
  have assigned : Rest s (0 + before.length + items.length) (equals :: (between ++ lbrace :: body)) := start.skip.skip
  have stops : skipWhile arrayIsspace s (0 + before.length + items.length + 1) =
      0 + before.length + items.length + 1 + between.length :=
    assigned.next.skipWhile_eq blank fun d v same => (List.cons.inj same).1 ▸ rfl
  have opening : Rest s (0 + before.length + items.length + 1 + between.length) (lbrace :: body) := assigned.next.skip
  have length : (before ++ (items ++ equals :: between)).length = 0 + before.length + items.length + 1 + between.length := by
    simp only [List.length_append, List.length_cons]
    omega
  have arrived : skipAssignment this s (0 + before.length + items.length) n =
      .ok (0 + before.length + items.length + 1 + between.length) := by
    rw [skipAssignment, if_neg (Nat.pos_iff_ne_zero.1 some'), assigned.getD, if_neg (not_not.2 rfl)]
    exact congrArg Except.ok stops
  rw [length]
  simp only [readToClose, skipped, bind, Except.bind, arrived, expectBrace, opening.getD, ne_eq, not_true_eq_false,
    if_false, pure, Except.pure]

/-- Without decorations the opening brace comes first. -/
theorem readToClose_bare (body : Bytes) : readToClose this (lbrace :: body) = readBody this (lbrace :: body) 1 := by
  have start : Rest (lbrace :: body) 0 ([] ++ lbrace :: body) := .zero _
  have skipped : skipDims this (lbrace :: body) ((lbrace :: body).length + 1) 0 0 = .ok (0, 0) :=
    skipDims_end (List.forall_mem_nil _) start rfl (by decide)
  have stays : skipAssignment this (lbrace :: body) 0 0 = .ok 0 := if_pos rfl
  simp only [readToClose, skipped, bind, Except.bind, stays, expectBrace, start.getD, ne_eq, not_true_eq_false, if_false,
    pure, Except.pure]

/-- Up to the closing brace the decorations only move the index. -/
theorem readToClose_shift {front : Bytes} (decoration : Decoration front) (body : Bytes) :
    readToClose this (front ++ lbrace :: body) =
      (readToClose this (lbrace :: body)).map (.shift front.length) := by
  rw [readToClose_decorated decoration, readToClose_bare, readBody_shift]

/-- What follows the closing brace is found behind the text in front. -/
structure SameBehind (s s' : Bytes) (index index' : Nat) : Prop where
  brace : s.getD index nul = s'.getD index' nul
  junk : s.drop (index + 1) = s'.drop (index' + 1)
  within : index ≤ s.length ↔ index' ≤ s'.length

theorem sameBehind_shift (front s : Bytes) (index : Nat) : SameBehind (front ++ s) s (front.length + index) index where
  brace := by rw [List.getD_append_right _ _ _ _ (Nat.le_add_right _ _), Nat.add_sub_cancel_left]
  junk := by rw [Nat.add_assoc, List.drop_length_add_append]
  within := by
    rw [List.length_append]
    omega

/-- The decoder answers as for the body alone. -/
theorem pgTextDecArray_decorated (this : CompositeDecoder) {front : Bytes} (decoration : Decoration front) (body : Bytes) :
    pgTextDecArray this (front ++ lbrace :: body) = pgTextDecArray this (lbrace :: body) := by
  rw [pgTextDecArray_eq, pgTextDecArray_eq, readToClose_shift decoration]
  cases readToClose this (lbrace :: body) with
  | error stop => rfl
  | ok r =>
    have same := sameBehind_shift front (lbrace :: body) r.index
    simp only [Except.map, bind, Except.bind, ReadResult.shift, expectBrace, same.brace, same.junk]

/-- **Dimension decorations are ignored**, by any element decoder, with any delimiter and in every error mode:
the decoder answers as for the body alone, and it leaves its buffers exactly when it does so there. -/
theorem dimensions_ignored (this : CompositeDecoder) {front : Bytes} (decoration : Decoration front) (body : Bytes) :
    pgTextDecArray this (front ++ lbrace :: body) = pgTextDecArray this (lbrace :: body) ∧
    Guarded.pgTextDecArray this (front ++ lbrace :: body) = Guarded.pgTextDecArray this (lbrace :: body) := by
  constructor
  · exact pgTextDecArray_decorated this decoration body
  · rw [Guarded.pgTextDecArray_eq, Guarded.pgTextDecArray_eq, readToClose_shift decoration]
    cases readToClose this (lbrace :: body) with
    | error stop => rfl
    | ok r =>
      have same := sameBehind_shift front (lbrace :: body) r.index
      simp only [Except.map, bind, Except.bind, ReadResult.shift, expectBrace, same.brace, same.junk, same.within]

/-- Two items with a space between them, in front of a body that ends too early. -/
theorem dimensions_ignored_premature :
    Decoration [space, lbracket, 0x31, colon, 0x32, rbracket, space, lbracket, 0x30, rbracket, equals] ∧
    pgTextDecArray { elem := pgTextDecString }
        ([space, lbracket, 0x31, colon, 0x32, rbracket, space, lbracket, 0x30, rbracket, equals] ++ [lbrace, 0x61]) =
      pgTextDecArray { elem := pgTextDecString } [lbrace, 0x61] := by
  have blank : Blank [space] := List.all_eq_true.1 (by decide)
  have nothing : Blank [] := List.forall_mem_nil _
  have decoration : Decoration ([space] ++ (lbracket :: ([0x31, colon, 0x32] ++ rbracket :: ([space] ++
      (lbracket :: ([0x30] ++ rbracket :: [])))) ++ equals :: [])) :=
    .mk blank (.more (List.all_eq_true.1 (by decide)) blank (.last (List.all_eq_true.1 (by decide)) nothing)) nothing
  exact ⟨decoration, (dimensions_ignored { elem := pgTextDecString } decoration [0x61]).1⟩

end Dimensions

end RubyPg.Text
