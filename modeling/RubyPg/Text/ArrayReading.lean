import RubyPg.Text.ArrayRoundTrip

/-!
# The array loop as a derivation

`Reading` has one rule for each branch of the loop of `read_array_without_dim`, with the
text left at `index` in place of the index itself. With the fuel that `pg_text_dec_array`
hands out the loop answers what a derivation says (`readLoop_reading`), so the facts about
it are inductions over derivations. The first ones are that `index` only grows and that
nothing but the element decoder and `array_parser_error` raises.
-/

namespace RubyPg.Text
set_option autoImplicit false
open Ascii

/-- What `array_parser_error` raises. -/
def Raised (this : CompositeDecoder) (stop : Stop) : Prop :=
  this.formatError = .raise ∧ ∃ msg, stop = .exn .typeError msg

theorem arrayParserError_raises {this : CompositeDecoder} {text : String} {stop : Stop}
    (raised : arrayParserError this text = .error stop) : Raised this stop := by
  unfold arrayParserError at raised
  split at raised
  · rename_i strict
    cases raised
    exact ⟨strict, text, rfl⟩
  · cases raised

/-- `array_parser_error` returns in the other modes only. -/
theorem arrayParserError_lenient {this : CompositeDecoder} {text : String}
    (returned : arrayParserError this text = .ok ()) : this.formatError ≠ .raise := by
  intro strict
  rw [arrayParserError, if_pos strict] at returned
  cases returned

/-- The end of the string in the middle of an array. -/
def premature (this : CompositeDecoder) (st : ReadState) : Outcome ReadResult := do
  arrayParserError this "premature end of the array string"
  pure st.result

/-- Behind an opening quote. -/
def ReadState.openQuotes (st : ReadState) : ReadState := { st with openQuote := .inside, index := st.index + 1 }

/-- Behind a closing quote. -/
def ReadState.closeQuotes (st : ReadState) : ReadState := { st with openQuote := .before, index := st.index + 1 }

/-- Behind a backslash between quotes. -/
def ReadState.escape (st : ReadState) : ReadState := { st with escapeNext := true, index := st.index + 1 }

/-- The character behind a backslash. -/
def ReadState.pushEscaped (st : ReadState) (c : UInt8) : ReadState := { st.push c with escapeNext := false }

/-- The variables of a nested call. -/
def ReadState.enter (st : ReadState) : ReadState := { index := st.index + 1, word := st.word }

/-- How the loop reads from a state on. -/
inductive Reading (this : CompositeDecoder) (s : Bytes) : ReadState → Outcome ReadResult → Prop where
  | off {st : ReadState} (here : s.length ≤ st.index) : Reading this s st (premature this st)
  | raised {st : ReadState} {c : UInt8} {t : Bytes} {stop : Stop} (here : Rest s st.index (c :: t))
      (outside : st.openQuote ≠ .inside) (ends : c = this.delimiter ∨ c = rbrace)
      (ended : endWord this st = .error stop) : Reading this s st (.error stop)
  | close {st st' : ReadState} {t : Bytes} (here : Rest s st.index (rbrace :: t))
      (outside : st.openQuote ≠ .inside) (ended : endWord this st = .ok st') : Reading this s st (.ok st'.result)
  | delimiter {st st' : ReadState} {t : Bytes} {out : Outcome ReadResult}
      (here : Rest s st.index (this.delimiter :: t)) (outside : st.openQuote ≠ .inside)
      (notRbrace : this.delimiter ≠ rbrace) (ended : endWord this st = .ok st')
      (next : Reading this s st'.nextWord out) : Reading this s st out
  | openQuotes {st : ReadState} {t : Bytes} {out : Outcome ReadResult} (here : Rest s st.index (dquote :: t))
      (outside : st.openQuote ≠ .inside) (free : dquote ≠ this.delimiter)
      (next : Reading this s st.openQuotes out) : Reading this s st out
  | emptySub {st : ReadState} {t : Bytes} {out : Outcome ReadResult}
      (here : Rest s st.index (lbrace :: rbrace :: t)) (outside : st.openQuote ≠ .inside)
      (free : lbrace ≠ this.delimiter)
      (next : Reading this s (st.pushSubarray ⟨[], st.index + 1, st.word⟩) out) : Reading this s st out
  | subRaised {st : ReadState} {t : Bytes} {stop : Stop} (here : Rest s st.index (lbrace :: t))
      (outside : st.openQuote ≠ .inside) (free : lbrace ≠ this.delimiter) (nonempty : ∀ u, t ≠ rbrace :: u)
      (sub : Reading this s st.enter (.error stop)) : Reading this s st (.error stop)
  | sub {st : ReadState} {t : Bytes} {sub : ReadResult} {out : Outcome ReadResult}
      (here : Rest s st.index (lbrace :: t)) (outside : st.openQuote ≠ .inside) (free : lbrace ≠ this.delimiter)
      (nonempty : ∀ u, t ≠ rbrace :: u) (inner : Reading this s st.enter (.ok sub))
      (next : Reading this s (st.pushSubarray sub) out) : Reading this s st out
  | nul {st : ReadState} {t : Bytes} (here : Rest s st.index (nul :: t)) (outside : st.openQuote ≠ .inside)
      (free : nul ≠ this.delimiter) : Reading this s st (premature this st)
  | char {st : ReadState} {c : UInt8} {t : Bytes} {out : Outcome ReadResult} (here : Rest s st.index (c :: t))
      (outside : st.openQuote ≠ .inside) (plain : PlainChar this.delimiter c)
      (next : Reading this s (st.push c) out) : Reading this s st out
  | escaped {st : ReadState} {c : UInt8} {t : Bytes} {out : Outcome ReadResult} (here : Rest s st.index (c :: t))
      (inside : st.openQuote = .inside) (escape : st.escapeNext = true)
      (next : Reading this s (st.pushEscaped c) out) : Reading this s st out
  | backslash {st : ReadState} {t : Bytes} {out : Outcome ReadResult} (here : Rest s st.index (backslash :: t))
      (inside : st.openQuote = .inside) (literal : st.escapeNext = false)
      (next : Reading this s st.escape out) : Reading this s st out
  | closeQuotes {st : ReadState} {t : Bytes} {out : Outcome ReadResult} (here : Rest s st.index (dquote :: t))
      (inside : st.openQuote = .inside) (literal : st.escapeNext = false)
      (next : Reading this s st.closeQuotes out) : Reading this s st out
  | quoted {st : ReadState} {c : UInt8} {t : Bytes} {out : Outcome ReadResult} (here : Rest s st.index (c :: t))
      (inside : st.openQuote = .inside) (literal : st.escapeNext = false) (notBackslash : c ≠ backslash)
      (notDquote : c ≠ dquote) (next : Reading this s (st.push c) out) : Reading this s st out

section Reading

variable {this : CompositeDecoder} {s : Bytes}

/-- A sub-array that is not empty does not stand at its closing brace. -/
theorem not_empty {index : Nat} {c : UInt8} {t : Bytes} (here : Rest s index (c :: t)) (nonempty : ∀ u, t ≠ rbrace :: u) :
    ¬(index + 1 < s.length ∧ s.getD (index + 1) nul = rbrace) := by
  rintro ⟨inside, brace⟩
  exact nonempty _ (here.next.symm.trans (Rest.of_getD brace (by decide)))

/-- Ending a word touches the word and the array only. -/
structure Ended (st st' : ReadState) : Prop where
  index : st'.index = st.index
  openQuote : st'.openQuote = st.openQuote

theorem endWord_ended {st st' : ReadState} (ended : endWord this st = .ok st') : Ended st st' := by
  unfold endWord at ended
  split at ended
  · cases ended
    exact ⟨rfl, rfl⟩
  · split at ended
    · cases ended
      exact ⟨rfl, rfl⟩
    · obtain ⟨val, -, pushed⟩ := Outcome.of_bind ended
      cases pushed
      exact ⟨rfl, rfl⟩

theorem ReadState.Fresh.text {st : ReadState} (fresh : st.Fresh) : st.text = [] := by simp [ReadState.text, fresh.wordIndex]

/-- What the end of a word pushes. -/
theorem endWord_pushes {st st' : ReadState} (strings : this.elem = pgTextDecString) (literal : st.escapeNext = false)
    (ended : endWord this st = .ok st') :
    st'.array = st.array ++ [if st.openQuote = .never ∧ st.text = null then .nil else .str st.text] := by
  have length : st.text.length = st.wordIndex := by simp [ReadState.text]
  rw [endWord, literal, if_neg Bool.false_ne_true] at ended
  by_cases spelled : st.openQuote = .never ∧ st.text = null
  · rw [if_pos ⟨spelled.1, by rw [← length, spelled.2]; rfl, spelled.2⟩] at ended
    cases ended
    rw [if_pos spelled]
  · rw [if_neg fun all => spelled ⟨all.1, all.2.2⟩, strings] at ended
    cases ended
    rw [if_neg spelled]

/-- Ending a word raises only what the element decoder raises. -/
theorem endWord_raises {st : ReadState} {stop : Stop} (ended : endWord this st = .error stop) :
    ∃ word, this.elem word = .error stop := by
  unfold endWord at ended
  split at ended
  · cases ended
  · split at ended
    · cases ended
    · cases decoded : this.elem st.text with
      | error e =>
        rw [decoded] at ended
        cases ended
        exact ⟨_, decoded⟩
      | ok val =>
        rw [decoded] at ended
        cases ended

/-- The loop never moves back. -/
theorem Reading.index_le {st : ReadState} {out : Outcome ReadResult} (reading : Reading this s st out) :
    ∀ r, out = .ok r → st.index ≤ r.index := by
  induction reading with
  | @off st here =>
    intro r returned
    obtain ⟨-, -, same⟩ := Outcome.of_bind returned
    cases same
    exact Nat.le_refl _
  | raised => exact fun _ returned => nomatch returned
  | close here outside ended =>
    rintro r ⟨⟩
    exact (endWord_ended ended).index.ge
  | delimiter here outside notRbrace ended next ih =>
    intro r returned
    have later := ih r returned
    have same := (endWord_ended ended).index
    simp only [ReadState.nextWord] at later
    omega
  | subRaised => exact fun _ returned => nomatch returned
  | sub here outside free nonempty inner next ihInner ih =>
    intro r returned
    have later := ih r returned
    have within := ihInner _ rfl
    simp only [ReadState.pushSubarray, ReadState.enter] at later within
    omega
  | @nul st t here outside free =>
    intro r returned
    obtain ⟨-, -, same⟩ := Outcome.of_bind returned
    cases same
    exact Nat.le_refl _
  | _ =>
    rename_i ih
    intro r returned
    have later := ih r returned
    simp only [ReadState.openQuotes, ReadState.closeQuotes, ReadState.escape, ReadState.push,
      ReadState.pushEscaped, ReadState.pushSubarray] at later
    omega

/-- Only the element decoder and `array_parser_error` raise. -/
theorem Reading.raises {st : ReadState} {out : Outcome ReadResult} (reading : Reading this s st out) :
    ∀ stop, out = .error stop → (∃ word, this.elem word = .error stop) ∨ Raised this stop := by
  have early : ∀ st stop, premature this st = .error stop → Raised this stop := by
    intro st stop raised
    rcases Outcome.error_of_bind raised with first | ⟨-, -, second⟩
    · exact arrayParserError_raises first
    · cases second
  induction reading with
  | off here => exact fun stop raised => .inr (early _ stop raised)
  | raised here outside ends ended =>
    rintro stop ⟨⟩
    exact .inl (endWord_raises ended)
  | close => exact fun _ raised => nomatch raised
  | subRaised here outside free nonempty sub ih =>
    rintro stop ⟨⟩
    exact ih _ rfl
  | nul here outside free => exact fun stop raised => .inr (early _ stop raised)
  | _ =>
    rename_i ih
    exact ih

section Step

variable {fuel : Nat} {st : ReadState} {c : UInt8} {t : Bytes}

/-- One character between quotes. -/
theorem reading_inside (here : Rest s st.index (c :: t)) (inside : st.openQuote = .inside)
    (step : ∀ st' : ReadState, st.index < st'.index → Reading this s st' (readLoop this s fuel st')) :
    Reading this s st (readLoop this s (fuel + 1) st) := by
  have next : st.index < st.index + 1 := Nat.lt_succ_self _
  rw [readLoop, if_pos here.lt, here.getD]
  dsimp only
  rw [if_neg (not_not.2 inside)]
  by_cases escape : st.escapeNext = true
  · rw [if_pos escape]
    exact .escaped here inside escape (step _ next)
  · rw [if_neg escape]
    rw [Bool.not_eq_true] at escape
    by_cases isBackslash : c = backslash
    · subst isBackslash
      rw [if_pos rfl]
      exact .backslash here inside escape (step _ next)
    · rw [if_neg isBackslash]
      by_cases isDquote : c = dquote
      · subst isDquote
        rw [if_pos rfl]
        exact .closeQuotes here inside escape (step _ next)
      · rw [if_neg isDquote]
        exact .quoted here inside escape isBackslash isDquote (step _ next)

/-- The end of a word. -/
theorem reading_ends (here : Rest s st.index (c :: t)) (outside : st.openQuote ≠ .inside)
    (ends : c = this.delimiter ∨ c = rbrace)
    (step : ∀ st' : ReadState, st.index < st'.index → Reading this s st' (readLoop this s fuel st')) :
    Reading this s st (readLoop this s (fuel + 1) st) := by
  rw [readLoop, if_pos here.lt, here.getD]
  dsimp only
  rw [if_pos outside, if_pos ends]
  cases ended : endWord this st with
  | error stop => exact .raised here outside ends ended
  | ok st' =>
    have index := (endWord_ended ended).index
    show Reading this s st (if c = rbrace then .ok st'.result else readLoop this s fuel st'.nextWord)
    by_cases isRbrace : c = rbrace
    · subst isRbrace
      rw [if_pos rfl]
      exact .close here outside ended
    · rw [if_neg isRbrace]
      obtain rfl : c = this.delimiter := ends.resolve_right isRbrace
      exact .delimiter here outside isRbrace ended (step _ (by simp only [ReadState.nextWord]; omega))

/-- A nested call, for the loop inside it and the loop behind it. -/
theorem reading_sub (here : Rest s st.index (lbrace :: t)) (outside : st.openQuote ≠ .inside)
    (free : lbrace ≠ this.delimiter)
    (inner : Reading this s st.enter (readLoop this s fuel st.enter))
    (step : ∀ st' : ReadState, st.index < st'.index → Reading this s st' (readLoop this s (fuel + 1) st')) :
    Reading this s st (readLoop this s (fuel + 2) st) := by
  have entered : readLoop this s (fuel + 2) st =
      readArrayWithoutDim this s (fuel + 1) (st.index + 1) st.word >>=
        fun sub => readLoop this s (fuel + 1) (st.pushSubarray sub) := by
    rw [readLoop, if_pos here.lt, here.getD]
    dsimp only
    rw [if_pos outside, if_neg (by simp [free]; decide), if_neg (by decide), if_pos rfl]
  rw [entered, readArrayWithoutDim]
  by_cases empty : st.index + 1 < s.length ∧ s.getD (st.index + 1) nul = rbrace
  · rw [if_pos empty]
    have second : Rest s (st.index + 1) (rbrace :: s.drop (st.index + 1 + 1)) := by
      rw [← empty.2]
      exact .head empty.1 nul
    have both : t = rbrace :: s.drop (st.index + 1 + 1) := here.next.symm.trans second
    subst both
    exact .emptySub here outside free (step _ (by simp only [ReadState.pushSubarray]; omega))
  · rw [if_neg empty]
    have nonempty : ∀ u, t ≠ rbrace :: u := by
      rintro u rfl
      exact empty ⟨here.next.lt, here.next.getD _⟩
    cases answered : readLoop this s fuel st.enter with
    | error stop =>
      rw [answered] at inner
      show Reading this s st (readLoop this s fuel st.enter >>= _)
      rw [answered]
      exact .subRaised here outside free nonempty inner
    | ok sub =>
      rw [answered] at inner
      have within := inner.index_le sub rfl
      show Reading this s st (readLoop this s fuel st.enter >>= _)
      rw [answered]
      exact .sub here outside free nonempty inner
        (step _ (by simp only [ReadState.pushSubarray, ReadState.enter] at within ⊢; omega))

end Step

/-- With fuel for what is left the loop answers as derived. -/
theorem readLoop_reading {fuel : Nat} {st : ReadState} (enough : 2 * (s.length - st.index) < fuel) :
    Reading this s st (readLoop this s fuel st) := by
  induction fuel using Nat.strongRecOn generalizing st with
  | ind fuel ih =>
    by_cases inside : st.index < s.length
    · obtain ⟨fuel, rfl⟩ : ∃ n, fuel = n + 2 := ⟨fuel - 2, by omega⟩
      have step : ∀ st' : ReadState, st.index < st'.index → Reading this s st' (readLoop this s (fuel + 1) st') :=
        fun st' later => ih (fuel + 1) (by omega) (by omega)
      have here : Rest s st.index (s.getD st.index nul :: s.drop (st.index + 1)) := .head inside nul
      revert here
      generalize s.getD st.index nul = c
      intro here
      by_cases quoted : st.openQuote = .inside
      · exact reading_inside here quoted step
      by_cases ends : c = this.delimiter ∨ c = rbrace
      · exact reading_ends here quoted ends step
      rw [not_or] at ends
      by_cases isLbrace : c = lbrace
      · subst isLbrace
        exact reading_sub here quoted ends.1
          (ih fuel (by omega) (by simp only [ReadState.enter]; omega)) step
      have next : st.index < st.index + 1 := Nat.lt_succ_self _
      rw [readLoop, if_pos inside, here.getD]
      dsimp only
      rw [if_pos quoted, if_neg (by simp [ends])]
      by_cases isDquote : c = dquote
      · subst isDquote
        rw [if_pos rfl]
        exact .openQuotes here quoted ends.1 (step _ next)
      rw [if_neg isDquote, if_neg isLbrace]
      by_cases isNul : c = nul
      · subst isNul
        rw [if_pos rfl]
        exact .nul here quoted ends.1
      · rw [if_neg isNul]
        exact .char here quoted ⟨ends.1, isDquote, isLbrace, ends.2, isNul⟩ (step _ next)
    · obtain ⟨fuel, rfl⟩ : ∃ n, fuel = n + 1 := ⟨fuel - 1, by omega⟩
      rw [readLoop, if_neg inside]
      exact .off (by omega)

end Reading

end RubyPg.Text
