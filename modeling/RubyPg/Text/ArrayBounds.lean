import RubyPg.Text.ArrayScan

/-!
# The array decoder and the bounds of its buffers

`Guarded` is the decoder of `ext/pg_text_decoder.c` once more, with each access to the
string and to `word` checked against its buffer: a read behind the terminator or a store
behind the `len + 1` bytes of `word` is undefined. The loops run on fuel, so an answer other
than `fuel` also says that they end. The guarded decoder and the plain one agree up to the
read of the closing brace (`Guarded.pgTextDecArray_eq`); whether that one stays inside is
the phase in which the scan ends (`staysInside_iff`).
-/

namespace RubyPg.Text
set_option autoImplicit false
open Ascii

namespace Guarded

/-- `s[index]`, where `s[len]` is the terminator. -/
def charAt (s : Bytes) (index : Nat) : Outcome UInt8 :=
  if index ≤ s.length then pure (s.getD index nul) else .error .undefined

/-- `word[index] = c` in a buffer for `len` bytes and a terminator. -/
def store (s : Bytes) (word : Mem) (index : Nat) (c : UInt8) : Outcome Mem :=
  if index ≤ s.length then pure (word.put index c) else .error .undefined

/-- `index < len && s[index] == '}'`. -/
def atRbrace (s : Bytes) (index : Nat) : Outcome Bool :=
  if index < s.length then do
    let c ← charAt s index
    pure (c == rbrace)
  else pure false

/-- `word[word_index] = c; word_index++`, and on to the next character. -/
def push (s : Bytes) (st : ReadState) (c : UInt8) : Outcome ReadState := do
  let word ← store s st.word st.wordIndex c
  pure { st with word, wordIndex := st.wordIndex + 1, index := st.index + 1 }

/-- The end of a word. -/
def endWord (this : CompositeDecoder) (s : Bytes) (st : ReadState) : Outcome ReadState :=
  if st.escapeNext then pure st
  else if st.openQuote = .never ∧ st.wordIndex = 4 ∧ st.text = null then
    pure { st with array := st.array ++ [.nil] }
  else do
    let word ← store s st.word st.wordIndex nul
    let val ← this.elem st.text
    pure { st with word, array := st.array ++ [val] }

mutual

/-- `read_array_without_dim`. -/
def readArrayWithoutDim (this : CompositeDecoder) (s : Bytes) (fuel index : Nat) (word : Mem) :
    Outcome ReadResult :=
  match fuel with
  | 0 => .error .fuel
  | fuel + 1 => do
    if (← atRbrace s index) then pure ⟨[], index, word⟩
    else readLoop this s fuel { index, word }

/-- The `for` loop of `read_array_without_dim`. -/
def readLoop (this : CompositeDecoder) (s : Bytes) (fuel : Nat) (st : ReadState) : Outcome ReadResult :=
  match fuel with
  | 0 => .error .fuel
  | fuel + 1 =>
    if st.index < s.length then do
      let c ← charAt s st.index
      if st.openQuote ≠ .inside then
        if c = this.delimiter ∨ c = rbrace then do
          let st ← endWord this s st
          if c = rbrace then pure st.result
          else readLoop this s fuel st.nextWord
        else if c = dquote then
          readLoop this s fuel { st with openQuote := .inside, index := st.index + 1 }
        else if c = lbrace then do
          let sub ← readArrayWithoutDim this s fuel (st.index + 1) st.word
          readLoop this s fuel (st.pushSubarray sub)
        else if c = nul then do
          arrayParserError this "premature end of the array string"
          pure st.result
        else do
          let st ← push s st c
          readLoop this s fuel st
      else if st.escapeNext then do
        let st ← push s st c
        readLoop this s fuel { st with escapeNext := false }
      else if c = backslash then
        readLoop this s fuel { st with escapeNext := true, index := st.index + 1 }
      else if c = dquote then
        readLoop this s fuel { st with openQuote := .before, index := st.index + 1 }
      else do
        let st ← push s st c
        readLoop this s fuel st
    else do
      arrayParserError this "premature end of the array string"
      pure st.result

end

/-- `while (p(s[index])) index++`. -/
def skipWhile (p : UInt8 → Bool) (s : Bytes) (fuel index : Nat) : Outcome Nat :=
  match fuel with
  | 0 => .error .fuel
  | fuel + 1 => do
    let c ← charAt s index
    if p c then skipWhile p s fuel (index + 1) else pure index

/-- The loop over the dimension items. -/
def skipDims (this : CompositeDecoder) (s : Bytes) (fuel index ndim : Nat) : Outcome (Nat × Nat) :=
  match fuel with
  | 0 => .error .fuel
  | fuel + 1 => do
    let index ← skipWhile arrayIsspace s (s.length + 1) index
    let c ← charAt s index
    if c ≠ lbracket then pure (index, ndim)
    else do
      let index ← skipWhile arrayIsdim s (s.length + 1) (index + 1)
      let c ← charAt s index
      if c ≠ rbracket then do
        arrayParserError this "missing \"]\" in array dimensions"
        pure (index, ndim)
      else skipDims this s fuel (index + 1) (ndim + 1)

/-- The `=` after dimension items and the whitespace behind it. -/
def skipAssignment (this : CompositeDecoder) (s : Bytes) (index ndim : Nat) : Outcome Nat :=
  if ndim = 0 then pure index
  else do
    let c ← charAt s index
    let index ← if c ≠ equals then do
        arrayParserError this "missing assignment operator"
        pure (index - 2)
      else pure index
    skipWhile arrayIsspace s (s.length + 1) (index + 1)

/-- The check for a brace. -/
def expectBrace (this : CompositeDecoder) (s : Bytes) (index : Nat) (brace : UInt8) (text : String) : Outcome Unit := do
  let c ← charAt s index
  if c ≠ brace then arrayParserError this text else pure ()

/-- What stands behind the opening brace. -/
def readBody (this : CompositeDecoder) (s : Bytes) (index : Nat) : Outcome ReadResult := do
  if (← atRbrace s index) then pure ⟨[], index, fun _ => nul⟩
  else readArrayWithoutDim this s (2 * s.length + 2) index fun _ => nul

/-- The loop over what follows the closing brace. -/
def checkJunk (this : CompositeDecoder) (s : Bytes) (fuel index : Nat) : Outcome Unit :=
  match fuel with
  | 0 => .error .fuel
  | fuel + 1 =>
    if index < s.length then do
      let c ← charAt s index
      if !arrayIsspace c then
        arrayParserError this "malformed array literal: Junk after closing right brace."
      checkJunk this s fuel (index + 1)
    else pure ()

/-- `pg_text_dec_array`. -/
def pgTextDecArray (this : CompositeDecoder) : Decoder := fun s => do
  let (index, ndim) ← skipDims this s (s.length + 1) 0 0
  let index ← skipAssignment this s index ndim
  expectBrace this s index lbrace "array value must start with \"\x7b\" or dimension information"
  let ret ← readBody this s (index + 1)
  expectBrace this s ret.index rbrace "array value must end with \"\x7d\""
  checkJunk this s (s.length + 1) (ret.index + 1)
  pure (.ary ret.array)

section Agreement

variable {this : CompositeDecoder} {s : Bytes}

theorem charAt_of_le {index : Nat} (within : index ≤ s.length) : charAt s index = pure (s.getD index nul) := if_pos within

theorem charAt_here {index : Nat} {c : UInt8} {t : Bytes} (here : Rest s index (c :: t)) : charAt s index = pure c := by
  rw [charAt_of_le (Nat.le_of_lt here.lt), here.getD]

theorem push_eq {st : ReadState} (within : st.wordIndex ≤ s.length) (c : UInt8) : push s st c = pure (st.push c) := by
  rw [push, store, if_pos within, pure_bind]
  rfl

theorem endWord_eq {st : ReadState} (within : st.wordIndex ≤ s.length) : endWord this s st = Text.endWord this st := by
  unfold endWord Text.endWord
  split
  · rfl
  split
  · rfl
  rw [store, if_pos within, pure_bind]

/-- The test for the empty array. -/
theorem atRbrace_eq (s : Bytes) (index : Nat) :
    atRbrace s index = pure (decide (index < s.length ∧ s.getD index nul = rbrace)) := by
  unfold atRbrace
  by_cases inside : index < s.length
  · rw [if_pos inside, charAt_of_le (Nat.le_of_lt inside), pure_bind]
    simp only [inside, true_and]
    rfl
  · rw [if_neg inside]
    simp only [inside, false_and, decide_false]

/-! The branches of the loop. -/

section Branches

variable {st : ReadState} {c : UInt8} {t : Bytes} {fuel : Nat}

/-- A character outside quotes. -/
theorem readLoop_outside (here : Rest s st.index (c :: t)) (outside : st.openQuote ≠ .inside) :
    readLoop this s (fuel + 1) st =
      if c = this.delimiter ∨ c = rbrace then do
        let st ← endWord this s st
        if c = rbrace then pure st.result
        else readLoop this s fuel st.nextWord
      else if c = dquote then readLoop this s fuel st.openQuotes
      else if c = lbrace then do
        let sub ← readArrayWithoutDim this s fuel (st.index + 1) st.word
        readLoop this s fuel (st.pushSubarray sub)
      else if c = nul then premature this st
      else push s st c >>= readLoop this s fuel := by
  rw [readLoop, if_pos here.lt, charAt_here here, pure_bind, if_pos outside]
  rfl

/-- A character inside quotes. -/
theorem readLoop_inside (here : Rest s st.index (c :: t)) (quoted : st.openQuote = .inside) :
    readLoop this s (fuel + 1) st =
      if st.escapeNext then do
        let st ← push s st c
        readLoop this s fuel { st with escapeNext := false }
      else if c = backslash then readLoop this s fuel st.escape
      else if c = dquote then readLoop this s fuel st.closeQuotes
      else push s st c >>= readLoop this s fuel := by
  rw [readLoop, if_pos here.lt, charAt_here here, pure_bind, if_neg (not_not.2 quoted)]
  rfl

theorem readLoop_end (here : Rest s st.index (c :: t)) (outside : st.openQuote ≠ .inside)
    (ends : c = this.delimiter ∨ c = rbrace) (within : st.wordIndex ≤ s.length) :
    readLoop this s (fuel + 1) st =
      Text.endWord this st >>= fun st => if c = rbrace then pure st.result else readLoop this s fuel st.nextWord := by
  rw [readLoop_outside here outside, if_pos ends, endWord_eq within]

theorem readLoop_openQuotes (here : Rest s st.index (dquote :: t)) (outside : st.openQuote ≠ .inside)
    (free : dquote ≠ this.delimiter) : readLoop this s (fuel + 1) st = readLoop this s fuel st.openQuotes := by
  rw [readLoop_outside here outside, if_neg (by simp [free]; decide), if_pos rfl]

/-- A nested call that does not stand at its closing brace is a loop. -/
theorem readLoop_sub (here : Rest s st.index (lbrace :: t)) (outside : st.openQuote ≠ .inside)
    (free : lbrace ≠ this.delimiter) :
    readLoop this s (fuel + 2) st =
      (if st.index + 1 < s.length ∧ s.getD (st.index + 1) nul = rbrace then pure ⟨[], st.index + 1, st.word⟩
        else readLoop this s fuel st.enter) >>= fun sub => readLoop this s (fuel + 1) (st.pushSubarray sub) := by
  rw [readLoop_outside here outside, if_neg (by simp [free]; decide), if_neg (by decide), if_pos rfl,
    readArrayWithoutDim, atRbrace_eq, pure_bind]
  simp only [decide_eq_true_eq]
  rfl

theorem readLoop_nul (here : Rest s st.index (nul :: t)) (outside : st.openQuote ≠ .inside)
    (free : nul ≠ this.delimiter) : readLoop this s (fuel + 1) st = premature this st := by
  rw [readLoop_outside here outside, if_neg (by simp [free]; decide), if_neg (by decide), if_neg (by decide), if_pos rfl]

theorem readLoop_char (here : Rest s st.index (c :: t)) (outside : st.openQuote ≠ .inside)
    (plain : PlainChar this.delimiter c) (within : st.wordIndex ≤ s.length) :
    readLoop this s (fuel + 1) st = readLoop this s fuel (st.push c) := by
  rw [readLoop_outside here outside, if_neg (by simp [plain.delimiter, plain.rbrace]), if_neg plain.dquote,
    if_neg plain.lbrace, if_neg plain.nul, push_eq within, pure_bind]

theorem readLoop_escaped (here : Rest s st.index (c :: t)) (quoted : st.openQuote = .inside)
    (escape : st.escapeNext = true) (within : st.wordIndex ≤ s.length) :
    readLoop this s (fuel + 1) st = readLoop this s fuel (st.pushEscaped c) := by
  rw [readLoop_inside here quoted, if_pos escape, push_eq within, pure_bind]
  rfl

theorem readLoop_backslash (here : Rest s st.index (backslash :: t)) (quoted : st.openQuote = .inside)
    (literal : st.escapeNext = false) : readLoop this s (fuel + 1) st = readLoop this s fuel st.escape := by
  rw [readLoop_inside here quoted, if_neg (by simp [literal]), if_pos rfl]

theorem readLoop_closeQuotes (here : Rest s st.index (dquote :: t)) (quoted : st.openQuote = .inside)
    (literal : st.escapeNext = false) : readLoop this s (fuel + 1) st = readLoop this s fuel st.closeQuotes := by
  rw [readLoop_inside here quoted, if_neg (by simp [literal]), if_neg (by decide), if_pos rfl]

theorem readLoop_quoted (here : Rest s st.index (c :: t)) (quoted : st.openQuote = .inside)
    (literal : st.escapeNext = false) (notBackslash : c ≠ backslash) (notDquote : c ≠ dquote)
    (within : st.wordIndex ≤ s.length) : readLoop this s (fuel + 1) st = readLoop this s fuel (st.push c) := by
  rw [readLoop_inside here quoted, if_neg (by simp [literal]), if_neg notBackslash, if_neg notDquote, push_eq within,
    pure_bind]

end Branches

/-- With enough fuel the loop answers so, as long as `word_index` has not overtaken `index`. -/
def Answers (this : CompositeDecoder) (s : Bytes) (st : ReadState) (out : Outcome ReadResult) : Prop :=
  ∀ fuel, st.wordIndex ≤ st.index → 2 * (s.length - st.index) < fuel → readLoop this s fuel st = out

section Answers

variable {st st' : ReadState} {c : UInt8} {t : Bytes} {out : Outcome ReadResult}

/-- There is fuel for a character and the one of a nested call, and enough for what comes behind it. -/
theorem fuel_succ {index fuel : Nat} (here : Rest s index (c :: t)) (enough : 2 * (s.length - index) < fuel) :
    ∃ fuel', fuel = fuel' + 2 ∧ 2 * (s.length - (index + 1)) < fuel' ∧ index < s.length := by
  have inside := here.lt
  exact ⟨fuel - 2, by omega, by omega, inside⟩

/-- Behind a character that is taken. -/
theorem Answers.onward (later : Answers this s st' out) (here : Rest s st.index (c :: t)) (moved : st'.index = st.index + 1)
    (grown : st'.wordIndex ≤ st.wordIndex + 1)
    (branch : st.wordIndex ≤ s.length → ∀ fuel, readLoop this s (fuel + 1) st = readLoop this s fuel st') :
    Answers this s st out := by
  intro fuel behind enough
  obtain ⟨fuel, rfl, left, inside⟩ := fuel_succ here enough
  rw [branch (by omega)]
  exact later _ (by omega) (by omega)

/-- At the end of the array. -/
theorem Answers.ends (here : Rest s st.index (c :: t))
    (branch : st.wordIndex ≤ s.length → ∀ fuel, readLoop this s (fuel + 1) st = out) : Answers this s st out := by
  intro fuel behind enough
  obtain ⟨fuel, rfl, left, inside⟩ := fuel_succ here enough
  exact branch (by omega) _

theorem answers_emptySub (here : Rest s st.index (lbrace :: rbrace :: t)) (outside : st.openQuote ≠ .inside)
    (free : lbrace ≠ this.delimiter) (later : Answers this s (st.pushSubarray ⟨[], st.index + 1, st.word⟩) out) :
    Answers this s st out := by
  intro fuel behind enough
  obtain ⟨fuel, rfl, left, inside⟩ := fuel_succ here enough
  rw [readLoop_sub here outside free, if_pos ⟨here.next.lt, here.next.getD _⟩, pure_bind]
  exact later _ (by simp only [ReadState.pushSubarray]; omega) (by simp only [ReadState.pushSubarray]; omega)

theorem answers_subRaised {stop : Stop} (here : Rest s st.index (lbrace :: t)) (outside : st.openQuote ≠ .inside)
    (free : lbrace ≠ this.delimiter) (nonempty : ∀ u, t ≠ rbrace :: u) (raised : Answers this s st.enter (.error stop)) :
    Answers this s st (.error stop) := by
  intro fuel behind enough
  obtain ⟨fuel, rfl, left, inside⟩ := fuel_succ here enough
  rw [readLoop_sub here outside free, if_neg (not_empty here nonempty), raised fuel (Nat.zero_le _) left]
  rfl

theorem answers_sub {sub : ReadResult} (here : Rest s st.index (lbrace :: t)) (outside : st.openQuote ≠ .inside)
    (free : lbrace ≠ this.delimiter) (nonempty : ∀ u, t ≠ rbrace :: u) (within : st.index + 1 ≤ sub.index)
    (inner : Answers this s st.enter (.ok sub)) (later : Answers this s (st.pushSubarray sub) out) : Answers this s st out := by
  intro fuel behind enough
  obtain ⟨fuel, rfl, left, inside⟩ := fuel_succ here enough
  rw [readLoop_sub here outside free, if_neg (not_empty here nonempty), inner fuel (Nat.zero_le _) left]
  exact later _ (by simp only [ReadState.pushSubarray]; omega) (by simp only [ReadState.pushSubarray]; omega)

/-- The loop in bounds answers as derived. -/
theorem readLoop_eq (reading : Reading this s st out) : Answers this s st out := by
  induction reading with
  | off here =>
    intro fuel behind enough
    obtain ⟨fuel, rfl⟩ : ∃ n, fuel = n + 1 := ⟨fuel - 1, by omega⟩
    rw [readLoop, if_neg (by omega)]
    rfl
  | raised here outside ends ended =>
    apply Answers.ends here
    intro within fuel
    rw [readLoop_end here outside ends within, ended]
    rfl
  | close here outside ended =>
    apply Answers.ends here
    intro within fuel
    rw [readLoop_end here outside (.inr rfl) within, ended]
    rfl
  | @delimiter st st' t out here outside notRbrace ended next ih =>
    refine ih.onward here (congrArg (· + 1) (endWord_ended ended).index) (Nat.zero_le _) fun within fuel => ?_
    rw [readLoop_end here outside (.inl rfl) within, ended]
    exact if_neg notRbrace
  | openQuotes here outside free next ih =>
    exact ih.onward here rfl (Nat.le_succ _) fun _ _ => readLoop_openQuotes here outside free
  | emptySub here outside free next ih => exact answers_emptySub here outside free ih
  | subRaised here outside free nonempty sub ih => exact answers_subRaised here outside free nonempty ih
  | sub here outside free nonempty inner next ihInner ih =>
    exact answers_sub here outside free nonempty (inner.index_le _ rfl) ihInner ih
  | nul here outside free => exact .ends here fun _ _ => readLoop_nul here outside free
  | char here outside plain next ih =>
    exact ih.onward here rfl (Nat.le_refl _) fun within _ => readLoop_char here outside plain within
  | escaped here quoted escape next ih =>
    exact ih.onward here rfl (Nat.le_refl _) fun within _ => readLoop_escaped here quoted escape within
  | backslash here quoted literal next ih =>
    exact ih.onward here rfl (Nat.le_succ _) fun _ _ => readLoop_backslash here quoted literal
  | closeQuotes here quoted literal next ih =>
    exact ih.onward here rfl (Nat.le_succ _) fun _ _ => readLoop_closeQuotes here quoted literal
  | quoted here quoted literal notBackslash notDquote next ih =>
    exact ih.onward here rfl (Nat.le_refl _) fun within _ =>
      readLoop_quoted here quoted literal notBackslash notDquote within

end Answers

theorem skipWhile_eq {p : UInt8 → Bool} (refuses : p nul = false) {fuel index : Nat} (within : index ≤ s.length)
    (enough : s.length - index < fuel) : skipWhile p s fuel index = pure (RubyPg.skipWhile p s index) := by
  induction fuel generalizing index with
  | zero => omega
  | succ fuel ih =>
    rw [skipWhile, charAt_of_le within, pure_bind]
    by_cases skipped : p (s.getD index nul) = true
    · have inside : index < s.length := by
        by_contra off
        rw [List.getD_eq_default _ _ (by omega), refuses] at skipped
        cases skipped
      have later : index + 1 ≤ RubyPg.skipWhile p s (index + 1) := le_skipWhile
      rw [if_pos skipped, ih inside (by omega)]
      refine congrArg pure (RubyPg.skipWhile_eq (d := nul) refuses (Nat.le_of_succ_le later) ?_
        (skipWhile_stops refuses)).symm
      intro k low high
      rcases Nat.eq_or_lt_of_le low with rfl | low
      · exact skipped
      · exact skipWhile_skips low high
    · rw [if_neg skipped]
      refine congrArg pure (RubyPg.skipWhile_eq (d := nul) refuses (Nat.le_refl _) (fun k low high => by omega) ?_).symm
      simpa using skipped

theorem skipDims_eq {fuel index ndim : Nat} (within : index ≤ s.length) (enough : s.length - index < fuel) :
    skipDims this s fuel index ndim = Text.skipDims this s fuel index ndim := by
  induction fuel generalizing index ndim with
  | zero => omega
  | succ fuel ih =>
    have later : index ≤ RubyPg.skipWhile arrayIsspace s index := le_skipWhile
    have within' : RubyPg.skipWhile arrayIsspace s index ≤ s.length := skipWhile_le within
    rw [skipDims, Text.skipDims, skipWhile_eq (by decide) within (by omega), pure_bind, charAt_of_le within', pure_bind]
    by_cases bracket : s.getD (RubyPg.skipWhile arrayIsspace s index) nul = lbracket
    · have here : RubyPg.skipWhile arrayIsspace s index + 1 ≤ s.length := (Rest.of_getD bracket (by decide)).lt
      have later' : RubyPg.skipWhile arrayIsspace s index + 1 ≤
          RubyPg.skipWhile arrayIsdim s (RubyPg.skipWhile arrayIsspace s index + 1) := le_skipWhile
      have within'' : RubyPg.skipWhile arrayIsdim s (RubyPg.skipWhile arrayIsspace s index + 1) ≤ s.length :=
        skipWhile_le here
      rw [if_neg (not_not.2 bracket), if_neg (not_not.2 bracket), skipWhile_eq (by decide) here (by omega), pure_bind,
        charAt_of_le within'', pure_bind]
      by_cases closed : s.getD (RubyPg.skipWhile arrayIsdim s (RubyPg.skipWhile arrayIsspace s index + 1)) nul = rbracket
      · have here' := (Rest.of_getD closed (by decide)).lt
        rw [if_neg (not_not.2 closed), if_neg (not_not.2 closed)]
        exact ih here' (by omega)
      · rw [if_pos closed, if_pos closed]
    · rw [if_pos bracket, if_pos bracket]

theorem skipAssignment_eq {index ndim : Nat} (within : index ≤ s.length) (room : 0 < ndim → 2 ≤ index) :
    skipAssignment this s index ndim = Text.skipAssignment this s index ndim := by
  unfold skipAssignment Text.skipAssignment
  split
  · rfl
  rename_i some'
  have room := room (Nat.pos_of_ne_zero some')
  rw [charAt_of_le within, pure_bind]
  by_cases assigned : s.getD index nul = equals
  · have here := (Rest.of_getD assigned (by decide)).lt
    rw [if_neg (not_not.2 assigned), if_neg (not_not.2 assigned), pure_bind, pure_bind]
    exact skipWhile_eq (by decide) here (by omega)
  · rw [if_pos assigned, if_pos assigned]
    apply Outcome.bind_congr
    intro _ _
    exact skipWhile_eq (by decide) (by omega) (by omega)

theorem expectBrace_eq {index : Nat} (within : index ≤ s.length) (brace : UInt8) (text : String) :
    expectBrace this s index brace text = Text.expectBrace this s index brace text := by
  rw [expectBrace, charAt_of_le within, pure_bind]
  rfl

theorem readBody_eq (index : Nat) : readBody this s index = Text.readBody this s index := by
  rw [readBody, Text.readBody, atRbrace_eq, pure_bind]
  simp only [decide_eq_true_eq]
  by_cases empty : index < s.length ∧ s.getD index nul = rbrace
  · rw [if_pos empty, if_pos empty]
  · rw [if_neg empty, if_neg empty, readArrayWithoutDim, Text.readArrayWithoutDim, atRbrace_eq, pure_bind]
    simp only [decide_eq_true_eq]
    rw [if_neg empty, if_neg empty]
    have enough : 2 * (s.length - index) < 2 * s.length + 1 := by omega
    exact readLoop_eq (readLoop_reading enough) _ (Nat.zero_le _) enough

theorem checkJunk_eq {fuel index : Nat} (enough : s.length - index < fuel) :
    checkJunk this s fuel index = Text.checkJunk this (s.drop index) := by
  induction fuel generalizing index with
  | zero => omega
  | succ fuel ih =>
    rw [checkJunk]
    by_cases inside : index < s.length
    · rw [if_pos inside, charAt_of_le (Nat.le_of_lt inside), pure_bind, Rest.head inside nul, Text.checkJunk]
      simp only [ih (by omega : s.length - (index + 1) < fuel)]
    · rw [if_neg inside, List.drop_eq_nil_of_le (by omega)]
      rfl

/-- `pg_text_dec_array` up to the closing brace stays inside. -/
theorem readToClose_eq :
    (do
      let (index, ndim) ← skipDims this s (s.length + 1) 0 0
      let index ← skipAssignment this s index ndim
      expectBrace this s index lbrace "array value must start with \"\x7b\" or dimension information"
      readBody this s (index + 1)) = readToClose this s := by
  rw [skipDims_eq (Nat.zero_le _) (by omega), readToClose]
  apply Outcome.bind_congr
  rintro ⟨i, n⟩ dims
  obtain ⟨spaced, leaves⟩ := skipDims_starts dims
  dsimp only
  rw [skipAssignment_eq leaves.within leaves.room]
  apply Outcome.bind_congr
  intro j assigned
  rw [expectBrace_eq (leaves.enters assigned).within]
  apply Outcome.bind_congr
  intro _ _
  exact readBody_eq (j + 1)

/-- The guarded decoder is the plain one unless the closing brace is read behind the terminator. -/
theorem pgTextDecArray_eq (this : CompositeDecoder) (s : Bytes) :
    pgTextDecArray this s = (do
      let ret ← readToClose this s
      if ret.index ≤ s.length then do
        Text.expectBrace this s ret.index rbrace "array value must end with \"\x7d\""
        Text.checkJunk this (s.drop (ret.index + 1))
        pure (.ary ret.array)
      else .error .undefined) := by
  rw [← readToClose_eq]
  simp only [pgTextDecArray, bind_assoc]
  apply Outcome.bind_congr
  rintro ⟨i, n⟩ _
  apply Outcome.bind_congr
  intro j _
  apply Outcome.bind_congr
  intro _ _
  apply Outcome.bind_congr
  intro ret _
  by_cases within : ret.index ≤ s.length
  · rw [if_pos within, expectBrace_eq within, checkJunk_eq (by omega)]
  · rw [if_neg within, expectBrace, charAt, if_neg within]
    rfl

end Agreement

end Guarded

section Bounds

variable {this : CompositeDecoder} {s : Bytes}

/-- The closing brace is looked for inside the string or at its terminator exactly if the mode is
strict or the scan does not end in an open place. -/
theorem Opened.index_le_iff {j : Nat} {r : ReadResult} (opened : Opened this s j r) :
    r.index ≤ s.length ↔ this.formatError = .raise ∨ (scan this.delimiter s).phase.overruns = false := by
  obtain ⟨enters, brace, body⟩ := opened
  cases enters with
  | brace inside same =>
    cases readBody_arrives inside body false with
    | closed glued within done =>
      have ended : (scan this.delimiter s).phase = .closed := by
        rw [same, done]
        exact congrArg Scan.phase (Scan.run_fixed fun c _ => rfl)
      simp [ended, Phase.overruns]
      omega
    | «open» lenient more place off phase =>
      rw [← same, Nat.zero_add] at phase
      simp only [phase, Phase.overruns, lenient, false_or, bne_eq_false_iff_eq]
      omega
  | late off overruns =>
    have lenient : this.formatError ≠ .raise := by
      intro strict
      exact absurd (Rest.of_getD (brace strict) (by decide)).lt (by omega)
    simp only [overruns, lenient, false_or, Bool.true_eq_false, iff_false]
    obtain ⟨here, -⟩ | ⟨-, reading⟩ := readBody_cases this s (j + 1)
    · exact absurd here.lt (by omega)
    · rw [body] at reading
      have index := premature_index (reading.off_eq (Nat.le_of_lt (by dsimp only; omega))).symm
      simp only at index
      omega
  | backed last safe =>
    simp only [safe, or_true, iff_true]
    cases readBody_arrives (Nat.le_of_eq last) body false with
    | closed glued within done => omega
    | «open» lenient more place off phase =>
      rw [last, List.drop_eq_nil_of_le (Nat.le_refl _)] at phase
      have none : 0 = 0 + more := (Phase.level.inj phase).1
      omega

end Bounds

/-- No read of the string is behind its terminator, no store behind the end of `word`, and the
decoder ends, whatever element decoder is called on the way. -/
def StaysInside (delimiter : UInt8) (formatError : FormatError) (s : Bytes) : Prop :=
  ∀ elem : Decoder, (∀ word, elem word ≠ .error .undefined ∧ elem word ≠ .error .fuel) →
    Guarded.pgTextDecArray { elem, delimiter, formatError } s ≠ .error .undefined ∧
      Guarded.pgTextDecArray { elem, delimiter, formatError } s ≠ .error .fuel

/-- **The array decoder stays inside its input** exactly in the strict mode and on the strings that
do not end where the opening brace is expected or in a sub-array. -/
theorem staysInside_iff (delimiter : UInt8) (formatError : FormatError) (s : Bytes) :
    StaysInside delimiter formatError s ↔ formatError = .raise ∨ (scan delimiter s).phase.overruns = false := by
  constructor
  · intro stays
    obtain ⟨defined, -⟩ := stays pgTextDecString fun _ => ⟨nofun, nofun⟩
    by_contra outside
    apply defined
    rw [Guarded.pgTextDecArray_eq]
    cases read : readToClose { elem := pgTextDecString, delimiter, formatError } s with
    | error stop =>
      rcases readToClose_raises read with ⟨word, decoded⟩ | ⟨strict, -⟩
      · cases decoded
      · exact absurd (.inl strict) outside
    | ok ret =>
      obtain ⟨j, opened⟩ := readToClose_opened read
      have behind : ¬ret.index ≤ s.length := fun within => outside (opened.index_le_iff.1 within)
      show (if ret.index ≤ s.length then _ else _) = _
      rw [if_neg behind]
  · intro inside elem total
    have agree : Guarded.pgTextDecArray { elem, delimiter, formatError } s =
        pgTextDecArray { elem, delimiter, formatError } s := by
      rw [Guarded.pgTextDecArray_eq, pgTextDecArray_eq]
      apply Outcome.bind_congr
      intro ret read
      obtain ⟨j, opened⟩ := readToClose_opened read
      rw [if_pos (opened.index_le_iff.2 inside)]
    have raises : ∀ stop, pgTextDecArray { elem, delimiter, formatError } s = .error stop →
        stop ≠ .undefined ∧ stop ≠ .fuel := by
      intro stop raised
      rcases pgTextDecArray_raises raised with ⟨word, decoded⟩ | ⟨-, msg, rfl⟩
      · constructor
        · rintro rfl
          exact (total word).1 decoded
        · rintro rfl
          exact (total word).2 decoded
      · exact ⟨nofun, nofun⟩
    rw [agree]
    exact ⟨fun raised => (raises _ raised).1 rfl, fun raised => (raises _ raised).2 rfl⟩

/-- In the lenient mode `{{` sends the decoder behind the terminator. -/
theorem not_staysInside_braces : ¬StaysInside comma .default [lbrace, lbrace] := by
  intro stays
  apply (stays pgTextDecString fun _ => ⟨nofun, nofun⟩).1
  rfl

end RubyPg.Text
