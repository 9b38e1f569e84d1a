import RubyPg.Text.ArrayEncoder
import RubyPg.Text.ArrayDecoder
import RubyPg.Lib.Scan

/-!
# The array decoder reads back what the array encoder writes

`Fits` is the shape of the values an array encoder accepts whose leaves the element
coders take there and back. For each entry the encoder writes a text that the decoder
reads as that entry (`Reads`): an unquoted word, a quoted word, `NULL` or a sub-array.
`readLoop_entries` chains the entries up to the closing brace, and the round trip
(`array_round_trip`) is by induction on `Fits`.
-/

namespace RubyPg.Text
set_option autoImplicit false
open Ascii

/-- A delimiter that no quoting rule of the array text depends on. -/
structure PlainDelimiter (d : UInt8) : Prop where
  dquote : d ≠ dquote
  lbrace : d ≠ lbrace
  rbrace : d ≠ rbrace
  upperN : d ≠ upperN
  upperU : d ≠ upperU
  upperL : d ≠ upperL
  nul : d ≠ nul

/-- What the encoder writes for one character between quotes. -/
abbrev arrayEsc : UInt8 → Bytes := markEsc needsBackslash fun _ => backslash

/-- `quote_array_buffer` between quotes is plain left-to-right escaping. -/
theorem quoteArrayBuffer_quoted {d : UInt8} {input : Bytes} (h : needquote d input = true) :
    quoteArrayBuffer d input = dquote :: (input.flatMap arrayEsc ++ [dquote]) := by
  rw [quoteArrayBuffer, if_pos h, escapeBack_eq, List.reverse_reverse]

theorem quoteArrayBuffer_plain {d : UInt8} {input : Bytes} (h : needquote d input = false) :
    quoteArrayBuffer d input = input := by
  simp [quoteArrayBuffer, h]

/-- A character the decoder takes into an unquoted word. -/
structure PlainChar (d ch : UInt8) : Prop where
  delimiter : ch ≠ d
  dquote : ch ≠ dquote
  lbrace : ch ≠ lbrace
  rbrace : ch ≠ rbrace
  nul : ch ≠ nul

/-- A string that goes unquoted is not empty, not `NULL`, and plain throughout. -/
theorem plain_of_needquote {d : UInt8} {input : Bytes} (h : needquote d input = false)
    (nonul : nul ∉ input) :
    input ≠ [] ∧ input ≠ null ∧ ∀ ch ∈ input, PlainChar d ch := by
  simp only [needquote, Bool.or_eq_false_iff, List.any_eq_false, needsBackslash, needsQuotes,
    Bool.or_eq_true, beq_iff_eq, not_or, beq_eq_false_iff_ne, Bool.and_eq_false_iff] at h
  obtain ⟨⟨nonempty, notNull⟩, chars⟩ := h
  refine ⟨?_, ?_, ?_⟩
  · rintro rfl
    simp at nonempty
  · rintro rfl
    revert notNull
    decide
  · intro ch hch
    have := chars ch hch
    exact ⟨by tauto, by tauto, by tauto, by tauto, fun e => nonul (e ▸ hch)⟩

/-- What stands between quotes for a word: its characters, some of them behind a backslash. -/
inductive Quoted : Bytes → Bytes → Prop where
  | nil : Quoted [] []
  | char {c : UInt8} {text word : Bytes} (notBackslash : c ≠ backslash) (notDquote : c ≠ dquote)
      (rest : Quoted text word) : Quoted (c :: text) (c :: word)
  | escaped {c : UInt8} {text word : Bytes} (rest : Quoted text word) : Quoted (backslash :: c :: text) (c :: word)

theorem quoted_arrayEsc (word : Bytes) : Quoted (word.flatMap arrayEsc) word := by
  induction word with
  | nil => exact .nil
  | cons c word ih =>
    rw [List.flatMap_cons, arrayEsc, markEsc]
    by_cases special : needsBackslash c = true
    · rw [if_pos special]
      exact .escaped ih
    · rw [if_neg special]
      simp only [needsBackslash, Bool.or_eq_true, beq_iff_eq, not_or] at special
      exact .char special.2 special.1 ih

section Reading

variable {dec : CompositeDecoder} {s : Bytes}

/-- The state at the start of an entry. -/
structure ReadState.Fresh (st : ReadState) : Prop where
  wordIndex : st.wordIndex = 0
  openQuote : st.openQuote = .never
  escapeNext : st.escapeNext = false

/-- The state behind an entry, at the delimiter or brace that ends it: ending the word
appends `v` to the entries before it. -/
structure ReadState.Ready (dec : CompositeDecoder) (before : List Value) (v : Value) (st : ReadState) :
    Prop where
  openQuote : st.openQuote ≠ .inside
  ends : ∃ word, endWord dec st = .ok { st with word, array := before ++ [v] }

/-- `text` reads as the entry `v`: from a fresh state with fuel for all that is left, the
loop gets to the end of `text` ready to push `v`. -/
def Reads (dec : CompositeDecoder) (text : Bytes) (v : Value) : Prop :=
  ∀ (s rest : Bytes) (fuel : Nat) (st : ReadState), st.Fresh → Rest s st.index (text ++ rest) →
    2 * (text.length + rest.length) < fuel →
    ∃ fuel' st', readLoop dec s fuel st = readLoop dec s fuel' st' ∧ 2 * rest.length < fuel' ∧
      Rest s st'.index rest ∧ st'.Ready dec st.array v

/-- The loop has moved from `st` to `st'` by taking `taken` into the current word, and has
fuel for `rest`. -/
structure Took (s taken rest : Bytes) (fuel' : Nat) (st st' : ReadState) : Prop where
  fuel : 2 * rest.length < fuel'
  rest : Rest s st'.index rest
  text : st'.text = st.text ++ taken
  wordIndex : st'.wordIndex = st.wordIndex + taken.length
  array : st'.array = st.array
  escapeNext : st'.escapeNext = st.escapeNext

theorem ReadState.push_text (st : ReadState) (c : UInt8) : (st.push c).text = st.text ++ [c] := by
  simpa [ReadState.push, ReadState.text] using Mem.slice_put_succ st.word 0 st.wordIndex c

/-- One plain character outside quotes. -/
theorem readLoop_plain_char {fuel : Nat} {st : ReadState} {ch : UInt8} {rest : Bytes}
    (outside : st.openQuote = .never) (here : Rest s st.index (ch :: rest)) (plain : PlainChar dec.delimiter ch) :
    readLoop dec s (fuel + 1) st = readLoop dec s fuel (st.push ch) := by
  rw [readLoop]
  simp only [here.lt, here.getD, if_true]
  simp [outside, plain.delimiter, plain.rbrace, plain.dquote, plain.lbrace, plain.nul]

/-- An unquoted word is taken character by character. -/
theorem readLoop_plain {word rest : Bytes} {fuel : Nat} {st : ReadState} (outside : st.openQuote = .never)
    (here : Rest s st.index (word ++ rest)) (enough : 2 * (word.length + rest.length) < fuel)
    (plain : ∀ ch ∈ word, PlainChar dec.delimiter ch) :
    ∃ fuel' st', readLoop dec s fuel st = readLoop dec s fuel' st' ∧ st'.openQuote = .never ∧
      Took s word rest fuel' st st' := by
  induction word generalizing fuel st with
  | nil => exact ⟨fuel, st, rfl, outside, by simpa using enough, here, by simp, by simp, rfl, rfl⟩
  | cons ch word ih =>
    obtain ⟨fuel, rfl⟩ : ∃ n, fuel = n + 1 := ⟨fuel - 1, by simp at enough; omega⟩
    obtain ⟨fuel', st', run, outside', took⟩ := @ih fuel (st.push ch) outside here.next
      (by simp at enough; omega) fun c hc => plain c (List.mem_cons_of_mem _ hc)
    refine ⟨fuel', st', ?_, outside', took.fuel, took.rest, ?_, ?_, took.array, took.escapeNext⟩
    · rw [readLoop_plain_char outside here (plain ch List.mem_cons_self), run]
    · rw [took.text, ReadState.push_text]; simp
    · rw [took.wordIndex]; simp [ReadState.push]; omega

/-- The characters between quotes. -/
theorem readLoop_inside {text word rest : Bytes} {fuel : Nat} {st : ReadState}
    (inside : st.openQuote = .inside) (literal : st.escapeNext = false) (quoted : Quoted text word)
    (here : Rest s st.index (text ++ rest)) (enough : 2 * (text.length + rest.length) < fuel) :
    ∃ fuel' st', readLoop dec s fuel st = readLoop dec s fuel' st' ∧ st'.openQuote = .inside ∧
      Took s word rest fuel' st st' := by
  induction quoted generalizing fuel st with
  | nil => exact ⟨fuel, st, rfl, inside, by simpa using enough, here, by simp, by simp, rfl, rfl⟩
  | @char ch text word notBackslash notDquote quoted ih =>
    obtain ⟨fuel, rfl⟩ : ∃ n, fuel = n + 1 := ⟨fuel - 1, by simp at enough; omega⟩
    have step : readLoop dec s (fuel + 1) st = readLoop dec s fuel (st.push ch) := by
      rw [readLoop]
      simp only [here.lt, here.getD, inside, if_true]
      simp [literal, notBackslash, notDquote]
    obtain ⟨fuel', st', run, inside', took⟩ := @ih fuel (st.push ch) inside literal here.next
      (by simp at enough; omega)
    refine ⟨fuel', st', step.trans run, inside', took.fuel, took.rest, ?_, ?_, took.array, took.escapeNext⟩
    · rw [took.text, ReadState.push_text]; simp
    · rw [took.wordIndex]; simp [ReadState.push]; omega
  | @escaped ch text word quoted ih =>
    obtain ⟨fuel, rfl⟩ : ∃ n, fuel = n + 2 := ⟨fuel - 2, by simp at enough; omega⟩
    have second : Rest s (st.index + 1) (ch :: (text ++ rest)) := here.next
    have step : readLoop dec s (fuel + 2) st = readLoop dec s fuel { st.push ch with index := st.index + 2 } := by
      rw [readLoop]
      simp only [here.lt, here.getD, inside, literal, if_true, ne_eq, not_true_eq_false, if_false]
      rw [if_neg (by simp), readLoop]
      simp only [second.lt, second.getD, if_true]
      simp [ReadState.push, literal, inside]
    obtain ⟨fuel', st', run, inside', took⟩ := @ih fuel { st.push ch with index := st.index + 2 } inside literal
      second.next (by simp at enough; omega)
    refine ⟨fuel', st', step.trans run, inside', took.fuel, took.rest, ?_, ?_, took.array, took.escapeNext⟩
    · rw [took.text]
      exact (congrArg (· ++ word) (st.push_text ch)).trans (by simp)
    · rw [took.wordIndex]; simp [ReadState.push]; omega

/-- Ending a word that was read outside quotes and does not spell `NULL`, or that was
quoted, pushes what the element decoder makes of it. -/
theorem endWord_word {st : ReadState} {word : Bytes} {v : Value} (literal : st.escapeNext = false)
    (text : st.text = word) (notNull : st.openQuote = .never → word ≠ null) (decoded : dec.elem word = .ok v) :
    ∃ mem, endWord dec st = .ok { st with word := mem, array := st.array ++ [v] } := by
  have notNil : ¬(st.openQuote = .never ∧ st.wordIndex = 4 ∧ st.text = null) := by
    rintro ⟨never, -, spelled⟩
    exact notNull never (text.symm.trans spelled)
  refine ⟨st.word.put st.wordIndex nul, ?_⟩
  simp only [endWord, literal, Bool.false_eq_true, if_false]
  rw [if_neg notNil, text, decoded]
  rfl

/-- A run of plain characters that does not spell `NULL` reads as what the element decoder makes of it. -/
theorem reads_run {word : Bytes} {v : Value} (plain : ∀ ch ∈ word, PlainChar dec.delimiter ch) (notNull : word ≠ null)
    (decoded : dec.elem word = .ok v) : Reads dec word v := by
  intro s rest fuel st fresh here enough
  obtain ⟨fuel', st', run, outside, took⟩ := readLoop_plain fresh.openQuote here enough plain
  have empty : st.text = [] := by simp [ReadState.text, fresh.wordIndex]
  refine ⟨fuel', st', run, took.fuel, took.rest, by simp [outside], ?_⟩
  rw [← took.array]
  exact endWord_word (took.escapeNext.trans fresh.escapeNext) (took.text.trans (by rw [empty]; rfl))
    (fun _ => notNull) decoded

/-- A word that needs no quotes reads as what the element decoder makes of it. -/
theorem reads_plain {word : Bytes} {v : Value} (unquoted : needquote dec.delimiter word = false)
    (nonul : nul ∉ word) (decoded : dec.elem word = .ok v) : Reads dec word v := by
  obtain ⟨-, notNull, plain⟩ := plain_of_needquote unquoted nonul
  exact reads_run plain notNull decoded

/-- A word between quotes reads as what the element decoder makes of it, `NULL` included. -/
theorem reads_quoted {text word : Bytes} {v : Value} (notDquote : dec.delimiter ≠ dquote)
    (quoted : Quoted text word) (decoded : dec.elem word = .ok v) : Reads dec (dquote :: (text ++ [dquote])) v := by
  intro s rest fuel st fresh here enough
  simp only [List.length_cons, List.length_append, List.length_nil] at enough
  obtain ⟨fuel, rfl⟩ : ∃ n, fuel = n + 1 := ⟨fuel - 1, by omega⟩
  -- the opening quote
  have opened : readLoop dec s (fuel + 1) st =
      readLoop dec s fuel { st with openQuote := .inside, index := st.index + 1 } := by
    rw [readLoop]
    simp only [here.lt, here.getD, if_true]
    simp +decide [fresh.openQuote, notDquote.symm]
  have body : Rest s (st.index + 1) (text ++ (dquote :: rest)) := by simpa using here.next
  obtain ⟨fuel', st', run, inside, took⟩ := @readLoop_inside dec s text word (dquote :: rest) fuel
    { st with openQuote := .inside, index := st.index + 1 } rfl fresh.escapeNext quoted body
    (by simp only [List.length_cons]; omega)
  have literal : st'.escapeNext = false := took.escapeNext.trans fresh.escapeNext
  have left := took.fuel
  simp only [List.length_cons] at left
  obtain ⟨fuel', rfl⟩ : ∃ n, fuel' = n + 1 := ⟨fuel' - 1, by omega⟩
  -- the closing quote
  have closed : readLoop dec s (fuel' + 1) st' =
      readLoop dec s fuel' { st' with openQuote := .before, index := st'.index + 1 } := by
    rw [readLoop]
    simp only [took.rest.lt, took.rest.getD, if_true]
    simp +decide [inside, literal]
  have spelled : ReadState.text { st' with openQuote := .before, index := st'.index + 1 } = word := by
    have empty : ReadState.text { st with openQuote := .inside, index := st.index + 1 } = [] := by
      simp [ReadState.text, fresh.wordIndex]
    exact took.text.trans (by rw [empty]; rfl)
  refine ⟨fuel', _, opened.trans (run.trans closed), by omega, took.rest.next, by simp, ?_⟩
  have array : st'.array = st.array := took.array
  rw [← array]
  exact @endWord_word dec { st' with openQuote := .before, index := st'.index + 1 } word v literal spelled
    (fun never => by simp at never) decoded

/-- Whatever `quote_array_buffer` decides, the decoder gets the word back. -/
theorem reads_quoteArrayBuffer {word : Bytes} {v : Value} (plain : PlainDelimiter dec.delimiter)
    (nonul : nul ∉ word) (decoded : dec.elem word = .ok v) :
    Reads dec (quoteArrayBuffer dec.delimiter word) v := by
  cases quoted : needquote dec.delimiter word with
  | false =>
    rw [quoteArrayBuffer_plain quoted]
    exact reads_plain quoted nonul decoded
  | true =>
    rw [quoteArrayBuffer_quoted quoted]
    exact reads_quoted plain.dquote (quoted_arrayEsc word) decoded

/-- `NULL` reads as `nil`. -/
theorem reads_null (plain : PlainDelimiter dec.delimiter) : Reads dec null .nil := by
  intro s rest fuel st fresh here enough
  have chars : ∀ ch ∈ null, PlainChar dec.delimiter ch := by
    intro ch hch
    simp only [List.mem_cons, List.not_mem_nil, or_false] at hch
    rcases hch with rfl | rfl | rfl | rfl
    · exact ⟨plain.upperN.symm, by decide, by decide, by decide, by decide⟩
    · exact ⟨plain.upperU.symm, by decide, by decide, by decide, by decide⟩
    · exact ⟨plain.upperL.symm, by decide, by decide, by decide, by decide⟩
    · exact ⟨plain.upperL.symm, by decide, by decide, by decide, by decide⟩
  obtain ⟨fuel', st', run, outside, took⟩ := readLoop_plain fresh.openQuote here enough chars
  have literal : st'.escapeNext = false := took.escapeNext.trans fresh.escapeNext
  have text : st'.text = null := took.text.trans (by simp [ReadState.text, fresh.wordIndex])
  have four : st'.wordIndex = 4 := took.wordIndex.trans (by simp [fresh.wordIndex])
  refine ⟨fuel', st', run, took.fuel, took.rest, by simp [outside], st'.word, ?_⟩
  simp only [endWord, literal, outside, four, text, took.array]
  rfl

/-- The loop at the brace or delimiter behind an entry that is ready. -/
theorem readLoop_close {rest : Bytes} {fuel : Nat} {st : ReadState} {before : List Value} {v : Value}
    (ready : st.Ready dec before v) (here : Rest s st.index (rbrace :: rest)) :
    ∃ word, readLoop dec s (fuel + 1) st = .ok ⟨before ++ [v], st.index, word⟩ := by
  obtain ⟨outside, word, ended⟩ := ready
  refine ⟨word, ?_⟩
  rw [readLoop]
  simp only [here.lt, here.getD, if_true]
  simp [outside, ended, ReadState.result, bind, Except.bind, pure, Except.pure]

theorem readLoop_delimiter {rest : Bytes} {fuel : Nat} {st : ReadState} {before : List Value} {v : Value}
    (notRbrace : dec.delimiter ≠ rbrace) (ready : st.Ready dec before v)
    (here : Rest s st.index (dec.delimiter :: rest)) :
    ∃ next : ReadState, readLoop dec s (fuel + 1) st = readLoop dec s fuel next ∧ next.Fresh ∧
      next.array = before ++ [v] ∧ next.index = st.index + 1 := by
  obtain ⟨outside, word, ended⟩ := ready
  refine ⟨ReadState.nextWord { st with word, array := before ++ [v] }, ?_, ⟨rfl, rfl, rfl⟩, rfl, rfl⟩
  rw [readLoop]
  simp only [here.lt, here.getD, if_true]
  simp [outside, ended, notRbrace, bind, Except.bind]

/-- A text that does not look like the end of an array. -/
def Opens (text : Bytes) : Prop := ∃ ch rest, text = ch :: rest ∧ ch ≠ rbrace

theorem opens_quoteArrayBuffer (d : UInt8) {word : Bytes} (nonul : nul ∉ word) :
    Opens (quoteArrayBuffer d word) := by
  cases quoted : needquote d word with
  | true =>
    rw [quoteArrayBuffer_quoted quoted]
    exact ⟨_, _, rfl, by decide⟩
  | false =>
    rw [quoteArrayBuffer_plain quoted]
    obtain ⟨nonempty, -, plain⟩ := plain_of_needquote quoted nonul
    obtain ⟨ch, rest, rfl⟩ := List.exists_cons_of_ne_nil nonempty
    exact ⟨ch, rest, rfl, (plain ch List.mem_cons_self).rbrace⟩

/-- The text of the entries of one array, up to its closing brace, reads as `xs`. -/
def ReadsEntries (dec : CompositeDecoder) (body : Bytes) (xs : List Value) : Prop :=
  ∀ (s rest : Bytes) (fuel : Nat) (st : ReadState), st.Fresh → Rest s st.index (body ++ rbrace :: rest) →
    2 * (body.length + rest.length + 1) < fuel →
    ∃ word, readLoop dec s fuel st = .ok ⟨st.array ++ xs, st.index + body.length, word⟩

/-- The last entry. -/
theorem ReadsEntries.single {text : Bytes} {v : Value} (reads : Reads dec text v) : ReadsEntries dec text [v] := by
  intro s rest fuel st fresh here enough
  obtain ⟨fuel', st', run, left, there, ready⟩ := reads s (rbrace :: rest) fuel st fresh here
    (by simp only [List.length_cons]; omega)
  obtain ⟨fuel', rfl⟩ : ∃ n, fuel' = n + 1 := ⟨fuel' - 1, by omega⟩
  obtain ⟨word, closed⟩ := @readLoop_close dec s rest fuel' st' _ v ready there
  exact ⟨word, by rw [run, closed, here.index_eq there (by simp)]⟩

/-- An entry, the delimiter and the entries behind it. -/
theorem ReadsEntries.cons {text body : Bytes} {v : Value} {xs : List Value} (notRbrace : dec.delimiter ≠ rbrace)
    (reads : Reads dec text v) (following : ReadsEntries dec body xs) :
    ReadsEntries dec (text ++ dec.delimiter :: body) (v :: xs) := by
  intro s rest fuel st fresh here enough
  simp only [List.length_append, List.length_cons] at enough
  have here : Rest s st.index (text ++ (dec.delimiter :: (body ++ rbrace :: rest))) := by simpa using here
  obtain ⟨fuel', st', run, left, there, ready⟩ := reads s _ fuel st fresh here
    (by simp only [List.length_append, List.length_cons]; omega)
  simp only [List.length_append, List.length_cons] at left
  obtain ⟨fuel', rfl⟩ : ∃ n, fuel' = n + 1 := ⟨fuel' - 1, by omega⟩
  obtain ⟨next, delimited, fresh', array, index⟩ :=
    @readLoop_delimiter dec s _ fuel' st' _ v notRbrace ready there
  obtain ⟨word, done⟩ := following s rest fuel' next fresh' (by rw [index]; exact there.next) (by omega)
  have moved := here.index_eq there (by simp)
  refine ⟨word, ?_⟩
  rw [run, delimited, done, array, index, moved]
  simp only [List.append_assoc, List.singleton_append, List.length_append, List.length_cons]
  congr 2
  omega

/-- A sub-array reads as one entry. -/
theorem reads_subarray {body : Bytes} {xs : List Value} (notLbrace : dec.delimiter ≠ lbrace)
    (entries : (body = [] ∧ xs = []) ∨ (Opens body ∧ ReadsEntries dec body xs)) :
    Reads dec (lbrace :: body ++ [rbrace]) (.ary xs) := by
  intro s rest fuel st fresh here enough
  simp only [List.length_cons, List.length_append, List.length_nil] at enough
  have here : Rest s st.index (lbrace :: (body ++ rbrace :: rest)) := by simpa using here
  obtain ⟨fuel, rfl⟩ : ∃ n, fuel = n + 2 := ⟨fuel - 2, by omega⟩
  -- the recursive call stops at the inner closing brace
  obtain ⟨word, sub⟩ : ∃ word, readArrayWithoutDim dec s (fuel + 1) (st.index + 1) st.word =
      .ok ⟨xs, st.index + 1 + body.length, word⟩ := by
    rw [readArrayWithoutDim]
    rcases entries with ⟨rfl, rfl⟩ | ⟨⟨ch, tail, rfl, open'⟩, reads⟩
    · have brace : Rest s (st.index + 1) (rbrace :: rest) := here.next
      exact ⟨st.word, by rw [if_pos ⟨brace.lt, brace.getD _⟩]; rfl⟩
    · have first : Rest s (st.index + 1) (ch :: (tail ++ rbrace :: rest)) := here.next
      rw [if_neg (by rw [first.getD]; exact fun h => open' h.2)]
      obtain ⟨word, done⟩ := reads s rest fuel { index := st.index + 1, word := st.word } ⟨rfl, rfl, rfl⟩
        here.next (by omega)
      exact ⟨word, by simpa using done⟩
  have entered : readLoop dec s (fuel + 2) st = readLoop dec s (fuel + 1)
      (st.pushSubarray ⟨xs, st.index + 1 + body.length, word⟩) := by
    rw [readLoop]
    simp only [here.lt, here.getD, if_true]
    simp +decide [fresh.openQuote, notLbrace.symm, sub, bind, Except.bind]
  refine ⟨fuel + 1, _, entered, by omega, ?_, ?_, ?_⟩
  · exact here.next.skip.next
  · simp [ReadState.pushSubarray, fresh.openQuote]
  · exact ⟨word, by simp [endWord, ReadState.pushSubarray, pure, Except.pure]⟩

end Reading

section RoundTrip

variable {enc : CompositeCoder} {dec : CompositeDecoder}

/-- The values an array encoder with these `dimensions` accepts at one depth, with leaves that
the element coders take there and back through a NUL-free text. -/
inductive Fits (enc : CompositeCoder) (dec : CompositeDecoder) : Int → Value → Prop where
  | nil {depth : Int} (last : enc.dimensions < 0 ∨ depth = enc.dimensions) : Fits enc dec depth .nil
  | sub {depth : Int} {xs : List Value} (deeper : enc.dimensions < 0 ∨ depth < enc.dimensions)
      (empty : xs = [] → enc.dimensions < 0 ∨ depth + 1 = enc.dimensions)
      (entries : ∀ x ∈ xs, Fits enc dec (depth + 1) x) : Fits enc dec depth (.ary xs)
  | leaf {depth : Int} {v : Value} {text : Bytes} (last : enc.dimensions < 0 ∨ depth = enc.dimensions)
      (notNil : v ≠ .nil) (notSub : ∀ xs, v = .ary xs → 0 ≤ enc.dimensions)
      (encoded : enc.elem.encode v = .ok text) (nonul : nul ∉ text) (decoded : dec.elem text = .ok v) :
      Fits enc dec depth v

/-- The coders of one round trip: quoting on, and one plain delimiter on both sides. -/
structure Matching (enc : CompositeCoder) (dec : CompositeDecoder) : Prop where
  quotation : enc.needsQuotation = true
  delimiter : enc.delimiter = dec.delimiter
  plain : PlainDelimiter dec.delimiter

/-- The encoder writes `text` for the entry, and the decoder reads it back. -/
structure Written (enc : CompositeCoder) (dec : CompositeDecoder) (depth : Int) (v : Value) (text : Bytes) :
    Prop where
  encoded : writeEntry enc v depth = .ok text
  opens : Opens text
  nonul : nul ∉ text
  reads : Reads dec text v

theorem nul_notMem_quoteArrayBuffer (d : UInt8) {word : Bytes} (nonul : nul ∉ word) :
    nul ∉ quoteArrayBuffer d word := by
  cases quoted : needquote d word with
  | false => rwa [quoteArrayBuffer_plain quoted]
  | true =>
    rw [quoteArrayBuffer_quoted quoted]
    have body := notMem_flatMap_markEsc needsBackslash (fun _ => backslash) nonul fun _ _ => by decide
    simp +decide [body]

/-- A leaf is written by the element encoder and `quote_array_buffer`. -/
theorem writeEntry_leaf {depth : Int} {v : Value} (last : enc.dimensions < 0 ∨ depth = enc.dimensions)
    (notNil : v ≠ .nil) (notSub : ∀ xs, v = .ary xs → 0 ≤ enc.dimensions) :
    writeEntry enc v depth = quoteString enc.elem v enc.needsQuotation (quoteArrayBuffer enc.delimiter) := by
  have element : writeElement enc v depth =
      quoteString enc.elem v enc.needsQuotation (quoteArrayBuffer enc.delimiter) := by
    rw [writeElement, if_neg]
    simp only [Bool.and_eq_true, decide_eq_true_eq, bne_iff_ne, not_and, not_not]
    omega
  cases v with
  | nil => exact absurd rfl notNil
  | ary xs =>
    have := notSub xs rfl
    rw [writeEntry, if_neg, element]
    simp only [Bool.or_eq_true, decide_eq_true_eq]
    omega
  | _ => simpa only [writeEntry] using element

/-- The entries of an array, given each one. -/
theorem writeEntries_written (matching : Matching enc dec) {depth : Int} {xs : List Value}
    (entries : ∀ x ∈ xs, ∃ text, Written enc dec depth x text) :
    ∃ body, writeEntries enc xs depth = .ok body ∧ nul ∉ body ∧
      ((body = [] ∧ xs = []) ∨ (Opens body ∧ ReadsEntries dec body xs)) := by
  induction xs with
  | nil => exact ⟨[], by rw [writeEntries]; rfl, by simp, Or.inl ⟨rfl, rfl⟩⟩
  | cons x xs ih =>
    obtain ⟨text, written⟩ := entries x List.mem_cons_self
    obtain ⟨body, encoded, nonul, rest⟩ := ih fun y hy => entries y (List.mem_cons_of_mem _ hy)
    cases xs with
    | nil =>
      exact ⟨text, by rw [writeEntries, written.encoded], written.nonul,
        Or.inr ⟨written.opens, .single written.reads⟩⟩
    | cons y ys =>
      obtain ⟨-, following⟩ : Opens body ∧ ReadsEntries dec body (y :: ys) := by
        rcases rest with ⟨-, h⟩ | h
        · cases h
        · exact h
      refine ⟨text ++ enc.delimiter :: body, ?_, ?_, Or.inr ⟨?_, ?_⟩⟩
      · rw [writeEntries, written.encoded, encoded]
        · rfl
        · simp
      · rw [matching.delimiter]
        simp [written.nonul, nonul, matching.plain.nul.symm]
      · obtain ⟨ch, tail, rfl, notRbrace⟩ := written.opens
        exact ⟨ch, _, rfl, notRbrace⟩
      · rw [matching.delimiter]
        exact .cons matching.plain.rbrace written.reads following

/-- Every fitting entry is written and read back. -/
theorem Fits.written (matching : Matching enc dec) {depth : Int} {v : Value} (fits : Fits enc dec depth v) :
    ∃ text, Written enc dec depth v text := by
  induction fits with
  | @nil depth last =>
    refine ⟨null, ?_, ⟨_, _, rfl, by decide⟩, by decide, reads_null matching.plain⟩
    rw [writeEntry, if_neg]
    · rfl
    · simp only [Bool.and_eq_true, decide_eq_true_eq, bne_iff_ne, not_and, not_not]
      omega
  | @sub depth xs deeper empty entries ih =>
    obtain ⟨body, encoded, nonul, reads⟩ := writeEntries_written matching ih
    refine ⟨lbrace :: body ++ [rbrace], ?_, ⟨_, _, rfl, by decide⟩, ?_, reads_subarray matching.plain.lbrace reads⟩
    · rw [writeEntry, if_pos, writeArray, if_neg, encoded]
      · rfl
      · simp only [Bool.and_eq_true, List.isEmpty_iff, decide_eq_true_eq, bne_iff_ne, not_and, not_not]
        intro h
        have := empty h.1
        omega
      · simpa using deeper
    · simp +decide [nonul]
  | @leaf depth v text last notNil notSub encoded nonul decoded =>
    refine ⟨quoteArrayBuffer dec.delimiter text, ?_, opens_quoteArrayBuffer _ nonul,
      nul_notMem_quoteArrayBuffer _ nonul, reads_quoteArrayBuffer matching.plain nonul decoded⟩
    rw [writeEntry_leaf last notNil notSub, quoteString, encoded, matching.quotation, matching.delimiter]
    rfl

/-- What stands behind the opening brace, up to the closing one. -/
theorem readBody_entries {s body rest : Bytes} {xs : List Value} {index : Nat}
    (entries : (body = [] ∧ xs = []) ∨ (Opens body ∧ ReadsEntries dec body xs))
    (here : Rest s index (body ++ rbrace :: rest)) :
    ∃ word, readBody dec s index = .ok ⟨xs, index + body.length, word⟩ := by
  rw [readBody]
  rcases entries with ⟨rfl, rfl⟩ | ⟨⟨ch, tail, rfl, notRbrace⟩, reads⟩
  · have last : Rest s index (rbrace :: rest) := here
    exact ⟨_, by rw [if_pos ⟨last.lt, last.getD _⟩]; rfl⟩
  · have first : Rest s index (ch :: (tail ++ rbrace :: rest)) := here
    have inner : ¬(index < s.length ∧ s.getD index nul = rbrace) := by
      rw [first.getD]
      exact fun h => notRbrace h.2
    have enough := here.length_le
    simp only [List.length_append, List.length_cons] at enough
    obtain ⟨word, done⟩ := reads s rest (2 * s.length + 1) { index, word := fun _ => nul } ⟨rfl, rfl, rfl⟩
      here (by simp only [List.length_cons]; omega)
    refine ⟨word, ?_⟩
    rw [if_neg inner, readArrayWithoutDim, if_neg inner, done]
    rfl

/-- `pg_text_dec_array` on a text without dimension decoration. -/
theorem pgTextDecArray_braces {body : Bytes} {xs : List Value}
    (entries : (body = [] ∧ xs = []) ∨ (Opens body ∧ ReadsEntries dec body xs)) :
    pgTextDecArray dec (lbrace :: body ++ [rbrace]) = .ok (.ary xs) := by
  obtain ⟨s, hs⟩ : ∃ s, s = lbrace :: body ++ [rbrace] := ⟨_, rfl⟩
  rw [← hs]
  have start : Rest s 0 (lbrace :: (body ++ [rbrace])) := by rw [hs]; exact .zero _
  have last : Rest s (0 + 1 + body.length) [rbrace] := start.next.skip
  have spaces : skipWhile arrayIsspace s 0 = 0 := by
    rw [hs]
    simp +decide [skipWhile, arrayIsspace]
  have dims : skipDims dec s (s.length + 1) 0 0 = .ok (0, 0) := by
    rw [skipDims, spaces, start.getD]
    rfl
  obtain ⟨word, array⟩ := readBody_entries entries start.next
  have junk : s.drop (0 + 1 + body.length + 1) = [] := last.next
  simp only [pgTextDecArray, dims, skipAssignment, bind, Except.bind, pure, Except.pure, if_true, array, expectBrace,
    start.getD, last.getD, junk, checkJunk, ne_eq, not_true_eq_false, if_false]

/-- The values an array encoder accepts as a whole. -/
structure FitsArray (enc : CompositeCoder) (dec : CompositeDecoder) (xs : List Value) : Prop where
  empty : xs = [] → enc.dimensions < 0 ∨ 1 = enc.dimensions
  entries : ∀ x ∈ xs, Fits enc dec 1 x

/-- **The array round trip**, for any element coders. -/
theorem array_round_trip (matching : Matching enc dec) {xs : List Value} (fits : FitsArray enc dec xs) :
    ∃ text, writeArray enc xs 1 = .ok text ∧ nul ∉ text ∧ pgTextDecArray dec text = .ok (.ary xs) := by
  obtain ⟨body, encoded, nonul, reads⟩ :=
    writeEntries_written matching fun x hx => (fits.entries x hx).written matching
  refine ⟨lbrace :: body ++ [rbrace], ?_, by simp +decide [nonul], pgTextDecArray_braces reads⟩
  rw [writeArray, if_neg, encoded]
  · rfl
  · simp only [Bool.and_eq_true, List.isEmpty_iff, decide_eq_true_eq, bne_iff_ne, not_and, not_not]
    intro h
    have := fits.empty h.1
    omega

end RoundTrip

/-- Values built to any depth from `nil`, NUL-free strings and arrays. -/
inductive StringTree : Value → Prop where
  | nil : StringTree .nil
  | str {s : Bytes} (nonul : nul ∉ s) : StringTree (.str s)
  | ary {xs : List Value} (entries : ∀ x ∈ xs, StringTree x) : StringTree (.ary xs)

/-- Without `dimensions` the String coders fit every string tree at every depth. -/
theorem StringTree.fits {enc : CompositeCoder} {dec : CompositeDecoder} {rt : Runtime} {v : Value}
    (tree : StringTree v) (unset : enc.dimensions < 0) (encoder : enc.elem = pgCoderEncToS rt)
    (decoder : dec.elem = pgTextDecString) (depth : Int) : Fits enc dec depth v := by
  induction tree generalizing depth with
  | nil => exact .nil (Or.inl unset)
  | @str s nonul =>
    refine .leaf (Or.inl unset) (by simp) (by simp) ?_ nonul (by rw [decoder]; rfl)
    rw [encoder]
    exact pgCoderEncToS_encode_str rt s
  | ary _ ih => exact .sub (Or.inl unset) (fun _ => Or.inl unset) fun x hx => ih x hx (depth + 1)

/-- **Text array round trip.** With string elements, `dimensions` unset and quoting on, decoding
what the encoder writes for an array of any nesting returns that array, in every error mode. -/
theorem text_array_round_trip (rt : Runtime) (delimiter : UInt8) (formatError : FormatError) (xs : List Value)
    (plain : delimiter ∉ [dquote, lbrace, rbrace, upperN, upperU, upperL, nul]) (tree : StringTree (.ary xs)) :
    ((pgTextEncArray rt { elem := pgCoderEncToS rt, needsQuotation := true, dimensions := -1, delimiter }).encode
        (.ary xs) >>= pgTextDecArray { elem := pgTextDecString, delimiter, formatError }) = .ok (.ary xs) := by
  simp only [List.mem_cons, List.not_mem_nil, or_false, not_or] at plain
  obtain ⟨hq, hl, hr, hN, hU, hL, h0⟩ := plain
  cases tree with
  | ary entries =>
    have matching : Matching { elem := pgCoderEncToS rt, needsQuotation := true, dimensions := -1, delimiter }
        { elem := pgTextDecString, delimiter, formatError } := ⟨rfl, rfl, ⟨hq, hl, hr, hN, hU, hL, h0⟩⟩
    have unset : (-1 : Int) < 0 := by decide
    have fits : FitsArray { elem := pgCoderEncToS rt, needsQuotation := true, dimensions := -1, delimiter }
        { elem := pgTextDecString, delimiter, formatError } xs :=
      ⟨fun _ => Or.inl unset, fun x hx => (entries x hx).fits unset rfl rfl 1⟩
    obtain ⟨text, encoded, -, decoded⟩ := array_round_trip matching fits
    simp only [Encoder.encode, pgTextEncArray, encoded, bind, Except.bind, pure, Except.pure, decoded]

/-- `["NULL", nil, [[], "a\"\\"]]` comes back, with a semicolon between the elements. -/
theorem text_array_round_trip_nested :
    ((pgTextEncArray .sample
        { elem := pgCoderEncToS .sample, needsQuotation := true, dimensions := -1, delimiter := 0x3b }).encode
        (.ary [.str null, .nil, .ary [.ary [], .str [0x61, dquote, backslash]]]) >>=
      pgTextDecArray { elem := pgTextDecString, delimiter := 0x3b, formatError := .raise }) =
      .ok (.ary [.str null, .nil, .ary [.ary [], .str [0x61, dquote, backslash]]]) := by
  apply text_array_round_trip
  · decide
  · refine .ary fun x hx => ?_
    simp only [List.mem_cons, List.not_mem_nil, or_false] at hx
    rcases hx with rfl | rfl | rfl
    · exact .str (by decide)
    · exact .nil
    · refine .ary fun y hy => ?_
      simp only [List.mem_cons, List.not_mem_nil, or_false] at hy
      rcases hy with rfl | rfl
      · exact .ary (by simp)
      · exact .str (by decide)

end RubyPg.Text
