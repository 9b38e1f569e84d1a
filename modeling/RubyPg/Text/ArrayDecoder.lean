import RubyPg.Coder
import RubyPg.Lib.Memory
import RubyPg.Lib.Scan

/-!
# `PG::TextDecoder::Array`

`read_array_without_dim` and `pg_text_dec_array` of `ext/pg_text_decoder.c`: a
recursive character machine over the NUL-terminated input. `index` and the `word`
buffer are shared between the nesting levels; `word_index`, `openQuote` and
`escapeNext` belong to one level. The recursion is bounded by `fuel`, of which
`pg_text_dec_array` hands out two units for each byte of the input, one for a call
and one for its loop.
-/

namespace RubyPg.Text
set_option autoImplicit false
open Ascii

/-- `array_isspace`. -/
def arrayIsspace (ch : UInt8) : Bool :=
  ch == space || ch == tab || ch == newline || ch == cr || ch == vtab || ch == formfeed

/-- `array_isdim`. -/
def arrayIsdim (ch : UInt8) : Bool :=
  (decide (zero ≤ ch) && decide (ch ≤ nine)) || ch == minus || ch == plus || ch == colon

/-- `array_parser_error`: only `FORMAT_ERROR_TO_RAISE` raises. -/
def arrayParserError (this : CompositeDecoder) (text : String) : Outcome Unit :=
  if this.formatError = .raise then rbRaise .typeError text else pure ()

/-- `openQuote`: outside quotes in a word never quoted (0), inside quotes (1), outside
quotes in a word that was quoted (-1). -/
inductive OpenQuote where
  | never | inside | before
deriving DecidableEq, Repr

/-- The variables of the loop of `read_array_without_dim`; `index` and `word` are the
caller's. -/
structure ReadState where
  index : Nat
  word : Mem
  array : List Value := []
  wordIndex : Nat := 0
  openQuote : OpenQuote := .never
  escapeNext : Bool := false

/-- `word[word_index] = c; word_index++`, and on to the next character. -/
def ReadState.push (st : ReadState) (c : UInt8) : ReadState :=
  { st with word := st.word.put st.wordIndex c, wordIndex := st.wordIndex + 1, index := st.index + 1 }

/-- The word read so far. -/
def ReadState.text (st : ReadState) : Bytes := st.word.slice 0 st.wordIndex

/-- The end of a word: push `nil` or the decoded word, unless a sub-array stood here. -/
def endWord (this : CompositeDecoder) (st : ReadState) : Outcome ReadState :=
  if st.escapeNext then pure st
  else if st.openQuote = .never ∧ st.wordIndex = 4 ∧ st.text = null then
    pure { st with array := st.array ++ [.nil] }
  else do
    let val ← this.elem st.text
    pure { st with word := st.word.put st.wordIndex nul, array := st.array ++ [val] }

/-- What `read_array_without_dim` returns, with the shared `index` and `word`. -/
structure ReadResult where
  array : List Value
  index : Nat
  word : Mem

def ReadState.result (st : ReadState) : ReadResult := ⟨st.array, st.index, st.word⟩

/-- Behind a delimiter. -/
def ReadState.nextWord (st : ReadState) : ReadState :=
  { st with escapeNext := false, openQuote := .never, wordIndex := 0, index := st.index + 1 }

/-- Behind a sub-array: `escapeNext` keeps the (empty) word from being pushed. -/
def ReadState.pushSubarray (st : ReadState) (sub : ReadResult) : ReadState :=
  { st with index := sub.index + 1, word := sub.word, array := st.array ++ [.ary sub.array],
            escapeNext := true }

mutual

/-- `read_array_without_dim`. -/
def readArrayWithoutDim (this : CompositeDecoder) (s : Bytes) (fuel index : Nat) (word : Mem) :
    Outcome ReadResult :=
  match fuel with
  | 0 => .error .fuel
  | fuel + 1 =>
    -- the empty array is not handled inside the loop
    if index < s.length ∧ s.getD index nul = rbrace then pure ⟨[], index, word⟩
    else readLoop this s fuel { index, word }

/-- The `for` loop of `read_array_without_dim`, from one character on. -/
def readLoop (this : CompositeDecoder) (s : Bytes) (fuel : Nat) (st : ReadState) :
    Outcome ReadResult :=
  match fuel with
  | 0 => .error .fuel
  | fuel + 1 =>
    if st.index < s.length then
      let c := s.getD st.index nul
      if st.openQuote ≠ .inside then
        if c = this.delimiter ∨ c = rbrace then do
          let st ← endWord this st
          if c = rbrace then pure st.result
          else readLoop this s fuel st.nextWord
        else if c = dquote then
          readLoop this s fuel { st with openQuote := .inside, index := st.index + 1 }
        else if c = lbrace then do
          let sub ← readArrayWithoutDim this s fuel (st.index + 1) st.word
          readLoop this s fuel (st.pushSubarray sub)
        else if c = nul then do
          arrayParserError this "premature end of the array string"
          pure st.result
        else readLoop this s fuel (st.push c)
      else if st.escapeNext then readLoop this s fuel { st.push c with escapeNext := false }
      else if c = backslash then
        readLoop this s fuel { st with escapeNext := true, index := st.index + 1 }
      else if c = dquote then
        readLoop this s fuel { st with openQuote := .before, index := st.index + 1 }
      else readLoop this s fuel (st.push c)
    else do
      arrayParserError this "premature end of the array string"
      pure st.result

end

/-- The loop over the dimension items: the index after them and how many there were. -/
def skipDims (this : CompositeDecoder) (s : Bytes) (fuel index ndim : Nat) : Outcome (Nat × Nat) :=
  match fuel with
  | 0 => .error .fuel
  | fuel + 1 =>
    let index := skipWhile arrayIsspace s index
    if s.getD index nul ≠ lbracket then pure (index, ndim)
    else
      let index := skipWhile arrayIsdim s (index + 1)
      if s.getD index nul ≠ rbracket then do
        arrayParserError this "missing \"]\" in array dimensions"
        pure (index, ndim)
      else skipDims this s fuel (index + 1) (ndim + 1)

/-- The `=` after dimension items and the whitespace behind it. A missing `=` moves the
index back by two and on by one. -/
def skipAssignment (this : CompositeDecoder) (s : Bytes) (index ndim : Nat) : Outcome Nat :=
  if ndim = 0 then pure index
  else do
    let index ← if s.getD index nul ≠ equals then do
        arrayParserError this "missing assignment operator"
        pure (index - 2)
      else pure index
    pure (skipWhile arrayIsspace s (index + 1))

/-- Report an error unless the character at `index` is the expected brace. -/
def expectBrace (this : CompositeDecoder) (s : Bytes) (index : Nat) (brace : UInt8) (text : String) : Outcome Unit :=
  if s.getD index nul ≠ brace then arrayParserError this text else pure ()

/-- What stands behind the opening brace. No word buffer is allocated for the empty array. -/
def readBody (this : CompositeDecoder) (s : Bytes) (index : Nat) : Outcome ReadResult :=
  if index < s.length ∧ s.getD index nul = rbrace then pure ⟨[], index, fun _ => nul⟩
  else readArrayWithoutDim this s (2 * s.length + 2) index fun _ => nul

/-- The loop over what follows the closing brace. -/
def checkJunk (this : CompositeDecoder) : Bytes → Outcome Unit
  | [] => pure ()
  | c :: rest => do
    if !arrayIsspace c then
      arrayParserError this "malformed array literal: Junk after closing right brace."
    checkJunk this rest

/-- `pg_text_dec_array`. -/
def pgTextDecArray (this : CompositeDecoder) : Decoder := fun s => do
  let (index, ndim) ← skipDims this s (s.length + 1) 0 0
  let index ← skipAssignment this s index ndim
  expectBrace this s index lbrace "array value must start with \"\x7b\" or dimension information"
  let ret ← readBody this s (index + 1)
  expectBrace this s ret.index rbrace "array value must end with \"\x7d\""
  checkJunk this (s.drop (ret.index + 1))
  pure (.ary ret.array)

end RubyPg.Text
