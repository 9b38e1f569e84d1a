import RubyPg.Lib.InPlace
import RubyPg.Text.ArrayRoundTrip
import RubyPg.Text.CopyRowRoundTrip
import RubyPg.Text.RecordRoundTrip

/-!
# Escaping in memory

`quote_array_buffer` and `quote_literal_buffer` of `ext/pg_text_encoder.c`, and the loops behind the
second pass of `pg_text_enc_copy_row` and `pg_text_enc_record`, on the memory they read and write.
Lengths are counted without bound here.
-/

namespace RubyPg.Text
set_option autoImplicit false
open Ascii

/-- `quote_array_buffer`: the length, and the memory behind the call. -/
def quoteArrayBufferAt (delimiter : UInt8) (pIn strlen pOut : Nat) (s : Moving) : Nat × Moving :=
  let backslashes := countMarks needsBackslash s.mem pIn strlen
  if needquote delimiter (s.mem.slice pIn strlen) then
    let ptr2 := pOut + strlen + backslashes + 2
    -- the end quote
    let s := s.store (pIn + strlen) (ptr2 - 1) dquote
    let s := moveBack needsBackslash backslash pIn strlen (ptr2 - 1) s
    -- the start quote
    (strlen + backslashes + 2, s.store pIn pOut dquote)
  else if pIn ≠ pOut then (strlen, s.storeAll (pIn + strlen) pOut (s.mem.slice pIn strlen))
  else (strlen, s)

/-- The apostrophe. -/
abbrev quote : UInt8 := 0x27

/-- The characters `quote_literal_buffer` doubles. -/
def literalSpecial (ch : UInt8) : Bool := ch == quote

/-- `quote_literal_buffer`: the length, and the memory behind the call. -/
def quoteLiteralBufferAt (pIn strlen pOut : Nat) (s : Moving) : Nat × Moving :=
  let backslashes := countMarks literalSpecial s.mem pIn strlen
  let ptr2 := pOut + strlen + backslashes + 2
  -- the end quote
  let s := s.store (pIn + strlen) (ptr2 - 1) quote
  let s := moveBack literalSpecial quote pIn strlen (ptr2 - 1) s
  -- the start quote
  (strlen + backslashes + 2, s.store pIn pOut quote)

/-- The loops behind a second pass that wrote `strlen` bytes to `current_out`: the new
`current_out`, and the memory. -/
def secondPassAt (special : UInt8 → Bool) (mark : UInt8 → UInt8) (currentOut strlen : Nat) (s : Moving) :
    Outcome (Nat × Moving) :=
  let backslashes := countMarks special s.mem currentOut strlen
  let ptr2 := currentOut + strlen + backslashes
  match shiftBack special mark currentOut strlen ptr2 s with
  | some s => pure (ptr2, s)
  -- a read in front of the text
  | none => .error .undefined

/-- The second pass branch of `pg_text_enc_copy_row`. -/
def copySecondPassAt (delimiter : UInt8) (currentOut strlen : Nat) (s : Moving) : Outcome (Nat × Moving) :=
  secondPassAt (copySpecial delimiter) (fun _ => backslash) currentOut strlen s

/-- The second pass branch of `pg_text_enc_record`. -/
def recordSecondPassAt (currentOut strlen : Nat) (s : Moving) : Outcome (Nat × Moving) :=
  secondPassAt recordSpecial id currentOut strlen s

/-- What `quote_array_buffer` writes, left to right. -/
def arrayReference (delimiter : UInt8) (word : Bytes) : Bytes :=
  if needquote delimiter word then dquote :: word.flatMap (markEsc needsBackslash fun _ => backslash) ++ [dquote] else word

/-- What `quote_literal_buffer` writes, left to right. -/
def literalReference (word : Bytes) : Bytes := quote :: word.flatMap (markEsc literalSpecial fun _ => quote) ++ [quote]

/-- The input and the output are the same, or apart from each other. -/
def Apart (pIn strlen pOut length : Nat) : Prop := pOut = pIn ∨ pIn + strlen ≤ pOut ∨ pOut + length ≤ pIn

section Quoted

variable {special : UInt8 → Bool} {mark q : UInt8} {pIn pOut : Nat} {s : Moving} {word : Bytes}

/-- The end quote, the characters from right to left, and the start quote. -/
theorem wrote_quoted (input : s.mem.slice pIn word.length = word)
    (apart : Apart pIn word.length pOut (word.length + word.countP special + 2)) :
    Wrote s ((moveBack special mark pIn word.length (pOut + 1 + (word.length + word.countP special))
        (s.store (pIn + word.length) (pOut + 1 + (word.length + word.countP special)) q)).store pIn pOut q) pIn pOut
      ([q] ++ (word.flatMap (markEsc special fun _ => mark) ++ [q])) := by
  unfold Apart at apart
  have size := @length_flatMap_markEsc _ special (fun _ => mark) word
  have ended : Wrote s (s.store (pIn + word.length) (pOut + 1 + (word.length + word.countP special)) q) pIn
      (pOut + 1 + (word.length + word.countP special)) [q] := by
    apply Wrote.store
    omega
  have kept : (s.store (pIn + word.length) (pOut + 1 + (word.length + word.countP special)) q).mem.slice pIn word.length =
      word := by
    rw [ended.slice, input]
    rw [List.length_singleton]
    omega
  have moved := @moveBack_spec special mark pIn (pOut + 1) word.length _ word kept (by omega)
  refine .append ?_ (.store q (Nat.lt_or_ge pOut pIn))
  refine .append ?_ moved
  rw [size]
  exact ended

end Quoted

section Functions

variable {pIn pOut : Nat} {s : Moving} {word : Bytes}

theorem length_arrayReference {delimiter : UInt8} (quoted : needquote delimiter word = true) :
    (arrayReference delimiter word).length = word.length + word.countP needsBackslash + 2 := by
  rw [arrayReference, if_pos quoted, List.length_append, List.length_cons, length_flatMap_markEsc]
  rfl

theorem length_literalReference : (literalReference word).length = word.length + word.countP literalSpecial + 2 := by
  rw [literalReference, List.length_append, List.length_cons, length_flatMap_markEsc]
  rfl

/-- The reference is what the array encoder is modelled with. -/
theorem arrayReference_eq (delimiter : UInt8) (word : Bytes) : arrayReference delimiter word = quoteArrayBuffer delimiter word := by
  unfold arrayReference
  by_cases quoted : needquote delimiter word = true
  · rw [if_pos quoted, quoteArrayBuffer_quoted quoted, List.cons_append]
  · rw [if_neg quoted, quoteArrayBuffer_plain (Bool.eq_false_iff.2 quoted)]

/-- **`quote_array_buffer`** writes the reference, in place or into another buffer. -/
theorem quoteArrayBufferAt_spec {delimiter : UInt8} (input : s.mem.slice pIn word.length = word)
    (apart : Apart pIn word.length pOut (arrayReference delimiter word).length) :
    ∃ s', quoteArrayBufferAt delimiter pIn word.length pOut s = ((arrayReference delimiter word).length, s') ∧
      Wrote s s' pIn pOut (arrayReference delimiter word) := by
  unfold quoteArrayBufferAt
  rw [countMarks_eq, input]
  dsimp only
  by_cases quoted : needquote delimiter word = true
  · rw [length_arrayReference quoted] at apart ⊢
    have text : arrayReference delimiter word =
        [dquote] ++ (word.flatMap (markEsc needsBackslash fun _ => backslash) ++ [dquote]) := if_pos quoted
    have last : pOut + word.length + word.countP needsBackslash + 2 - 1 =
        pOut + 1 + (word.length + word.countP needsBackslash) := by omega
    rw [if_pos quoted, last, text]
    exact ⟨_, rfl, wrote_quoted input apart⟩
  · have text : arrayReference delimiter word = word := if_neg quoted
    rw [text] at apart ⊢
    rw [if_neg quoted]
    by_cases same : pIn = pOut
    · subst same
      rw [if_neg (not_not.2 rfl)]
      exact ⟨s, rfl, .same input⟩
    · rw [if_pos same]
      refine ⟨_, rfl, .storeAll ?_⟩
      unfold Apart at apart
      omega

/-- **`quote_literal_buffer`** writes the reference, in place or into another buffer. -/
theorem quoteLiteralBufferAt_spec (input : s.mem.slice pIn word.length = word)
    (apart : Apart pIn word.length pOut (literalReference word).length) :
    ∃ s', quoteLiteralBufferAt pIn word.length pOut s = ((literalReference word).length, s') ∧
      Wrote s s' pIn pOut (literalReference word) := by
  have last : pOut + word.length + word.countP literalSpecial + 2 - 1 =
      pOut + 1 + (word.length + word.countP literalSpecial) := by omega
  rw [length_literalReference] at apart ⊢
  unfold quoteLiteralBufferAt
  rw [countMarks_eq, input]
  dsimp only
  rw [last]
  exact ⟨_, rfl, wrote_quoted input apart⟩

/-- The loops behind a second pass escape what it wrote. -/
theorem secondPassAt_spec (special : UInt8 → Bool) (mark : UInt8 → UInt8) (written : s.mem.slice pOut word.length = word) :
    ∃ s', secondPassAt special mark pOut word.length s =
        .ok (pOut + (word.flatMap (markEsc special mark)).length, s') ∧
      Wrote s s' pOut pOut (word.flatMap (markEsc special mark)) := by
  obtain ⟨s', run, wrote⟩ := @shiftBack_spec special mark pOut word.length s word written
  refine ⟨s', ?_, wrote⟩
  unfold secondPassAt
  rw [countMarks_eq, written]
  dsimp only
  rw [Nat.add_assoc, run, length_flatMap_markEsc]
  rfl

end Functions

/-- **Right to left in place is left to right.** Where the unescaped bytes stand at the output, the
four loops leave the escaped text there and return its length, as it is written left to right by
the branches for a finished String, or into another buffer; and no store hits unread input. -/
theorem in_place_escaping (word : Bytes) (delimiter : UInt8) (s : Moving) (pOut : Nat)
    (placed : s.mem.slice pOut word.length = word) :
    (∃ s', quoteArrayBufferAt delimiter pOut word.length pOut s = ((arrayReference delimiter word).length, s') ∧
        Wrote s s' pOut pOut (arrayReference delimiter word)) ∧
      (∃ s', quoteLiteralBufferAt pOut word.length pOut s = ((literalReference word).length, s') ∧
        Wrote s s' pOut pOut (literalReference word)) ∧
      (∃ s', copySecondPassAt delimiter pOut word.length s = .ok (pOut + (copyEscape delimiter word).length, s') ∧
        Wrote s s' pOut pOut (copyEscape delimiter word)) ∧
      (∃ s', recordSecondPassAt pOut word.length s = .ok (pOut + (recordEscape word).length, s') ∧
        Wrote s s' pOut pOut (recordEscape word)) ∧
      (copyEscape delimiter word = word.flatMap (markEsc (copySpecial delimiter) fun _ => backslash) ∧
        recordEscape word = word.flatMap (markEsc recordSpecial id)) ∧
      ∀ (other : Moving) (pIn : Nat), other.mem.slice pIn word.length = word →
        (pIn + word.length ≤ pOut ∨ pOut + (2 * word.length + 2) ≤ pIn) →
        (∃ s', quoteArrayBufferAt delimiter pIn word.length pOut other = ((arrayReference delimiter word).length, s') ∧
            Wrote other s' pIn pOut (arrayReference delimiter word)) ∧
          ∃ s', quoteLiteralBufferAt pIn word.length pOut other = ((literalReference word).length, s') ∧
            Wrote other s' pIn pOut (literalReference word) := by
  rw [copyEscape_eq, recordEscape_eq]
  refine ⟨quoteArrayBufferAt_spec placed (Or.inl rfl), quoteLiteralBufferAt_spec placed (Or.inl rfl),
    secondPassAt_spec _ _ placed, secondPassAt_spec _ _ placed, ⟨rfl, rfl⟩, ?_⟩
  intro other pIn input separate
  constructor
  · apply quoteArrayBufferAt_spec input
    have size : (arrayReference delimiter word).length ≤ 2 * word.length + 2 := by
      by_cases quoted : needquote delimiter word = true
      · have marks : word.countP needsBackslash ≤ word.length := List.countP_le_length
        rw [length_arrayReference quoted]
        omega
      · rw [arrayReference, if_neg quoted]
        omega
    unfold Apart
    omega
  · apply quoteLiteralBufferAt_spec input
    have marks : word.countP literalSpecial ≤ word.length := List.countP_le_length
    rw [length_literalReference]
    unfold Apart
    omega

/-- The bytes `a"` at the index 3, escaped for an array. -/
theorem in_place_escaping_quote :
    let s : Moving := ⟨fun i => if i = 3 then 0x61 else if i = 4 then dquote else 0, []⟩
    ∃ s', quoteArrayBufferAt comma 3 2 3 s = (5, s') ∧
      Wrote s s' 3 3 [dquote, 0x61, backslash, dquote, dquote] := by
  intro s
  have placed : s.mem.slice 3 2 = [0x61, dquote] := by decide
  exact (in_place_escaping [0x61, dquote] comma s 3 placed).1

end RubyPg.Text
