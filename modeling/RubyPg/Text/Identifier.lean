import RubyPg.OutputWriters

/-!
# `PG::TextEncoder::Identifier` and `PG::TextDecoder::Identifier`

`quote_identifier`, `pg_text_enc_array_identifier` and `pg_text_enc_identifier` of
`ext/pg_text_encoder.c` by the bytes they write, and `pg_text_dec_identifier` of
`ext/pg_text_decoder.c`. The decoder takes its input apart with one state that it carries
from character to character; its words go through a buffer of fixed size.
-/

namespace RubyPg.Text.Identifier
set_option autoImplicit false
open Ascii

/-- The loop of `quote_identifier`. -/
def quoteIdentifierLoop : Bytes → Outcome Bytes
  | [] => pure []
  | c :: rest =>
    if c = dquote then do
      let quoted ← quoteIdentifierLoop rest
      pure (dquote :: c :: quoted)
    else if c = nul then rbRaise .argumentError "string contains null byte"
    else do
      let quoted ← quoteIdentifierLoop rest
      pure (c :: quoted)

/-- `quote_identifier`. -/
def quoteIdentifier (value : Bytes) : Outcome Bytes := do
  let quoted ← quoteIdentifierLoop value
  pure (dquote :: quoted ++ [dquote])

/-- The loop of `pg_text_enc_array_identifier`. -/
def arrayIdentifier : List Value → Outcome Bytes
  | [] => pure []
  | [entry] => do quoteIdentifier (← Writers.stringValue entry)
  | entry :: rest => do
    let quoted ← quoteIdentifier (← Writers.stringValue entry)
    let following ← arrayIdentifier rest
    pure (quoted ++ dot :: following)

/-- `pg_text_enc_identifier`. -/
def pgTextEncIdentifier : Encoder
  | .ary entries => do pure (.string (← arrayIdentifier entries))
  | value => do pure (.string (← quoteIdentifier (← Writers.stringValue value)))

/-- `openQuote` of `pg_text_dec_identifier`: 0, 1 and 2. -/
inductive OpenQuote where
  | outside | lastQuote | lastOther
deriving DecidableEq, Repr

/-- The variables of `pg_text_dec_identifier`: the elements, the current word, and the state. -/
structure IdentifierState where
  array : List Value
  word : Bytes
  openQuote : OpenQuote

/-- `word[word_index] = c`, in a buffer of `capa` bytes. -/
def putWord (capa : Nat) (word : Bytes) (c : UInt8) : Outcome Bytes :=
  if word.length < capa then pure (word ++ [c]) else .error .undefined

/-- `word[word_index] = 0`, and the element that is cast of the word. -/
def endWord (capa : Nat) (word : Bytes) : Outcome Value := do
  let _ ← putWord capa word nul
  pgTextDecString word

/-- One character of the loop. -/
def identifierStep (capa : Nat) (st : IdentifierState) (c : UInt8) : Outcome IdentifierState :=
  if c = dot ∧ st.openQuote ≠ .lastOther then do
    let elem ← endWord capa st.word
    pure ⟨st.array ++ [elem], [], .outside⟩
  else if c = dquote then
    match st.openQuote with
    | .lastQuote => do pure { st with word := ← putWord capa st.word c, openQuote := .lastOther }
    | .lastOther => pure { st with openQuote := .lastQuote }
    | .outside => pure { st with openQuote := .lastOther }
  else do pure { st with word := ← putWord capa st.word c }

/-- `pg_text_dec_identifier`. -/
def pgTextDecIdentifier : Decoder := fun val => do
  let capa := val.length + 1
  let st ← val.foldlM (identifierStep capa) ⟨[], [], .outside⟩
  let elem ← endWord capa st.word
  pure (.ary (st.array ++ [elem]))

/-- What the encoder writes for one byte of a word. -/
abbrev identifierEsc : UInt8 → Bytes := markEsc (· == dquote) id

/-- A word between its quotes. -/
def identifierQuoted (word : Bytes) : Bytes := dquote :: word.flatMap identifierEsc ++ [dquote]

section Encoding

theorem quoteIdentifierLoop_ok {word : Bytes} (nonul : nul ∉ word) :
    quoteIdentifierLoop word = .ok (word.flatMap identifierEsc) := by
  induction word with
  | nil => rfl
  | cons c word ih =>
    rw [List.mem_cons, not_or] at nonul
    rw [quoteIdentifierLoop, ih nonul.2, List.flatMap_cons, identifierEsc, markEsc]
    by_cases quoted : c = dquote
    · subst quoted
      rfl
    · simp only [quoted, if_false, beq_iff_eq, Ne.symm nonul.1]
      rfl

theorem quoteIdentifierLoop_raises {word : Bytes} (hasNul : nul ∈ word) :
    quoteIdentifierLoop word = rbRaise .argumentError "string contains null byte" := by
  induction word with
  | nil => cases hasNul
  | cons c word ih =>
    rw [quoteIdentifierLoop]
    by_cases quoted : c = dquote
    · subst quoted
      have behind : nul ∈ word := by simpa +decide using hasNul
      rw [if_pos rfl, ih behind]
      rfl
    · rw [if_neg quoted]
      by_cases here : c = nul
      · rw [if_pos here]
      · have behind : nul ∈ word := by simpa [Ne.symm here] using hasNul
        rw [if_neg here, ih behind]
        rfl

theorem quoteIdentifier_ok {word : Bytes} (nonul : nul ∉ word) : quoteIdentifier word = .ok (identifierQuoted word) := by
  rw [quoteIdentifier, quoteIdentifierLoop_ok nonul]
  rfl

/-- The words with their dots. -/
theorem arrayIdentifier_cons (word next : Bytes) (words : List Bytes) :
    arrayIdentifier (.str word :: .str next :: words.map .str) = (do
      let quoted ← quoteIdentifier word
      let following ← arrayIdentifier ((next :: words).map .str)
      pure (quoted ++ dot :: following)) := rfl

/-- Words without NUL are written between quotes, with dots between them. -/
theorem arrayIdentifier_ok {words : List Bytes} (nonul : ∀ word ∈ words, nul ∉ word) :
    arrayIdentifier (words.map .str) = .ok ([dot].intercalate (words.map identifierQuoted)) := by
  induction words with
  | nil => rfl
  | cons word words ih =>
    have quoted := quoteIdentifier_ok (nonul word List.mem_cons_self)
    cases words with
    | nil =>
      show (do quoteIdentifier (← Writers.stringValue (.str word))) = _
      rw [Writers.stringValue, pure_bind, quoted]
      simp [List.intercalate]
    | cons next words =>
      have following := ih fun other member => nonul other (List.mem_cons_of_mem _ member)
      rw [List.map_cons, List.map_cons, arrayIdentifier_cons, quoted, following]
      simp [bind, Except.bind, pure, Except.pure, List.intercalate]

/-- A NUL in one of the words is refused. -/
theorem arrayIdentifier_raises {words : List Bytes} {word : Bytes} (member : word ∈ words) (hasNul : nul ∈ word) :
    arrayIdentifier (words.map .str) = rbRaise .argumentError "string contains null byte" := by
  induction words with
  | nil => cases member
  | cons first words ih =>
    by_cases here : nul ∈ first
    · have refused : quoteIdentifier first = rbRaise .argumentError "string contains null byte" := by
        rw [quoteIdentifier, quoteIdentifierLoop_raises here]
        rfl
      cases words with
      | nil => exact refused
      | cons next words =>
        rw [List.map_cons, List.map_cons, arrayIdentifier_cons, refused]
        rfl
    · have behind : word ∈ words := by
        rcases List.mem_cons.1 member with rfl | behind
        · exact absurd hasNul here
        · exact behind
      cases words with
      | nil => cases behind
      | cons next words =>
        rw [List.map_cons, List.map_cons, arrayIdentifier_cons, quoteIdentifier_ok here, ih behind]
        rfl

end Encoding

section Decoding

variable {capa : Nat} {array : List Value} {word : Bytes}

theorem putWord_ok {c : UInt8} (room : word.length < capa) : putWord capa word c = .ok (word ++ [c]) := if_pos room

theorem endWord_ok (room : word.length < capa) : endWord capa word = .ok (.str word) := by
  rw [endWord, putWord_ok room]
  rfl

/-- No character needs more room than itself: the buffer is large enough for every input. -/
theorem identifierStep_ok (st : IdentifierState) (c : UInt8) (room : st.word.length < capa) :
    ∃ st', identifierStep capa st c = .ok st' ∧ st'.word.length ≤ st.word.length + 1 := by
  unfold identifierStep
  rw [endWord_ok room, putWord_ok room]
  split
  · exact ⟨_, rfl, Nat.zero_le _⟩
  split
  · cases st.openQuote with
    | outside => exact ⟨_, rfl, Nat.le_succ _⟩
    | lastQuote => exact ⟨_, rfl, by simp⟩
    | lastOther => exact ⟨_, rfl, Nat.le_succ _⟩
  · exact ⟨_, rfl, by simp⟩

/-- The run over the rest of the input stays in the buffer. -/
theorem identifier_run_ok (rest : Bytes) (st : IdentifierState) (room : st.word.length + rest.length < capa) :
    ∃ st', rest.foldlM (identifierStep capa) st = .ok st' ∧ st'.word.length < capa := by
  induction rest generalizing st with
  | nil => exact ⟨st, rfl, room⟩
  | cons c rest ih =>
    rw [List.length_cons] at room
    obtain ⟨next, stepped, grown⟩ := identifierStep_ok st c (show st.word.length < capa by omega)
    obtain ⟨last, ran, inside⟩ := ih next (by omega)
    refine ⟨last, ?_, inside⟩
    rw [List.foldlM_cons, stepped]
    exact ran

/-- **The identifier decoder** returns an array on every input, and its words never leave the buffer. -/
theorem pgTextDecIdentifier_total (val : Bytes) : ∃ array, pgTextDecIdentifier val = .ok (.ary array) := by
  obtain ⟨st, ran, inside⟩ := identifier_run_ok val ⟨[], [], .outside⟩ (show [].length + val.length < val.length + 1 by simp)
  refine ⟨st.array ++ [.str st.word], ?_⟩
  rw [pgTextDecIdentifier]
  simp only [ran, bind, Except.bind, endWord_ok inside]
  rfl

/-- The loop goes on behind a character. -/
theorem identifier_step {st st' : IdentifierState} {c : UInt8} {rest : Bytes}
    (stepped : identifierStep capa st c = .ok st') :
    (c :: rest).foldlM (identifierStep capa) st = rest.foldlM (identifierStep capa) st' := by
  rw [List.foldlM_cons, stepped]
  rfl

/-- A quote opens a word, closes it, or is the first of two. -/
theorem identifierStep_quote (word : Bytes) :
    identifierStep capa ⟨array, word, .outside⟩ dquote = .ok ⟨array, word, .lastOther⟩ ∧
    identifierStep capa ⟨array, word, .lastOther⟩ dquote = .ok ⟨array, word, .lastQuote⟩ :=
  ⟨rfl, rfl⟩

/-- Inside quotes the loop takes one byte as the encoder writes it. -/
theorem identifier_byte (c : UInt8) (rest : Bytes) (room : word.length < capa) :
    (identifierEsc c ++ rest).foldlM (identifierStep capa) ⟨array, word, .lastOther⟩ =
      rest.foldlM (identifierStep capa) ⟨array, word ++ [c], .lastOther⟩ := by
  rw [identifierEsc, markEsc]
  by_cases quoted : c = dquote
  · subst quoted
    have second : identifierStep capa ⟨array, word, .lastQuote⟩ dquote = .ok ⟨array, word ++ [dquote], .lastOther⟩ := by
      rw [identifierStep, if_neg (fun h => absurd h.1 (by decide)), if_pos rfl, putWord_ok room]
      rfl
    rw [if_pos (by decide), List.cons_append, id_eq, identifier_step (identifierStep_quote word).2]
    exact identifier_step second
  · have step : identifierStep capa ⟨array, word, .lastOther⟩ c = .ok ⟨array, word ++ [c], .lastOther⟩ := by
      rw [identifierStep, if_neg (fun h => h.2 rfl), if_neg quoted, putWord_ok room]
      rfl
    rw [if_neg (fun same => quoted (eq_of_beq same))]
    exact identifier_step step

/-- Inside quotes the loop takes a whole word. -/
theorem identifier_escaped {text rest : Bytes} (room : word.length + text.length < capa) :
    (text.flatMap identifierEsc ++ rest).foldlM (identifierStep capa) ⟨array, word, .lastOther⟩ =
      rest.foldlM (identifierStep capa) ⟨array, word ++ text, .lastOther⟩ := by
  induction text generalizing word with
  | nil => rw [List.flatMap_nil, List.nil_append, List.append_nil]
  | cons c text ih =>
    rw [List.length_cons] at room
    rw [List.flatMap_cons, List.append_assoc, identifier_byte c _ (by omega), ih (by simp; omega), List.append_assoc]
    rfl

/-- The loop takes a quoted word. -/
theorem identifier_quoted {text rest : Bytes} (room : text.length < capa) :
    (identifierQuoted text ++ rest).foldlM (identifierStep capa) ⟨array, [], .outside⟩ =
      rest.foldlM (identifierStep capa) ⟨array, text, .lastQuote⟩ := by
  have escaped : (text.flatMap identifierEsc ++ dquote :: rest).foldlM (identifierStep capa) ⟨array, [], .lastOther⟩ =
      (dquote :: rest).foldlM (identifierStep capa) ⟨array, text, .lastOther⟩ :=
    identifier_escaped (by rwa [List.length_nil, Nat.zero_add])
  rw [identifierQuoted, List.append_assoc, List.cons_append, identifier_step (identifierStep_quote []).1,
    List.singleton_append, escaped]
  exact identifier_step (identifierStep_quote text).2

/-- A dot behind the closing quote ends the word. -/
theorem identifier_dot {rest : Bytes} (room : word.length < capa) :
    (dot :: rest).foldlM (identifierStep capa) ⟨array, word, .lastQuote⟩ =
      rest.foldlM (identifierStep capa) ⟨array ++ [.str word], [], .outside⟩ := by
  have step : identifierStep capa ⟨array, word, .lastQuote⟩ dot = .ok ⟨array ++ [.str word], [], .outside⟩ := by
    rw [identifierStep, if_pos ⟨rfl, OpenQuote.noConfusion⟩, endWord_ok room]
    rfl
  exact identifier_step step

variable (array) in
/-- Quoted words with dots between them are read up to the last one, whose dot is missing. -/
theorem identifier_words {word : Bytes} {words : List Bytes}
    (room : ([dot].intercalate ((word :: words).map identifierQuoted)).length < capa) :
    ∃ before last, word :: words = before ++ [last] ∧ last.length < capa ∧
      ([dot].intercalate ((word :: words).map identifierQuoted)).foldlM (identifierStep capa) ⟨array, [], .outside⟩ =
        .ok ⟨array ++ before.map .str, last, .lastQuote⟩ := by
  have shorter : ∀ text : Bytes, text.length ≤ (identifierQuoted text).length := fun text => by
    have grows : text.length ≤ (text.flatMap identifierEsc).length := length_le_flatMap_markEsc (· == dquote) id text
    rw [identifierQuoted, List.length_append, List.length_cons]
    omega
  induction words generalizing word array with
  | nil =>
    have short := shorter word
    have alone : [dot].intercalate ([word].map identifierQuoted) = identifierQuoted word ++ [] := by
      simp [List.intercalate]
    rw [alone] at room ⊢
    rw [List.append_nil] at room
    refine ⟨[], word, rfl, by omega, ?_⟩
    rw [identifier_quoted (by omega), List.map_nil, List.append_nil]
    rfl
  | cons next words ih =>
    have short := shorter word
    have first : [dot].intercalate ((word :: next :: words).map identifierQuoted) =
        identifierQuoted word ++ dot :: [dot].intercalate ((next :: words).map identifierQuoted) := by
      simp [List.intercalate]
    rw [first, List.length_append, List.length_cons] at room
    have room' : ([dot].intercalate ((next :: words).map identifierQuoted)).length < capa := by omega
    obtain ⟨before, last, same, inside, ran⟩ := ih (array ++ [.str word]) room'
    refine ⟨word :: before, last, by rw [same]; rfl, inside, ?_⟩
    rw [first, identifier_quoted (by omega), identifier_dot (by omega), ran, List.map_cons, List.append_assoc]
    rfl

end Decoding

/-- **Identifier round trip.** The decoder reads back what the encoder writes for a non-empty array of
strings without NUL; the encoder raises an `ArgumentError` exactly if one of the strings has a NUL. -/
theorem identifier_round_trip (words : List Bytes) (nonempty : words ≠ []) :
    ((∀ word ∈ words, nul ∉ word) → ∃ text, pgTextEncIdentifier.encode (.ary (words.map .str)) = .ok text ∧
      pgTextDecIdentifier text = .ok (.ary (words.map .str))) ∧
    ((∃ msg, pgTextEncIdentifier.encode (.ary (words.map .str)) = .error (.exn .argumentError msg)) ↔
      ∃ word ∈ words, nul ∈ word) := by
  have written : ∀ result, arrayIdentifier (words.map .str) = result →
      pgTextEncIdentifier.encode (.ary (words.map .str)) = result := by
    intro result wrote
    rw [Encoder.encode, pgTextEncIdentifier, wrote]
    cases result <;> rfl
  constructor
  · intro nonul
    refine ⟨_, written _ (arrayIdentifier_ok nonul), ?_⟩
    obtain ⟨word, others, rfl⟩ := List.exists_cons_of_ne_nil nonempty
    obtain ⟨before, last, same, inside, ran⟩ := identifier_words []
      (Nat.lt_succ_self ([dot].intercalate ((word :: others).map identifierQuoted)).length)
    rw [pgTextDecIdentifier]
    simp only [ran, bind, Except.bind, endWord_ok inside]
    rw [same, List.map_append]
    rfl
  · constructor
    · rintro ⟨msg, raised⟩
      by_contra none
      have nonul : ∀ word ∈ words, nul ∉ word := fun word member hasNul => none ⟨word, member, hasNul⟩
      rw [written _ (arrayIdentifier_ok nonul)] at raised
      cases raised
    · rintro ⟨word, member, hasNul⟩
      exact ⟨_, written _ (arrayIdentifier_raises member hasNul)⟩

/-- An empty word, one of a dot between quotes, and one with a space. -/
theorem identifier_round_trip_specials :
    ∃ text, pgTextEncIdentifier.encode (.ary [.str [], .str [dquote, dot, dquote], .str [space]]) = .ok text ∧
      pgTextDecIdentifier text = .ok (.ary [.str [], .str [dquote, dot, dquote], .str [space]]) :=
  (identifier_round_trip [[], [dquote, dot, dquote], [space]] (by decide)).1 (by decide)

end RubyPg.Text.Identifier
