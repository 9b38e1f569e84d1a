import RubyPg.Lib.Scan
import RubyPg.Sql.StringConstant

/-!
# The tokens of SQL

PostgreSQL's lexer with `standard_conforming_strings` on, as far as it decides where constants,
comments, names and parameters begin and end. An operator or a number may come in several
lexemes; a constant that goes on behind a line break is one for each of its parts, with the
white space and the comments between them. A text that the lexer rejects for what is not
closed, or for letters behind the digits of a parameter, has no lexemes; for other mistakes (in a
number or an escape) it may have some.

`lex_readable` says that the lexemes make up the text, and that each of them is where the lexer
sees it (`Readable`).
-/

namespace RubyPg.Sql
set_option autoImplicit false
open Ascii

abbrev dollar : UInt8 := 0x24
abbrev asterisk : UInt8 := 0x2a
abbrev slash : UInt8 := 0x2f
abbrev underscore : UInt8 := 0x5f

/-- `space`. -/
def isSpace (c : UInt8) : Bool :=
  c == space || c == tab || c == newline || c == cr || c == formfeed || c == vtab

/-- `newline`. -/
def isNewline (c : UInt8) : Bool := c == newline || c == cr

/-- `decdigit`. -/
def isDigit (c : UInt8) : Bool := decide (0x30 ≤ c) && decide (c ≤ 0x39)

/-- `ident_start`, the same as `dolq_start`. -/
def identStart (c : UInt8) : Bool :=
  decide (0x41 ≤ c) && decide (c ≤ 0x5a) || decide (0x61 ≤ c) && decide (c ≤ 0x7a) || c == underscore ||
    decide (0x80 ≤ c)

/-- `dolq_cont`. -/
def dolqCont (c : UInt8) : Bool := identStart c || isDigit c

/-- `ident_cont`. -/
def identCont (c : UInt8) : Bool := dolqCont c || c == dollar

/-- A lexeme. -/
inductive Lexeme where
  | blank (c : UInt8)
  /-- `--` and the rest of the line. -/
  | lineComment (body : Bytes)
  /-- What stands between `/*` and the `*/` that closes it. -/
  | blockComment (body : Bytes)
  /-- What stands between two apostrophes, and whether backslashes escape there. -/
  | constant (escapes : Bool) (body : Bytes)
  /-- What stands between double quotes. -/
  | quotedName (body : Bytes)
  | dollarQuoted (tag body : Bytes)
  /-- An identifier, a keyword or the letter in front of a constant. -/
  | identifier (word : Bytes)
  /-- Digits and the letters behind them. -/
  | number (word : Bytes)
  | param (digits : Bytes)
  | symbol (c : UInt8)
deriving DecidableEq, Repr

/-- The text of a lexeme. -/
def Lexeme.text : Lexeme → Bytes
  | blank c | symbol c => [c]
  | lineComment body => minus :: minus :: body
  | blockComment body => slash :: asterisk :: body ++ [asterisk, slash]
  | constant _ body => quote :: body ++ [quote]
  | quotedName body => dquote :: body ++ [dquote]
  | dollarQuoted tag body => dollar :: tag ++ dollar :: body ++ dollar :: tag ++ [dollar]
  | identifier word | number word => word
  | param digits => dollar :: digits

/-- States `xq`, `xe` and `xd`: what stands in front of the closing quote, and what is behind it. A
quote that is doubled or behind an escaping backslash does not close. -/
def quotedBody (mark : UInt8) (escapes : Bool) : Bytes → Option (Bytes × Bytes)
  | [] => none
  | [c] => if c = mark then some ([], []) else none
  | c :: d :: text =>
    if c = mark then
      if d = mark then (quotedBody mark escapes text).map fun (body, rest) => (c :: d :: body, rest)
      else some ([], d :: text)
    else if escapes ∧ c = backslash then (quotedBody mark escapes text).map fun (body, rest) => (c :: d :: body, rest)
    else (quotedBody mark escapes (d :: text)).map fun (body, rest) => (c :: body, rest)

/-- State `xc`, inside `depth` more comments. -/
def commentBody : Nat → Bytes → Option (Bytes × Bytes)
  | depth, c :: d :: text =>
    if c = slash ∧ d = asterisk then (commentBody (depth + 1) text).map fun (body, rest) => (c :: d :: body, rest)
    else if c = asterisk ∧ d = slash then
      match depth with
      | 0 => some ([], text)
      | depth + 1 => (commentBody depth text).map fun (body, rest) => (c :: d :: body, rest)
    else (commentBody depth (d :: text)).map fun (body, rest) => (c :: body, rest)
  | _, _ => none

/-- `dolqdelim` behind its first `$`: the tag, and what is behind the second one. -/
def dollarTag (text : Bytes) : Option (Bytes × Bytes) :=
  let tag := text.takeWhile dolqCont
  match text.dropWhile dolqCont with
  | c :: rest => if c = dollar ∧ tag.head?.all identStart then some (tag, rest) else none
  | [] => none

/-- State `xdolq`: up to the same delimiter. -/
def dollarBody (tag text : Bytes) : Option (Bytes × Bytes) := cutAt (dollar :: tag ++ [dollar]) text

/-- A constant that may go on: whether backslashes escape in it, and whether a line has ended behind it. -/
abbrev GoingOn := Option (Bool × Bool)

/-- What the lexer goes on with: a lexeme, whether a constant may go on behind it, and what is left. -/
abbrev Step := Lexeme × GoingOn × Bytes

/-- `comment`, behind its dashes. -/
def nextLineComment (goingOn : GoingOn) (line : Bytes) : Step :=
  (.lineComment (line.takeWhile fun c => !isNewline c), goingOn, line.dropWhile fun c => !isNewline c)

/-- A string constant, behind its opening quote: of the kind that goes on here, else without escapes. -/
def nextConstant (goingOn : GoingOn) (text : Bytes) : Option Step :=
  let escapes := goingOn == some (true, true)
  (quotedBody quote escapes text).map fun (body, rest) => (.constant escapes body, some (escapes, false), rest)

/-- A number. Behind a letter a `$` is junk, as it is in an identifier. -/
def nextNumber (text : Bytes) : Option Step :=
  if ∃ c ∈ (text.dropWhile isDigit).head?, identStart c = true then
    if dollar ∈ text.takeWhile identCont then none
    else some (.number (text.takeWhile identCont), none, text.dropWhile identCont)
  else some (.number (text.takeWhile isDigit), none, text.dropWhile isDigit)

/-- A parameter, a dollar-quoted constant or nothing but the `$`, behind it. -/
def nextDollar (text : Bytes) : Option Step :=
  if text.takeWhile isDigit ≠ [] then
    if ∃ c ∈ (text.dropWhile isDigit).head?, identStart c = true then none
    else some (.param (text.takeWhile isDigit), none, text.dropWhile isDigit)
  else
    match dollarTag text with
    | some (tag, text) => (dollarBody tag text).map fun (body, rest) => (.dollarQuoted tag body, none, rest)
    | none => some (.symbol dollar, none, text)

/-- One lexeme. -/
def next (goingOn : GoingOn) : Bytes → Option Step
  | [] => none
  | c :: text =>
    if isSpace c then
      some (.blank c, goingOn.map fun (escapes, lineEnded) => (escapes, lineEnded || isNewline c), text)
    else if c = minus ∧ text.head? = some minus then some (nextLineComment goingOn text.tail)
    else if c = slash ∧ text.head? = some asterisk then
      (commentBody 0 text.tail).map fun (body, rest) => (.blockComment body, none, rest)
    else if c = quote then nextConstant goingOn text
    else if c = dquote then
      (quotedBody dquote false text).map fun (body, rest) => (.quotedName body, none, rest)
    else if (c = 0x45 ∨ c = 0x65) ∧ text.head? = some quote then
      -- the apostrophe behind it opens a constant with escapes
      some (.identifier [c], some (true, true), text)
    else if identStart c then
      some (.identifier ((c :: text).takeWhile identCont), none, (c :: text).dropWhile identCont)
    else if isDigit c then nextNumber (c :: text)
    else if c = dollar then nextDollar text
    else some (.symbol c, none, text)

/-- The lexemes from a state on. -/
def lexFrom : Nat → GoingOn → Bytes → Option (List Lexeme)
  | 0, _, _ => none
  | _ + 1, _, [] => some []
  | fuel + 1, goingOn, text => do
    let (lexeme, goingOn, rest) ← next goingOn text
    let lexemes ← lexFrom fuel goingOn rest
    some (lexeme :: lexemes)

/-- The lexemes of a text. -/
def lex (text : Bytes) : Option (List Lexeme) := lexFrom (text.length + 1) none text

/-- A lexeme is where the lexer sees it, in front of `rest`. -/
def Lexeme.Readable : Lexeme → Bytes → Prop
  | blank c, _ => isSpace c = true
  | lineComment body, rest => (∀ c ∈ body, isNewline c = false) ∧ ∀ c ∈ rest.head?, isNewline c = true
  | blockComment body, rest => commentBody 0 (body ++ asterisk :: slash :: rest) = some (body, rest)
  | constant escapes body, rest => quotedBody quote escapes (body ++ quote :: rest) = some (body, rest)
  | quotedName body, rest => quotedBody dquote false (body ++ dquote :: rest) = some (body, rest)
  | dollarQuoted tag body, rest => (∀ c ∈ tag, dolqCont c = true) ∧ (∀ c ∈ tag.head?, identStart c = true) ∧
      dollarBody tag (body ++ (dollar :: tag ++ [dollar] ++ rest)) = some (body, rest)
  | identifier word, _ => ∀ c ∈ word, identCont c = true
  | number word, _ => ∀ c ∈ word, dolqCont c = true
  | param digits, rest => digits ≠ [] ∧ (∀ c ∈ digits, isDigit c = true) ∧ ∀ c ∈ rest.head?, isDigit c = false
  | symbol c, rest => c ≠ quote ∧ c ≠ dquote ∧ (c = minus → rest.head? ≠ some minus) ∧
      (c = slash → rest.head? ≠ some asterisk) ∧
      (c = dollar → (∀ d ∈ rest.head?, isDigit d = false) ∧ dollarTag rest = none)

/-- The text of lexemes. -/
def textOf (lexemes : List Lexeme) : Bytes := lexemes.flatMap Lexeme.text

/-- Each lexeme is where the lexer sees it in front of the following ones. -/
def Readables : List Lexeme → Prop
  | [] => True
  | lexeme :: rest => lexeme.Readable (textOf rest) ∧ Readables rest

section Bodies

variable {text body rest : Bytes}

/-- What was read behind some bytes. -/
theorem of_map_append {read : Option (Bytes × Bytes)} (front : Bytes)
    (found : (read.map fun (behind, rest) => (front ++ behind, rest)) = some (body, rest)) :
    ∃ behind, read = some (behind, rest) ∧ body = front ++ behind := by
  obtain ⟨⟨behind, rest'⟩, read', eq⟩ := Option.map_eq_some_iff.1 found
  cases eq
  exact ⟨behind, read', rfl⟩

theorem quotedBody_split {mark : UInt8} {escapes : Bool} (read : quotedBody mark escapes text = some (body, rest)) :
    text = body ++ mark :: rest := by
  fun_induction quotedBody mark escapes text generalizing body rest with
  | case1 => cases read
  | case2 =>
    cases read
    rfl
  | case3 => cases read
  | case4 text ih =>
    obtain ⟨behind, read', rfl⟩ := of_map_append [mark, mark] read
    rw [ih read']
    rfl
  | case5 d text =>
    cases read
    rfl
  | case6 c d text _ _ ih =>
    obtain ⟨behind, read', rfl⟩ := of_map_append [c, d] read
    rw [ih read']
    rfl
  | case7 c d text _ _ ih =>
    obtain ⟨behind, read', rfl⟩ := of_map_append [c] read
    rw [ih read']
    rfl

theorem commentBody_split {depth : Nat} (read : commentBody depth text = some (body, rest)) :
    text = body ++ asterisk :: slash :: rest := by
  fun_induction commentBody depth text generalizing body rest with
  | case1 depth c d text _ ih =>
    obtain ⟨behind, read', rfl⟩ := of_map_append [c, d] read
    rw [ih read']
    rfl
  | case2 c d text _ closes =>
    obtain ⟨rfl, rfl⟩ := closes
    cases read
    rfl
  | case3 c d text _ _ depth ih =>
    obtain ⟨behind, read', rfl⟩ := of_map_append [c, d] read
    rw [ih read']
    rfl
  | case4 depth c d text _ _ ih =>
    obtain ⟨behind, read', rfl⟩ := of_map_append [c] read
    rw [ih read']
    rfl
  | case5 => cases read

theorem dollarTag_split {tag : Bytes} (read : dollarTag text = some (tag, rest)) :
    text = tag ++ dollar :: rest ∧ (∀ c ∈ tag, dolqCont c = true) ∧ ∀ c ∈ tag.head?, identStart c = true := by
  unfold dollarTag at read
  dsimp only at read
  split at read
  · rename_i c rest' behind
    split at read
    · rename_i delimits
      cases read
      refine ⟨?_, fun c mem => List.mem_takeWhile_imp mem, (Option.all_eq_true _ _).1 delimits.2⟩
      rw [← delimits.1, ← behind, List.takeWhile_append_dropWhile]
    · cases read
  · cases read

theorem dollarTag_append {tag : Bytes} (cont : ∀ c ∈ tag, dolqCont c = true) (start : ∀ c ∈ tag.head?, identStart c = true) :
    dollarTag (tag ++ dollar :: rest) = some (tag, rest) := by
  have ends : ¬dolqCont dollar = true := by decide
  unfold dollarTag
  rw [List.takeWhile_append_of_pos cont, List.dropWhile_append_of_pos cont, List.takeWhile_cons_of_neg ends,
    List.dropWhile_cons_of_neg ends, List.append_nil]
  dsimp only
  rw [if_pos ⟨rfl, (Option.all_eq_true _ _).2 start⟩]

end Bodies

/-- What a run stops at is not of its kind. -/
theorem stops {p : UInt8 → Bool} {text : Bytes} {c : UInt8} (mem : c ∈ (text.dropWhile p).head?) : p c = false := by
  have := List.head?_dropWhile_not p text
  rw [mem] at this
  exact this

/-- `read` is a lexeme of the text. -/
def Step.Of (read : Step) (text : Bytes) : Prop := text = read.1.text ++ read.2.2 ∧ read.1.Readable read.2.2

section Steps

variable {goingOn : GoingOn} {text : Bytes} {read : Step}

theorem nextLineComment_of (goingOn : GoingOn) (line : Bytes) :
    (nextLineComment goingOn line).Of (minus :: minus :: line) := by
  refine ⟨?_, ?_, ?_⟩
  · simp [nextLineComment, Lexeme.text, List.takeWhile_append_dropWhile]
  · intro c mem
    simpa using List.mem_takeWhile_imp mem
  · intro c mem
    simpa using stops mem

theorem nextConstant_of (found : nextConstant goingOn text = some read) : read.Of (quote :: text) := by
  obtain ⟨⟨body, rest⟩, body_read, rfl⟩ := Option.map_eq_some_iff.1 found
  have split := quotedBody_split body_read
  subst split
  exact ⟨by simp [Lexeme.text], body_read⟩

theorem nextNumber_of (found : nextNumber text = some read) : read.Of text := by
  unfold nextNumber at found
  split at found
  · split at found
    · cases found
    · rename_i clean
      cases found
      refine ⟨List.takeWhile_append_dropWhile.symm, ?_⟩
      intro c mem
      have cont := List.mem_takeWhile_imp mem
      rw [identCont, Bool.or_eq_true, beq_iff_eq] at cont
      exact cont.resolve_right fun isDollar => clean (isDollar ▸ mem)
  · cases found
    refine ⟨List.takeWhile_append_dropWhile.symm, ?_⟩
    intro c mem
    have digit := List.mem_takeWhile_imp mem
    rw [dolqCont, digit, Bool.or_true]

theorem nextDollar_of (found : nextDollar text = some read) : read.Of (dollar :: text) := by
  unfold nextDollar at found
  split at found
  · rename_i digits
    split at found
    · cases found
    · cases found
      refine ⟨?_, digits, fun c mem => List.mem_takeWhile_imp mem, fun c mem => stops mem⟩
      simp [Lexeme.text, List.takeWhile_append_dropWhile]
  · rename_i noDigits
    split at found
    · rename_i tag behind tagged
      obtain ⟨⟨body, rest⟩, closed, rfl⟩ := Option.map_eq_some_iff.1 found
      obtain ⟨rfl, cont, start⟩ := dollarTag_split tagged
      have split := cutAt_split closed
      refine ⟨?_, cont, start, ?_⟩
      · rw [split]
        simp [Lexeme.text]
      · rw [← split]
        exact closed
    · rename_i untagged
      cases found
      refine ⟨rfl, by decide, by decide, fun isMinus => absurd isMinus (by decide),
        fun isSlash => absurd isSlash (by decide), fun _ => ⟨?_, untagged⟩⟩
      intro c mem
      cases text with
      | nil => cases mem
      | cons d text =>
        cases mem
        by_contra digit
        rw [not_not, List.takeWhile_cons_of_pos (by simpa using digit)] at noDigits
        cases noDigits

end Steps

/-- One lexeme makes up the text with what is left, and is where it should be. -/
theorem next_of {goingOn : GoingOn} {text : Bytes} {read : Step} (found : next goingOn text = some read) :
    read.Of text := by
  cases text with
  | nil => cases found
  | cons c text =>
    rw [next] at found
    by_cases blank : isSpace c = true
    · rw [if_pos blank] at found
      cases found
      exact ⟨rfl, blank⟩
    rw [if_neg blank] at found
    by_cases line : c = minus ∧ text.head? = some minus
    · rw [if_pos line] at found
      obtain ⟨rfl, dashes⟩ := line
      obtain ⟨text, rfl⟩ := List.head?_eq_some_iff.1 dashes
      cases found
      exact nextLineComment_of goingOn text
    rw [if_neg line] at found
    by_cases block : c = slash ∧ text.head? = some asterisk
    · rw [if_pos block] at found
      obtain ⟨rfl, star⟩ := block
      obtain ⟨text, rfl⟩ := List.head?_eq_some_iff.1 star
      obtain ⟨⟨body, rest⟩, closed, rfl⟩ := Option.map_eq_some_iff.1 found
      have split := commentBody_split closed
      rw [List.tail_cons] at split closed
      subst split
      exact ⟨by simp [Lexeme.text], closed⟩
    rw [if_neg block] at found
    by_cases apostrophe : c = quote
    · rw [if_pos apostrophe] at found
      subst apostrophe
      exact nextConstant_of found
    rw [if_neg apostrophe] at found
    by_cases name : c = dquote
    · rw [if_pos name] at found
      subst name
      obtain ⟨⟨body, rest⟩, closed, rfl⟩ := Option.map_eq_some_iff.1 found
      have split := quotedBody_split closed
      subst split
      exact ⟨by simp [Lexeme.text], closed⟩
    rw [if_neg name] at found
    by_cases letter : (c = 0x45 ∨ c = 0x65) ∧ text.head? = some quote
    · rw [if_pos letter] at found
      cases found
      refine ⟨rfl, ?_⟩
      intro d mem
      cases List.mem_singleton.1 mem
      rcases letter.1 with rfl | rfl
      · decide
      · decide
    rw [if_neg letter] at found
    by_cases start : identStart c = true
    · rw [if_pos start] at found
      cases found
      exact ⟨List.takeWhile_append_dropWhile.symm, fun d mem => List.mem_takeWhile_imp mem⟩
    rw [if_neg start] at found
    by_cases digit : isDigit c = true
    · rw [if_pos digit] at found
      exact nextNumber_of found
    rw [if_neg digit] at found
    by_cases isDollar : c = dollar
    · rw [if_pos isDollar] at found
      subst isDollar
      exact nextDollar_of found
    rw [if_neg isDollar] at found
    cases found
    exact ⟨rfl, apostrophe, name, fun isMinus dashes => line ⟨isMinus, dashes⟩, fun isSlash star => block ⟨isSlash, star⟩,
      fun h => absurd h isDollar⟩

/-- The lexemes make up the text, and each is where it should be. -/
theorem lexFrom_readable {fuel : Nat} {goingOn : GoingOn} {text : Bytes} {lexemes : List Lexeme}
    (read : lexFrom fuel goingOn text = some lexemes) : textOf lexemes = text ∧ Readables lexemes := by
  induction fuel generalizing goingOn text lexemes with
  | zero => cases read
  | succ fuel ih =>
    cases text with
    | nil =>
      cases read
      exact ⟨rfl, trivial⟩
    | cons c text =>
      obtain ⟨⟨lexeme, goingOn', rest⟩, found, read⟩ := Option.bind_eq_some_iff.1 read
      obtain ⟨following, others, same⟩ := Option.bind_eq_some_iff.1 read
      cases same
      obtain ⟨split, readable⟩ := next_of found
      obtain ⟨behind, readables⟩ := ih others
      refine ⟨?_, ?_, readables⟩
      · rw [split, ← behind]
        rfl
      · rw [behind]
        exact readable

theorem lex_readable {text : Bytes} {lexemes : List Lexeme} (read : lex text = some lexemes) :
    textOf lexemes = text ∧ Readables lexemes := lexFrom_readable read

end RubyPg.Sql
