import Mathlib.Data.List.Basic
import RubyPg.Value

/-!
# String constants of SQL

The part of PostgreSQL's lexer that reads a string constant: the states `xq` and `xe` with their
escapes, and the look for a continuation behind a closing quote. Everything the server's settings and
its encoding decide is in `Server`.
-/

namespace RubyPg.Sql
set_option autoImplicit false
open Ascii

/-- The apostrophe. -/
abbrev quote : UInt8 := 0x27

/-- What decides about string constants on the server. -/
structure Server where
  standardConformingStrings : Bool
  /-- `backslash_quote`: an apostrophe may be escaped by a backslash. -/
  backslashQuote : Bool
  /-- A code point in the server encoding. -/
  fromUnicode : Nat → Option Bytes
  /-- No server encoding has longer characters. -/
  fromUnicode_length : ∀ c bytes, fromUnicode c = some bytes → bytes.length ≤ 4

def isOctal (c : UInt8) : Bool := decide (0x30 ≤ c ∧ c ≤ 0x37)

def isHex (c : UInt8) : Bool :=
  decide (0x30 ≤ c ∧ c ≤ 0x39) || decide (0x41 ≤ c ∧ c ≤ 0x46) || decide (0x61 ≤ c ∧ c ≤ 0x66)

/-- The value of a hexadecimal digit. -/
def hexDigit (c : UInt8) : Nat := if c ≤ 0x39 then c.toNat - 0x30 else if c ≤ 0x46 then c.toNat - 0x37 else c.toNat - 0x57

/-- The value of digits in a base. -/
def digitsValue (base : Nat) (digits : Bytes) : Nat := digits.foldl (fun n c => base * n + hexDigit c) 0

/-- The digits of `\u` and `\U`: the code unit, and what is left. -/
def codeUnit (n : Nat) (text : Bytes) : Option (Nat × Bytes) :=
  if (text.take n).length = n ∧ (text.take n).all isHex then some (digitsValue 16 (text.take n), text.drop n) else none

/-- How many digits follow `\u` and `\U`. -/
def unicodeDigits (c : UInt8) : Option Nat := if c = 0x75 then some 4 else if c = 0x55 then some 8 else none

/-- The second half of a surrogate pair (state `xeu`), an escape of its own. -/
def secondHalf (first : Nat) : Bytes → Option (Nat × Bytes)
  | slash :: c :: text =>
    match if slash = backslash then unicodeDigits c else none with
    | some n => do
      let (second, left) ← codeUnit n text
      if 0xDC00 ≤ second ∧ second ≤ 0xDFFF then some ((first % 0x400) * 0x400 + 0x10000 + second % 0x400, left)
      else none
    | none => none
  | _ => none

/-- The code point of a Unicode escape with `n` digits. -/
def codePoint (n : Nat) (text : Bytes) : Option (Nat × Bytes) := do
  let (c, left) ← codeUnit n text
  if 0xD800 ≤ c ∧ c ≤ 0xDBFF then secondHalf c left
  else if 0xDC00 ≤ c ∧ c ≤ 0xDFFF then none
  else some (c, left)

/-- A Unicode escape with `n` digits. -/
def unicodeEscape (server : Server) (n : Nat) (text : Bytes) : Option (Bytes × Bytes) := do
  let (c, left) ← codePoint n text
  let bytes ← server.fromUnicode c
  some (bytes, left)

/-- `unescape_single_char`. -/
def unescapeSingleChar (c : UInt8) : UInt8 :=
  if c = 0x62 then 0x08 else if c = 0x66 then 0x0c else if c = 0x6e then 0x0a else if c = 0x72 then 0x0d
  else if c = 0x74 then 0x09 else if c = 0x76 then 0x0b else c

/-- What is behind a backslash in state `xe`: the bytes it stands for, and what is left. -/
def escape (server : Server) : Bytes → Option (Bytes × Bytes)
  | [] => none
  | c :: text =>
    if isOctal c then
      let digits := ((c :: text).take 3).takeWhile isOctal
      some ([(digitsValue 8 digits).toUInt8], (c :: text).drop digits.length)
    else if c = 0x78 then
      let digits := (text.take 2).takeWhile isHex
      if digits = [] then some ([c], text) else some ([(digitsValue 16 digits).toUInt8], text.drop digits.length)
    else
      match unicodeDigits c with
      | some n => unicodeEscape server n text
      | none =>
        if c = quote then if server.backslashQuote then some ([quote], text) else none
        else some ([unescapeSingleChar c], text)

/-- `quotecontinue`: whitespace with a newline in it, comments included, and another quote. -/
def quoteContinue (newlineSeen inComment : Bool) : Bytes → Option Bytes
  | [] => none
  | c :: text =>
    if c = newline ∨ c = cr then quoteContinue true false text
    else if inComment then quoteContinue newlineSeen true text
    else if c = space ∨ c = tab ∨ c = formfeed ∨ c = vtab then quoteContinue newlineSeen false text
    else if c = minus then if text.head? = some minus then quoteContinue newlineSeen true text else none
    else if c = quote ∧ newlineSeen then some text
    else none

/-- A constant behind its opening quote: the string it denotes, and what is left of the text. `escapes`
tells `xe` from `xq`; a constant without end is an error. -/
def readConstant (server : Server) (escapes : Bool) : Nat → Bytes → Option (Bytes × Bytes)
  | 0, _ => none
  | _, [] => none
  | fuel + 1, c :: text =>
    if c = quote then
      if text.head? = some quote then do
        let (s, left) ← readConstant server escapes fuel text.tail
        some (quote :: s, left)
      else
        match quoteContinue false false text with
        | some text => readConstant server escapes fuel text
        | none => some ([], text)
    else if c = backslash ∧ escapes then do
      let (bytes, text) ← escape server text
      let (s, left) ← readConstant server escapes fuel text
      some (bytes ++ s, left)
    else do
      let (s, left) ← readConstant server escapes fuel text
      some (c :: s, left)

/-- A string constant at the start of a text. -/
def stringConstant (server : Server) : Bytes → Option (Bytes × Bytes)
  | c :: text =>
    if c = quote then readConstant server (!server.standardConformingStrings) (text.length + 1) text
    else if (c = 0x45 ∨ c = 0x65) ∧ text.head? = some quote then readConstant server true text.length text.tail
    else none
  | [] => none

/-- A text that a constant in front of it would go on with. -/
def GoesOn (text : Bytes) : Prop := text.head? = some quote ∨ quoteContinue false false text ≠ none

/-- The text is one constant that denotes the string, whatever SQL stands behind it. -/
def IsConstant (server : Server) (text s : Bytes) : Prop :=
  ∀ rest, ¬GoesOn rest → stringConstant server (text ++ rest) = some (s, rest)

/-- A string with its quotes doubled. -/
def doubled (s : Bytes) : Bytes := s.flatMap fun c => if c = quote then [quote, quote] else [c]

theorem length_le_doubled (s : Bytes) : s.length ≤ (doubled s).length := by
  induction s with
  | nil => exact le_rfl
  | cons c s ih =>
    rw [doubled, List.flatMap_cons, List.length_append, List.length_cons]
    rw [doubled] at ih
    split
    · rw [List.length_cons]
      omega
    · rw [List.length_singleton]
      omega

section Reading

variable {server : Server} {escapes : Bool}

/-- Doubled quotes read back, as long as nothing escapes. -/
theorem readConstant_doubled {s rest : Bytes} (ends : ¬GoesOn rest) (literal : escapes = true → backslash ∉ s)
    {fuel : Nat} (enough : s.length < fuel) :
    readConstant server escapes fuel (doubled s ++ quote :: rest) = some (s, rest) := by
  unfold GoesOn at ends
  push Not at ends
  obtain ⟨fuel, rfl⟩ := Nat.exists_eq_add_of_lt enough
  induction s with
  | nil =>
    show readConstant server escapes (_ + 1) (quote :: rest) = _
    rw [readConstant, if_pos rfl, if_neg ends.1, ends.2]
  | cons c s ih =>
    have later := ih (fun on => fun member => literal on (List.mem_cons_of_mem c member)) (by omega)
    have fuels : (c :: s).length + fuel + 1 = (s.length + fuel + 1) + 1 := by
      rw [List.length_cons]
      omega
    rw [fuels]
    by_cases isQuote : c = quote
    · subst isQuote
      have text : doubled (quote :: s) ++ quote :: rest = quote :: quote :: (doubled s ++ quote :: rest) := rfl
      rw [text, readConstant, if_pos rfl, List.head?_cons, if_pos rfl, List.tail_cons, later]
      rfl
    · have text : doubled (c :: s) ++ quote :: rest = c :: (doubled s ++ quote :: rest) := by
        rw [doubled, List.flatMap_cons, if_neg isQuote]
        rfl
      have plain : ¬(c = backslash ∧ escapes = true) := by
        rintro ⟨rfl, on⟩
        exact literal on List.mem_cons_self
      rw [text, readConstant, if_neg isQuote, if_neg plain, later]
      rfl

end Reading

/-- Twice the length, but once for a quote: what a text can denote at most, doubled. -/
def weight (text : Bytes) : Nat := (text.map fun c => if c = quote then 1 else 2).sum

section Weights

variable {server : Server} {escapes : Bool} {text left s bytes : Bytes}

@[simp] theorem weight_nil : weight [] = 0 := rfl

@[simp] theorem weight_cons (c : UInt8) (text : Bytes) : weight (c :: text) = (if c = quote then 1 else 2) + weight text := by
  rw [weight, List.map_cons, List.sum_cons]
  rfl

@[simp] theorem weight_append (a b : Bytes) : weight (a ++ b) = weight a + weight b := by
  rw [weight, List.map_append, List.sum_append]
  rfl

theorem weight_doubled (s : Bytes) : weight (doubled s) = 2 * s.length := by
  induction s with
  | nil => rfl
  | cons c s ih =>
    rw [doubled, List.flatMap_cons, weight_append, List.length_cons]
    rw [doubled] at ih
    by_cases isQuote : c = quote
    · rw [if_pos isQuote, ih]
      simp
      omega
    · rw [if_neg isQuote, ih]
      simp [isQuote]
      omega

theorem weight_hex {digits : Bytes} (hex : digits.all isHex = true) : weight digits = 2 * digits.length := by
  induction digits with
  | nil => rfl
  | cons c digits ih =>
    rw [List.all_cons, Bool.and_eq_true] at hex
    have notQuote : c ≠ quote := by
      rintro rfl
      exact absurd hex.1 (by decide)
    rw [weight_cons, if_neg notQuote, ih hex.2, List.length_cons]
    omega

theorem codeUnit_used {n c : Nat} (read : codeUnit n text = some (c, left)) :
    ∃ used, text = used ++ left ∧ weight used = 2 * n := by
  unfold codeUnit at read
  split at read
  · rename_i digits
    cases read
    refine ⟨text.take n, (List.take_append_drop n text).symm, ?_⟩
    rw [weight_hex digits.2, digits.1]
  · cases read

theorem unicodeDigits_ge {c : UInt8} {n : Nat} (digits : unicodeDigits c = some n) : c ≠ quote ∧ 4 ≤ n := by
  unfold unicodeDigits at digits
  split at digits
  · rename_i isU
    cases digits
    subst isU
    decide
  · split at digits
    · rename_i isU
      cases digits
      subst isU
      decide
    · cases digits

theorem secondHalf_used {first c : Nat} (read : secondHalf first text = some (c, left)) : ∃ used, text = used ++ left := by
  match text with
  | [] => cases read
  | [_] => cases read
  | slash :: u :: text =>
    rw [secondHalf] at read
    split at read
    · obtain ⟨⟨second, left'⟩, unit, half⟩ := Option.bind_eq_some_iff.1 read
      obtain ⟨used, rfl, -⟩ := codeUnit_used unit
      dsimp only at half
      split at half
      · cases half
        exact ⟨slash :: u :: used, rfl⟩
      · cases half
    · cases read

theorem codePoint_used {n c : Nat} (read : codePoint n text = some (c, left)) :
    ∃ used, text = used ++ left ∧ 2 * n ≤ weight used := by
  obtain ⟨⟨c', behind⟩, unit, point⟩ := Option.bind_eq_some_iff.1 read
  obtain ⟨used, rfl, digits⟩ := codeUnit_used unit
  have rest : ∃ more, behind = more ++ left := by
    dsimp only at point
    split at point
    · exact secondHalf_used point
    · split at point
      · cases point
      · cases point
        exact ⟨[], rfl⟩
  obtain ⟨more, rfl⟩ := rest
  refine ⟨used ++ more, (List.append_assoc used more left).symm, ?_⟩
  rw [weight_append]
  omega

/-- A Unicode escape stands for at most four bytes. -/
theorem unicodeEscape_used {n : Nat} (read : unicodeEscape server n text = some (bytes, left)) :
    ∃ used, text = used ++ left ∧ 2 * n ≤ weight used ∧ bytes.length ≤ 4 := by
  obtain ⟨⟨c, behind⟩, point, read⟩ := Option.bind_eq_some_iff.1 read
  obtain ⟨converted, encoded, read⟩ := Option.bind_eq_some_iff.1 read
  cases read
  obtain ⟨used, whole, heavy⟩ := codePoint_used point
  exact ⟨used, whole, heavy, server.fromUnicode_length _ _ encoded⟩

theorem prefix_drop {a t : Bytes} (start : a <+: t) : t = a ++ t.drop a.length := by
  obtain ⟨b, rfl⟩ := start
  rw [List.drop_left]

/-- An escape stands for less than the text it takes. -/
theorem escape_used (read : escape server text = some (bytes, left)) :
    ∃ used, text = used ++ left ∧ 2 * bytes.length ≤ weight used + 1 := by
  cases text with
  | nil => cases read
  | cons c text =>
    rw [escape] at read
    by_cases octal : isOctal c = true
    · rw [if_pos octal] at read
      cases read
      have digits : ((c :: text).take 3).takeWhile isOctal = c :: (text.take 2).takeWhile isOctal := by
        rw [List.take_succ_cons, List.takeWhile_cons_of_pos octal]
      have notQuote : c ≠ quote := by
        rintro rfl
        exact absurd octal (by decide)
      rw [digits]
      refine ⟨c :: (text.take 2).takeWhile isOctal, ?_, ?_⟩
      · have start : c :: (text.take 2).takeWhile isOctal <+: c :: text :=
          List.cons_prefix_cons.2 ⟨rfl, (List.takeWhile_prefix isOctal).trans (List.take_prefix 2 text)⟩
        exact prefix_drop start
      · rw [weight_cons, if_neg notQuote]
        simp
        omega
    rw [if_neg octal] at read
    by_cases isX : c = 0x78
    · subst isX
      rw [if_pos rfl] at read
      dsimp only at read
      split at read
      · cases read
        exact ⟨[0x78], rfl, by decide⟩
      · cases read
        refine ⟨0x78 :: (text.take 2).takeWhile isHex, ?_, ?_⟩
        · rw [List.cons_append, (prefix_drop ((List.takeWhile_prefix isHex).trans (List.take_prefix 2 text))).symm]
        · rw [weight_cons, if_neg (by decide)]
          simp
          omega
    rw [if_neg isX] at read
    cases digits : unicodeDigits c with
    | some n =>
      rw [digits] at read
      obtain ⟨used, rfl, long, small⟩ := unicodeEscape_used read
      obtain ⟨notQuote, four⟩ := unicodeDigits_ge digits
      refine ⟨c :: used, rfl, ?_⟩
      rw [weight_cons, if_neg notQuote]
      omega
    | none =>
      rw [digits] at read
      dsimp only at read
      by_cases isQuote : c = quote
      · subst isQuote
        rw [if_pos rfl] at read
        split at read
        · cases read
          exact ⟨[quote], rfl, by decide⟩
        · cases read
      · rw [if_neg isQuote] at read
        cases read
        refine ⟨[c], rfl, ?_⟩
        rw [weight_cons, if_neg isQuote]
        simp

theorem quoteContinue_used {newlineSeen inComment : Bool} (continued : quoteContinue newlineSeen inComment text = some left) :
    ∃ used, text = used ++ left := by
  induction text generalizing newlineSeen inComment with
  | nil => cases continued
  | cons c text ih =>
    have further : ∀ {seen comment : Bool}, quoteContinue seen comment text = some left → ∃ used, c :: text = used ++ left := by
      intro seen comment later
      obtain ⟨used, rfl⟩ := ih later
      exact ⟨c :: used, rfl⟩
    rw [quoteContinue] at continued
    split at continued
    · exact further continued
    split at continued
    · exact further continued
    split at continued
    · exact further continued
    split at continued
    · split at continued
      · exact further continued
      · cases continued
    split at continued
    · cases continued
      exact ⟨[c], rfl⟩
    · cases continued

/-- The weight of a constant bounds what it denotes, and where something escapes by more than that. -/
theorem readConstant_used {fuel : Nat} (read : readConstant server escapes fuel text = some (s, left)) :
    ∃ used, text = used ++ left ∧ 2 * s.length + 1 ≤ weight used ∧
      (escapes = true → backslash ∈ used → 2 * s.length + 2 ≤ weight used) := by
  induction fuel generalizing text s with
  | zero => cases read
  | succ fuel ih =>
    cases text with
    | nil => cases read
    | cons c text =>
      rw [readConstant] at read
      by_cases isQuote : c = quote
      · subst isQuote
        rw [if_pos rfl] at read
        split at read
        · rename_i double
          obtain ⟨⟨s', left'⟩, later, read⟩ := Option.bind_eq_some_iff.1 read
          cases read
          obtain ⟨used, behind, bound, more⟩ := ih later
          have whole : text = quote :: (used ++ left) := by
            rw [← behind]
            exact List.eq_cons_of_mem_head? (Option.mem_def.2 double)
          refine ⟨quote :: quote :: used, by rw [whole]; rfl, ?_, ?_⟩
          · simp
            omega
          · intro on member
            have inside : backslash ∈ used := by simpa [quote, backslash] using member
            have := more on inside
            simp
            omega
        · split at read
          · rename_i continued
            obtain ⟨gap, rfl⟩ := quoteContinue_used continued
            obtain ⟨used, rfl, bound, -⟩ := ih read
            have heavy : 2 * s.length + 2 ≤ weight (quote :: (gap ++ used)) := by
              simp
              omega
            exact ⟨quote :: (gap ++ used), by simp, by omega, fun _ _ => heavy⟩
          · cases read
            exact ⟨[quote], rfl, by decide, fun _ member => absurd member (by decide)⟩
      rw [if_neg isQuote] at read
      by_cases escaped : c = backslash ∧ escapes = true
      · rw [if_pos escaped] at read
        obtain ⟨⟨bytes, behind⟩, stood, read⟩ := Option.bind_eq_some_iff.1 read
        obtain ⟨⟨s', left'⟩, later, read⟩ := Option.bind_eq_some_iff.1 read
        cases read
        obtain ⟨taken, rfl, less⟩ := escape_used stood
        obtain ⟨used, rfl, bound, -⟩ := ih later
        have heavy : 2 * (bytes ++ s').length + 2 ≤ weight (c :: (taken ++ used)) := by
          simp [isQuote]
          omega
        exact ⟨c :: (taken ++ used), by simp, by omega, fun _ _ => heavy⟩
      · rw [if_neg escaped] at read
        obtain ⟨⟨s', left'⟩, later, read⟩ := Option.bind_eq_some_iff.1 read
        cases read
        obtain ⟨used, rfl, bound, more⟩ := ih later
        refine ⟨c :: used, rfl, ?_, ?_⟩
        · simp [isQuote]
          omega
        · intro on member
          have inside : backslash ∈ used := by
            rcases List.mem_cons.1 member with same | inside
            · exact absurd ⟨same.symm, on⟩ escaped
            · exact inside
          have := more on inside
          simp [isQuote]
          omega

end Weights

theorem not_goesOn_nil : ¬GoesOn [] := by
  rintro (starts | continues)
  · cases starts
  · exact continues rfl

/-- A string in quotes, with its quotes doubled, is a constant that denotes it, unless its backslashes
are read as escapes. -/
theorem isConstant_doubled_iff {server : Server} {s : Bytes} :
    IsConstant server (quote :: doubled s ++ [quote]) s ↔ (server.standardConformingStrings = false → backslash ∉ s) := by
  constructor
  · intro constant off member
    have read := constant [] not_goesOn_nil
    rw [List.append_nil, List.cons_append, stringConstant, if_pos rfl] at read
    obtain ⟨used, whole, -, more⟩ := readConstant_used read
    rw [List.append_nil] at whole
    subst whole
    have inside : backslash ∈ doubled s := List.mem_flatMap.2 ⟨backslash, member, List.mem_singleton.2 rfl⟩
    have bound := more (by rw [off]; rfl) (List.mem_append_left _ inside)
    rw [weight_append, weight_doubled] at bound
    simp at bound
  · intro literal rest ends
    have text : quote :: doubled s ++ [quote] ++ rest = quote :: (doubled s ++ quote :: rest) := by simp
    rw [text, stringConstant, if_pos rfl]
    apply readConstant_doubled ends
    · intro on
      apply literal
      simpa using on
    · have enough := length_le_doubled s
      rw [List.length_append]
      omega

end RubyPg.Sql
