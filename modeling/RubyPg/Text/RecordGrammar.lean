import Mathlib.Data.List.Chain
import RubyPg.Text.ArrayGrammar
import RubyPg.Text.RecordBuffer

/-!
# The grammar of record literals

`RecordLiteral` is the syntax tree of a composite literal, with the text it is written as and
the values it denotes. `ColumnText` derives the text of one column character by character, as
the loop of `pg_text_dec_record` reads it: the loop follows every derivation
(`scanColumn_reads`), and where it gets to the end of a column there is one
(`scanColumn_derives`). So the decoder accepts the literals and nothing else.
-/

namespace RubyPg.Text
set_option autoImplicit false
open Ascii

/-- A character between quotes: itself, behind a backslash, or a quote written as two. -/
inductive QuotedChar where
  | plain (c : UInt8) (notDquote : c ≠ dquote) (notBackslash : c ≠ backslash)
  | pair (c : UInt8)
  | doubled

def QuotedChar.text : QuotedChar → Bytes
  | .plain c _ _ => [c]
  | .pair c => [backslash, c]
  | .doubled => [dquote, dquote]

def QuotedChar.byte : QuotedChar → UInt8
  | .plain c _ _ | .pair c => c
  | .doubled => dquote

/-- The plain characters of a field. -/
structure PlainFieldChar (c : UInt8) : Prop where
  comma : c ≠ comma
  rparen : c ≠ rparen
  dquote : c ≠ dquote
  backslash : c ≠ backslash

/-- A part of a field: a plain character, a character behind a backslash, or a quoted part. -/
inductive FieldPart where
  | plain (c : UInt8) (literal : PlainFieldChar c)
  | pair (c : UInt8)
  | quoted (chars : List QuotedChar)

namespace FieldPart

def text : FieldPart → Bytes
  | plain c _ => [c]
  | pair c => [backslash, c]
  | quoted chars => dquote :: chars.flatMap QuotedChar.text ++ [dquote]

/-- What the part denotes. -/
def bytes : FieldPart → Bytes
  | plain c _ | pair c => [c]
  | quoted chars => chars.map QuotedChar.byte

def isQuoted : FieldPart → Bool
  | quoted _ => true
  | plain _ _ | pair _ => false

end FieldPart

/-- Between two quoted parts stands something else: a quote behind a quoted part would be the second of two. -/
def QuotesApart (parts : List FieldPart) : Prop := parts.IsChain fun p q => ¬(p.isQuoted = true ∧ q.isQuoted = true)

/-- The text of a field. -/
def partsText (parts : List FieldPart) : Bytes := parts.flatMap FieldPart.text

/-- The value of a field: `nil` if it is entirely empty, else what its parts denote. -/
def partsValue (parts : List FieldPart) : Value :=
  if parts.isEmpty then .nil else .str (parts.flatMap FieldPart.bytes)

/-- A composite literal: whitespace, fields between parentheses, whitespace. -/
structure RecordLiteral where
  leads : Bytes
  fields : List (List FieldPart)
  ends : Bytes
  blankLeads : ∀ c ∈ leads, recordIsspace c = true
  some : fields ≠ []
  blankEnds : ∀ c ∈ ends, recordIsspace c = true

namespace RecordLiteral

def text (record : RecordLiteral) : Bytes :=
  record.leads ++ lparen :: ([comma].intercalate (record.fields.map partsText) ++ rparen :: record.ends)

def value (record : RecordLiteral) : Value := .ary (record.fields.map partsValue)

/-- The literal is split into quoted parts as it is read. -/
def QuotesApart (record : RecordLiteral) : Prop := ∀ parts ∈ record.fields, Text.QuotesApart parts

end RecordLiteral

/-- The text of a column and what it denotes, from a character outside or inside quotes on. -/
inductive ColumnText : Bool → Bytes → Bytes → Prop where
  | nil : ColumnText false [] []
  | plain {c : UInt8} {t w : Bytes} (literal : PlainFieldChar c) (next : ColumnText false t w) :
      ColumnText false (c :: t) (c :: w)
  | pair {inquote : Bool} {c : UInt8} {t w : Bytes} (next : ColumnText inquote t w) :
      ColumnText inquote (backslash :: c :: t) (c :: w)
  | openQuotes {t w : Bytes} (next : ColumnText true t w) : ColumnText false (dquote :: t) w
  | quoted {c : UInt8} {t w : Bytes} (notDquote : c ≠ dquote) (notBackslash : c ≠ backslash)
      (next : ColumnText true t w) : ColumnText true (c :: t) (c :: w)
  | doubled {t w : Bytes} (next : ColumnText true t w) : ColumnText true (dquote :: dquote :: t) (dquote :: w)
  | closeQuotes {t w : Bytes} (single : ∀ u, t ≠ dquote :: u) (next : ColumnText false t w) :
      ColumnText true (dquote :: t) w

section Parts

/-- Behind quotes comes no quote if the next part is not quoted. -/
theorem partsText_single {parts : List FieldPart} (notQuoted : ∀ part ∈ parts.head?, part.isQuoted = false) :
    ∀ u, partsText parts ≠ dquote :: u := by
  intro u starts
  cases parts with
  | nil => cases starts
  | cons part parts =>
    cases part with
    | plain c literal => exact literal.dquote (List.cons.inj starts).1
    | pair c => exact absurd (List.cons.inj starts).1 (by decide)
    | quoted chars => cases notQuoted _ rfl

/-- The characters of a quoted part, in front of what follows it. -/
theorem columnText_chars (chars : List QuotedChar) {t w : Bytes} (single : ∀ u, t ≠ dquote :: u)
    (next : ColumnText false t w) :
    ColumnText true (chars.flatMap QuotedChar.text ++ dquote :: t) (chars.map QuotedChar.byte ++ w) := by
  induction chars with
  | nil => exact .closeQuotes single next
  | cons char chars ih =>
    cases char with
    | plain c notDquote notBackslash => exact .quoted notDquote notBackslash ih
    | pair c => exact .pair ih
    | doubled => exact .doubled ih

/-- Every field is derived. -/
theorem columnText_parts {parts : List FieldPart} (apart : QuotesApart parts) :
    ColumnText false (partsText parts) (parts.flatMap FieldPart.bytes) := by
  induction parts with
  | nil => exact .nil
  | cons part parts ih =>
    obtain ⟨first, others⟩ := List.isChain_cons.1 apart
    have next := ih others
    cases part with
    | plain c literal => exact .plain literal next
    | pair c => exact .pair next
    | quoted chars =>
      have single : ∀ u, partsText parts ≠ dquote :: u := by
        refine partsText_single fun part member => ?_
        simpa [FieldPart.isQuoted] using first part member
      have quoted := columnText_chars chars single next
      have text : partsText (.quoted chars :: parts) =
          dquote :: (chars.flatMap QuotedChar.text ++ dquote :: partsText parts) := by
        simp [partsText, FieldPart.text]
      rw [text, List.flatMap_cons]
      exact .openQuotes quoted

/-- What a derivation says about the parts of a field; inside quotes the first of them is open. -/
def Splits (inquote : Bool) (t w : Bytes) : Prop :=
  if inquote then
    ∃ chars parts, QuotesApart (.quoted chars :: parts) ∧ chars.flatMap QuotedChar.text ++ dquote :: partsText parts = t ∧
      chars.map QuotedChar.byte ++ parts.flatMap FieldPart.bytes = w
  else ∃ parts, QuotesApart parts ∧ partsText parts = t ∧ parts.flatMap FieldPart.bytes = w

/-- A part that is not quoted keeps the others apart. -/
theorem QuotesApart.cons {part : FieldPart} {parts : List FieldPart} (apart : QuotesApart parts) (notQuoted : part.isQuoted = false) :
    QuotesApart (part :: parts) :=
  List.isChain_cons.2 ⟨fun q _ both => by simp [notQuoted] at both, apart⟩

/-- Inside quotes the first part may have other characters. -/
theorem QuotesApart.quoted {chars chars' : List QuotedChar} {parts : List FieldPart} (apart : QuotesApart (.quoted chars :: parts)) :
    QuotesApart (.quoted chars' :: parts) :=
  List.isChain_cons.2 (List.isChain_cons.1 apart)

/-- Every derivation is that of a field. -/
theorem ColumnText.splits {inquote : Bool} {t w : Bytes} (column : ColumnText inquote t w) : Splits inquote t w := by
  induction column with
  | nil => exact ⟨[], .nil, rfl, rfl⟩
  | plain literal next ih =>
    obtain ⟨parts, apart, rfl, rfl⟩ := ih
    exact ⟨.plain _ literal :: parts, apart.cons rfl, rfl, rfl⟩
  | @pair inquote c t w next ih =>
    cases inquote with
    | false =>
      obtain ⟨parts, apart, rfl, rfl⟩ := ih
      exact ⟨.pair c :: parts, apart.cons rfl, rfl, rfl⟩
    | true =>
      obtain ⟨chars, parts, apart, rfl, rfl⟩ := ih
      exact ⟨.pair c :: chars, parts, apart.quoted, rfl, rfl⟩
  | openQuotes next ih =>
    obtain ⟨chars, parts, apart, rfl, rfl⟩ := ih
    refine ⟨.quoted chars :: parts, apart, ?_, rfl⟩
    simp [partsText, FieldPart.text]
  | quoted notDquote notBackslash next ih =>
    obtain ⟨chars, parts, apart, rfl, rfl⟩ := ih
    exact ⟨.plain _ notDquote notBackslash :: chars, parts, apart.quoted, rfl, rfl⟩
  | doubled next ih =>
    obtain ⟨chars, parts, apart, rfl, rfl⟩ := ih
    exact ⟨.doubled :: chars, parts, apart.quoted, rfl, rfl⟩
  | closeQuotes single next ih =>
    obtain ⟨parts, apart, rfl, rfl⟩ := ih
    refine ⟨[], parts, List.isChain_cons.2 ⟨fun part member both => ?_, apart⟩, rfl, rfl⟩
    cases parts with
    | nil => cases member
    | cons first parts =>
      cases member
      cases part with
      | quoted chars => exact single _ rfl
      | plain | pair => exact absurd both.2 Bool.false_ne_true

/-- Quoted parts that touch are one part with a doubled quote: every field has parts that stand apart. -/
theorem exists_apart (parts : List FieldPart) : ∃ parts', QuotesApart parts' ∧ partsText parts' = partsText parts := by
  induction parts with
  | nil => exact ⟨[], .nil, rfl⟩
  | cons part parts ih =>
    obtain ⟨others, apart, same⟩ := ih
    cases part with
    | plain c literal => exact ⟨.plain c literal :: others, apart.cons rfl, congrArg (c :: ·) same⟩
    | pair c => exact ⟨.pair c :: others, apart.cons rfl, congrArg (backslash :: c :: ·) same⟩
    | quoted chars =>
      have text : partsText (.quoted chars :: parts) = dquote :: (chars.flatMap QuotedChar.text ++ dquote :: partsText parts) := by
        simp [partsText, FieldPart.text]
      rw [text, ← same]
      cases others with
      | nil => exact ⟨[.quoted chars], .singleton _, by simp [partsText, FieldPart.text]⟩
      | cons other others =>
        cases other with
        | quoted chars' =>
          refine ⟨.quoted (chars ++ .doubled :: chars') :: others, apart.quoted, ?_⟩
          simp [partsText, FieldPart.text, QuotedChar.text]
        | plain c literal =>
          refine ⟨.quoted chars :: .plain c literal :: others, List.isChain_cons_cons.2 ⟨nofun, apart⟩, ?_⟩
          simp [partsText, FieldPart.text]
        | pair c =>
          refine ⟨.quoted chars :: .pair c :: others, List.isChain_cons_cons.2 ⟨nofun, apart⟩, ?_⟩
          simp [partsText, FieldPart.text]

end Parts

section Scanning

variable {s : Bytes}

/-- What ends a column. -/
def EndsColumn (ch : UInt8) : Prop := ch = comma ∨ ch = rparen

/-- The loop follows a derivation to the end of the column. -/
theorem scanColumn_reads {inquote : Bool} {t w rest field : Bytes} {ch : UInt8} {fuel cur : Nat}
    (column : ColumnText inquote t w) (nonul : nul ∉ t) (here : Rest s cur (t ++ ch :: rest)) (ends : EndsColumn ch)
    (enough : t.length < fuel) :
    scanColumn s fuel cur inquote field = .ok (cur + t.length, field ++ w) := by
  induction column generalizing fuel cur field with
  | nil =>
    obtain ⟨fuel, rfl⟩ : ∃ n, fuel = n + 1 := ⟨fuel - 1, by omega⟩
    have here : Rest s cur (ch :: rest) := here
    rw [scanColumn, here.getD, List.append_nil]
    exact if_pos ⟨rfl, ends⟩
  | @plain c t w literal next ih =>
    obtain ⟨fuel, rfl⟩ : ∃ n, fuel = n + 1 := ⟨fuel - 1, by omega⟩
    rw [List.mem_cons, not_or] at nonul
    have here : Rest s cur (c :: (t ++ ch :: rest)) := here
    rw [scanColumn, here.getD]
    rw [if_neg (fun h => h.2.elim literal.comma literal.rparen), if_neg (Ne.symm nonul.1), if_neg literal.backslash,
      if_neg literal.dquote, ih nonul.2 here.next (Nat.lt_of_succ_lt_succ enough), List.append_assoc, List.length_cons]
    congr 2
    omega
  | @pair inquote c t w next ih =>
    obtain ⟨fuel, rfl⟩ : ∃ n, fuel = n + 1 := ⟨fuel - 1, by omega⟩
    rw [List.mem_cons, List.mem_cons, not_or, not_or] at nonul
    rw [List.length_cons, List.length_cons] at enough
    have here : Rest s cur (backslash :: c :: (t ++ ch :: rest)) := here
    rw [scanColumn, here.getD]
    rw [if_neg (by simp +decide), if_neg (by decide), if_pos rfl, here.next.getD, if_neg (Ne.symm nonul.2.1),
      ih nonul.2.2 here.next.next (by omega), List.append_assoc, List.length_cons, List.length_cons]
    congr 2
    omega
  | @openQuotes t w next ih =>
    obtain ⟨fuel, rfl⟩ : ∃ n, fuel = n + 1 := ⟨fuel - 1, by omega⟩
    rw [List.mem_cons, not_or] at nonul
    have here : Rest s cur (dquote :: (t ++ ch :: rest)) := here
    rw [scanColumn, here.getD]
    rw [if_neg (by simp +decide), if_neg (by decide), if_neg (by decide), if_pos rfl, if_pos rfl,
      ih nonul.2 here.next (Nat.lt_of_succ_lt_succ enough), List.length_cons]
    congr 2
    omega
  | @quoted c t w notDquote notBackslash next ih =>
    obtain ⟨fuel, rfl⟩ : ∃ n, fuel = n + 1 := ⟨fuel - 1, by omega⟩
    rw [List.mem_cons, not_or] at nonul
    have here : Rest s cur (c :: (t ++ ch :: rest)) := here
    rw [scanColumn, here.getD]
    rw [if_neg (by simp), if_neg (Ne.symm nonul.1), if_neg notBackslash, if_neg notDquote,
      ih nonul.2 here.next (Nat.lt_of_succ_lt_succ enough), List.append_assoc, List.length_cons]
    congr 2
    omega
  | @doubled t w next ih =>
    obtain ⟨fuel, rfl⟩ : ∃ n, fuel = n + 1 := ⟨fuel - 1, by omega⟩
    rw [List.mem_cons, List.mem_cons, not_or, not_or] at nonul
    rw [List.length_cons, List.length_cons] at enough
    have here : Rest s cur (dquote :: dquote :: (t ++ ch :: rest)) := here
    rw [scanColumn, here.getD]
    rw [if_neg (by simp), if_neg (by decide), if_neg (by decide), if_pos rfl, if_neg (by decide), here.next.getD,
      if_pos rfl, ih nonul.2.2 here.next.next (by omega), List.append_assoc, List.length_cons, List.length_cons]
    congr 2
    omega
  | @closeQuotes t w single next ih =>
    obtain ⟨fuel, rfl⟩ : ∃ n, fuel = n + 1 := ⟨fuel - 1, by omega⟩
    rw [List.mem_cons, not_or] at nonul
    have here : Rest s cur (dquote :: (t ++ ch :: rest)) := here
    have notQuote : s.getD (cur + 1) nul ≠ dquote := by
      cases t with
      | nil =>
        rw [(show Rest s (cur + 1) (ch :: rest) from here.next).getD]
        rcases ends with rfl | rfl <;> decide
      | cons c u =>
        rw [(show Rest s (cur + 1) (c :: (u ++ ch :: rest)) from here.next).getD]
        exact fun same => single u (congrArg (· :: u) same)
    rw [scanColumn, here.getD]
    rw [if_neg (by simp), if_neg (by decide), if_neg (by decide), if_pos rfl, if_neg (by decide), if_neg notQuote,
      ih nonul.2 here.next (Nat.lt_of_succ_lt_succ enough), List.length_cons]
    congr 2
    omega

/-- The column that was scanned from `cur` on. -/
structure Scanned (s : Bytes) (inquote : Bool) (cur : Nat) (field : Bytes) (r : Nat × Bytes) : Prop where
  derived : ∃ t w rest ch, ColumnText inquote t w ∧ EndsColumn ch ∧ Rest s cur (t ++ ch :: rest) ∧
    r = (cur + t.length, field ++ w)

/-- The column begins with what was taken in front of it. -/
theorem Scanned.more {inquote inquote' : Bool} {cur : Nat} {field field' : Bytes} {r : Nat × Bytes} (taken bytes : Bytes)
    (later : Scanned s inquote' (cur + taken.length) field' r) (same : field' = field ++ bytes)
    (here : Rest s cur (taken ++ s.drop (cur + taken.length)))
    (longer : ∀ t w ch rest, Rest s (cur + taken.length) (t ++ ch :: rest) → ColumnText inquote' t w →
      ColumnText inquote (taken ++ t) (bytes ++ w)) : Scanned s inquote cur field r := by
  subst same
  obtain ⟨t, w, rest, ch, column, ends, there, rfl⟩ := later
  refine ⟨taken ++ t, bytes ++ w, rest, ch, longer t w ch rest there column, ends, ?_, ?_⟩
  · rw [Rest, here, there, List.append_assoc]
  · rw [List.append_assoc, List.length_append, Nat.add_assoc]

/-- At a quotation mark inside quotes. -/
theorem Scanned.dquote {cur : Nat} {field : Bytes} {r : Nat × Bytes} (here : Rest s cur (dquote :: s.drop (cur + 1)))
    (doubled : s.getD (cur + 1) nul = dquote → Scanned s true (cur + 2) (field ++ [dquote]) r)
    (closed : s.getD (cur + 1) nul ≠ dquote → Scanned s false (cur + 1) field r) : Scanned s true cur field r := by
  by_cases second : s.getD (cur + 1) nul = Ascii.dquote
  · have behind : Rest s (cur + 1) (Ascii.dquote :: s.drop (cur + 2)) := .of_getD second (by decide)
    exact .more [Ascii.dquote, Ascii.dquote] [Ascii.dquote] (doubled second) rfl (here.trans (congrArg _ behind))
      fun _ _ _ _ _ => .doubled
  · refine .more [Ascii.dquote] [] (closed second) (List.append_nil _).symm here fun t w ch rest there => .closeQuotes ?_
    rintro u rfl
    exact second (Rest.getD (show Rest s (cur + 1) (Ascii.dquote :: (u ++ ch :: rest)) from there) nul)

/-- A character that does not end the column and has no meaning of its own. -/
theorem ColumnText.char {inquote : Bool} {ch : UInt8} {t w : Bytes} (ends : ¬(inquote = false ∧ EndsColumn ch))
    (isBackslash : ch ≠ backslash) (isDquote : ch ≠ dquote) (column : ColumnText inquote t w) :
    ColumnText inquote (ch :: t) (ch :: w) := by
  cases inquote with
  | true => exact .quoted isDquote isBackslash column
  | false =>
    rw [not_and] at ends
    have plain := not_or.1 (ends rfl)
    exact .plain ⟨plain.1, plain.2, isDquote, isBackslash⟩ column

/-- Where the loop gets to the end of a column there is a derivation. -/
theorem scanColumn_derives {inquote : Bool} {field : Bytes} {fuel cur : Nat} {r : Nat × Bytes}
    (scanned : scanColumn s fuel cur inquote field = .ok r) : Scanned s inquote cur field r := by
  induction fuel generalizing cur inquote field with
  | zero => cases scanned
  | succ fuel ih =>
    rw [scanColumn] at scanned
    generalize here : s.getD cur nul = ch at scanned
    by_cases ends : inquote = false ∧ (ch = comma ∨ ch = rparen)
    · rw [if_pos ends] at scanned
      cases scanned
      obtain ⟨rfl, ends⟩ := ends
      have notNul : ch ≠ nul := by rcases ends with rfl | rfl <;> decide
      exact ⟨[], [], _, ch, .nil, ends, Rest.of_getD here notNul, by simp⟩
    rw [if_neg ends] at scanned
    by_cases isNul : ch = nul
    · rw [if_pos isNul] at scanned
      cases scanned
    rw [if_neg isNul] at scanned
    have left : Rest s cur (ch :: s.drop (cur + 1)) := .of_getD here isNul
    by_cases isBackslash : ch = backslash
    · subst isBackslash
      rw [if_pos rfl] at scanned
      generalize here' : s.getD (cur + 1) nul = c at scanned
      by_cases atEnd : c = nul
      · rw [if_pos atEnd] at scanned
        cases scanned
      rw [if_neg atEnd] at scanned
      have left' : Rest s (cur + 1) (c :: s.drop (cur + 2)) := .of_getD here' atEnd
      exact .more [backslash, c] [c] (ih scanned) rfl (left.trans (congrArg _ left')) fun _ _ _ _ _ => .pair
    rw [if_neg isBackslash] at scanned
    by_cases isDquote : ch = dquote
    · subst isDquote
      rw [if_pos rfl] at scanned
      cases inquote with
      | false =>
        rw [if_pos rfl] at scanned
        exact .more [dquote] [] (ih scanned) (List.append_nil _).symm left fun _ _ _ _ _ => .openQuotes
      | true =>
        rw [if_neg (by decide)] at scanned
        refine .dquote left (fun doubled => ?_) fun closed => ?_
        · rw [if_pos doubled, doubled] at scanned
          exact ih scanned
        · rw [if_neg closed] at scanned
          exact ih scanned
    · rw [if_neg isDquote] at scanned
      exact .more [ch] [ch] (ih scanned) rfl left fun _ _ _ _ _ => .char ends isBackslash isDquote

/-- Where it does not the input ended, which is an `ArgumentError`. -/
theorem scanColumn_raises {inquote : Bool} {field : Bytes} {fuel cur : Nat} {stop : Stop}
    (raised : scanColumn s fuel cur inquote field = .error stop) (enough : s.length - cur < fuel) :
    ∃ msg, stop = .exn .argumentError msg := by
  induction fuel generalizing cur inquote field with
  | zero => omega
  | succ fuel ih =>
    rw [scanColumn] at raised
    have inside : s.getD cur nul ≠ nul → cur < s.length := fun notNul => (Rest.of_getD rfl notNul).lt
    split at raised
    · cases raised
    split at raised
    · cases raised
      exact ⟨_, rfl⟩
    rename_i notNul
    have here := inside notNul
    split at raised
    · split at raised
      · cases raised
        exact ⟨_, rfl⟩
      · exact ih raised (by omega)
    split at raised
    · split at raised
      · exact ih raised (by omega)
      split at raised
      · exact ih raised (by omega)
      · exact ih raised (by omega)
    · exact ih raised (by omega)

end Scanning

/-- The text of a field and its value. -/
def FieldText (t : Bytes) (v : Value) : Prop := ∃ parts, QuotesApart parts ∧ partsText parts = t ∧ partsValue parts = v

section Fields

variable {s : Bytes}

/-- A column that is not empty starts with neither a comma nor a parenthesis. -/
theorem ColumnText.notEnds {c : UInt8} {t w : Bytes} (column : ColumnText false (c :: t) w) : ¬EndsColumn c := by
  cases column with
  | plain literal next => exact fun ends => ends.elim literal.comma literal.rparen
  | pair next => exact fun ends => by rcases ends with h | h <;> exact absurd h (by decide)
  | openQuotes next => exact fun ends => by rcases ends with h | h <;> exact absurd h (by decide)

/-- The text of a part is not empty. -/
theorem FieldPart.text_ne_nil (part : FieldPart) : part.text ≠ [] := by cases part <;> exact List.cons_ne_nil _ _

/-- A field is empty exactly if its text is. -/
theorem partsText_eq_nil {parts : List FieldPart} : partsText parts = [] ↔ parts = [] := by
  cases parts with
  | nil => exact ⟨fun _ => rfl, fun _ => rfl⟩
  | cons part parts =>
    rw [partsText, List.flatMap_cons, List.append_eq_nil_iff]
    exact ⟨fun both => absurd both.1 part.text_ne_nil, nofun⟩

/-- A field is read up to the comma or parenthesis behind it. -/
theorem recordField_reads {t rest : Bytes} {v : Value} {ch : UInt8} {cur fieldno : Nat} (field : FieldText t v)
    (nonul : nul ∉ t) (here : Rest s cur (t ++ ch :: rest)) (ends : EndsColumn ch) :
    recordField .allStrings s cur fieldno = .ok (cur + t.length, v) := by
  obtain ⟨parts, apart, rfl, rfl⟩ := field
  cases parts with
  | nil =>
    have here : Rest s cur (ch :: rest) := here
    rw [recordField, here.getD]
    exact if_pos ends
  | cons part parts =>
    have column := columnText_parts apart
    obtain ⟨c, t, text⟩ := List.exists_cons_of_ne_nil (mt partsText_eq_nil.1 (List.cons_ne_nil part parts))
    rw [text] at column nonul here ⊢
    have first : Rest s cur (c :: (t ++ ch :: rest)) := here
    have scanned : scanColumn s (s.length + 1) cur false [] = .ok (cur + (c :: t).length, _) :=
      scanColumn_reads column nonul here ends (by
        have short := here.length_le
        simp only [List.length_append, List.length_cons] at short ⊢
        omega)
    have starts : ¬(c = comma ∨ c = rparen) := column.notEnds
    rw [recordField, first.getD, if_neg starts, scanned]
    rfl

/-- A field that was read has a text. -/
theorem recordField_derives {cur fieldno : Nat} {r : Nat × Value} (read : recordField .allStrings s cur fieldno = .ok r) :
    ∃ t v ch rest, FieldText t v ∧ EndsColumn ch ∧ Rest s cur (t ++ ch :: rest) ∧ r = (cur + t.length, v) := by
  unfold recordField at read
  by_cases empty : s.getD cur nul = comma ∨ s.getD cur nul = rparen
  · rw [if_pos empty] at read
    cases read
    have notNul : s.getD cur nul ≠ nul := by
      intro isNul
      rw [isNul] at empty
      exact absurd empty (by decide)
    exact ⟨[], .nil, _, _, ⟨[], .nil, rfl, rfl⟩, empty, Rest.of_getD rfl notNul, rfl⟩
  · rw [if_neg empty] at read
    obtain ⟨⟨cur', field⟩, scanned, same⟩ := Outcome.of_bind read
    cases same
    obtain ⟨t, w, rest, ch, column, ends, here, same⟩ := (scanColumn_derives scanned).derived
    cases same
    obtain ⟨parts, apart, rfl, rfl⟩ := column.splits
    refine ⟨partsText parts, .str (parts.flatMap FieldPart.bytes), ch, rest, ⟨parts, apart, rfl, ?_⟩, ends, here, rfl⟩
    cases parts with
    | nil =>
      have here : Rest s cur (ch :: rest) := here
      rw [here.getD] at empty
      exact absurd ends empty
    | cons part parts => rfl

/-- A field that cannot be read is an `ArgumentError`. -/
theorem recordField_raises {cur fieldno : Nat} {stop : Stop} (raised : recordField .allStrings s cur fieldno = .error stop) :
    ∃ msg, stop = .exn .argumentError msg := by
  unfold recordField at raised
  split at raised
  · cases raised
  · rcases Outcome.error_of_bind raised with first | ⟨r, -, second⟩
    · exact scanColumn_raises first (by omega)
    · cases second

/-- Fields up to the closing parenthesis are read. -/
theorem recordFields_reads {body rest : Bytes} {vs : List Value} (joined : Joined FieldText body vs) :
    ∀ {fuel cur fieldno : Nat} {array : List Value}, nul ∉ body → Rest s cur (body ++ rparen :: rest) → body.length < fuel →
      recordFields .allStrings s fuel cur fieldno array = .ok (cur + body.length + 1, array ++ vs) := by
  induction joined with
  | @single text v last =>
    intro fuel cur fieldno array nonul here enough
    obtain ⟨fuel, rfl⟩ : ∃ n, fuel = n + 1 := ⟨fuel - 1, by omega⟩
    have closing : Rest s (cur + text.length) (rparen :: rest) := here.skip
    rw [recordFields, recordField_reads last nonul here (.inr rfl)]
    show (if s.getD (cur + text.length) nul = comma then _ else _) = _
    rw [closing.getD, if_neg (by decide), if_pos rfl]
    rfl
  | @cons text body v vs first following ih =>
    intro fuel cur fieldno array nonul here enough
    obtain ⟨fuel, rfl⟩ : ∃ n, fuel = n + 1 := ⟨fuel - 1, by omega⟩
    rw [List.length_append, List.length_cons] at enough
    have nonul' : nul ∉ text ∧ nul ∉ body := by
      constructor
      · exact fun member => nonul (List.mem_append_left _ member)
      · exact fun member => nonul (List.mem_append_right _ (List.mem_cons_of_mem _ member))
    have here : Rest s cur (text ++ comma :: (body ++ rparen :: rest)) := by simpa using here
    have behind : Rest s (cur + text.length) (comma :: (body ++ rparen :: rest)) := here.skip
    rw [recordFields, recordField_reads first nonul'.1 here (.inl rfl)]
    show (if s.getD (cur + text.length) nul = comma then _ else _) = _
    rw [behind.getD, if_pos rfl, ih nonul'.2 behind.next (by omega), List.append_assoc, List.length_append, List.length_cons]
    show Except.ok (cur + text.length + 1 + body.length + 1, array ++ v :: vs) = _
    congr 2
    omega

/-- Fields that were read have texts. -/
theorem recordFields_derives {fuel cur fieldno : Nat} {array : List Value} {r : Nat × List Value}
    (read : recordFields .allStrings s fuel cur fieldno array = .ok r) :
    ∃ body vs rest, Joined FieldText body vs ∧ Rest s cur (body ++ rparen :: rest) ∧
      r = (cur + body.length + 1, array ++ vs) := by
  induction fuel generalizing cur fieldno array with
  | zero => cases read
  | succ fuel ih =>
    rw [recordFields] at read
    obtain ⟨x, first, read⟩ := Outcome.of_bind read
    obtain ⟨t, v, ch, rest, field, ends, here, rfl⟩ := recordField_derives first
    have behind : Rest s (cur + t.length) (ch :: rest) := here.skip
    dsimp only at read
    rw [behind.getD] at read
    by_cases isComma : ch = comma
    · subst isComma
      rw [if_pos rfl] at read
      obtain ⟨body, vs, rest', joined, there, rfl⟩ := ih read
      refine ⟨t ++ comma :: body, v :: vs, rest', .cons field joined, ?_, ?_⟩
      · rw [Rest, here, List.append_assoc, ← behind.next, there]
        rfl
      · rw [List.append_assoc, List.length_append, List.length_cons]
        congr 1
        omega
    · obtain rfl : ch = rparen := ends.resolve_left isComma
      rw [if_neg isComma, if_pos rfl] at read
      cases read
      exact ⟨t, [v], rest, .single field, here, rfl⟩

/-- Fields that cannot be read are an `ArgumentError`. -/
theorem recordFields_raises {fuel cur fieldno : Nat} {array : List Value} {stop : Stop}
    (raised : recordFields .allStrings s fuel cur fieldno array = .error stop) (enough : s.length - cur < fuel) :
    ∃ msg, stop = .exn .argumentError msg := by
  induction fuel generalizing cur fieldno array with
  | zero => omega
  | succ fuel ih =>
    rw [recordFields] at raised
    rcases Outcome.error_of_bind raised with first | ⟨x, first, raised⟩
    · exact recordField_raises first
    obtain ⟨t, v, ch, rest, field, ends, here, rfl⟩ := recordField_derives first
    have behind : Rest s (cur + t.length) (ch :: rest) := here.skip
    have inside := behind.lt
    dsimp only at raised
    split at raised
    · exact ih raised (by omega)
    split at raised
    · cases raised
    · cases raised
      exact ⟨_, rfl⟩

end Fields

section Records

variable {s : Bytes}

/-- A record literal as the decoder takes it apart. -/
structure TakenApart (s : Bytes) (vs : List Value) : Prop where
  parts : ∃ leads body ends, (∀ c ∈ leads, recordIsspace c = true) ∧ Joined FieldText body vs ∧
    (∀ c ∈ ends, recordIsspace c = true) ∧ s = leads ++ lparen :: (body ++ rparen :: ends)

/-- What is taken apart is returned. -/
theorem TakenApart.decodes {vs : List Value} (taken : TakenApart s vs) (nonul : nul ∉ s) :
    pgTextDecRecord .allStrings s = .ok (.ary vs) := by
  obtain ⟨leads, body, ends, blankLeads, joined, blankEnds, whole⟩ := taken.parts
  have start : Rest s 0 (leads ++ lparen :: (body ++ rparen :: ends)) := whole
  have stops : skipWhile recordIsspace s 0 = 0 + leads.length :=
    start.skipWhile_eq blankLeads fun d v same => (List.cons.inj same).1 ▸ rfl
  have opening : Rest s (0 + leads.length) (lparen :: (body ++ rparen :: ends)) := start.skip
  have nonul' : nul ∉ body := fun member => nonul (by
    rw [whole]
    exact List.mem_append_right _ (List.mem_cons_of_mem _ (List.mem_append_left _ member)))
  have closing : Rest s (0 + leads.length + 1 + body.length) (rparen :: ends) := opening.next.skip
  have read : recordFields .allStrings s (s.length + 1) (0 + leads.length + 1) 0 [] =
      .ok (0 + leads.length + 1 + body.length + 1, [] ++ vs) := by
    apply recordFields_reads joined nonul' opening.next
    have short := opening.next.length_le
    rw [List.length_append] at short
    omega
  have left : Rest s (0 + leads.length + 1 + body.length + 1) (ends ++ []) := by
    rw [List.append_nil]
    exact closing.next
  have atEnd : s.getD (skipWhile recordIsspace s (0 + leads.length + 1 + body.length + 1)) nul = nul := by
    rw [left.skipWhile_eq blankEnds nofun]
    exact List.getD_eq_default _ _ (List.drop_eq_nil_iff.1 left.skip)
  unfold pgTextDecRecord
  simp only [stops, opening.getD, ne_eq, not_true_eq_false, if_false, read, bind, Except.bind, atEnd, List.nil_append]
  rfl

/-- What is returned was taken apart. -/
theorem takenApart_of_decodes {v : Value} (nonul : nul ∉ s) (decoded : pgTextDecRecord .allStrings s = .ok v) :
    ∃ vs, v = .ary vs ∧ TakenApart s vs := by
  unfold pgTextDecRecord at decoded
  dsimp only at decoded
  by_cases opened : s.getD (skipWhile recordIsspace s 0) nul = lparen
  · rw [if_neg (not_not.2 opened)] at decoded
    obtain ⟨r, read, decoded⟩ := Outcome.of_bind decoded
    obtain ⟨body, vs, rest, joined, here, rfl⟩ := recordFields_derives read
    dsimp only at decoded
    have closing : Rest s (skipWhile recordIsspace s 0 + 1 + body.length) (rparen :: rest) := here.skip
    split at decoded
    · cases decoded
    rename_i atEnd
    cases decoded
    refine ⟨vs, rfl, s.takeWhile recordIsspace, body, rest, fun c member => List.mem_takeWhile_imp member, joined, ?_, ?_⟩
    · have skipped := drop_skipWhile recordIsspace s (skipWhile recordIsspace s 0 + 1 + body.length + 1)
      rw [closing.next] at skipped
      have nothing : s.drop (skipWhile recordIsspace s (skipWhile recordIsspace s 0 + 1 + body.length + 1)) = [] := by
        apply List.drop_eq_nil_of_le
        by_contra inside
        have member : s.getD (skipWhile recordIsspace s (skipWhile recordIsspace s 0 + 1 + body.length + 1)) nul ∈ s := by
          rw [List.getD_eq_getElem _ _ (by omega)]
          exact List.getElem_mem _
        rw [not_not.1 atEnd] at member
        exact nonul member
      rw [nothing, List.append_nil] at skipped
      rw [skipped]
      exact fun c member => List.mem_takeWhile_imp member
    · have left := Rest.of_getD opened (by decide)
      have split := drop_skipWhile recordIsspace s 0
      rw [List.drop_zero] at split
      rw [left, here] at split
      exact split
  · rw [if_pos opened] at decoded
    cases decoded

/-- All that the decoder raises are `ArgumentError`s. -/
theorem pgTextDecRecord_raises {stop : Stop} (raised : pgTextDecRecord .allStrings s = .error stop) :
    ∃ msg, stop = .exn .argumentError msg := by
  unfold pgTextDecRecord at raised
  dsimp only at raised
  split at raised
  · cases raised
    exact ⟨_, rfl⟩
  rcases Outcome.error_of_bind raised with first | ⟨r, -, raised⟩
  · exact recordFields_raises first (by omega)
  split at raised
  · cases raised
    exact ⟨_, rfl⟩
  · cases raised

/-- A literal whose quoted parts stand apart is taken apart. -/
theorem RecordLiteral.takenApart {record : RecordLiteral} (apart : record.QuotesApart) :
    TakenApart record.text (record.fields.map partsValue) := by
  have joined := @joined_intercalate FieldText (record.fields.map fun parts => (partsText parts, partsValue parts))
    (by simpa using record.some) (by
      intro e member
      obtain ⟨parts, mem, rfl⟩ := List.mem_map.1 member
      exact ⟨parts, apart parts mem, rfl, rfl⟩)
  rw [List.map_map, List.map_map] at joined
  exact ⟨record.leads, _, record.ends, record.blankLeads, joined, record.blankEnds, rfl⟩

/-- What is taken apart is a literal. -/
theorem TakenApart.literal {vs : List Value} (taken : TakenApart s vs) :
    ∃ record : RecordLiteral, record.text = s ∧ record.QuotesApart ∧ record.value = .ary vs := by
  obtain ⟨leads, body, ends, blankLeads, joined, blankEnds, rfl⟩ := taken.parts
  obtain ⟨elements, holds, some, rfl, rfl⟩ := joined.elements
  choose! parts apart text value using holds
  refine ⟨⟨leads, elements.map parts, ends, blankLeads, by simpa using some, blankEnds⟩, ?_, ?_, ?_⟩
  · have same : (elements.map parts).map partsText = elements.map Prod.fst := by
      rw [List.map_map]
      exact List.map_congr_left text
    rw [RecordLiteral.text, same]
  · intro fields member
    obtain ⟨e, mem, rfl⟩ := List.mem_map.1 member
    exact apart e mem
  · have same : (elements.map parts).map partsValue = elements.map Prod.snd := by
      rw [List.map_map]
      exact List.map_congr_left value
    rw [RecordLiteral.value, same]

/-- The text of a literal is that of one whose quoted parts stand apart. -/
theorem RecordLiteral.exists_apart (record : RecordLiteral) : ∃ record' : RecordLiteral, record'.text = record.text ∧ record'.QuotesApart := by
  choose parts apart text using Text.exists_apart
  refine ⟨{ record with fields := record.fields.map parts, some := by simpa using record.some }, ?_, ?_⟩
  · have same : (record.fields.map parts).map partsText = record.fields.map partsText := by
      rw [List.map_map]
      exact List.map_congr_left fun fields _ => text fields
    rw [RecordLiteral.text, RecordLiteral.text, same]
  · intro fields member
    obtain ⟨e, -, rfl⟩ := List.mem_map.1 member
    exact apart e

/-- **The record decoder accepts composite literals and nothing else**, as the source runs it, on its reused
buffer and with every read checked: it returns the values of a literal, an array for every literal, and raises an
`ArgumentError` for every other string. -/
theorem record_accepts_literals (s : Bytes) (nonul : nul ∉ s) :
    (∀ record : RecordLiteral, record.text = s → record.QuotesApart →
      Buffered.pgTextDecRecord .allStrings s = .ok record.value) ∧
    ((∃ array, Buffered.pgTextDecRecord .allStrings s = .ok (.ary array)) ↔ ∃ record : RecordLiteral, record.text = s) ∧
    ((∃ msg, Buffered.pgTextDecRecord .allStrings s = .error (.exn .argumentError msg)) ↔
      ∀ record : RecordLiteral, record.text ≠ s) := by
  rw [Buffered.pgTextDecRecord_eq, ObjectMap.values_allStrings]
  have accepts : ∀ record : RecordLiteral, record.text = s → record.QuotesApart →
      pgTextDecRecord .allStrings s = .ok record.value := by
    rintro record rfl apart
    exact (record.takenApart apart).decodes nonul
  have accepted : (∃ array, pgTextDecRecord .allStrings s = .ok (.ary array)) ↔ ∃ record : RecordLiteral, record.text = s := by
    constructor
    · rintro ⟨array, decoded⟩
      obtain ⟨vs, -, taken⟩ := takenApart_of_decodes nonul decoded
      obtain ⟨record, text, -, -⟩ := taken.literal
      exact ⟨record, text⟩
    · rintro ⟨record, text⟩
      obtain ⟨record', same, apart⟩ := record.exists_apart
      exact ⟨_, accepts record' (same.trans text) apart⟩
  refine ⟨accepts, accepted, ?_, ?_⟩
  · rintro ⟨msg, raised⟩ record text
    obtain ⟨array, decoded⟩ := accepted.2 ⟨record, text⟩
    rw [raised] at decoded
    cases decoded
  · intro none
    cases decoded : pgTextDecRecord .allStrings s with
    | error stop =>
      obtain ⟨msg, rfl⟩ := pgTextDecRecord_raises decoded
      exact ⟨msg, rfl⟩
    | ok v =>
      obtain ⟨vs, rfl, taken⟩ := takenApart_of_decodes nonul decoded
      obtain ⟨record, text, -, -⟩ := taken.literal
      exact absurd text (none record)

/-- A field that is `nil`, and one of a plain character, a quoted comma and a doubled quote. -/
theorem record_accepts_literals_sample :
    ∃ array, Buffered.pgTextDecRecord .allStrings
      [space, lparen, comma, 0x61, dquote, comma, dquote, dquote, dquote, rparen] = .ok (.ary array) := by
  refine (record_accepts_literals _ (by decide)).2.1.2 ⟨⟨[space],
    [[], [.plain 0x61 ⟨by decide, by decide, by decide, by decide⟩, .quoted [.plain comma (by decide) (by decide), .doubled]]],
    [], List.all_eq_true.1 (by decide), by decide, List.forall_mem_nil _⟩, by rfl⟩

end Records

end RubyPg.Text
