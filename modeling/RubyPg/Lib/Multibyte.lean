import Mathlib.Data.List.Forall2
import Mathlib.InformationTheory.Coding.UniquelyDecodable
import RubyPg.Lib.Scan

/-!
# Escaping a text of multibyte characters

An encoding is a set of characters, each a word of bytes, and a text is read by cutting it
into characters. `PrefixFree.uniquelyDecodable` says that there is one way to cut it when no
character begins another.

An escaping that goes by bytes (`markEsc`) looks for special bytes inside the characters too;
one that goes by characters (`charEsc`) marks whole special characters only.
`respects_iff` compares them over an output that is put together from escaped strings and
other characters: they agree, and the output is read back, iff no character of more than one
byte has a special byte in any of the strings.
-/

namespace RubyPg
set_option autoImplicit false
open InformationTheory

variable {α β : Type}

/-- No character is empty or begins another. -/
structure PrefixFree (code : Set (List α)) : Prop where
  nonempty : [] ∉ code
  apart : ∀ c ∈ code, ∀ d ∈ code, c <+: d → c = d

/-- Two texts that agree begin with the same character. -/
theorem PrefixFree.head_eq {code : Set (List α)} {c d s t : List α} (free : PrefixFree code) (hc : c ∈ code)
    (hd : d ∈ code) (same : c ++ s = d ++ t) : c = d := by
  have left : c <+: c ++ s := List.prefix_append c s
  have right : d <+: c ++ s := same ▸ List.prefix_append d t
  rcases List.prefix_or_prefix_of_prefix left right with first | second
  · exact free.apart c hc d hd first
  · exact (free.apart d hd c hc second).symm

theorem PrefixFree.uniquelyDecodable {code : Set (List α)} (free : PrefixFree code) : UniquelyDecodable code := by
  intro xs
  induction xs with
  | nil =>
    intro ys _ hy same
    cases ys with
    | nil => rfl
    | cons d ys =>
      obtain ⟨rfl, -⟩ := List.append_eq_nil_iff.1 same.symm
      exact absurd (hy [] List.mem_cons_self) free.nonempty
  | cons c xs ih =>
    intro ys hx hy same
    cases ys with
    | nil =>
      obtain ⟨rfl, -⟩ := List.append_eq_nil_iff.1 same
      exact absurd (hx [] List.mem_cons_self) free.nonempty
    | cons d ys =>
      have first : c = d := free.head_eq (hx c List.mem_cons_self) (hy d List.mem_cons_self) same
      subst first
      have rest : xs.flatten = ys.flatten := List.append_cancel_left same
      rw [ih ys (fun w hw => hx w (List.mem_cons_of_mem _ hw)) (fun w hw => hy w (List.mem_cons_of_mem _ hw)) rest]

/-- `chars` are the characters of the text `s`. -/
structure Spells (code : Set (List α)) (chars : List (List α)) (s : List α) : Prop where
  coded : ∀ c ∈ chars, c ∈ code
  spelled : chars.flatten = s

/-- A text that can be cut into characters. -/
def ValidIn (code : Set (List α)) (s : List α) : Prop := ∃ chars, Spells code chars s

theorem Spells.unique {code : Set (List α)} {xs ys : List (List α)} {s : List α} (free : PrefixFree code)
    (hx : Spells code xs s) (hy : Spells code ys s) : xs = ys :=
  free.uniquelyDecodable xs ys hx.coded hy.coded (hx.spelled.trans hy.spelled.symm)

/-- `f` writes a good entry as `g` does and anything else longer. -/
structure Outwrites (f g : β → List α) (good : β → Prop) : Prop where
  same : ∀ x, good x → f x = g x
  longer : ∀ x, ¬good x → (g x).length < (f x).length

section Outwrites

variable {f g : β → List α} {good : β → Prop}

theorem Outwrites.eq_iff (writes : Outwrites f g good) (x : β) : f x = g x ↔ good x := by
  constructor
  · intro agree
    by_contra h
    have := writes.longer x h
    rw [agree] at this
    omega
  · exact writes.same x

theorem Outwrites.length_le (writes : Outwrites f g good) (x : β) : (g x).length ≤ (f x).length := by
  by_cases h : good x
  · rw [writes.same x h]
  · exact (writes.longer x h).le

theorem Outwrites.length_flatMap_le (writes : Outwrites f g good) (xs : List β) :
    (xs.flatMap g).length ≤ (xs.flatMap f).length := by
  induction xs with
  | nil => simp
  | cons x xs ih =>
    have := writes.length_le x
    simp only [List.flatMap_cons, List.length_append]
    omega

/-- One entry that is not good makes the whole list longer. -/
theorem Outwrites.flatMap (writes : Outwrites f g good) :
    Outwrites (fun xs => List.flatMap f xs) (fun xs => List.flatMap g xs) fun xs => ∀ x ∈ xs, good x := by
  constructor
  · intro xs all
    induction xs with
    | nil => rfl
    | cons x xs ih =>
      rw [List.forall_mem_cons] at all
      simp only [List.flatMap_cons] at ih ⊢
      rw [writes.same x all.1, ih all.2]
  · intro xs bad
    induction xs with
    | nil => simp at bad
    | cons x xs ih =>
      have here := writes.length_le x
      have rest := writes.length_flatMap_le xs
      simp only [List.flatMap_cons, List.length_append] at ih ⊢
      by_cases h : good x
      · have := ih fun all => bad (List.forall_mem_cons.2 ⟨h, all⟩)
        omega
      · have := writes.longer x h
        omega

end Outwrites

section Escape

variable (special : α → Bool) (mark : α → α)

/-- What an escaping by whole characters writes for one of them. -/
def charEsc : List α → List (List α)
  | [b] => if special b then [[mark b], [b]] else [[b]]
  | c => [c]

/-- A character that is one byte or has no special one. -/
def Whole (c : List α) : Prop := c.length ≠ 1 → ∀ b ∈ c, special b = false

instance (c : List α) : Decidable (Whole special c) :=
  inferInstanceAs (Decidable (c.length ≠ 1 → ∀ b ∈ c, special b = false))

variable {special mark}

/-- A character of no byte or several is written as it is. -/
theorem charEsc_of_length {c : List α} (long : c.length ≠ 1) : charEsc special mark c = [c] := by
  match c, long with
  | [], _ => rfl
  | [_], long => exact absurd rfl long
  | _ :: _ :: _, _ => rfl

theorem flatten_charEsc_singleton (b : α) : (charEsc special mark [b]).flatten = markEsc special mark b := by
  rw [charEsc, markEsc]
  split <;> rfl

/-- By bytes and by characters a whole character is escaped alike. -/
theorem Whole.escaped {c : List α} (whole : Whole special c) :
    c.flatMap (markEsc special mark) = (charEsc special mark c).flatten := by
  by_cases single : c.length = 1
  · obtain ⟨b, rfl⟩ := List.length_eq_one_iff.1 single
    rw [flatten_charEsc_singleton, List.flatMap_singleton]
  · rw [charEsc_of_length single, flatMap_markEsc_plain, List.flatten_singleton]
    rw [List.countP_eq_zero]
    intro b hb
    simp [whole single b hb]

/-- In any other character the byte-wise escaping puts a mark. -/
theorem length_charEsc_lt {c : List α} (broken : ¬Whole special c) :
    (charEsc special mark c).flatten.length < (c.flatMap (markEsc special mark)).length := by
  simp only [Whole, Classical.not_imp, not_forall, Bool.not_eq_false] at broken
  obtain ⟨long, b, hb, isSpecial⟩ := broken
  have marked : 0 < c.countP special := List.countP_pos_iff.2 ⟨b, hb, isSpecial⟩
  rw [charEsc_of_length long, List.flatten_singleton, length_flatMap_markEsc]
  omega

/-- Read a text character by character: behind a mark the next character stands for itself. -/
def unescape (isMark : α → Bool) : Bool → List (List α) → List (List α)
  | _, [] => []
  | true, c :: rest => c :: unescape isMark false rest
  | false, [b] :: rest => if isMark b then unescape isMark true rest else [b] :: unescape isMark false rest
  | false, c :: rest => c :: unescape isMark false rest

/-- Marks that the reader knows, none of which is left bare by the escaping. -/
structure Marks (special isMark : α → Bool) (mark : α → α) : Prop where
  known : ∀ b, special b = true → isMark (mark b) = true
  escaped : ∀ b, isMark b = true → special b = true

/-- One character is read back. -/
theorem unescape_charEsc {isMark : α → Bool} (marks : Marks special isMark mark) (c : List α) (rest : List (List α)) :
    unescape isMark false (charEsc special mark c ++ rest) = c :: unescape isMark false rest := by
  by_cases single : c.length = 1
  · obtain ⟨b, rfl⟩ := List.length_eq_one_iff.1 single
    by_cases isSpecial : special b = true
    · rw [charEsc, if_pos isSpecial]
      simp [unescape, marks.known b isSpecial]
    · have bare : isMark b = false := by
        by_contra h
        exact isSpecial (marks.escaped b (by simpa using h))
      rw [charEsc, if_neg isSpecial]
      simp [unescape, bare]
  · rw [charEsc_of_length single]
    match c, single with
    | [], _ => rfl
    | [_], long => exact absurd rfl long
    | _ :: _ :: _, _ => rfl

/-- What is escaped by characters is read back by characters. -/
theorem unescape_flatMap_charEsc {isMark : α → Bool} (marks : Marks special isMark mark) (chars : List (List α)) :
    unescape isMark false (chars.flatMap (charEsc special mark)) = chars := by
  induction chars with
  | nil => rfl
  | cons c chars ih => rw [List.flatMap_cons, unescape_charEsc marks, ih]

end Escape

/-- A stretch of an output, by its characters: some that are written as they are, or a string
that is escaped. -/
inductive Piece (α : Type) where
  | raw (chars : List (List α))
  | text (chars : List (List α))

namespace Piece

variable (special : α → Bool) (mark : α → α)

/-- The characters it stands for. -/
def content : Piece α → List (List α)
  | raw chars => chars
  | text chars => chars

/-- They are characters of the encoding. -/
def Coded (code : Set (List α)) (p : Piece α) : Prop := ∀ c ∈ p.content, c ∈ code

/-- The piece as a byte-wise escaping writes it. -/
def bytes : Piece α → List α
  | raw chars => chars.flatten
  | text chars => chars.flatten.flatMap (markEsc special mark)

/-- The piece as an escaping by characters writes it. -/
def chars : Piece α → List (List α)
  | raw chars => chars
  | text chars => chars.flatMap (charEsc special mark)

/-- A string is whole if all its characters are. -/
def AllWhole : Piece α → Prop
  | raw _ => True
  | text chars => ∀ c ∈ chars, Whole special c

/-- What a reader that goes by characters makes of the part of the output that is this piece. -/
def Reads (isMark : α → Bool) : Piece α → List (List α) → Prop
  | raw chars, part => part = chars
  | text chars, part => unescape isMark false part = chars

end Piece

/-- An output respects the characters of an encoding: marks stand in front of whole special
characters only, it can be cut into characters, and from these a reader gets back every piece. -/
structure Respects (code : Set (List α)) (special : α → Bool) (mark : α → α) (isMark : α → Bool)
    (pieces : List (Piece α)) (out : List α) : Prop where
  placed : out = (pieces.flatMap (Piece.chars special mark)).flatten
  valid : ValidIn code out
  back : ∀ chars, Spells code chars out →
    ∃ parts : List (List (List α)), parts.flatten = chars ∧ List.Forall₂ (Piece.Reads isMark) pieces parts

section Pieces

variable {code : Set (List α)} {special isMark : α → Bool} {mark : α → α}

theorem flatten_flatMap (xs : List β) (f : β → List (List α)) :
    (xs.flatMap f).flatten = xs.flatMap fun x => (f x).flatten := by
  rw [← List.flatMap_id, List.flatMap_assoc]
  simp only [List.flatMap_id]

/-- A string is written alike by bytes and by characters iff it is whole. -/
theorem outwrites_text : Outwrites (fun chars : List (List α) => chars.flatten.flatMap (markEsc special mark))
    (fun chars => (chars.flatMap (charEsc special mark)).flatten) fun chars => ∀ c ∈ chars, Whole special c := by
  have chars : Outwrites (fun c : List α => c.flatMap (markEsc special mark))
      (fun c => (charEsc special mark c).flatten) (Whole special) :=
    ⟨fun c whole => whole.escaped, fun c broken => length_charEsc_lt broken⟩
  have byBytes : ∀ chars : List (List α), chars.flatten.flatMap (markEsc special mark) =
      chars.flatMap fun c => c.flatMap (markEsc special mark) := by
    intro chars
    rw [← List.flatMap_id, List.flatMap_assoc]
    rfl
  simp only [byBytes, flatten_flatMap]
  exact chars.flatMap

/-- So is a whole output. -/
theorem bytes_eq_chars_iff (pieces : List (Piece α)) :
    pieces.flatMap (Piece.bytes special mark) = (pieces.flatMap (Piece.chars special mark)).flatten ↔
      ∀ p ∈ pieces, p.AllWhole special := by
  have one : Outwrites (Piece.bytes special mark) (fun p => (p.chars special mark).flatten) (Piece.AllWhole special) := by
    constructor
    · intro p whole
      cases p with
      | raw chars => rfl
      | text chars => exact outwrites_text.same chars whole
    · intro p broken
      cases p with
      | raw chars => exact absurd trivial broken
      | text chars => exact outwrites_text.longer chars broken
  rw [flatten_flatMap]
  exact one.flatMap.eq_iff pieces

/-- An escaping by characters writes characters. -/
theorem coded_charEsc (marked : ∀ b, special b = true → [mark b] ∈ code) {c : List α} (coded : c ∈ code) :
    ∀ d ∈ charEsc special mark c, d ∈ code := by
  by_cases single : c.length = 1
  · obtain ⟨b, rfl⟩ := List.length_eq_one_iff.1 single
    rw [charEsc]
    split
    · rename_i isSpecial
      simpa using ⟨marked b isSpecial, coded⟩
    · simpa using coded
  · rw [charEsc_of_length single]
    simpa using coded

theorem Piece.coded_chars (marked : ∀ b, special b = true → [mark b] ∈ code) {p : Piece α}
    (coded : p.Coded code) : ∀ d ∈ p.chars special mark, d ∈ code := by
  cases p with
  | raw chars => exact coded
  | text chars =>
    intro d hd
    obtain ⟨c, hc, hd⟩ := List.mem_flatMap.1 hd
    exact coded_charEsc marked (coded c hc) d hd

/-- The characters of an escaped piece are read as the piece. -/
theorem Piece.reads_chars (marks : Marks special isMark mark) (p : Piece α) : p.Reads isMark (p.chars special mark) := by
  cases p with
  | raw chars => rfl
  | text chars => exact unescape_flatMap_charEsc marks chars

/-- The byte-wise output respects the characters iff no string of it has a character of several
bytes with a special one among them. -/
theorem respects_iff (free : PrefixFree code) (marks : Marks special isMark mark)
    (marked : ∀ b, special b = true → [mark b] ∈ code) {pieces : List (Piece α)}
    (coded : ∀ p ∈ pieces, p.Coded code) :
    Respects code special mark isMark pieces (pieces.flatMap (Piece.bytes special mark)) ↔
      ∀ p ∈ pieces, p.AllWhole special := by
  rw [← bytes_eq_chars_iff]
  constructor
  · exact Respects.placed
  · intro placed
    have spells : Spells code (pieces.flatMap (Piece.chars special mark)) (pieces.flatMap (Piece.bytes special mark)) := by
      constructor
      · intro d hd
        obtain ⟨p, hp, hd⟩ := List.mem_flatMap.1 hd
        exact Piece.coded_chars marked (coded p hp) d hd
      · exact placed.symm
    refine ⟨placed, ⟨_, spells⟩, ?_⟩
    intro chars spelled
    refine ⟨pieces.map (Piece.chars special mark), ?_, ?_⟩
    · exact spells.unique free spelled
    · rw [List.forall₂_map_right_iff, List.forall₂_same]
      exact fun p _ => p.reads_chars marks

end Pieces

end RubyPg
