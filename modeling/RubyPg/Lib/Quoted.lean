import Mathlib.Data.List.Basic

/-!
# Reading a quoted text

A reader takes what stands in front of the closing quote, where a mark makes the next byte literal (`readQuoted`).
`readQuoted_written_iff` says of a text in which some of the special bytes are marked: it is read back iff all are.
One that is not throws the reader off by a byte, and it never comes back into step (`Lags`).
-/

namespace RubyPg
set_option autoImplicit false

variable {α : Type}

/-- A text with a mark in front of some of its bytes. -/
def markedText (mark : α) (w : List (α × Bool)) : List α := w.flatMap fun p => if p.2 then [mark, p.1] else [p.1]

section Written

variable {mark : α}

@[simp] theorem markedText_nil : markedText mark [] = [] := rfl

@[simp] theorem markedText_marked (b : α) (w : List (α × Bool)) : markedText mark ((b, true) :: w) = mark :: b :: markedText mark w := rfl

@[simp] theorem markedText_bare (b : α) (w : List (α × Bool)) : markedText mark ((b, false) :: w) = b :: markedText mark w := rfl

end Written

/-- A byte that ends the text or makes the next one literal. -/
def Special (mark close b : α) : Prop := b = mark ∨ b = close

/-- Only special bytes are marked, or all of them. -/
def MarksSpecial (mark close : α) (w : List (α × Bool)) : Prop := ∀ p ∈ w, p.2 = true → Special mark close p.1

def AllMarked (mark close : α) (w : List (α × Bool)) : Prop := ∀ p ∈ w, Special mark close p.1 → p.2 = true

theorem AllMarked.tail {mark close : α} {p : α × Bool} {w : List (α × Bool)} (all : AllMarked mark close (p :: w)) : AllMarked mark close w :=
  fun q member => all q (List.mem_cons_of_mem _ member)

theorem MarksSpecial.tail {mark close : α} {p : α × Bool} {w : List (α × Bool)} (sound : MarksSpecial mark close (p :: w)) :
    MarksSpecial mark close w :=
  fun q member => sound q (List.mem_cons_of_mem _ member)

theorem replicate_cons (mark : α) (k : Nat) (v : List α) : List.replicate k mark ++ mark :: v = List.replicate (k + 1) mark ++ v := by
  rw [List.replicate_succ', List.append_assoc, List.singleton_append]

/-- The text in front of the closing quote, and what stands behind it. The first byte may be literal. -/
def readQuoted [DecidableEq α] (mark close : α) : Bool → List α → Option (List α × List α)
  | _, [] => none
  | true, c :: rest => (readQuoted mark close false rest).map (Prod.map (c :: ·) id)
  | false, c :: rest =>
    if c = mark then readQuoted mark close true rest
    else if c = close then some ([], rest)
    else (readQuoted mark close false rest).map (Prod.map (c :: ·) id)

/-- What is read, with a function of the part in front. -/
theorem map_read_eq_some {β γ δ : Type} {f : β → γ} {read : Option (β × δ)} {v : γ} {rest : δ} :
    read.map (Prod.map f id) = some (v, rest) ↔ ∃ v', v = f v' ∧ read = some (v', rest) := by
  cases read with
  | none => simp
  | some r =>
    obtain ⟨value, behind⟩ := r
    simp only [Option.map_some, Prod.map_apply, id_eq, Option.some.injEq, Prod.mk.injEq]
    constructor
    · rintro ⟨rfl, rfl⟩
      exact ⟨value, rfl, rfl, rfl⟩
    · rintro ⟨v', rfl, rfl, rfl⟩
      exact ⟨rfl, rfl⟩

section Reader

variable [DecidableEq α] {mark close : α} {rest : List α}

theorem readQuoted_literal (c : α) :
    readQuoted mark close true (c :: rest) = (readQuoted mark close false rest).map (Prod.map (c :: ·) id) := rfl

theorem readQuoted_mark : readQuoted mark close false (mark :: rest) = readQuoted mark close true rest := if_pos rfl

theorem readQuoted_close (apart : close ≠ mark) : readQuoted mark close false (close :: rest) = some ([], rest) :=
  (if_neg apart).trans (if_pos rfl)

theorem readQuoted_plain {c : α} (plain : ¬Special mark close c) :
    readQuoted mark close false (c :: rest) = (readQuoted mark close false rest).map (Prod.map (c :: ·) id) :=
  (if_neg (not_or.1 plain).1).trans (if_neg (not_or.1 plain).2)

theorem readQuoted_length {literal : Bool} {s value : List α} (read : readQuoted mark close literal s = some (value, rest)) :
    rest.length ≤ s.length := by
  induction s generalizing literal value with
  | nil =>
    cases literal with
    | true => cases read
    | false => cases read
  | cons c s ih =>
    cases literal with
    | true =>
      rw [readQuoted_literal] at read
      obtain ⟨v, -, behind⟩ := map_read_eq_some.1 read
      exact Nat.le_succ_of_le (ih behind)
    | false =>
      rw [readQuoted] at read
      split at read
      · exact Nat.le_succ_of_le (ih read)
      split at read
      · cases read
        exact Nat.le_succ _
      · obtain ⟨v, -, behind⟩ := map_read_eq_some.1 read
        exact Nat.le_succ_of_le (ih behind)

/-- In step: a text with all its marks is read back. -/
theorem readQuoted_written (apart : close ≠ mark) {w : List (α × Bool)} (all : AllMarked mark close w) :
    readQuoted mark close false (markedText mark w ++ close :: rest) = some (w.map Prod.fst, rest) := by
  induction w with
  | nil => exact readQuoted_close apart
  | cons p w ih =>
    obtain ⟨b, marked⟩ := p
    cases marked with
    | true =>
      rw [markedText_marked, List.cons_append, List.cons_append, readQuoted_mark, readQuoted_literal, ih all.tail]
      rfl
    | false =>
      have plain : ¬Special mark close b := fun special => by cases all _ List.mem_cons_self special
      rw [markedText_bare, List.cons_append, readQuoted_plain plain, ih all.tail]
      rfl

/-- Out of step: `k` marks of the text have been read over, or one more and the next byte is taken literally. -/
structure Lags (mark close : α) (rest : List α) (w : List (α × Bool)) : Prop where
  reading : ∀ k after, 0 < k ∨ ¬AllMarked mark close w →
    readQuoted mark close false (markedText mark w ++ close :: rest) ≠ some (List.replicate k mark ++ w.map Prod.fst, after)
  literal : ∀ k after,
    readQuoted mark close true (markedText mark w ++ close :: rest) ≠ some (List.replicate (k + 1) mark ++ w.map Prod.fst, after)

theorem Lags.nil (apart : close ≠ mark) : Lags mark close rest [] where
  reading k after lag read := by
    rw [markedText_nil, List.nil_append, readQuoted_close apart] at read
    cases k with
    | zero => exact lag.elim (Nat.lt_irrefl 0) fun all => all fun p member => by cases member
    | succ k => cases read
  literal k after read := by
    rw [markedText_nil, List.nil_append, readQuoted_literal] at read
    obtain ⟨v, same, -⟩ := map_read_eq_some.1 read
    exact apart (List.cons.inj same).1.symm

variable {w : List (α × Bool)}

/-- A byte without a mark comes next. -/
theorem Lags.bare (apart : close ≠ mark) (lags : Lags mark close rest w) (b : α) (k : Nat) (after : List α)
    (lag : 0 < k ∨ ¬AllMarked mark close ((b, false) :: w)) :
    readQuoted mark close false (b :: (markedText mark w ++ close :: rest)) ≠
      some (List.replicate k mark ++ b :: w.map Prod.fst, after) := by
  intro read
  by_cases special : Special mark close b
  · rcases special with rfl | rfl
    · rw [readQuoted_mark, replicate_cons] at read
      exact lags.literal k after read
    · rw [readQuoted_close apart] at read
      cases k with
      | zero => cases read
      | succ k => cases read
  · rw [readQuoted_plain special] at read
    obtain ⟨v, same, behind⟩ := map_read_eq_some.1 read
    cases k with
    | zero =>
      obtain ⟨-, rfl⟩ := List.cons.inj same
      refine lags.reading 0 after (.inr ?_) behind
      intro all
      refine lag.elim (Nat.lt_irrefl 0) fun broken => broken ?_
      intro p member here
      rcases List.mem_cons.1 member with rfl | later
      · exact absurd here special
      · exact all p later here
    | succ k => exact special (.inl (List.cons.inj same).1.symm)

theorem Lags.cons (apart : close ≠ mark) {p : α × Bool} (sound : p.2 = true → Special mark close p.1)
    (lags : Lags mark close rest w) : Lags mark close rest (p :: w) := by
  obtain ⟨b, marked⟩ := p
  cases marked with
  | true =>
    constructor
    · intro k after lag read
      rw [markedText_marked, List.cons_append, List.cons_append, readQuoted_mark, readQuoted_literal] at read
      obtain ⟨v, same, behind⟩ := map_read_eq_some.1 read
      cases k with
      | zero =>
        obtain ⟨-, rfl⟩ := List.cons.inj same
        refine lags.reading 0 after (.inr ?_) behind
        intro all
        refine lag.elim (Nat.lt_irrefl 0) fun broken => broken ?_
        intro p member here
        rcases List.mem_cons.1 member with rfl | later
        · rfl
        · exact all p later here
      | succ k =>
        obtain ⟨rfl, tail⟩ := List.cons.inj same
        have text : List.replicate k mark ++ mark :: w.map Prod.fst = v := tail
        rw [← text, replicate_cons] at behind
        exact lags.reading (k + 1) after (.inl (Nat.succ_pos k)) behind
    · intro k after read
      rw [markedText_marked, List.cons_append, List.cons_append, readQuoted_literal] at read
      obtain ⟨v, same, behind⟩ := map_read_eq_some.1 read
      obtain ⟨-, rfl⟩ := List.cons.inj same
      refine lags.bare apart b k after (.inr ?_) behind
      intro all
      cases all (b, false) List.mem_cons_self (sound rfl)
  | false =>
    constructor
    · exact fun k after lag => lags.bare apart b k after lag
    · intro k after read
      rw [markedText_bare, List.cons_append, readQuoted_literal] at read
      obtain ⟨v, same, behind⟩ := map_read_eq_some.1 read
      obtain ⟨rfl, tail⟩ := List.cons.inj same
      have text : List.replicate k mark ++ mark :: w.map Prod.fst = v := tail
      rw [← text, replicate_cons] at behind
      exact lags.reading (k + 1) after (.inl (Nat.succ_pos k)) behind

theorem lags (apart : close ≠ mark) (sound : MarksSpecial mark close w) : Lags mark close rest w := by
  induction w with
  | nil => exact Lags.nil apart
  | cons p w ih => exact Lags.cons apart (sound p List.mem_cons_self) (ih sound.tail)

/-- **A quoted text** is read back iff all its special bytes are marked. -/
theorem readQuoted_written_iff (apart : close ≠ mark) (sound : MarksSpecial mark close w) :
    (∃ after, readQuoted mark close false (markedText mark w ++ close :: rest) = some (w.map Prod.fst, after)) ↔
      AllMarked mark close w := by
  constructor
  · rintro ⟨after, read⟩
    by_contra broken
    exact (lags apart sound).reading 0 after (.inr broken) read
  · intro all
    exact ⟨rest, readQuoted_written apart all⟩

end Reader

end RubyPg
