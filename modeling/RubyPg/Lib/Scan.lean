import Mathlib.Data.List.Basic
import Mathlib.Data.List.GetD
import Mathlib.Data.List.TakeDrop
import Mathlib.Data.List.TakeWhile

/-!
# Scanning a list by index, and escaping

A C scanner reads `s[index]` and moves `index`; its proofs speak of what is left to
read, `s.drop index`. `Rest s i t` says that `t` is left at index `i`.

An escaping puts a mark in front of every special character (`markEsc`). Writing left to
right is `List.flatMap`; the right-to-left loops that move a string inside its own buffer
compute the same, whether they run to its start (`escapeBack_eq`) or stop as soon as no
mark is left to place (`escapeShift_eq`).
-/

namespace RubyPg
set_option autoImplicit false

variable {α : Type}

/-- `t` is what is left of `s` from index `i` on. -/
def Rest (s : List α) (i : Nat) (t : List α) : Prop := s.drop i = t

namespace Rest

variable {s t u : List α} {i : Nat} {c : α}

theorem zero (s : List α) : Rest s 0 s := rfl

/-- Inside the list a character is left. -/
theorem head (inside : i < s.length) (d : α) : Rest s i (s.getD i d :: s.drop (i + 1)) := by
  rw [Rest, List.drop_eq_getElem_cons inside]
  simp [List.getD, inside]

/-- A character that is not the end mark is inside. -/
theorem of_getD {d : α} (here : s.getD i d = c) (notEnd : c ≠ d) : Rest s i (c :: s.drop (i + 1)) := by
  have inside : i < s.length := by
    by_contra off
    exact notEnd (here.symm.trans (List.getD_eq_default _ _ (by omega)))
  rw [← here]
  exact .head inside d

/-- Behind the last character nothing is left. -/
theorem nil (off : s.length ≤ i) : Rest s i [] := List.drop_eq_nil_of_le off

theorem lt (h : Rest s i (c :: t)) : i < s.length := by
  by_contra hge
  rw [Rest, List.drop_eq_nil_of_le (by omega)] at h
  cases h

theorem getD (h : Rest s i (c :: t)) (d : α) : s.getD i d = c := by
  have hi := h.lt
  rw [Rest, List.drop_eq_getElem_cons hi] at h
  simpa [List.getD, hi] using (List.cons.inj h).1

/-- What stands at an index is determined. -/
theorem head_eq {d : α} {u : List α} (h : Rest s i (c :: t)) (h' : Rest s i (d :: u)) : c = d ∧ t = u := by
  have same : c :: t = d :: u := h.symm.trans h'
  exact ⟨(List.cons.inj same).1, (List.cons.inj same).2⟩

theorem next (h : Rest s i (c :: t)) : Rest s (i + 1) t := by
  have hi := h.lt
  rw [Rest, List.drop_eq_getElem_cons hi] at h
  exact (List.cons.inj h).2

theorem skip (h : Rest s i (t ++ u)) : Rest s (i + t.length) u := by
  rw [Rest, ← List.drop_drop, h, List.drop_left]

theorem length_le (h : Rest s i t) : t.length ≤ s.length := by
  have := congrArg List.length h
  rw [List.length_drop] at this
  omega

/-- Behind a text in front the same is left as without it. -/
theorem shift_iff {front : List α} : Rest (front ++ s) (front.length + i) t ↔ Rest s i t := by
  rw [Rest, Rest, List.drop_length_add_append]

/-- The index behind a text is determined by what is left. -/
theorem index_eq {j : Nat} (h : Rest s i (t ++ u)) (h' : Rest s j u) (hu : u ≠ []) : j = i + t.length := by
  have hi := congrArg List.length h
  have hj := congrArg List.length h'
  have := List.length_pos_iff.2 hu
  simp only [List.length_drop, List.length_append] at hi hj
  omega

end Rest

/-- `while (p(s[index])) index++` on a string with an end mark that `p` refuses. -/
def skipWhile (p : α → Bool) (s : List α) (index : Nat) : Nat := index + ((s.drop index).takeWhile p).length

section SkipWhile

variable {p : α → Bool} {s : List α} {i : Nat} {d : α}

/-- What is left behind the skipped characters. -/
theorem rest_skipWhile (p : α → Bool) (s : List α) (i : Nat) : Rest s (skipWhile p s i) ((s.drop i).dropWhile p) := by
  have split : Rest s i ((s.drop i).takeWhile p ++ (s.drop i).dropWhile p) := List.takeWhile_append_dropWhile.symm
  exact split.skip

/-- The skipped characters and what is left behind them. -/
theorem drop_skipWhile (p : α → Bool) (s : List α) (i : Nat) :
    s.drop i = (s.drop i).takeWhile p ++ s.drop (skipWhile p s i) := by
  rw [rest_skipWhile p s i, List.takeWhile_append_dropWhile]

theorem le_skipWhile : i ≤ skipWhile p s i := Nat.le_add_right _ _

theorem skipWhile_le (within : i ≤ s.length) : skipWhile p s i ≤ s.length := by
  have bound := (List.takeWhile_sublist p (l := s.drop i)).length_le
  rw [List.length_drop] at bound
  unfold skipWhile
  omega

/-- The character it stops at, if only the end mark. -/
theorem skipWhile_stops (refused : p d = false) : p (s.getD (skipWhile p s i) d) = false := by
  have left := rest_skipWhile p s i
  cases rest : (s.drop i).dropWhile p with
  | nil =>
    rw [rest] at left
    rw [List.getD_eq_default _ _ (List.drop_eq_nil_iff.1 left), refused]
  | cons c t =>
    rw [rest] at left
    rw [left.getD]
    have stopped := List.head_dropWhile_not p (l := s.drop i) (by simp [rest])
    simpa only [rest, List.head_cons] using stopped

/-- Every character it skips is one of those. -/
theorem skipWhile_skips {k : Nat} (here : i ≤ k) (skipped : k < skipWhile p s i) : p (s.getD k d) = true := by
  obtain ⟨n, rfl⟩ := Nat.exists_eq_add_of_le here
  have inside : n < ((s.drop i).takeWhile p).length := by
    unfold skipWhile at skipped
    omega
  have same : s.getD (i + n) d = ((s.drop i).takeWhile p)[n] := by
    rw [List.getD_eq_getElem?_getD, ← List.getElem?_drop]
    conv_lhs => rw [← List.takeWhile_append_dropWhile (p := p) (l := s.drop i)]
    rw [List.getElem?_append_left inside, List.getElem?_eq_getElem inside]
    rfl
  rw [same]
  exact List.mem_takeWhile_imp (List.getElem_mem inside)

/-- The character in front of where it stops. -/
theorem skipWhile_before : p (s.getD (skipWhile p s i - 1) d) = (p (s.getD (i - 1) d) || decide (i < skipWhile p s i)) := by
  have bound : i ≤ skipWhile p s i := le_skipWhile
  by_cases moved : i < skipWhile p s i
  · have skipped : p (s.getD (skipWhile p s i - 1) d) = true := skipWhile_skips (i := i) (by omega) (by omega)
    rw [skipped, decide_eq_true moved, Bool.or_true]
  · rw [show skipWhile p s i = i by omega]
    simp

/-- It passes over characters it skips in front of one that it does not. -/
theorem Rest.skipWhile_eq {t u : List α} (here : Rest s i (t ++ u)) (skips : ∀ c ∈ t, p c = true)
    (stops : ∀ c v, u = c :: v → p c = false) : skipWhile p s i = i + t.length := by
  have none : u.takeWhile p = [] := by
    cases u with
    | nil => rfl
    | cons c v => rw [List.takeWhile_cons_of_neg (by rw [stops c v rfl]; decide)]
  rw [skipWhile, here, List.takeWhile_append_of_pos skips, none, List.append_nil]

/-- It stops at the first character that is not skipped. -/
theorem skipWhile_eq {j : Nat} (refuses : p d = false) (within : i ≤ j)
    (skips : ∀ k, i ≤ k → k < j → p (s.getD k d) = true) (stops : p (s.getD j d) = false) : skipWhile p s i = j := by
  have bound : i ≤ skipWhile p s i := le_skipWhile
  rcases Nat.lt_trichotomy (skipWhile p s i) j with before | same | behind
  · have stopped : p (s.getD (skipWhile p s i) d) = false := skipWhile_stops refuses
    rw [skips _ bound before] at stopped
    cases stopped
  · exact same
  · have skipped : p (s.getD j d) = true := skipWhile_skips within behind
    rw [skipped] at stops
    cases stops

end SkipWhile

/-- The text up to the first occurrence of a word, and the text behind it. -/
def cutAt [DecidableEq α] (w : List α) : List α → Option (List α × List α)
  | [] => if w = [] then some ([], []) else none
  | c :: text =>
    if w <+: c :: text then some ([], (c :: text).drop w.length)
    else (cutAt w text).map fun (body, rest) => (c :: body, rest)

theorem cutAt_split [DecidableEq α] {w text body rest : List α} (cut : cutAt w text = some (body, rest)) :
    text = body ++ (w ++ rest) := by
  induction text generalizing body with
  | nil =>
    rw [cutAt] at cut
    split at cut
    · cases cut
      simp [*]
    · cases cut
  | cons c text ih =>
    rw [cutAt] at cut
    split at cut
    · rename_i here
      cases cut
      obtain ⟨u, eq⟩ := here
      rw [← eq, List.drop_left]
      rfl
    · obtain ⟨⟨body', rest'⟩, found, eq⟩ := Option.map_eq_some_iff.1 cut
      cases eq
      rw [ih found]
      rfl

/-- What an escaping writes for one character. -/
def markEsc (special : α → Bool) (mark : α → α) (c : α) : List α := if special c then [mark c, c] else [c]

section Escape

variable (special : α → Bool) (mark : α → α)

/-- Escape right to left in front of `out`; `left` is the unread part of the string, last
character first. -/
def escapeBack : List α → List α → List α
  | [], out => out
  | c :: left, out =>
    if special c then escapeBack left (mark c :: c :: out) else escapeBack left (c :: out)

/-- The same, but the loop ends with the last mark: `marks` is the distance between the
character read last and the place where it goes. -/
def escapeShift : List α → Nat → List α → List α
  | left, 0, out => left.reverse ++ out
  | [], _ + 1, out => out
  | c :: left, marks + 1, out =>
    if special c then escapeShift left marks (mark c :: c :: out)
    else escapeShift left (marks + 1) (c :: out)

theorem escapeBack_eq (left out : List α) :
    escapeBack special mark left out = left.reverse.flatMap (markEsc special mark) ++ out := by
  induction left generalizing out with
  | nil => rfl
  | cons c left ih =>
    rw [escapeBack, ih, ih, List.reverse_cons, List.flatMap_append, List.flatMap_singleton, markEsc]
    split <;> simp

/-- A string without special characters is its own escaped form. -/
theorem flatMap_markEsc_plain {s : List α} (plain : s.countP special = 0) :
    s.flatMap (markEsc special mark) = s := by
  induction s with
  | nil => rfl
  | cons c s ih =>
    rw [List.countP_cons] at plain
    have literal : special c = false := by
      by_contra h
      simp [h] at plain
    rw [List.flatMap_cons, ih (by omega), markEsc, literal]
    rfl

/-- Shifting with as many marks as there are special characters is escaping. -/
theorem escapeShift_eq (left out : List α) :
    escapeShift special mark left (left.countP special) out =
      left.reverse.flatMap (markEsc special mark) ++ out := by
  induction left generalizing out with
  | nil => rfl
  | cons c left ih =>
    by_cases done : (c :: left).countP special = 0
    · rw [done, escapeShift, flatMap_markEsc_plain]
      rwa [List.countP_reverse]
    · rw [List.countP_cons] at done ⊢
      rw [List.reverse_cons, List.flatMap_append, List.append_assoc, List.flatMap_singleton, ← ih, markEsc]
      by_cases h : special c = true
      · simp only [h, if_true, escapeShift]
        rfl
      · have literal : special c = false := by simpa using h
        simp only [literal, Bool.false_eq_true, if_false, Nat.add_zero] at done ⊢
        obtain ⟨n, count⟩ := Nat.exists_eq_succ_of_ne_zero done
        rw [count, escapeShift, if_neg h]
        rfl

/-- Each special character adds a mark. -/
theorem length_flatMap_markEsc {special : α → Bool} (mark : α → α) (s : List α) :
    (s.flatMap (markEsc special mark)).length = s.length + s.countP special := by
  induction s with
  | nil => rfl
  | cons c s ih =>
    have one : (markEsc special mark c).length = 1 + if special c then 1 else 0 := by
      rw [markEsc]
      split <;> rfl
    rw [List.flatMap_cons, List.length_append, ih, one, List.length_cons, List.countP_cons]
    omega

theorem length_le_flatMap_markEsc (s : List α) : s.length ≤ (s.flatMap (markEsc special mark)).length := by
  rw [length_flatMap_markEsc]
  exact Nat.le_add_right _ _

/-- A character that is neither in the string nor a mark is not in the escaped form. -/
theorem notMem_flatMap_markEsc {s : List α} {c : α} (absent : c ∉ s) (unmarked : ∀ d ∈ s, c ≠ mark d) :
    c ∉ s.flatMap (markEsc special mark) := by
  simp only [List.mem_flatMap, not_exists, not_and]
  intro d hd
  have : c ≠ d := fun e => absent (e ▸ hd)
  unfold markEsc
  split <;> simp [this, unmarked d hd]

end Escape

end RubyPg
