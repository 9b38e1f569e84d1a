import RubyPg.Lib.Memory
import RubyPg.Lib.Scan

/-!
# Escaping a string inside its own buffer

Loops that move a string right to left to a place where it has room for its marks, and that read
and write the same memory. A store notes how far the input was still unread when it was made, so
that it can be said that no unread byte is overwritten. `Wrote s s' pIn lo text` says what a run of
stores has done; runs in front of each other are put together by `Wrote.append`.
-/

namespace RubyPg
set_option autoImplicit false

/-- The memory, and the stores so far, the latest first: the end of the unread input, and the index. -/
structure Moving where
  mem : Mem
  log : List (Nat × Nat)

/-- `*p = b`, while the input is unread up to `unread`. -/
def Moving.store (s : Moving) (unread p : Nat) (b : UInt8) : Moving := ⟨s.mem.put p b, (unread, p) :: s.log⟩

@[simp] theorem Moving.store_same (s : Moving) (unread p : Nat) (b : UInt8) : (s.store unread p b).mem p = b :=
  Mem.put_same s.mem p b

theorem Moving.store_other (s : Moving) {unread p q : Nat} (b : UInt8) (other : q ≠ p) :
    (s.store unread p b).mem q = s.mem q := Mem.put_other s.mem b other

/-- `memcpy(p, bytes, n)`. -/
def Moving.storeAll (s : Moving) (unread p : Nat) : List UInt8 → Moving
  | [] => s
  | b :: bs => (s.store unread p b).storeAll unread (p + 1) bs

/-- From `s` to `s'` the text was written to `lo`, nothing elsewhere, and no store hit the unread part
of the input that begins at `pIn`. -/
structure Wrote (s s' : Moving) (pIn lo : Nat) (text : List UInt8) : Prop where
  there : s'.mem.slice lo text.length = text
  frame : ∀ i, i < lo ∨ lo + text.length ≤ i → s'.mem i = s.mem i
  unread : ∃ w, s'.log = w ++ s.log ∧ ∀ e ∈ w, e.2 < pIn ∨ e.1 ≤ e.2

section Wrote

variable {s s' s'' : Moving} {pIn lo : Nat} {a b : List UInt8}

/-- What is there already need not be written. -/
theorem Wrote.same (there : s.mem.slice lo a.length = a) : Wrote s s pIn lo a where
  there := there
  frame _ _ := rfl
  unread := ⟨[], rfl, fun _ member => absurd member List.not_mem_nil⟩

theorem Wrote.store {unread : Nat} (c : UInt8) (outside : lo < pIn ∨ unread ≤ lo) :
    Wrote s (s.store unread lo c) pIn lo [c] where
  there := congrArg (fun d => [d]) (Mem.put_same s.mem lo c)
  frame i away := Mem.put_other s.mem c (by
    rw [List.length_singleton] at away
    omega)
  unread := by
    refine ⟨[(unread, lo)], rfl, ?_⟩
    intro e member
    obtain rfl := List.mem_singleton.1 member
    exact outside

/-- Right to left: the later text in front of the earlier one. -/
theorem Wrote.append (last : Wrote s s' pIn (lo + a.length) b) (first : Wrote s' s'' pIn lo a) :
    Wrote s s'' pIn lo (a ++ b) where
  there := by
    have kept : s''.mem.slice (lo + a.length) b.length = b :=
      (Mem.slice_congr fun k _ => first.frame _ (Or.inr (Nat.le_add_right _ k))).trans last.there
    rw [List.length_append, Mem.slice_append, first.there, kept]
  frame i away := by
    rw [List.length_append] at away
    rw [first.frame i (by omega), last.frame i (by omega)]
  unread := by
    obtain ⟨w, log, outside⟩ := last.unread
    obtain ⟨v, log', outside'⟩ := first.unread
    refine ⟨v ++ w, ?_, ?_⟩
    · rw [log', log, List.append_assoc]
    · intro e member
      rcases List.mem_append.1 member with later | earlier
      · exact outside' e later
      · exact outside e earlier

/-- Left to right: the later text behind the earlier one. -/
theorem Wrote.prepend (first : Wrote s s' pIn lo a) (last : Wrote s' s'' pIn (lo + a.length) b) :
    Wrote s s'' pIn lo (a ++ b) where
  there := by
    have kept : s''.mem.slice lo a.length = a :=
      (Mem.slice_congr fun k inside => last.frame _ (Or.inl (Nat.add_lt_add_left inside lo))).trans first.there
    rw [List.length_append, Mem.slice_append, kept, last.there]
  frame i away := by
    rw [List.length_append] at away
    rw [last.frame i (by omega), first.frame i (by omega)]
  unread := by
    obtain ⟨w, log, outside⟩ := first.unread
    obtain ⟨v, log', outside'⟩ := last.unread
    refine ⟨v ++ w, ?_, ?_⟩
    · rw [log', log, List.append_assoc]
    · intro e member
      rcases List.mem_append.1 member with later | earlier
      · exact outside' e later
      · exact outside e earlier

theorem Wrote.storeAll {unread : Nat} {bs : List UInt8} (outside : lo + bs.length ≤ pIn ∨ unread ≤ lo) :
    Wrote s (s.storeAll unread lo bs) pIn lo bs := by
  induction bs generalizing s lo with
  | nil => exact .same rfl
  | cons c bs ih =>
    rw [List.length_cons] at outside
    have first : Wrote s (s.store unread lo c) pIn lo [c] := .store c (by omega)
    exact first.prepend (@ih _ (lo + 1) (by omega))

/-- Bytes outside the text are as before. -/
theorem Wrote.slice (wrote : Wrote s s' pIn lo a) {i n : Nat} (away : i + n ≤ lo ∨ lo + a.length ≤ i) :
    s'.mem.slice i n = s.mem.slice i n :=
  Mem.slice_congr fun k _ => wrote.frame _ (by omega)

end Wrote

section Loops

variable (special : UInt8 → Bool)

/-- `for (ptr1 = p; ptr1 != p + n; ptr1++) if (special(*ptr1)) backslashes++;` -/
def countMarks (m : Mem) : Nat → Nat → Nat
  | _, 0 => 0
  | ptr1, n + 1 => (if special (m ptr1) then 1 else 0) + countMarks m (ptr1 + 1) n

theorem countMarks_eq (m : Mem) (p n : Nat) : countMarks special m p n = (m.slice p n).countP special := by
  induction n generalizing p with
  | zero => rfl
  | succ n ih => rw [countMarks, Mem.slice_cons, List.countP_cons, ih, Nat.add_comm]

/-- `while (ptr1 != pIn) { *--ptr2 = *--ptr1; if (special(*ptr2)) *--ptr2 = mark; }`, from
`ptr1 = pIn + n` on. -/
def moveBack (mark : UInt8) (pIn : Nat) : Nat → Nat → Moving → Moving
  | 0, _, s => s
  | n + 1, ptr2, s =>
    let s := s.store (pIn + n) (ptr2 - 1) (s.mem (pIn + n))
    if special (s.mem (ptr2 - 1)) then moveBack mark pIn n (ptr2 - 2) (s.store (pIn + n) (ptr2 - 2) mark)
    else moveBack mark pIn n (ptr2 - 1) s

/-- `while (ptr1 != ptr2) { *--ptr2 = *--ptr1; if (special(*ptr1)) *--ptr2 = mark(*ptr1); }`, from
`ptr1 = base + n` on; `none` where it goes on in front of `base`. -/
def shiftBack (mark : UInt8 → UInt8) (base : Nat) : Nat → Nat → Moving → Option Moving
  | 0, ptr2, s => if base = ptr2 then some s else none
  | n + 1, ptr2, s =>
    if base + (n + 1) = ptr2 then some s
    else
      let s := s.store (base + n) (ptr2 - 1) (s.mem (base + n))
      if special (s.mem (base + n)) then
        shiftBack mark base n (ptr2 - 2) (s.store (base + n) (ptr2 - 2) (mark (s.mem (base + n))))
      else shiftBack mark base n (ptr2 - 1) s

variable {special}

/-- A byte is moved, and its mark is placed in front of it. -/
theorem moveBack_step {mark : UInt8} {pIn n dst : Nat} {s : Moving} {c : UInt8} (byte : s.mem (pIn + n) = c)
    (apart : pIn + n ≤ dst ∨ dst + (markEsc special (fun _ => mark) c).length ≤ pIn) :
    ∃ s', moveBack special mark pIn (n + 1) (dst + (markEsc special (fun _ => mark) c).length) s =
        moveBack special mark pIn n dst s' ∧
      Wrote s s' pIn dst (markEsc special (fun _ => mark) c) := by
  by_cases marked : special c = true
  · have esc : markEsc special (fun _ => mark) c = [mark, c] := if_pos marked
    rw [esc, List.length_cons, List.length_singleton] at apart ⊢
    have test : special ((s.store (pIn + n) (dst + 1) c).mem (dst + 1)) = true := by
      rw [Moving.store_same]
      exact marked
    have moved : Wrote s (s.store (pIn + n) (dst + 1) c) pIn (dst + 1) [c] := .store c (by omega)
    refine ⟨(s.store (pIn + n) (dst + 1) c).store (pIn + n) dst mark, ?_, .append moved (.store mark (by omega))⟩
    rw [moveBack, byte]
    exact if_pos test
  · have esc : markEsc special (fun _ => mark) c = [c] := if_neg marked
    rw [esc, List.length_singleton] at apart ⊢
    have test : ¬special ((s.store (pIn + n) dst c).mem dst) = true := by
      rw [Moving.store_same]
      exact marked
    refine ⟨s.store (pIn + n) dst c, ?_, .store c (by omega)⟩
    rw [moveBack, byte]
    exact if_neg test

/-- **The loop up to the start of the input** writes the escaped text to `lo`: the distance between
the pointers is the number of the marks to come. -/
theorem moveBack_spec {mark : UInt8} {pIn lo n : Nat} {s : Moving} {w : List UInt8} (unread : s.mem.slice pIn n = w)
    (apart : pIn ≤ lo ∨ lo + (n + w.countP special) ≤ pIn) :
    Wrote s (moveBack special mark pIn n (lo + (n + w.countP special)) s) pIn lo
      (w.flatMap (markEsc special fun _ => mark)) := by
  induction n generalizing s w with
  | zero =>
    subst unread
    exact .same rfl
  | succ n ih =>
    obtain ⟨v, c, rfl, there, byte⟩ : ∃ v c, w = v ++ [c] ∧ s.mem.slice pIn n = v ∧ s.mem (pIn + n) = c :=
      ⟨_, _, unread.symm.trans (Mem.slice_succ _ _ _), rfl, rfl⟩
    have length : v.length = n := there ▸ Mem.slice_length _ _ _
    have size := @length_flatMap_markEsc _ special (fun _ => mark) (v ++ [c])
    have front := @length_flatMap_markEsc _ special (fun _ => mark) v
    rw [List.flatMap_append, List.flatMap_singleton, List.length_append, List.length_append, List.length_singleton,
      length] at size
    rw [length] at front
    obtain ⟨s', step, moved⟩ := @moveBack_step special mark pIn n (lo + (n + v.countP special)) s c byte (by omega)
    have next := @ih s' v (by rw [moved.slice (by omega), there]) (by omega)
    rw [← size, front, ← Nat.add_assoc, step, List.flatMap_append, List.flatMap_singleton]
    rw [← front] at moved next ⊢
    exact .append moved next

theorem shiftBack_step {mark : UInt8 → UInt8} {base n dst : Nat} {s : Moving} {c : UInt8} (byte : s.mem (base + n) = c)
    (gap : base + n + 1 < dst + (markEsc special mark c).length) :
    ∃ s', shiftBack special mark base (n + 1) (dst + (markEsc special mark c).length) s =
        shiftBack special mark base n dst s' ∧
      Wrote s s' base dst (markEsc special mark c) := by
  by_cases marked : special c = true
  · have esc : markEsc special mark c = [mark c, c] := if_pos marked
    rw [esc, List.length_cons, List.length_singleton] at gap ⊢
    have kept : (s.store (base + n) (dst + 1) c).mem (base + n) = c := by
      rw [Moving.store_other s c (by omega), byte]
    have test : special ((s.store (base + n) (dst + 1) c).mem (base + n)) = true := by
      rw [kept]
      exact marked
    have moved : Wrote s (s.store (base + n) (dst + 1) c) base (dst + 1) [c] := .store c (by omega)
    refine ⟨(s.store (base + n) (dst + 1) c).store (base + n) dst (mark c), ?_, .append moved (.store (mark c) (by omega))⟩
    rw [shiftBack, if_neg (by omega), byte]
    refine (if_pos test).trans ?_
    show shiftBack special mark base n dst
      ((s.store (base + n) (dst + 1) c).store (base + n) dst (mark ((s.store (base + n) (dst + 1) c).mem (base + n)))) = _
    rw [kept]
  · have esc : markEsc special mark c = [c] := if_neg marked
    rw [esc, List.length_singleton] at gap ⊢
    have kept : (s.store (base + n) dst c).mem (base + n) = c := by
      rw [Moving.store_other s c (by omega), byte]
    have test : ¬special ((s.store (base + n) dst c).mem (base + n)) = true := by
      rw [kept]
      exact marked
    refine ⟨s.store (base + n) dst c, ?_, .store c (by omega)⟩
    rw [shiftBack, if_neg (by omega), byte]
    exact if_neg test

/-- **The loop up to the last mark** writes the escaped text in place: what is left when the pointers
meet needs no marks. -/
theorem shiftBack_spec {mark : UInt8 → UInt8} {base n : Nat} {s : Moving} {w : List UInt8}
    (unread : s.mem.slice base n = w) :
    ∃ s', shiftBack special mark base n (base + (n + w.countP special)) s = some s' ∧
      Wrote s s' base base (w.flatMap (markEsc special mark)) := by
  induction n generalizing s w with
  | zero =>
    subst unread
    exact ⟨s, if_pos rfl, .same rfl⟩
  | succ n ih =>
    by_cases done : w.countP special = 0
    · rw [done, flatMap_markEsc_plain special mark done]
      refine ⟨s, if_pos rfl, .same ?_⟩
      rw [← unread, Mem.slice_length]
    · obtain ⟨v, c, rfl, there, byte⟩ : ∃ v c, w = v ++ [c] ∧ s.mem.slice base n = v ∧ s.mem (base + n) = c :=
        ⟨_, _, unread.symm.trans (Mem.slice_succ _ _ _), rfl, rfl⟩
      have length : v.length = n := there ▸ Mem.slice_length _ _ _
      have size := @length_flatMap_markEsc _ special mark (v ++ [c])
      have front := @length_flatMap_markEsc _ special mark v
      rw [List.flatMap_append, List.flatMap_singleton, List.length_append, List.length_append, List.length_singleton,
        length] at size
      rw [length] at front
      obtain ⟨s', step, moved⟩ := @shiftBack_step special mark base n (base + (n + v.countP special)) s c byte (by omega)
      obtain ⟨s'', run, next⟩ := @ih s' v (by rw [moved.slice (by omega), there])
      refine ⟨s'', ?_, ?_⟩
      · rw [← size, front, ← Nat.add_assoc, step, run]
      · rw [List.flatMap_append, List.flatMap_singleton]
        rw [← front] at moved
        exact .append moved next

end Loops

end RubyPg
