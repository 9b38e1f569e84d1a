import RubyPg.TwoPass.Encoding

/-!
# The characters of a float

What `pg_text_enc_float` leaves in memory: the loops write from right to left and skip trailing zeros, so
that the characters behind the first one written have all been written. The text is not empty, and its
characters are digits, signs, a point, an `e` and the letters of `Infinity` and `NaN`.
-/

namespace RubyPg.TwoPass
set_option autoImplicit false
open Ascii Writer

/-- The characters of the text of a number. -/
def numberChar (c : UInt8) : Bool := decide (IsDigit c) || c == minus || c == dot || c == 0x65

/-- The memory in front of `out` is as before, and `n` characters from index `i` on are those of a number. -/
structure Filled (before : Mem) (out i n : Nat) (mem : Mem) : Prop where
  front : ∀ j < out, mem j = before j
  chars : ∀ j < n, numberChar (mem (i + j)) = true

theorem numberChar_digitChar (n : Nat) : numberChar (digitChar (n % 10)) = true := by
  have digits : ∀ d < 10, numberChar (digitChar d) = true := by decide
  exact digits _ (Nat.mod_lt n (by decide))

section Filled

variable {before : Mem} {out i n : Nat} {mem : Mem}

theorem Filled.empty {i : Nat} : Filled before out i 0 before := ⟨fun _ _ => rfl, fun _ few => absurd few (Nat.not_lt_zero _)⟩

/-- One more character in front. -/
theorem Filled.store {c : UInt8} (filled : Filled before out (i + 1) n mem) (behind : out ≤ i) (char : numberChar c = true) :
    Filled before out i (n + 1) (mem.put i c) where
  front j first := by
    rw [Mem.put_other _ _ (by omega)]
    exact filled.front j first
  chars j few := by
    by_cases first : j = 0
    · rw [first, Nat.add_zero, Mem.put_same]
      exact char
    · rw [Mem.put_other _ _ (by omega)]
      have there := filled.chars (j - 1) (by omega)
      rwa [show i + 1 + (j - 1) = i + j by omega] at there

/-- One more character behind. -/
theorem Filled.append {c : UInt8} (filled : Filled before out i n mem) (behind : out ≤ i) (char : numberChar c = true) :
    Filled before out i (n + 1) (mem.put (i + n) c) where
  front j first := by
    rw [Mem.put_other _ _ (by omega)]
    exact filled.front j first
  chars j few := by
    by_cases last : j = n
    · rw [last, Mem.put_same]
      exact char
    · rw [Mem.put_other _ _ (by omega)]
      exact filled.chars j (by omega)

end Filled

section Loops

variable {before : Mem} {out : Nat}

theorem fractionLoop_leaves {k ll len : Nat} :
    Leaves (Filled before out (out + (k + 2)) len) (fractionLoop out k ll len : Writer Stop (Nat × Nat))
      fun r => Filled before out (out + 2) r.2 := by
  induction k generalizing ll len with
  | zero => exact .pure fun _ filled => filled
  | succ k ih =>
    unfold fractionLoop
    split
    · refine .bind (.store fun mem filled => ?_) fun _ => ih
      exact filled.store (Nat.le_add_right _ _) (numberChar_digitChar ll)
    · rename_i trailing
      obtain rfl : len = 0 := by omega
      exact ih.mono (fun mem filled => ⟨filled.front, fun j few => absurd few (Nat.not_lt_zero _)⟩) fun _ _ done => done

theorem storeDot_leaves {len : Nat} :
    Leaves (Filled before out (out + 2) len) (storeDot out len : Writer Stop Nat) fun r => Filled before out (out + 1) r := by
  unfold storeDot
  split
  · refine .bind (.store fun mem filled => ?_) fun _ => .pure fun _ done => done
    exact filled.store (Nat.le_add_right _ _) (by decide)
  · rename_i none
    obtain rfl : len = 0 := by omega
    exact .pure fun mem filled => ⟨filled.front, fun j few => absurd few (Nat.not_lt_zero _)⟩

/-- The loop writes a character, or passes the decimal point. -/
theorem plainLoop_leaves {lz k ll len : Nat} (some : 0 < len ∨ lz + 2 ≤ k) :
    Leaves (Filled before out (out + k) len) (plainLoop lz out k ll len : Writer Stop Nat)
      fun r mem => Filled before out out r mem ∧ 0 < r := by
  induction k using Nat.strongRecOn generalizing ll len with
  | ind k ih =>
    match k with
    | 0 => exact .pure fun _ filled => ⟨filled, by omega⟩
    | 1 =>
      unfold plainLoop
      split
      · refine .bind (.store fun mem filled => ?_) fun _ => .pure fun _ done => ⟨done, Nat.succ_pos _⟩
        exact filled.store (Nat.le_refl _) (numberChar_digitChar ll)
      · omega
    | k + 2 =>
      unfold plainLoop
      split
      · have point : Leaves (Filled before out (out + (k + 2)) len) (store (out + (k + 1)) dot : Writer Stop Unit)
            fun _ => Filled before out (out + (k + 1)) (len + 1) :=
          .store fun mem filled => filled.store (Nat.le_add_right _ _) (by decide)
        refine point.bind fun _ => .bind (.store fun mem filled => ?_) fun _ => ih k (by omega) (.inl (Nat.succ_pos _))
        exact filled.store (Nat.le_add_right _ _) (numberChar_digitChar ll)
      · split
        · refine .bind (.store fun mem filled => ?_) fun _ => ih (k + 1) (by omega) (.inl (Nat.succ_pos _))
          exact filled.store (Nat.le_add_right _ _) (numberChar_digitChar ll)
        · rename_i notPoint trailing
          obtain rfl : len = 0 := by omega
          have later := @ih (k + 1) (by omega) (ll / 10) 0 (by omega)
          exact later.mono (fun mem filled => ⟨filled.front, fun j few => absurd few (Nat.not_lt_zero _)⟩)
            fun _ _ done => done

theorem numberChar_writeInteger {sll : Int} {c : UInt8} (member : c ∈ Text.writeInteger sll) : numberChar c = true := by
  have digit : ∀ {d : UInt8}, IsDigit d → numberChar d = true := by
    intro d isDigit
    rw [numberChar, decide_eq_true isDigit]
    rfl
  rw [Text.writeInteger_eq, Text.integerText] at member
  split at member
  · rcases List.mem_cons.1 member with rfl | behind
    · decide
    · exact digit (isDigit_of_mem_decimal behind)
  · exact digit (isDigit_of_mem_decimal member)

/-- An integer behind what is written. -/
theorem writeIntegerAt_leaves {sll : Int} {n : Nat} :
    Leaves (Filled before out out n) (writeIntegerAt sll (out + n) : Writer Stop Nat)
      fun r => Filled before out out (n + r) := by
  have length : (Text.writeInteger sll).length = integerLength sll := by
    rw [Text.writeInteger_eq]
    rfl
  refine (writeIntegerAt_puts sll (out + n)).leaves fun mem mem' filled slice front => ?_
  refine ⟨fun j first => ?_, fun j few => ?_⟩
  · rw [front j (by omega)]
    exact filled.front j first
  · by_cases inner : j < n
    · rw [front (out + j) (by omega)]
      exact filled.chars j inner
    · have member : mem' (out + n + (j - n)) ∈ Text.writeInteger sll := by
        rw [← slice]
        exact List.mem_map.2 ⟨j - n, List.mem_range.2 (by omega), rfl⟩
      rw [show out + n + (j - n) = out + j by omega] at member
      exact numberChar_writeInteger member

theorem exponentFormat_leaves {ll : Nat} {exp10i : Int} :
    Leaves (Filled before out out 0) (exponentFormat ll exp10i out : Writer Stop Nat)
      fun r mem => Filled before out out r mem ∧ 0 < r := by
  unfold exponentFormat
  refine .bind (fractionLoop_leaves.mono (fun mem filled => ⟨filled.front, fun j few => absurd few (Nat.not_lt_zero _)⟩)
    fun _ _ done => done) fun r => ?_
  refine .bind storeDot_leaves fun len => ?_
  have first : Leaves (Filled before out (out + 1) len) (store out (digitChar (r.1 % 10)) : Writer Stop Unit)
      fun _ => Filled before out out (len + 1) :=
    .store fun mem filled => filled.store (Nat.le_refl _) (numberChar_digitChar r.1)
  have letter : Leaves (Filled before out out (len + 1)) (store (out + (len + 1)) 0x65 : Writer Stop Unit)
      fun _ => Filled before out out (len + 2) :=
    .store fun mem filled => filled.append (Nat.le_refl _) (by decide)
  refine first.bind fun _ => letter.bind fun _ => writeIntegerAt_leaves.bind fun n => .pure fun mem filled => ?_
  exact ⟨filled, by omega⟩

theorem plainFormat_leaves {ll : Nat} {exp10i : Int} (near : exp10i < 15) :
    Leaves (Filled before out out 0) (plainFormat ll exp10i out : Writer Stop Nat)
      fun r mem => Filled before out out r mem ∧ 0 < r := by
  have loop := @plainLoop_leaves before out exp10i.toNat (17 + (-exp10i).toNat) ll 0 (.inr (by omega))
  exact loop.mono (fun mem filled => ⟨filled.front, fun j few => absurd few (Nat.not_lt_zero _)⟩) fun _ _ done => done

theorem writeFloatAt_leaves {api : CApi} {mant : Fin (2 ^ 53)} {exp : Fin 2046} :
    Leaves (Filled before out out 0) (writeFloatAt api mant exp out)
      fun r mem => Filled before out out r mem ∧ 0 < r := by
  unfold writeFloatAt
  dsimp only
  split
  · exact exponentFormat_leaves
  · exact plainFormat_leaves (by omega)

end Loops

/-- The characters of the text of a float. -/
def floatChar (c : UInt8) : Bool := numberChar c || [0x49, 0x6e, 0x66, 0x69, 0x74, 0x79, 0x4e, 0x61].contains c

/-- A text of a float is in memory. -/
def FloatText (len : Nat) (mem : Mem) : Prop := 0 < len ∧ ∀ c ∈ mem.slice 0 len, floatChar c = true

theorem block_leaves {P : Mem → Prop} {bytes : Bytes} (some : 0 < bytes.length) (chars : bytes.all floatChar = true) :
    Leaves P (block bytes 0) FloatText := by
  refine (block_puts bytes 0).leaves fun mem mem' _ slice _ => ⟨some, ?_⟩
  rw [slice]
  exact List.all_eq_true.1 chars

theorem FloatText.of_filled {before mem : Mem} {len : Nat} (filled : Filled before 0 0 len mem) (some : 0 < len) :
    FloatText len mem := by
  refine ⟨some, fun c member => ?_⟩
  obtain ⟨j, few, rfl⟩ := List.mem_map.1 member
  rw [floatChar, filled.chars j (List.mem_range.1 few), Bool.true_or]

theorem floatSecond_leaves {api : CApi} {value : Value} {before : Mem} :
    Leaves (· = before) (floatSecond api value 0) FloatText := by
  refine .bind (.ofExcept fun _ _ _ same => same) fun d => ?_
  split
  · exact block_leaves (by decide) (by decide)
  · exact block_leaves (by decide) (by decide)
  · exact block_leaves (by decide) (by decide)
  · split
    · have sign : Leaves (· = before) (store 0 minus : Writer Stop Unit)
          fun _ => Filled (before.put 0 minus) 1 1 0 :=
        .store fun mem same => same ▸ .empty
      refine sign.bind fun _ => writeFloatAt_leaves.bind fun len => .pure fun mem done => ?_
      refine ⟨by omega, fun c member => ?_⟩
      obtain ⟨j, few, rfl⟩ := List.mem_map.1 member
      have few := List.mem_range.1 few
      by_cases first : j = 0
      · rw [first, done.1.front 0 Nat.one_pos, Mem.put_same]
        decide
      · have char := done.1.chars (j - 1) (by omega)
        rw [show 1 + (j - 1) = 0 + j by omega] at char
        rw [floatChar, char, Bool.true_or]
    · refine (@writeFloatAt_leaves before 0 _ _ _).mono ?_ fun r mem done => .of_filled done.1 done.2
      rintro mem rfl
      exact .empty

/-- **The text of a float** is not empty and has the characters of numbers and of the names of the others. -/
theorem floatSecond_text {api : CApi} {value : Value} {text : Bytes} (left : written (floatSecond api value) = .ok text) :
    text ≠ [] ∧ ∀ c ∈ text, floatChar c = true := by
  have leaves := @floatSecond_leaves api value (fun _ => 0) ⟨fun _ => 0, []⟩ rfl
  unfold written at left
  split at left
  · rename_i len s run
    cases left
    rw [run] at leaves
    obtain ⟨some, chars⟩ := leaves len rfl
    refine ⟨fun empty => ?_, chars⟩
    have length : (s.mem.slice 0 len).length = len := Mem.slice_length _ _ _
    rw [empty] at length
    exact absurd length.symm (Nat.ne_of_gt some)
  · cases left

end RubyPg.TwoPass
