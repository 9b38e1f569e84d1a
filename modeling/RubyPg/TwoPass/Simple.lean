import RubyPg.TwoPass.Encoders

/-!
# The simple encoders stay inside their size

For every encoder without elements: the second call writes only as far as the first call said,
and returns at most that length (`Answer.Bounded`).
-/

namespace RubyPg.TwoPass
set_option autoImplicit false
open Ascii Writer

variable {api : CApi}

/-- The second call writes the first `w` bytes at most, and returns at most `r`. -/
def Bounded (w r : Nat) (second : Nat → Writer Stop Nat) : Prop :=
  ∀ out, Writes out (out + w) (fun len => len ≤ r) (second out)

/-- The second call of an answer keeps to the size. -/
def Answer.Keeps : Answer → Prop
  | .size n second => Bounded n n second
  | .string _ => True

theorem Bounded.mono {w w' r r' : Nat} {second : Nat → Writer Stop Nat} (h : Bounded w r second) (more : w ≤ w')
    (larger : r ≤ r') : Bounded w' r' second := fun out =>
  (h out).mono (Nat.le_refl _) (by omega) fun _ le => Nat.le_trans le larger

theorem block_bounded (bytes : Bytes) : Bounded bytes.length bytes.length (block bytes) := fun _ =>
  .bind (.storeAll (Nat.le_refl _) (Nat.le_refl _)) fun _ _ => .pure (Nat.le_refl _)

theorem block_ends (bytes : Bytes) (out : Nat) :
    Ends (fun len w => len = bytes.length ∧ ∀ j, out ≤ j → j < out + bytes.length → j ∈ w) (block bytes out) :=
  .bind (.storeAll out bytes) fun _ _ all => .pure ⟨rfl, all⟩

theorem nboSecond_bounded (k : Nat) (l : Outcome Int) : Bounded k k (nboSecond k l) := fun out =>
  .bind (Q := fun _ => True) (.ofExcept fun _ _ => trivial) fun i _ => by
    have bounded := block_bounded (writeNbo k i) out
    rwa [length_writeNbo] at bounded

theorem nboSecond_ends {k : Nat} {l : Outcome Int} {i : Int} (read : l = .ok i) (out : Nat) :
    Ends (fun len w => len = k ∧ ∀ j, out ≤ j → j < out + k → j ∈ w) (nboSecond k l out) := by
  have ends := block_ends (writeNbo k i) out
  rw [length_writeNbo] at ends
  subst read
  exact ends

/-- How many characters an integer has. -/
def integerLength (sll : Int) : Nat := (Text.integerText sll).length

theorem length_writtenDigits (sll : Int) :
    (digitsBack sll.natAbs ++ if sll < 0 then [minus] else []).length = integerLength sll := by
  rw [integerLength, ← Text.writeInteger_eq, Text.writeInteger, List.length_reverse]

theorem integerLength_pos (sll : Int) : 0 < integerLength sll := by
  unfold integerLength Text.integerText
  split
  · simp
  · exact List.length_pos_of_ne_nil (decimal_ne_nil _)

theorem reverseInPlace_writes {lo hi fuel start stop : Nat} (low : lo ≤ start) (high : stop < hi) :
    Writes lo hi (fun _ => True) (reverseInPlace fuel start stop) := by
  induction fuel generalizing start stop with
  | zero => exact .pure trivial
  | succ fuel ih =>
    unfold reverseInPlace
    split
    · refine .bind (.load _) fun _ _ => .bind (.load _) fun _ _ => ?_
      refine .bind (.store _ (by omega) (by omega)) fun _ _ => .bind (.store _ (by omega) (by omega)) fun _ _ => ?_
      exact ih (by omega) (by omega)
    · exact .pure trivial

theorem reverseInPlace_ends (fuel start stop : Nat) : Ends (fun _ _ => True) (reverseInPlace fuel start stop) := by
  induction fuel generalizing start stop with
  | zero => exact .pure trivial
  | succ fuel ih =>
    unfold reverseInPlace
    split
    · refine .bind (.load _) fun _ _ _ => .bind (.load _) fun _ _ _ => ?_
      exact .bind (.store _ _) fun _ _ _ => .bind (.store _ _) fun _ _ _ => ih _ _
    · exact .pure trivial

theorem writeIntegerAt_bounded (sll : Int) : Bounded (integerLength sll) (integerLength sll) (writeIntegerAt sll) := by
  intro out
  have length := length_writtenDigits sll
  have positive := integerLength_pos sll
  unfold writeIntegerAt
  simp only [length]
  refine .bind (.storeAll (Nat.le_refl _) (by omega)) fun _ _ => ?_
  exact .bind (reverseInPlace_writes (Nat.le_refl _) (by omega)) fun _ _ => .pure (Nat.le_refl _)

theorem writeIntegerAt_ends (sll : Int) (out : Nat) :
    Ends (fun len w => len = integerLength sll ∧ ∀ j, out ≤ j → j < out + integerLength sll → j ∈ w)
      (writeIntegerAt sll out) := by
  have length := length_writtenDigits sll
  unfold writeIntegerAt
  simp only [length]
  refine .bind (.storeAll out _) fun _ w all => ?_
  refine .bind (reverseInPlace_ends _ _ _) fun _ w' _ => .pure ⟨rfl, fun j low high => ?_⟩
  rw [length] at all
  simp [all j low high]

theorem pgTextEncInteger_keeps {value : Value} {answer : Answer} (first : pgTextEncInteger api value = .ok answer) :
    answer.Keeps := by
  obtain ⟨intermediate, -, first⟩ := Outcome.of_bind first
  split at first
  · rename_i sll
    by_cases fixnum : isFixnum sll = true
    · rw [if_pos fixnum] at first
      cases first
      exact (writeIntegerAt_bounded sll).mono (Text.length_integerText_le fixnum) (Text.length_integerText_le fixnum)
    · rw [if_neg fixnum] at first
      cases first
      trivial
  · cases first
    trivial

theorem pgTextEncBoolean_keeps {value : Value} {answer : Answer} (first : pgTextEncBoolean api value = .ok answer) :
    answer.Keeps := by
  unfold pgTextEncBoolean at first
  split at first
  · cases first
    exact block_bounded [0x66]
  · cases first
    exact block_bounded [0x74]
  · obtain ⟨l, -, first⟩ := Outcome.of_bind first
    split at first
    · cases first
      exact block_bounded [0x30]
    · split at first
      · cases first
        exact block_bounded [0x31]
      · exact pgTextEncInteger_keeps first
  · cases first
    trivial

theorem fractionLoop_writes {out k ll len : Nat} (small : k ≤ 15) (counted : len + k ≤ 15) :
    Writes out (out + 17) (fun r => r.2 ≤ 15) (fractionLoop out k ll len) := by
  induction k generalizing ll len with
  | zero => exact .pure (by simpa using counted)
  | succ k ih =>
    unfold fractionLoop
    split
    · exact .bind (.store _ (by omega) (by omega)) fun _ _ => ih (by omega) (by omega)
    · exact ih (by omega) (by omega)

theorem storeDot_writes {out hi len : Nat} (room : out + 1 < hi) :
    Writes out hi (fun r => r ≤ len + 1) (storeDot out len) := by
  unfold storeDot
  split
  · exact .bind (.store _ (by omega) room) fun _ _ => .pure (Nat.le_refl _)
  · exact .pure (Nat.le_succ _)

/-- Exponents of up to three digits fit behind the digits. -/
theorem exponentFormat_bounded {ll : Nat} {exp10i : Int} (short : exp10i.natAbs < 1000) :
    Bounded 22 22 (exponentFormat ll exp10i) := by
  intro out
  have length : integerLength exp10i ≤ 4 := by
    have digits : (decimal exp10i.natAbs).length ≤ 3 := (length_decimal_le (by decide)).2 short
    unfold integerLength Text.integerText
    split
    · exact Nat.succ_le_succ digits
    · omega
  refine .bind ((fractionLoop_writes (Nat.le_refl _) (Nat.le_refl _)).mono (Nat.le_refl _) (by omega)
    fun _ h => h) fun r counted => ?_
  refine .bind (storeDot_writes (by omega)) fun len dotted => ?_
  refine .bind (.store _ (by omega) (by omega)) fun _ _ => .bind (.store _ (by omega) (by omega)) fun _ _ => ?_
  refine .bind ((writeIntegerAt_bounded exp10i (out + (len + 2))).mono (by omega) (by omega) fun _ h => h)
    fun n written => .pure ?_
  omega

theorem plainLoop_writes {lz out k ll len : Nat} :
    Writes out (out + k) (fun r => r ≤ len + k) (plainLoop lz out k ll len) := by
  induction k using Nat.strongRecOn generalizing ll len with
  | ind k ih =>
    match k with
    | 0 => exact .pure (Nat.le_refl _)
    | 1 =>
      unfold plainLoop
      split
      · exact .bind (.store _ (by omega) (by omega)) fun _ _ => .pure (Nat.le_refl _)
      · exact .pure (by omega)
    | k + 2 =>
      unfold plainLoop
      split
      · refine .bind (.store _ (by omega) (by omega)) fun _ _ => .bind (.store _ (by omega) (by omega)) fun _ _ => ?_
        exact (ih k (by omega)).mono (Nat.le_refl _) (by omega) fun _ le => by omega
      · split
        · refine .bind (.store _ (by omega) (by omega)) fun _ _ => ?_
          exact (ih (k + 1) (by omega)).mono (Nat.le_refl _) (by omega) fun _ le => by omega
        · exact (ih (k + 1) (by omega)).mono (Nat.le_refl _) (by omega) fun _ le => by omega

theorem plainFormat_bounded {ll : Nat} {exp10i : Int} (near : -5 < exp10i) : Bounded 22 22 (plainFormat ll exp10i) :=
  fun _ => plainLoop_writes.mono (Nat.le_refl _) (by omega) fun _ le => by omega

/-- Doubles have exponents of up to three digits. -/
theorem floatDigits_exponent (mant : Fin (2 ^ 53)) (exp : Fin 2046) : (floatDigits api mant exp).2.natAbs < 1000 := by
  have digits : Nat.log2 mant.val ≤ 52 := by
    by_cases zero : mant.val = 0
    · simp [zero]
    · exact Nat.le_of_lt_succ ((Nat.log2_lt zero).2 mant.isLt)
  have range : -1074 ≤ frexpExp mant exp ∧ frexpExp mant exp ≤ 1024 := by
    have := exp.isLt
    unfold frexpExp
    split <;> omega
  unfold floatDigits exp10Of
  dsimp only
  split <;> dsimp only <;> omega

theorem writeFloatAt_bounded (mant : Fin (2 ^ 53)) (exp : Fin 2046) : Bounded 22 22 (writeFloatAt api mant exp) := by
  intro out
  unfold writeFloatAt
  dsimp only
  split
  · exact exponentFormat_bounded (floatDigits_exponent mant exp) out
  · rename_i near
    exact plainFormat_bounded (by omega) out

theorem floatSecond_bounded (value : Value) : Bounded 23 23 (floatSecond api value) := by
  intro out
  refine .bind (Q := fun _ => True) (.ofExcept fun _ _ => trivial) fun d _ => ?_
  split
  · exact (block_bounded _).mono (by decide) (by decide) out
  · exact (block_bounded _).mono (by decide) (by decide) out
  · exact (block_bounded _).mono (by decide) (by decide) out
  · split
    · refine .bind (.store _ (Nat.le_refl _) (by omega)) fun _ _ => ?_
      refine .bind ((writeFloatAt_bounded _ _ (out + 1)).mono (by omega) (by omega) fun _ h => h) fun len written => ?_
      exact .pure (by omega)
    · exact (writeFloatAt_bounded _ _).mono (by decide) (by decide) out

theorem pgTextEncFloat_keeps {value : Value} {answer : Answer} (first : pgTextEncFloat api value = .ok answer) :
    answer.Keeps := by
  cases first
  exact floatSecond_bounded value

theorem pgTextEncNumeric_keeps {value : Value} {answer : Answer} (first : pgTextEncNumeric api value = .ok answer) :
    answer.Keeps := by
  unfold pgTextEncNumeric at first
  split at first
  · exact pgTextEncInteger_keeps first
  · exact pgTextEncFloat_keeps first
  · cases first
    trivial

theorem length_hexText (s : Bytes) : (hexText s).length = 2 + s.length * 2 := by
  have digits : (s.flatMap fun c : UInt8 => [hextab (c >>> 4), hextab (c &&& 0xf)]).length = s.length * 2 := by
    induction s with
    | nil => rfl
    | cons c s ih =>
      rw [List.flatMap_cons, List.length_append, ih, List.length_cons]
      simp only [List.length_cons, List.length_nil]
      omega
  rw [hexText, List.length_cons, List.length_cons, digits]
  omega

theorem pgTextEncBytea_keeps {value : Value} {answer : Answer} (first : pgTextEncBytea api value = .ok answer) :
    answer.Keeps := by
  unfold pgTextEncBytea at first
  dsimp only at first
  split at first
  · cases first
  · cases first
    have bounded := block_bounded (hexText (rbObjAsString api.toRuntime value))
    rwa [length_hexText] at bounded

theorem pgBinEncBoolean_keeps {value : Value} {answer : Answer} (first : pgBinEncBoolean value = .ok answer) :
    ∃ second, answer = .size 1 second ∧ Bounded 1 1 second := by
  unfold pgBinEncBoolean at first
  split at first
  · cases first
    exact ⟨_, rfl, block_bounded [1]⟩
  · cases first
    exact ⟨_, rfl, block_bounded [0]⟩
  · cases first

theorem binEncInt_keeps {k : Nat} {num2 : Value → Outcome Int} {value : Value} {answer : Answer}
    (first : binEncInt api k num2 value = .ok answer) : ∃ second, answer = .size k second ∧ Bounded k k second := by
  obtain ⟨intermediate, -, first⟩ := Outcome.of_bind first
  cases first
  exact ⟨_, rfl, nboSecond_bounded k _⟩

theorem pgBinEncTimestamp_keeps {flags : Nat} {value : Value} {answer : Answer}
    (first : pgBinEncTimestamp api flags value = .ok answer) : answer.Keeps := by
  unfold pgBinEncTimestamp at first
  split at first
  · split at first
    · cases first
      exact nboSecond_bounded 8 _
    · cases first
      trivial
  · split at first
    · obtain ⟨time, -, first⟩ := Outcome.of_bind first
      cases first
      exact nboSecond_bounded 8 _
    · cases first
      exact nboSecond_bounded 8 _

theorem pgBinEncDate_keeps {value : Value} {answer : Answer} (first : pgBinEncDate api value = .ok answer) :
    answer.Keeps := by
  unfold pgBinEncDate at first
  split at first
  · split at first
    · cases first
      exact nboSecond_bounded 4 _
    · cases first
      trivial
  · cases first
    exact nboSecond_bounded 4 _

end RubyPg.TwoPass
