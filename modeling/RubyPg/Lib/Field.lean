import RubyPg.Lib.Cursor
import RubyPg.Lib.Nbo

/-!
# Fields with their length in front

The form in which binary data holds a field that may be NULL: four bytes with the length and then
the bytes, or -1.
-/

namespace RubyPg
set_option autoImplicit false

/-- A field: the length and the bytes, or -1. -/
def fieldText : Option (List UInt8) → List UInt8
  | none => writeNbo 4 (-1)
  | some field => writeNbo 4 field.length ++ field

/-- A length that fits is read back. -/
theorem readNbo_length {n : Nat} (small : n < 2 ^ 31) : readNbo (writeNbo 4 n) = n := by
  have size : ((256 ^ 4 : Nat) : Int) = 4294967296 := by decide
  apply readNbo_writeNbo
  · omega
  · omega

/-- A field has at least its length in it. -/
theorem four_mul_length_le (fields : List (Option (List UInt8))) :
    4 * fields.length ≤ (fields.flatMap fieldText).length := by
  induction fields with
  | nil => exact Nat.le_refl _
  | cons field fields ih =>
    have four : 4 ≤ (fieldText field).length := by
      cases field with
      | none => exact Nat.le_of_eq (length_writeNbo 4 _).symm
      | some s =>
        rw [fieldText, List.length_append, length_writeNbo]
        exact Nat.le_add_right 4 _
    rw [List.flatMap_cons, List.length_append, List.length_cons]
    omega

/-- The bytes of a field are among those of all fields. -/
theorem length_le_of_mem {fields : List (Option (List UInt8))} {s : List UInt8} (member : some s ∈ fields) :
    s.length ≤ (fields.flatMap fieldText).length := by
  obtain ⟨before, behind, rfl⟩ := List.append_of_mem member
  rw [List.flatMap_append, List.flatMap_cons, fieldText]
  simp only [List.length_append]
  omega

namespace Reader

variable {ε α : Type} {short : Nat → ε}

/-- Read a field: `null` for the NULL indicator, else what the bytes are cast to. -/
def field (short : Nat → ε) (null : α) (cast : List UInt8 → Except ε α) : Reader ε α := do
  let inputLen ← take short 4
  if readNbo inputLen < 0 then
    if readNbo inputLen ≠ -1 then fail short else pure null
  else do
    let fieldStr ← take short (readNbo inputLen).toNat
    Method.ofExcept (cast fieldStr)

/-- A field is cut off in the same way, whatever it is cast to. -/
theorem field_cases (short : Nat → ε) (st : Cursor) :
    (∃ e st', ∀ {α : Type} (null : α) cast, field short null cast st = (.error e, st')) ∨
      ∃ (bytes : Option (List UInt8)) (st' : Cursor), ∀ {α : Type} (null : α) cast, field short null cast st = ((bytes.map cast).getD (.ok null), st') := by
  cases length : take short 4 st with
  | mk result st₁ =>
    cases result with
    | error e => exact .inl ⟨e, st₁, fun null cast => Method.bind_error length⟩
    | ok inputLen =>
      by_cases negative : readNbo inputLen < 0
      · by_cases other : readNbo inputLen ≠ -1
        · refine .inl ⟨short st₁.pos, st₁, fun null cast => (Method.bind_ok length).trans ?_⟩
          rw [if_pos negative, if_pos other]
          rfl
        · refine .inr ⟨none, st₁, fun null cast => (Method.bind_ok length).trans ?_⟩
          rw [if_pos negative, if_neg other]
          rfl
      · cases bytes : take short (readNbo inputLen).toNat st₁ with
        | mk result st₂ =>
          cases result with
          | error e =>
            refine .inl ⟨e, st₂, fun null cast => (Method.bind_ok length).trans ?_⟩
            rw [if_neg negative]
            exact Method.bind_error bytes
          | ok fieldStr =>
            refine .inr ⟨some fieldStr, st₂, fun null cast => (Method.bind_ok length).trans ?_⟩
            rw [if_neg negative]
            exact Method.bind_ok bytes

/-- A field is read as the value it is cast to. -/
theorem Reads.field {null v : α} {cast : List UInt8 → Except ε α} {bytes : Option (List UInt8)}
    (small : ∀ s, bytes = some s → s.length < 2 ^ 31) (absent : bytes = none → v = null)
    (casts : ∀ s, bytes = some s → cast s = .ok v) :
    Reads short (field short null cast) (fieldText bytes) v := by
  cases bytes with
  | none =>
    have minus : readNbo (fieldText none) = -1 := by decide
    refine .map (Reads.take (length_writeNbo 4 (-1))) ?_
    rw [if_pos (by omega), if_neg (not_not.2 minus), absent rfl]
  | some s =>
    have length := readNbo_length (small s rfl)
    refine .bind (Reads.take (length_writeNbo 4 s.length)) ?_
    rw [if_neg (by omega), length, Int.toNat_natCast]
    refine .map (Reads.take rfl) ?_
    rw [casts s rfl]
    rfl

end Reader

end RubyPg
