import RubyPg.Tuple.Methods

/-!
# The invariant of tuples

A tuple is a view of a row, its `Origin`. `Holds` is the invariant: the fields that are materialised
have their value, the result is only dropped when all of them are, every cast went through the type
map of the beginning, and no field was cast twice. `Lazily` is the rule for programs: they keep the
invariant, also where they raise, and never forget a field.
-/

namespace RubyPg.PgTuple
set_option autoImplicit false

variable {κ ν τ ρ : Type} [DecidableEq κ] {rs : Results κ ν τ ρ}

/-- What a tuple is a view of: the names and values of a row, and where the values come from. -/
structure Origin (rs : Results κ ν τ ρ) where
  names : List κ
  value : Nat → ν
  source : Option (τ × ρ × Int)
  sound : ∀ typemap result row, source = some (typemap, result, row) → ∀ col, rs.value typemap result row col = value col

/-- The field has its value. -/
def Materialised (w : World κ ν τ ρ) (col : Nat) : Prop := ∃ v, w.tuple.values[col]? = some (some v)

/-- The event is a cast of the column that succeeded. -/
def Event.succeeded (col : Nat) : Event κ ν τ ρ → Bool
  | .cast _ _ _ c true => c == col
  | _ => false

/-- How often a column was cast with success. -/
def successes (col : Nat) (log : List (Event κ ν τ ρ)) : Nat := log.countP (Event.succeeded col)

/-- What may happen: casts through the source, and values that are those of the row. -/
def Origin.Allows (o : Origin rs) : Event κ ν τ ρ → Prop
  | .cast typemap result row _ _ => o.source = some (typemap, result, row)
  | .dangling _ => False
  | .gave col v => v = o.value col
  | .yielded name col v => o.names[col]? = some name ∧ v = o.value col

/-- The tuple is a view of the row. -/
structure Holds (o : Origin rs) (w : World κ ν τ ρ) : Prop where
  numFields : w.tuple.numFields = o.names.length
  length : w.tuple.values.length = o.names.length
  fieldMap : w.tuple.fieldMap = OrderedHash.indexHash o.names
  behind : w.tuple.behind =
    if o.names.length ≠ (OrderedHash.indexHash o.names).length then some o.names else none
  value : ∀ col v, w.tuple.values[col]? = some (some v) → v = o.value col
  attached : (∃ typemap result, w.tuple.typemap = some typemap ∧ w.tuple.result = some result ∧
    o.source = some (typemap, result, w.tuple.rowNum)) ∨ ∀ col, col < o.names.length → Materialised w col
  allowed : ∀ event ∈ w.log, o.Allows event
  once : ∀ col, successes col w.log ≤ 1
  untouched : ∀ col, ¬Materialised w col → successes col w.log = 0

/-- `m` keeps the invariant and forgets no field, whether it returns or raises, and returns with `Q`
from all states with `P`. -/
def Lazily {α : Type} (o : Origin rs) (P : World κ ν τ ρ → Prop) (m : TupleMethod κ ν τ ρ α)
    (Q : α → World κ ν τ ρ → Prop) : Prop :=
  ∀ w, Holds o w → P w → Holds o (m w).2 ∧ (∀ col, Materialised w col → Materialised (m w).2 col) ∧
    ∀ a, (m w).1 = .ok a → Q a (m w).2

namespace Lazily

variable {α β : Type} {o : Origin rs} {P P' : World κ ν τ ρ → Prop} {m : TupleMethod κ ν τ ρ α}
  {Q Q' : α → World κ ν τ ρ → Prop} {R : β → World κ ν τ ρ → Prop}

theorem pure {a : α} : Lazily o P (Pure.pure a) fun b w => b = a ∧ P w := by
  intro w holds before
  refine ⟨holds, fun _ same => same, ?_⟩
  rintro b eq
  cases eq
  exact ⟨rfl, before⟩

theorem raise (stop : Stop) : Lazily o P (Method.raise stop) Q := by
  intro w holds _
  refine ⟨holds, fun _ same => same, ?_⟩
  intro a eq
  cases eq

theorem read : Lazily o P Method.read fun w' w => w' = w ∧ P w := by
  intro w holds before
  refine ⟨holds, fun _ same => same, ?_⟩
  rintro w' eq
  cases eq
  exact ⟨rfl, before⟩

theorem ofExcept {r : Outcome α} : Lazily o P (Method.ofExcept r) fun a w => r = .ok a ∧ P w := by
  intro w holds before
  exact ⟨holds, fun _ same => same, fun a eq => ⟨eq, before⟩⟩

theorem bind {k : α → TupleMethod κ ν τ ρ β} (first : Lazily o P m Q) (next : ∀ a, Lazily o (Q a) (k a) R) :
    Lazily o P (m >>= k) R := by
  intro w holds before
  obtain ⟨holds', grows, after⟩ := first w holds before
  cases run : m w with
  | mk result w' =>
    rw [run] at holds' grows after
    cases result with
    | error e =>
      rw [Method.bind_error run]
      exact ⟨holds', grows, fun _ eq => by cases eq⟩
    | ok a =>
      rw [Method.bind_ok run]
      obtain ⟨holds'', grows', after'⟩ := next a w' holds' (after a rfl)
      exact ⟨holds'', fun col there => grows' col (grows col there), after'⟩

theorem mono (spec : Lazily o P m Q) (stronger : ∀ w, P' w → P w) (weaker : ∀ a w, Q a w → Q' a w) :
    Lazily o P' m Q' := by
  intro w holds before
  obtain ⟨holds', grows, after⟩ := spec w holds (stronger w before)
  exact ⟨holds', grows, fun a eq => weaker a _ (after a eq)⟩

/-- A condition that is not about the state. -/
theorem assume {p : Prop} (spec : p → Lazily o P m Q) : Lazily o (fun w => p ∧ P w) m Q :=
  fun w holds before => spec before.1 w holds before.2

/-- Only what is needed afterwards. -/
theorem post (spec : Lazily o P m Q) (weaker : ∀ a w, Q a w → Q' a w) : Lazily o P m Q' :=
  spec.mono (fun _ before => before) weaker

/-- Only what is known before. -/
theorem pre (spec : Lazily o P m Q) (stronger : ∀ w, P' w → P w) : Lazily o P' m Q :=
  spec.mono stronger fun _ _ after => after

/-- Fields that are materialised before are so afterwards. -/
theorem keeping (spec : Lazily o P m Q) (cols : Nat → Prop) :
    Lazily o (fun w => P w ∧ ∀ col, cols col → Materialised w col) m
      fun a w => Q a w ∧ ∀ col, cols col → Materialised w col := by
  intro w holds before
  obtain ⟨holds', grows, after⟩ := spec w holds before.1
  exact ⟨holds', grows, fun a eq => ⟨after a eq, fun col member => grows col (before.2 col member)⟩⟩

end Lazily

section Steps

variable {o : Origin rs}

/-- A change of the state that the tuple and the log do not see. -/
theorem Holds.of_same {w w' : World κ ν τ ρ} (holds : Holds o w) (tuple : w'.tuple = w.tuple) (log : w'.log = w.log) :
    Holds o w' := by
  obtain ⟨typeMap, t, l⟩ := w'
  cases tuple
  cases log
  exact ⟨holds.numFields, holds.length, holds.fieldMap, holds.behind, holds.value, holds.attached, holds.allowed,
    holds.once, holds.untouched⟩

/-- An event that is no cast with success may be recorded if it is allowed. -/
theorem Holds.note {w : World κ ν τ ρ} (holds : Holds o w) {event : Event κ ν τ ρ} (allowed : o.Allows event)
    (plain : ∀ col, event.succeeded col = false) : Holds o ⟨w.typeMap, w.tuple, event :: w.log⟩ := by
  have same : ∀ col, successes col (event :: w.log) = successes col w.log := by
    intro col
    exact List.countP_cons_of_neg (by rw [plain col]; exact Bool.false_ne_true)
  refine ⟨holds.numFields, holds.length, holds.fieldMap, holds.behind, holds.value, holds.attached, ?_, ?_, ?_⟩
  · intro e member
    rcases List.mem_cons.1 member with rfl | earlier
    · exact allowed
    · exact holds.allowed e earlier
  · intro col
    rw [same]
    exact holds.once col
  · intro col missing
    rw [same]
    exact holds.untouched col missing

/-- A cast with success, and the value that is stored for it. -/
theorem Holds.cast {w : World κ ν τ ρ} (holds : Holds o w) {typemap : τ} {result : ρ} {row : Int} {col : Nat}
    (source : o.source = some (typemap, result, row)) (there : w.tuple.values[col]? = some none) :
    Holds o ⟨w.typeMap, { w.tuple with values := w.tuple.values.set col (some (rs.value typemap result row col)) },
      .cast typemap result row col true :: w.log⟩ := by
  have inside : col < w.tuple.values.length := (List.getElem?_eq_some_iff.1 there).1
  have entry : ∀ i, (w.tuple.values.set col (some (rs.value typemap result row col)))[i]? =
      if col = i then some (some (rs.value typemap result row col)) else w.tuple.values[i]? := by
    intro i
    rw [List.getElem?_set]
    by_cases same : col = i
    · rw [if_pos same, if_pos same, if_pos inside]
    · rw [if_neg same, if_neg same]
  have absent : ¬Materialised w col := by
    rintro ⟨v, present⟩
    rw [there] at present
    cases present
  have counted : ∀ i, successes i (Event.cast typemap result row col true :: w.log) =
      successes i w.log + if col = i then 1 else 0 := by
    intro i
    by_cases same : col = i
    · rw [if_pos same]
      exact List.countP_cons_of_pos (beq_iff_eq.2 same)
    · rw [if_neg same]
      exact List.countP_cons_of_neg (fun eq => same (beq_iff_eq.1 eq))
  refine ⟨holds.numFields, ?_, holds.fieldMap, holds.behind, ?_, ?_, ?_, ?_, ?_⟩
  · exact List.length_set.trans holds.length
  · intro i v present
    rw [entry] at present
    split at present
    · rename_i same
      cases present
      exact same ▸ o.sound _ _ _ source col
    · exact holds.value i v present
  · rcases holds.attached with left | all
    · exact Or.inl left
    · have materialised := all col (holds.length ▸ inside)
      exact absurd materialised absent
  · intro e member
    rcases List.mem_cons.1 member with rfl | earlier
    · exact source
    · exact holds.allowed e earlier
  · intro i
    rw [counted]
    split
    · rename_i same
      rw [← same, holds.untouched col absent]
    · exact holds.once i
  · intro i missing
    have different : col ≠ i := by
      rintro rfl
      apply missing
      exact ⟨_, (entry col).trans (if_pos rfl)⟩
    rw [counted, if_neg different]
    apply holds.untouched
    rintro ⟨v, present⟩
    apply missing
    exact ⟨v, (entry i).trans ((if_neg different).trans present)⟩

/-- **One field is materialised**: it has its value, or its cast has raised and nothing is changed. -/
theorem materializeField_lazily {col : Nat} (inside : col < o.names.length) (P : World κ ν τ ρ → Prop) :
    Lazily o P (materializeField rs col) fun v w => v = o.value col ∧ Materialised w col := by
  intro w holds _
  have there : col < w.tuple.values.length := holds.length ▸ inside
  cases entry : w.tuple.values[col]? with
  | none => exact absurd there (Nat.not_lt_of_le (List.getElem?_eq_none_iff.1 entry))
  | some field =>
    cases field with
    | some v =>
      have run : materializeField rs col w = (.ok v, w) := by
        unfold materializeField
        rw [Method.read_bind, entry]
        rfl
      rw [run]
      refine ⟨holds, fun _ same => same, ?_⟩
      rintro a eq
      cases eq
      exact ⟨holds.value col v entry, v, entry⟩
    | none =>
      have absent : ¬Materialised w col := by
        rintro ⟨v, present⟩
        rw [entry] at present
        cases present
      rcases holds.attached with ⟨typemap, result, hasMap, hasResult, source⟩ | all
      · have start : materializeField rs col w = (typecastResultValue rs typemap result w.tuple.rowNum col >>= fun value => do
            write fun this => { this with values := this.values.set col (some value) }
            pure value : TupleMethod κ ν τ ρ ν) w := by
          unfold materializeField
          rw [Method.read_bind, entry]
          dsimp only
          rw [hasMap, hasResult]
        rw [start]
        cases raised : rs.raises w.log typemap result w.tuple.rowNum col with
        | some exn =>
          have failed : typecastResultValue rs typemap result w.tuple.rowNum col w =
              (.error (.exn exn.1 exn.2), ⟨w.typeMap, w.tuple, .cast typemap result w.tuple.rowNum col false :: w.log⟩) := by
            unfold typecastResultValue
            rw [Method.read_bind, raised]
            rfl
          rw [Method.bind_error failed]
          exact ⟨holds.note source fun _ => rfl, fun _ same => same, fun _ eq => by cases eq⟩
        | none =>
          have done : typecastResultValue rs typemap result w.tuple.rowNum col w =
              (.ok (rs.value typemap result w.tuple.rowNum col),
                ⟨w.typeMap, w.tuple, .cast typemap result w.tuple.rowNum col true :: w.log⟩) := by
            unfold typecastResultValue
            rw [Method.read_bind, raised]
            rfl
          rw [Method.bind_ok done]
          have stored := holds.cast source entry
          refine ⟨stored, ?_, ?_⟩
          · rintro i ⟨v, present⟩
            have different : col ≠ i := by
              rintro rfl
              exact absent ⟨v, present⟩
            exact ⟨v, (List.getElem?_set_ne different).trans present⟩
          · rintro a eq
            cases eq
            exact ⟨o.sound _ _ _ source col, _, List.getElem?_set_self there⟩
      · exact absurd (all col inside) absent

/-- The result is dropped when there is nothing left to cast. -/
theorem detach_lazily :
    Lazily o (fun w => ∀ col, col < o.names.length → Materialised w col) detach fun _ _ => True := by
  intro w holds all
  refine ⟨?_, fun _ same => same, fun _ _ => trivial⟩
  exact ⟨holds.numFields, holds.length, holds.fieldMap, holds.behind, holds.value, Or.inr all, holds.allowed,
    holds.once, holds.untouched⟩

theorem note_lazily {event : Event κ ν τ ρ} (allowed : o.Allows event) (plain : ∀ col, event.succeeded col = false)
    (P : World κ ν τ ρ → Prop) : Lazily o P (note event) fun _ _ => True :=
  fun _ holds _ => ⟨holds.note allowed plain, fun _ same => same, fun _ _ => trivial⟩

theorem setTypeMap_lazily [DecidableEq ρ] (result : ρ) (typemap : τ) (P : World κ ν τ ρ → Prop) :
    Lazily o P (setTypeMap result typemap) fun _ _ => True :=
  fun _ holds _ => ⟨holds.of_same rfl rfl, fun _ same => same, fun _ _ => trivial⟩

/-- **The loop rule**: what the rounds materialise is materialised after the loop. -/
theorem forM_lazily {ι : Type} {body : ι → TupleMethod κ ν τ ρ Unit} (cols : ι → Nat → Prop) {rounds : List ι}
    (one : ∀ i ∈ rounds, Lazily o (fun _ => True) (body i) fun _ w => ∀ col, cols i col → Materialised w col) :
    Lazily o (fun _ => True) (rounds.forM body) fun _ w => ∀ i ∈ rounds, ∀ col, cols i col → Materialised w col := by
  induction rounds with
  | nil =>
    intro w holds _
    exact ⟨holds, fun _ same => same, fun _ _ _ member => absurd member List.not_mem_nil⟩
  | cons i rounds ih =>
    have first := one i List.mem_cons_self
    have rest := (ih fun j member => one j (List.mem_cons_of_mem _ member)).keeping (cols i)
    have both := first.bind (k := fun _ => rounds.forM body) fun _ => rest.pre fun w here => ⟨trivial, here⟩
    apply both.post
    intro _ w after j member
    rcases List.mem_cons.1 member with rfl | later
    · exact after.2
    · exact after.1 j later

end Steps

end RubyPg.PgTuple
