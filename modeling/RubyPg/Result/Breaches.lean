import RubyPg.Result.Calls

/-!
# Reading a cleared result

What must not happen to a result that was cleared, and that no method makes up for it once it did.
-/

namespace RubyPg.PgResult
set_option autoImplicit false

variable {α β ε : Type}

/-- A released `PGresult` was read, or the block got a row after it had cleared the result. -/
def Breached (w : World α β) : Prop := w.touched ≠ [] ∨ ∃ n, w.clearedAt = some n ∧ n < w.handed.length

/-- How an iteration may end when the result was cleared: it is over, the block leaves it, or it raises
that the result has been cleared. -/
def Ends : Except (Exit ε) Unit → Prop
  | .ok () => True
  | .error (.block _) => True
  | .error (.error cls msg) => cls = .pgError ∧ msg = "result has been cleared"
  | .error (.raised _) => False

/-- A cleared result is not read: no accessor of libpq is called on released memory, and after the block has
cleared the result it gets no further row and the iteration ends. -/
structure Heeds (out : Except (Exit ε) Unit × World α β) : Prop where
  unread : out.2.touched = []
  unhanded : ∀ n, out.2.clearedAt = some n → out.2.handed.length = n
  ends : out.2.clearedAt ≠ none → Ends out.1

theorem Breached.not_heeds {out : Except (Exit ε) Unit × World α β} (breached : Breached out.2) : ¬Heeds out := by
  intro heeds
  rcases breached with touched | ⟨n, cleared, less⟩
  · exact touched heeds.unread
  · exact absurd (heeds.unhanded n cleared) (Nat.ne_of_gt less)

/-- What is only added to the record keeps a breach. -/
theorem Breached.mono {w w' : World α β} (breached : Breached w) (touched : w.touched <+: w'.touched)
    (cleared : ∀ n, w.clearedAt = some n → w'.clearedAt = some n) (handed : w.handed.length ≤ w'.handed.length) :
    Breached w' := by
  rcases breached with read | ⟨n, at', less⟩
  · left
    intro none
    rw [none] at touched
    exact read (List.prefix_nil.1 touched)
  · exact .inr ⟨n, cleared n at', Nat.lt_of_lt_of_le less handed⟩

namespace Breached

variable {γ : Type}

theorem ask (p : Pointer β) (accessor : PGresult β → γ) :
    Method.Preserves Breached (PgResult.ask p accessor : Iter α β ε γ) := by
  refine .bind (.change fun w breached => ?_) fun _ => .pure _
  split
  · exact breached.mono (List.prefix_append ..) (fun _ at' => at') (Nat.le_refl _)
  · exact breached

theorem write (self : Nat) (f : TPgResult β → TPgResult β) :
    Method.Preserves Breached (Method.change (·.write self f) : Iter α β ε Unit) := .change fun _ breached => breached

theorem getThis (self : Nat) : Method.Preserves Breached (pgresultGetThis self : Iter α β ε _) :=
  .bind .read fun _ => .pure _

theorem get (self : Nat) : Method.Preserves Breached (pgresultGet self : Iter α β ε _) := by
  refine .bind (getThis self) fun this => ?_
  cases this.pgresult with
  | none => exact .raise _
  | some p => exact .pure p

theorem initFnames (self : Nat) : Method.Preserves Breached (pgresultInitFnames self : Iter α β ε _) := by
  refine .bind (get self) fun p => .bind (getThis self) fun this => ?_
  split
  · exact .bind (ask p _) fun _ => .bind (.mapM fun _ => ask p _) fun _ => write self _
  · exact .pure _

theorem typecast (decode : Nat → Nat → β → Except ε α) (self tuple field : Nat) :
    Method.Preserves Breached (typecastResultValue decode self tuple field) := by
  refine .bind (getThis self) fun this => ?_
  cases this.pgresult with
  | none => exact .pure _
  | some p =>
    refine .bind (ask p _) fun value => ?_
    cases value with
    | none => exact .pure _
    | some val => exact .ofExcept _

theorem index (tupleNum numTuples : Nat) : Method.Preserves Breached (checkIndex tupleNum numTuples : Iter α β ε _) := by
  unfold checkIndex
  split
  · exact .pure _
  · exact .raise _

theorem aref (decode : Nat → Nat → β → Except ε α) (self tupleNum : Nat) :
    Method.Preserves Breached (pgresultAref decode self tupleNum) := by
  refine .bind (get self) fun p => .bind (ask p _) fun _ => .bind (initFnames self) fun _ => .bind (index _ _) fun _ => ?_
  refine .bind (getThis self) fun this => .bind (.foldlM (fun entries field => ?_) _) fun _ => .pure _
  exact .bind (typecast decode self tupleNum field) fun _ => .pure _

theorem array (decode : Nat → Nat → β → Except ε α) (self nfields row : Nat) :
    Method.Preserves Breached (rowArray decode self nfields row) :=
  .bind (.mapM fun field => typecast decode self row field) fun _ => .pure _

theorem initForTuple (self : Nat) : Method.Preserves Breached (ensureInitForTuple self : Iter α β ε _) := by
  refine .bind (get self) fun _ => .bind (getThis self) fun this => ?_
  split
  · exact .bind (initFnames self) fun _ => .bind (getThis self) fun _ => write self _
  · exact .pure _

theorem tuple (self tupleNum : Nat) : Method.Preserves Breached (pgresultTuple self tupleNum : Iter α β ε _) := by
  refine .bind (get self) fun p => .bind (ask p _) fun _ => .bind (index _ _) fun _ => .bind (initForTuple self) fun _ => ?_
  refine .bind (getThis self) fun this => ?_
  dsimp only
  split
  · exact .raise _
  · exact .pure _

theorem touched_yield (block : Block ε) (kept : Nat) (row : Row α) (w : World α β) :
    (w.yield block kept row).touched = w.touched := by
  unfold World.yield World.pgResultClear
  split
  · split <;> rfl
  · rfl

/-- The block has cleared the result once and for all. -/
theorem clearedAt_yield {block : Block ε} {kept : Nat} {row : Row α} {w : World α β} {n : Nat}
    (cleared : w.clearedAt = some n) : (w.yield block kept row).clearedAt = some n := by
  have given : (w.give block kept row).clearedAt = some n := cleared
  unfold World.yield World.pgResultClear
  split
  · split
    · exact given
    · rw [given]
      rfl
  · exact given

theorem yield (block : Block ε) (kept : Nat) (row : Row α) :
    Method.Preserves Breached (rbYield block kept row : Iter α β ε _) := by
  intro w breached
  rw [rbYield_apply]
  refine breached.mono ?_ (fun n cleared => clearedAt_yield cleared) ?_
  · rw [touched_yield]
  · rw [handed_yield, List.length_append]
    omega

theorem tuples {block : Block ε} {kept : Nat} {bound : Iter α β ε Nat} {make : Nat → Iter α β ε (Row α)}
    (bounds : Method.Preserves Breached bound) (makes : ∀ n, Method.Preserves Breached (make n)) (fuel n : Nat) :
    Method.Preserves Breached (forTuples block kept bound make fuel n) := by
  induction fuel generalizing n with
  | zero => exact .pure _
  | succ fuel ih =>
    refine .bind bounds fun ntuples => ?_
    split
    · exact .bind (makes n) fun row => .bind (yield block kept row) fun _ => ih (n + 1)
    · exact .pure _

theorem yieldHash (decode : Nat → Nat → β → Except ε α) (block : Block ε) (ntuples nfields : Nat) :
    Method.Preserves Breached (PgResult.yieldHash decode block ntuples nfields) :=
  .bind (tuples (.pure _) (aref decode 0) _ 0) fun _ => .pure _

theorem yieldArray (decode : Nat → Nat → β → Except ε α) (block : Block ε) (ntuples nfields : Nat) :
    Method.Preserves Breached (PgResult.yieldArray decode block ntuples nfields) :=
  .bind (tuples (.pure _) (array decode 0 nfields) _ 0) fun _ => .pure _

theorem yieldTuple (block : Block ε) (ntuples nfields : Nat) :
    Method.Preserves Breached (PgResult.yieldTuple block ntuples nfields : Iter α β ε Bool) := by
  refine .bind .read fun w => .bind (.change fun _ breached => breached) fun _ => .bind (write 0 _) fun _ => ?_
  exact .bind (tuples (.pure _) (fun n => tuple _ n) _ 0) fun _ => .pure _

theorem resultCheck (self : Nat) : Method.Preserves Breached (pgResultCheck self : Iter α β ε _) := by
  refine .bind (getThis self) fun this => ?_
  cases this.pgresult with
  | none => exact .raise _
  | some p =>
    refine .bind (ask p _) fun status => ?_
    cases status
    case badResponse | fatalError | nonfatalError | pipelineAborted =>
      exact .bind (ask p _) fun _ => .bind (ask p _) fun _ => .raise _
    case unknown => exact .bind (ask p _) fun _ => .raise _
    all_goals exact .pure _

theorem streamStatus (p : Pointer β) (ntuples : Nat) :
    Method.Preserves Breached (PgResult.streamStatus p ntuples : Iter α β ε Bool) := by
  refine .bind (ask p _) fun status => ?_
  cases status
  case tuplesOk | commandOk =>
    dsimp only
    split
    · exact .pure _
    · exact .raise _
  case singleTuple | tuplesChunk => exact .pure _
  all_goals exact .bind (resultCheck 0) fun _ => .pure _

section Stream

variable {yielder : Nat → Nat → Iter α β ε Bool}
  (yields : ∀ ntuples nfields, Method.Preserves Breached (yielder ntuples nfields))

include yields

theorem streamRound (nfields : Nat) (p : Pointer β) : Method.Preserves Breached (PgResult.streamRound yielder nfields p) := by
  have clear : Method.Preserves Breached (Method.change (·.pgresultClear 0) : Iter α β ε Unit) :=
    .change fun _ breached => breached
  refine .bind (ask p _) fun ntuples => .bind (streamStatus p ntuples) fun more => ?_
  split
  · refine .bind (ask p _) fun nfields2 => .bind ?_ fun _ => .bind (yields ntuples nfields) fun cleared => ?_
    · unfold checkFields
      split
      · exact .bind clear fun _ => .raise _
      · exact .pure _
    · split
      · exact .bind clear fun _ => .pure _
      · exact .pure _
  · exact .pure _

theorem streamLoop (nfields : Nat) (incoming : List (Delivery β ε)) (p : Pointer β) :
    Method.Preserves Breached (PgResult.streamLoop yielder nfields incoming p) := by
  have moment : Method.Preserves Breached (Method.change World.moment : Iter α β ε Unit) :=
    .change fun _ breached => breached
  induction incoming generalizing p with
  | nil =>
    refine .bind (streamRound yields nfields p) fun more => ?_
    split
    · exact .bind moment fun _ => .raise _
    · exact .pure _
  | cons delivery incoming ih =>
    cases delivery with
    | failed e =>
      refine .bind (streamRound yields nfields p) fun more => ?_
      split
      · exact .bind moment fun _ => .raise _
      · exact .pure _
    | result r =>
      refine .bind (streamRound yields nfields p) fun more => ?_
      split
      · refine .bind moment fun _ => .bind (.bind .read fun _ => .bind ?_ fun _ => .pure _) fun p => ih p
        exact .change fun _ breached => breached
      · exact .pure _

end Stream

end Breached

end RubyPg.PgResult
