import RubyPg.Result.Breaches
import RubyPg.Result.Services

/-!
# The rounds of a stream

`pgresult_stream_any` by rounds, one for each `PGresult`. The three ways of yielding its rows are
`Kind`s, and what a stream needs to know of them is `Kind.Correct`: the fate of the rows of a round,
and what happens in a round that comes after the block has cleared the result.
-/

namespace RubyPg.PgResult
set_option autoImplicit false

variable {α β ε : Type}

/-- The statuses on which `pgresult_stream_any` goes on. -/
def ExecStatus.goesOn : ExecStatus → Bool
  | .singleTuple | .tuplesChunk | .copyOut | .copyIn | .copyBoth | .emptyQuery | .pipelineSync => true
  | _ => false

/-- The statuses at the end of a command. -/
def ExecStatus.finished : ExecStatus → Bool
  | .tuplesOk | .commandOk => true
  | _ => false

theorem ExecStatus.unfinished {status : ExecStatus} (goes : status.goesOn = true) : ¬status.finished = true := by
  cases status <;> simp_all [goesOn, finished]

/-- The rows of a round, and a `pgresult_clear` if the way of yielding them asks for it. -/
def chunk (yielder : Nat → Nat → Iter α β ε Bool) (ntuples nfields : Nat) : Iter α β ε Bool := do
  if ← yielder ntuples nfields then
    Method.change (·.pgresultClear 0)
    pure true
  else pure true

section Round

variable {w w' : World α β} {p : Pointer β} {yielder : Nat → Nat → Iter α β ε Bool} {nfields : Nat} {e : Exit ε}
  {incoming : List (Delivery β ε)}

/-- `pg_result_check` reads the status of what the object holds. -/
theorem pgResultCheck_live (live : Live w 0 p) : (pgResultCheck 0 : Iter α β ε Unit) w =
    (match p.status with
      | .tuplesOk | .copyOut | .copyIn | .copyBoth | .singleTuple | .emptyQuery | .commandOk
      | .pipelineSync | .tuplesChunk => .ok ()
      | .badResponse | .fatalError | .nonfatalError | .pipelineAborted => .error (.error (.server p.sqlstate) p.errorMessage)
      | .unknown => .error (.error (.server p.sqlstate) "internal error : unknown result status."), w) := by
  have status : (ask p (·.status) : Iter α β ε _) w = (.ok p.status, w) := ask_unreleased live.unreleased
  have message : (ask p (·.errorMessage) : Iter α β ε _) w = (.ok p.errorMessage, w) := ask_unreleased live.unreleased
  have code : (ask p (·.sqlstate) : Iter α β ε _) w = (.ok p.sqlstate, w) := ask_unreleased live.unreleased
  have this : (pgresultGetThis 0 : Iter α β ε _) w = (.ok (w.store.object 0), w) := rfl
  unfold pgResultCheck
  rw [Method.bind_ok this, live.holds]
  show (ask p _ >>= _) w = _
  rw [Method.bind_ok status]
  cases p.status
  case badResponse | fatalError | nonfatalError | pipelineAborted =>
    exact (Method.bind_ok message).trans ((Method.bind_ok code).trans rfl)
  case unknown => exact (Method.bind_ok code).trans rfl
  all_goals rfl

theorem streamStatus_goes (live : Live w 0 p) (goes : p.status.goesOn = true) (ntuples : Nat) :
    (streamStatus p ntuples : Iter α β ε Bool) w = (.ok true, w) := by
  have status : (ask p (·.status) : Iter α β ε _) w = (.ok p.status, w) := ask_unreleased live.unreleased
  have check := pgResultCheck_live (α := α) (ε := ε) live
  unfold streamStatus
  rw [Method.bind_ok status]
  cases known : p.status <;> rw [known] at goes check
  case singleTuple | tuplesChunk => rfl
  case copyOut | copyIn | copyBoth | emptyQuery | pipelineSync => exact Method.bind_ok check
  all_goals cases goes

theorem streamStatus_finished (live : Live w 0 p) (finished : p.status.finished = true) :
    (streamStatus p 0 : Iter α β ε Bool) w = (.ok false, w) := by
  have status : (ask p (·.status) : Iter α β ε _) w = (.ok p.status, w) := ask_unreleased live.unreleased
  unfold streamStatus
  rw [Method.bind_ok status]
  cases known : p.status <;> rw [known] at finished
  case tuplesOk | commandOk => rfl
  all_goals cases finished

/-- On any other result the iteration raises. -/
theorem streamStatus_raises (live : Live w 0 p) (stops : p.status.goesOn = false) {ntuples : Nat}
    (more : p.status.finished = true → ntuples ≠ 0) :
    ∃ cls msg, cls ≠ .pgError ∧ (streamStatus p ntuples : Iter α β ε Bool) w = (.error (.error cls msg), w) := by
  have status : (ask p (·.status) : Iter α β ε _) w = (.ok p.status, w) := ask_unreleased live.unreleased
  have check := pgResultCheck_live (α := α) (ε := ε) live
  unfold streamStatus
  rw [Method.bind_ok status]
  cases known : p.status <;> rw [known] at stops more check
  case tuplesOk | commandOk =>
    refine ⟨.invalidResultStatus, "PG::Result is not in single row mode", by simp, ?_⟩
    dsimp only
    rw [if_neg (more rfl)]
    rfl
  case badResponse | fatalError | nonfatalError | pipelineAborted | unknown =>
    exact ⟨.server p.sqlstate, _, by simp, Method.bind_error check⟩
  all_goals cases stops

variable (yielder) in
theorem streamRound_goes (live : Live w 0 p) (goes : p.status.goesOn = true) (same : nfields = p.nfields) :
    streamRound yielder nfields p w = chunk yielder p.ntuples nfields w := by
  have ntuples : (ask p (·.ntuples) : Iter α β ε _) w = (.ok p.ntuples, w) := ask_unreleased live.unreleased
  have count : (ask p (·.nfields) : Iter α β ε _) w = (.ok p.nfields, w) := ask_unreleased live.unreleased
  have fields : (checkFields nfields p.nfields : Iter α β ε Unit) w = (.ok (), w) := by
    unfold checkFields
    rw [if_neg (not_not_intro same)]
    rfl
  unfold streamRound
  rw [Method.bind_ok ntuples, Method.bind_ok (streamStatus_goes live goes p.ntuples), if_pos rfl, Method.bind_ok count,
    Method.bind_ok fields]
  rfl

theorem streamRound_changed (live : Live w 0 p) (goes : p.status.goesOn = true) (changed : nfields ≠ p.nfields) :
    ∃ msg, streamRound yielder nfields p w =
      (.error (.error .invalidChangeOfResultFields msg), w.pgresultClear 0) := by
  have ntuples : (ask p (·.ntuples) : Iter α β ε _) w = (.ok p.ntuples, w) := ask_unreleased live.unreleased
  have count : (ask p (·.nfields) : Iter α β ε _) w = (.ok p.nfields, w) := ask_unreleased live.unreleased
  unfold streamRound
  rw [Method.bind_ok ntuples, Method.bind_ok (streamStatus_goes live goes p.ntuples), if_pos rfl, Method.bind_ok count]
  unfold checkFields
  rw [if_pos changed]
  exact ⟨_, rfl⟩

theorem streamRound_finished (live : Live w 0 p) (finished : p.status.finished = true) (empty : p.ntuples = 0) :
    streamRound yielder nfields p w = (.ok false, w) := by
  have ntuples : (ask p (·.ntuples) : Iter α β ε _) w = (.ok p.ntuples, w) := ask_unreleased live.unreleased
  unfold streamRound
  rw [Method.bind_ok ntuples, empty, Method.bind_ok (streamStatus_finished live finished)]
  rfl

theorem streamRound_raises (live : Live w 0 p) (stops : p.status.goesOn = false)
    (more : p.status.finished = true → p.ntuples ≠ 0) :
    ∃ cls msg, cls ≠ .pgError ∧ streamRound yielder nfields p w = (.error (.error cls msg), w) := by
  have ntuples : (ask p (·.ntuples) : Iter α β ε _) w = (.ok p.ntuples, w) := ask_unreleased live.unreleased
  obtain ⟨cls, msg, other, raised⟩ := streamStatus_raises (α := α) (ε := ε) live stops more
  refine ⟨cls, msg, other, ?_⟩
  unfold streamRound
  rw [Method.bind_ok ntuples]
  exact Method.bind_error raised

variable (incoming) in
theorem streamLoop_error (round : streamRound yielder nfields p w = (.error e, w')) :
    streamLoop yielder nfields incoming p w = (.error e, w') := by
  cases incoming with
  | nil => exact Method.bind_error round
  | cons delivery incoming =>
    cases delivery with
    | failed e => exact Method.bind_error round
    | result r => exact Method.bind_error round

theorem streamLoop_done (round : streamRound yielder nfields p w = (.ok false, w')) :
    streamLoop yielder nfields incoming p w = (.ok (), w') := by
  cases incoming with
  | nil => exact Method.bind_ok round
  | cons delivery incoming =>
    cases delivery with
    | failed e => exact Method.bind_ok round
    | result r => exact Method.bind_ok round

/-- The state in which the loop goes on with the next result. -/
def World.next (w : World α β) (r : PGresult β) : World α β := { w.moment with store := w.store.assignResult 0 r }

theorem streamLoop_next {r : PGresult β} (round : streamRound yielder nfields p w = (.ok true, w')) :
    streamLoop yielder nfields (.result r :: incoming) p w =
      streamLoop yielder nfields incoming ⟨r, w'.store.arrived⟩ (w'.next r) :=
  Method.bind_ok round

theorem streamLoop_failed {x : ε} (round : streamRound yielder nfields p w = (.ok true, w')) :
    streamLoop yielder nfields (.failed x :: incoming) p w = (.error (.raised x), w'.moment) :=
  Method.bind_ok round

theorem streamLoop_nil (round : streamRound yielder nfields p w = (.ok true, w')) :
    streamLoop yielder nfields [] p w =
      (.error (.error .noResultError "no result received - possibly an intersection with another query"), w'.moment) :=
  Method.bind_ok round

end Round

end RubyPg.PgResult
