import RubyPg.Conn.Libpq

/-!
# `PG::Connection#discard_results`

`pgconn_discard_results` of `ext/pg_connection.c`. The loop drives every result out of the
connection; its progress is the state of libpq. It has a way out of COPY_IN and COPY_OUT
but none out of COPY_BOTH, where `PQgetResult` answers the same result forever.
-/

namespace RubyPg.Conn
set_option autoImplicit false

/-- How `pgconn_discard_results` leaves. -/
inductive Discarded where
  | nil | true | false | raised
deriving DecidableEq, Repr

/-- `while (PQisBusy)`: wait for input; `none` is `goto error`. -/
def waitNotBusy : List Stage → Option (List Stage)
  | .wait .input :: rest => waitNotBusy rest
  | .wait .writable :: rest => waitNotBusy rest
  | .wait .lost :: _ => none
  | stages => some stages

/-- `while (PQputCopyEnd(..) == 0) pgconn_async_flush(..)`. The flush may raise; `none` when the loop has
not ended within `fuel` rounds. -/
def endCopyIn : Nat → List Stage → Option (Except Discarded (List Stage))
  | 0, _ => none
  | fuel + 1, stages =>
    match pqPutCopyEnd stages with
    | (0, .copyIn (.sent :: flushes) :: rest) => endCopyIn fuel (.copyIn flushes :: rest)
    | (0, _) => some (.error .raised)
    | (_, stages) => some (.ok stages)

/-- The loop that reads a COPY_OUT to its end, with `goto error` when `PQconsumeInput` fails. -/
def drainCopyOut : Nat → List Stage → Option (Except Discarded (List Stage))
  | 0, _ => none
  | fuel + 1, stages =>
    let (st, after) := pqGetCopyData stages
    if st = 0 then
      match pqConsumeInput after with
      | none => some (.error .false)
      | some after => drainCopyOut fuel after
    else if 0 < st then drainCopyOut fuel after
    else some (.ok after)

/-- What the loop does about a result: end a COPY_IN, read a COPY_OUT. -/
def endCopy (fuel : Nat) (status : ResultStatus) (stages : List Stage) : Option (Except Discarded (List Stage)) :=
  if status = .copyIn then endCopyIn fuel stages
  else if status = .copyOut then drainCopyOut fuel stages
  else some (.ok stages)

/-- `pgconn_close_socket_io` after a failure. -/
def closeSocketIo (conn : Pq) : Pq := { conn with stages := [], xactStatus := .unknown, closed := true }

/-- The state in which the function leaves early. -/
def leave (conn : Pq) (how : Discarded) (stages : List Stage) : Discarded × Pq :=
  if how = .false then (how, closeSocketIo conn) else (how, { conn with stages })

/-- The outer loop; `none` when it has not ended within `fuel` rounds. -/
def discardLoop (conn : Pq) : Nat → List Stage → Option (Discarded × Pq)
  | 0, _ => none
  | fuel + 1, stages =>
    match waitNotBusy stages with
    | none => some (leave conn .false stages)
    | some stages =>
      match pqGetResult stages with
      | (none, stages) => some (.true, { conn with stages })
      | (some status, stages) =>
        match endCopy fuel status stages with
        | none => none
        | some (.error how) => some (leave conn how stages)
        | some (.ok stages) => discardLoop conn fuel stages

/-- `pgconn_discard_results`. -/
def pgconnDiscardResults (fuel : Nat) (conn : Pq) : Option (Discarded × Pq) :=
  match pqTransactionStatus conn with
  | .idle | .inTrans | .inError => some (.nil, conn)
  | _ => discardLoop conn fuel conn.stages

/-- A stage that the loop does not get past: a COPY_BOTH, or a COPY_IN whose end cannot be flushed. -/
def Stage.Stalls : Stage → Prop
  | .copyBoth _ => True
  | .copyIn flushes => .failed ∈ flushes
  | _ => False

/-- A stage in which the connection gets lost. -/
def Stage.Loses : Stage → Prop
  | .wait round => round = .lost
  | .copyOut items => .lost ∈ items ∨ .broken ∈ items
  | _ => False

/-- Every stage the loop does not get past stands behind a loss of the connection. -/
def Drains (stages : List Stage) : Prop :=
  ∀ front stage rest, stages = front ++ stage :: rest → stage.Stalls → ∃ s ∈ front, s.Loses

theorem drains_nil : Drains [] := by
  intro front stage rest split
  simp at split

/-- The first stage decides, unless the loop gets past it. -/
theorem drains_cons {stage : Stage} {rest : List Stage} :
    Drains (stage :: rest) ↔ ¬stage.Stalls ∧ (stage.Loses ∨ Drains rest) := by
  constructor
  · intro drains
    refine ⟨fun stalls => ?_, ?_⟩
    · obtain ⟨s, member, -⟩ := drains [] stage rest rfl stalls
      cases member
    · by_cases loses : stage.Loses
      · exact Or.inl loses
      · refine Or.inr fun front s after split stalls => ?_
        obtain ⟨t, member, lost⟩ := drains (stage :: front) s after (by rw [split]; rfl) stalls
        rcases List.mem_cons.1 member with rfl | member
        · exact absurd lost loses
        · exact ⟨t, member, lost⟩
  · rintro ⟨moves, past⟩ front s after split stalls
    cases front with
    | nil =>
      obtain ⟨rfl, rfl⟩ := List.cons.inj split
      exact absurd stalls moves
    | cons t front =>
      obtain ⟨rfl, rfl⟩ := List.cons.inj split
      rcases past with lost | drains
      · exact ⟨stage, List.mem_cons_self, lost⟩
      · obtain ⟨u, member, lost⟩ := drains front s after rfl stalls
        exact ⟨u, List.mem_cons_of_mem _ member, lost⟩

section Loop

variable {conn : Pq} {fuel : Nat} {rest : List Stage}

theorem discardLoop_wait {round : Round} (arrives : round ≠ .lost) :
    discardLoop conn fuel (.wait round :: rest) = discardLoop conn fuel rest := by
  cases fuel with
  | zero => rfl
  | succ fuel => cases round <;> first | rfl | exact absurd rfl arrives

theorem discardLoop_lost : discardLoop conn (fuel + 1) (.wait .lost :: rest) = some (.false, closeSocketIo conn) := rfl

theorem discardLoop_result (status : { s : ResultStatus // s.isCopy = false }) :
    discardLoop conn (fuel + 1) (.result status :: rest) = discardLoop conn fuel rest := by
  obtain ⟨status, plain⟩ := status
  cases status <;> first | rfl | cases plain

/-- A COPY_IN is ended once its flushes are through. -/
theorem endCopyIn_sent {flushes : List Flush} (sent : .failed ∉ flushes) :
    endCopyIn fuel (.copyIn flushes :: rest) = if flushes.length < fuel then some (.ok rest) else none := by
  induction flushes generalizing fuel with
  | nil => cases fuel <;> rfl
  | cons flush flushes ih =>
    rw [List.mem_cons, not_or] at sent
    cases fuel with
    | zero => rfl
    | succ fuel =>
      cases flush with
      | sent =>
        simp only [List.length_cons, Nat.add_lt_add_iff_right]
        exact ih sent.2
      | failed => exact absurd rfl sent.1

/-- A COPY_IN whose end cannot be flushed is never ended. -/
theorem endCopyIn_failed {flushes : List Flush} (failed : .failed ∈ flushes) :
    endCopyIn fuel (.copyIn flushes :: rest) = none ∨
      endCopyIn fuel (.copyIn flushes :: rest) = some (.error .raised) := by
  induction flushes generalizing fuel with
  | nil => cases failed
  | cons flush flushes ih =>
    cases fuel with
    | zero => exact Or.inl rfl
    | succ fuel =>
      cases flush with
      | sent => exact ih (by simpa using failed)
      | failed => exact Or.inr rfl

/-- A COPY_OUT without failures is read to its end. -/
theorem drainCopyOut_rows {items : List CopyItem} (kept : ¬(.lost ∈ items ∨ .broken ∈ items)) :
    drainCopyOut fuel (.copyOut items :: rest) = if items.length < fuel then some (.ok rest) else none := by
  induction items generalizing fuel with
  | nil => cases fuel <;> rfl
  | cons item items ih =>
    have later : ¬(.lost ∈ items ∨ .broken ∈ items) := by
      rintro (lost | broken)
      · exact kept (Or.inl (List.mem_cons_of_mem _ lost))
      · exact kept (Or.inr (List.mem_cons_of_mem _ broken))
    cases fuel with
    | zero => rfl
    | succ fuel =>
      simp only [List.length_cons, Nat.add_lt_add_iff_right]
      cases item with
      | row => exact ih later
      | wouldBlock => exact ih later
      | lost => exact absurd (Or.inl List.mem_cons_self) kept
      | broken => exact absurd (Or.inr List.mem_cons_self) kept

/-- A COPY_OUT in which the connection fails ends with `goto error`, or with the error result as all
that is left. -/
theorem drainCopyOut_lost {items : List CopyItem} (lost : .lost ∈ items ∨ .broken ∈ items)
    (enough : items.length < fuel) :
    drainCopyOut fuel (.copyOut items :: rest) = some (.error .false) ∨
      drainCopyOut fuel (.copyOut items :: rest) = some (.ok [.result ⟨.fatalError, rfl⟩]) := by
  induction items generalizing fuel with
  | nil => simp at lost
  | cons item items ih =>
    obtain ⟨fuel, rfl⟩ : ∃ n, fuel = n + 1 := ⟨fuel - 1, by omega⟩
    cases item with
    | row => exact ih (by simpa using lost) (by simpa using enough)
    | wouldBlock => exact ih (by simpa using lost) (by simpa using enough)
    | lost => exact Or.inl rfl
    | broken => exact Or.inr rfl

theorem discardLoop_copyIn (flushes : List Flush) :
    discardLoop conn (fuel + 1) (.copyIn flushes :: rest) =
      match endCopyIn fuel (.copyIn flushes :: rest) with
      | none => none
      | some (.error how) => some (leave conn how (.copyIn flushes :: rest))
      | some (.ok stages) => discardLoop conn fuel stages := rfl

theorem discardLoop_copyOut (items : List CopyItem) :
    discardLoop conn (fuel + 1) (.copyOut items :: rest) =
      match drainCopyOut fuel (.copyOut items :: rest) with
      | none => none
      | some (.error how) => some (leave conn how (.copyOut items :: rest))
      | some (.ok stages) => discardLoop conn fuel stages := rfl

/-- In COPY_BOTH the loop goes round forever. -/
theorem discardLoop_copyBoth (items : List CopyItem) :
    discardLoop conn fuel (.copyBoth items :: rest) = none := by
  induction fuel with
  | zero => rfl
  | succ fuel ih => exact ih

/-- The loop does not return a value past a stage that stalls it. -/
theorem discardLoop_stalls {stages : List Stage} (stalls : ¬Drains stages) (fuel : Nat) :
    discardLoop conn fuel stages = none ∨ ∃ after, discardLoop conn fuel stages = some (.raised, after) := by
  induction stages generalizing fuel with
  | nil => exact absurd drains_nil stalls
  | cons stage rest ih =>
    rw [drains_cons, not_and_or, not_not, not_or] at stalls
    cases fuel with
    | zero => exact Or.inl rfl
    | succ fuel =>
      cases stage with
      | wait round =>
        obtain ⟨arrives, later⟩ := stalls.resolve_left id
        rw [discardLoop_wait arrives]
        exact ih later (fuel + 1)
      | result status =>
        rw [discardLoop_result]
        exact ih (stalls.resolve_left id).2 fuel
      | copyIn flushes =>
        rw [discardLoop_copyIn]
        by_cases failed : .failed ∈ flushes
        · rcases endCopyIn_failed failed with unended | raised
          · exact Or.inl (by rw [unended])
          · exact Or.inr ⟨_, by rw [raised]; rfl⟩
        · rw [endCopyIn_sent failed]
          by_cases enough : flushes.length < fuel
          · rw [if_pos enough]
            exact ih (stalls.resolve_left failed).2 fuel
          · rw [if_neg enough]
            exact Or.inl rfl
      | copyOut items =>
        obtain ⟨kept, later⟩ := stalls.resolve_left id
        rw [discardLoop_copyOut, drainCopyOut_rows kept]
        by_cases enough : items.length < fuel
        · rw [if_pos enough]
          exact ih later fuel
        · rw [if_neg enough]
          exact Or.inl rfl
      | copyBoth items => exact Or.inl (discardLoop_copyBoth items)

end Loop

/-- The rounds a stage can take. -/
def Stage.rounds : Stage → Nat
  | .copyIn flushes => flushes.length + 1
  | .copyOut items => items.length + 1
  | _ => 1

/-- What the caller gets: the function returns, and after `true` nothing is pending. -/
def Returns (answer : Option (Discarded × Pq)) : Prop :=
  ∃ how after, answer = some (how, after) ∧ how ≠ .raised ∧ (how = .true → after.stages = [])

/-- With enough rounds the loop returns, unless a stage stalls it. -/
theorem discardLoop_drains {conn : Pq} {stages : List Stage} (drains : Drains stages) {fuel : Nat}
    (enough : (stages.map Stage.rounds).sum + 2 ≤ fuel) : Returns (discardLoop conn fuel stages) := by
  induction stages generalizing fuel with
  | nil =>
    obtain ⟨fuel, rfl⟩ : ∃ n, fuel = n + 1 := ⟨fuel - 1, by omega⟩
    exact ⟨.true, _, rfl, by decide, fun _ => rfl⟩
  | cons stage rest ih =>
    rw [List.map_cons, List.sum_cons] at enough
    obtain ⟨fuel, rfl⟩ : ∃ n, fuel = n + 2 := ⟨fuel - 2, by omega⟩
    obtain ⟨moves, past⟩ := drains_cons.1 drains
    cases stage with
    | wait round =>
      by_cases lost : round = .lost
      · subst lost
        exact ⟨.false, _, discardLoop_lost, by decide, fun h => by cases h⟩
      · rw [discardLoop_wait lost]
        exact ih (past.resolve_left lost) (by simp only [Stage.rounds] at enough; omega)
    | result status =>
      rw [discardLoop_result]
      exact ih (past.resolve_left id) (by simp only [Stage.rounds] at enough; omega)
    | copyIn flushes =>
      simp only [Stage.rounds] at enough
      rw [discardLoop_copyIn, endCopyIn_sent moves, if_pos (by omega)]
      exact ih (past.resolve_left id) (by omega)
    | copyOut items =>
      simp only [Stage.rounds] at enough
      rw [discardLoop_copyOut]
      by_cases lost : .lost ∈ items ∨ .broken ∈ items
      · have short : items.length < fuel + 1 := by omega
        rcases drainCopyOut_lost lost short with closed | broken
        · rw [closed]
          exact ⟨.false, _, rfl, by decide, fun h => by cases h⟩
        · rw [broken]
          obtain ⟨fuel, rfl⟩ : ∃ n, fuel = n + 1 := ⟨fuel - 1, by omega⟩
          exact ⟨.true, _, rfl, by decide, fun _ => rfl⟩
      · rw [drainCopyOut_rows lost, if_pos (by omega)]
        exact ih (past.resolve_left lost) (by omega)
    | copyBoth items => exact absurd trivial moves

/-- **When `discard_results` finishes.** With a command in progress the function returns, with nothing
pending after `true`, if and only if no COPY_BOTH and no COPY_IN whose end cannot be flushed comes
before the connection is lost. -/
theorem discard_results_finishes_iff (conn : Pq) (inProgress : pqTransactionStatus conn = .active) :
    (∃ fuel, Returns (pgconnDiscardResults fuel conn)) ↔ Drains conn.stages := by
  simp only [pgconnDiscardResults, inProgress]
  constructor
  · rintro ⟨fuel, how, after, returned, notRaised, -⟩
    by_contra stalls
    rcases @discardLoop_stalls conn conn.stages stalls fuel with unended | ⟨_, raised⟩
    · rw [unended] at returned
      cases returned
    · rw [raised] at returned
      cases returned
      exact notRaised rfl
  · intro drains
    exact ⟨_, discardLoop_drains drains (Nat.le_refl _)⟩

/-- A busy connection with a result and a COPY_OUT of one row to come is drained. -/
theorem discard_results_finishes_copy_out :
    ∃ fuel, Returns (pgconnDiscardResults fuel
      { stages := [.wait .input, .result ⟨.tuplesOk, rfl⟩, .copyOut [.row], .result ⟨.commandOk, rfl⟩] }) := by
  apply (discard_results_finishes_iff _ rfl).2
  simp [drains_cons, drains_nil, Stage.Stalls, Stage.Loses]

/-- A connection in COPY_BOTH, as after `START_REPLICATION`, is never drained. -/
theorem discard_results_copy_both :
    ¬∃ fuel, Returns (pgconnDiscardResults fuel { stages := [.copyBoth [], .result ⟨.commandOk, rfl⟩] }) := by
  rintro ⟨fuel, how, after, returned, -⟩
  have unended : pgconnDiscardResults fuel { stages := [.copyBoth [], .result ⟨.commandOk, rfl⟩] } = none :=
    discardLoop_copyBoth []
  rw [unended] at returned
  cases returned

/-! ### What is left of the connection -/

theorem endCopyIn_error {fuel : Nat} {stages : List Stage} {how : Discarded}
    (failed : endCopyIn fuel stages = some (.error how)) : how = .raised := by
  induction fuel generalizing stages with
  | zero => cases failed
  | succ fuel ih =>
    unfold endCopyIn at failed
    split at failed
    · exact ih failed
    · cases failed
      rfl
    · cases failed

theorem drainCopyOut_error {fuel : Nat} {stages : List Stage} {how : Discarded}
    (failed : drainCopyOut fuel stages = some (.error how)) : how = .false := by
  induction fuel generalizing stages with
  | zero => cases failed
  | succ fuel ih =>
    unfold drainCopyOut at failed
    dsimp only at failed
    split at failed
    · split at failed
      · cases failed
        rfl
      · exact ih failed
    · split at failed
      · exact ih failed
      · cases failed

/-- The loop comes to a COPY_IN whose end cannot be flushed. -/
def Jams (stages : List Stage) : Prop :=
  ∃ front flushes rest, stages = front ++ .copyIn flushes :: rest ∧ .failed ∈ flushes ∧
    ∀ s ∈ front, ¬s.Stalls ∧ ¬s.Loses

theorem not_jams_nil : ¬Jams [] := by
  rintro ⟨front, flushes, rest, split, -⟩
  simp at split

theorem jams_copyIn {flushes : List Flush} {rest : List Stage} :
    Jams (.copyIn flushes :: rest) ↔ .failed ∈ flushes ∨ Jams rest := by
  constructor
  · rintro ⟨front, flushes', rest', split, failed, passes⟩
    cases front with
    | nil =>
      cases split
      exact Or.inl failed
    | cons s front =>
      obtain ⟨rfl, rfl⟩ := List.cons.inj split
      exact Or.inr ⟨front, flushes', rest', rfl, failed, fun s member => passes s (List.mem_cons_of_mem _ member)⟩
  · intro jams
    by_cases failed : .failed ∈ flushes
    · exact ⟨[], flushes, rest, rfl, failed, fun s member => by cases member⟩
    · obtain ⟨front, flushes', rest', rfl, failed', passes⟩ := jams.resolve_left failed
      refine ⟨.copyIn flushes :: front, flushes', rest', rfl, failed', fun s member => ?_⟩
      rcases List.mem_cons.1 member with rfl | member
      · exact ⟨failed, id⟩
      · exact passes s member

/-- A stage of another kind lets the loop pass, unless it stalls it or loses the connection. -/
theorem jams_cons {stage : Stage} {rest : List Stage} (other : ∀ flushes, stage ≠ .copyIn flushes) :
    Jams (stage :: rest) ↔ ¬stage.Stalls ∧ ¬stage.Loses ∧ Jams rest := by
  constructor
  · rintro ⟨front, flushes, rest', split, failed, passes⟩
    cases front with
    | nil => exact absurd (List.cons.inj split).1 (other flushes)
    | cons s front =>
      obtain ⟨rfl, rfl⟩ := List.cons.inj split
      obtain ⟨moves, kept⟩ := passes stage List.mem_cons_self
      exact ⟨moves, kept, front, flushes, rest', rfl, failed, fun s member => passes s (List.mem_cons_of_mem _ member)⟩
  · rintro ⟨moves, kept, front, flushes, rest', rfl, failed, passes⟩
    refine ⟨stage :: front, flushes, rest', rfl, failed, fun s member => ?_⟩
    rcases List.mem_cons.1 member with rfl | member
    · exact ⟨moves, kept⟩
    · exact passes s member

@[simp] theorem jams_wait {round : Round} {rest : List Stage} :
    Jams (.wait round :: rest) ↔ round ≠ .lost ∧ Jams rest := by
  simp [jams_cons, Stage.Stalls, Stage.Loses]

@[simp] theorem jams_result {status : { s : ResultStatus // s.isCopy = false }} {rest : List Stage} :
    Jams (.result status :: rest) ↔ Jams rest := by
  simp [jams_cons, Stage.Stalls, Stage.Loses]

@[simp] theorem jams_copyOut {items : List CopyItem} {rest : List Stage} :
    Jams (.copyOut items :: rest) ↔ ¬(.lost ∈ items ∨ .broken ∈ items) ∧ Jams rest := by
  simp [jams_cons, Stage.Stalls, Stage.Loses]

@[simp] theorem not_jams_copyBoth {items : List CopyItem} {rest : List Stage} : ¬Jams (.copyBoth items :: rest) := by
  simp [jams_cons, Stage.Stalls]

/-- With enough rounds a flush that fails is reached. -/
theorem endCopyIn_raised {fuel : Nat} {flushes : List Flush} {rest : List Stage} (failed : .failed ∈ flushes)
    (enough : flushes.length < fuel) : endCopyIn fuel (.copyIn flushes :: rest) = some (.error .raised) := by
  induction flushes generalizing fuel with
  | nil => cases failed
  | cons flush flushes ih =>
    obtain ⟨fuel, rfl⟩ : ∃ n, fuel = n + 1 := ⟨fuel - 1, by omega⟩
    cases flush with
    | sent => exact ih (by simpa using failed) (by simpa using enough)
    | failed => rfl

/-- A COPY_OUT in which the connection fails is not read to its end, in however many rounds. -/
theorem drainCopyOut_unread {fuel : Nat} {items : List CopyItem} {rest : List Stage}
    (lost : .lost ∈ items ∨ .broken ∈ items) :
    drainCopyOut fuel (.copyOut items :: rest) = none ∨
      drainCopyOut fuel (.copyOut items :: rest) = some (.error .false) ∨
      drainCopyOut fuel (.copyOut items :: rest) = some (.ok [.result ⟨.fatalError, rfl⟩]) := by
  induction items generalizing fuel with
  | nil => simp at lost
  | cons item items ih =>
    cases fuel with
    | zero => exact Or.inl rfl
    | succ fuel =>
      cases item with
      | row => exact ih (by simpa using lost)
      | wouldBlock => exact ih (by simpa using lost)
      | lost => exact Or.inr (Or.inl rfl)
      | broken => exact Or.inr (Or.inr rfl)

/-- Behind its last stage the connection is idle or closed. -/
theorem link_nil (conn : Pq) : ¬({ conn with stages := [] } : Pq).link.Open := by
  cases conn.closed <;> simp [Pq.link, Link.Open]

theorem link_closeSocketIo (conn : Pq) : ¬(closeSocketIo conn).link.Open := by
  simp [closeSocketIo, Pq.link, Link.Open]

section Left

variable {conn : Pq} {stages : List Stage}

/-- With enough rounds the loop raises in the COPY_IN, which stays open. -/
theorem discardLoop_jams (jams : Jams stages) {fuel : Nat} (enough : (stages.map Stage.rounds).sum + 2 ≤ fuel) :
    ∃ after, discardLoop conn fuel stages = some (.raised, after) ∧ after.link = .copyIn := by
  induction stages generalizing fuel with
  | nil => exact absurd jams not_jams_nil
  | cons stage rest ih =>
    rw [List.map_cons, List.sum_cons] at enough
    obtain ⟨fuel, rfl⟩ : ∃ n, fuel = n + 1 := ⟨fuel - 1, by omega⟩
    cases stage with
    | wait round =>
      obtain ⟨arrives, later⟩ := jams_wait.1 jams
      rw [discardLoop_wait arrives]
      exact ih later (by omega)
    | result status =>
      rw [discardLoop_result]
      exact ih (jams_result.1 jams) (by simp only [Stage.rounds] at enough; omega)
    | copyIn flushes =>
      simp only [Stage.rounds] at enough
      rw [discardLoop_copyIn]
      by_cases failed : .failed ∈ flushes
      · rw [endCopyIn_raised failed (by omega)]
        exact ⟨_, rfl, rfl⟩
      · rw [endCopyIn_sent failed, if_pos (by omega)]
        exact ih ((jams_copyIn.1 jams).resolve_left failed) (by omega)
    | copyOut items =>
      obtain ⟨kept, later⟩ := jams_copyOut.1 jams
      simp only [Stage.rounds] at enough
      rw [discardLoop_copyOut, drainCopyOut_rows kept, if_pos (by omega)]
      exact ih later (by omega)
    | copyBoth items => exact absurd jams not_jams_copyBoth

/-- Only in such a COPY_IN does the loop raise or leave a COPY open. -/
theorem jams_of_discardLoop {fuel : Nat} {how : Discarded} {after : Pq}
    (run : discardLoop conn fuel stages = some (how, after)) (left : how = .raised ∨ after.link.Open) : Jams stages := by
  induction stages generalizing fuel with
  | nil =>
    cases fuel with
    | zero => cases run
    | succ fuel =>
      cases run
      exact absurd left (by simpa using link_nil conn)
  | cons stage rest ih =>
    cases fuel with
    | zero => cases run
    | succ fuel =>
      cases stage with
      | wait round =>
        by_cases lost : round = .lost
        · subst lost
          cases run
          exact absurd left (by simpa using link_closeSocketIo conn)
        · rw [discardLoop_wait lost] at run
          exact jams_wait.2 ⟨lost, ih run⟩
      | result status =>
        rw [discardLoop_result] at run
        exact jams_result.2 (ih run)
      | copyIn flushes =>
        by_cases failed : .failed ∈ flushes
        · exact jams_copyIn.2 (Or.inl failed)
        · rw [discardLoop_copyIn, endCopyIn_sent failed] at run
          by_cases enough : flushes.length < fuel
          · rw [if_pos enough] at run
            exact jams_copyIn.2 (Or.inr (ih run))
          · rw [if_neg enough] at run
            cases run
      | copyOut items =>
        rw [discardLoop_copyOut] at run
        by_cases lost : .lost ∈ items ∨ .broken ∈ items
        · rcases drainCopyOut_unread lost with unended | closed | broken
          · rw [unended] at run
            cases run
          · rw [closed] at run
            cases run
            exact absurd left (by simpa [leave] using link_closeSocketIo conn)
          · rw [broken] at run
            rcases fuel with _ | _ | fuel <;> cases run
            exact absurd left (by simpa using link_nil conn)
        · rw [drainCopyOut_rows lost] at run
          by_cases enough : items.length < fuel
          · rw [if_pos enough] at run
            exact jams_copyOut.2 ⟨lost, ih run⟩
          · rw [if_neg enough] at run
            cases run
      | copyBoth items =>
        rw [discardLoop_copyBoth] at run
        cases run

/-- A loop that has not ended within enough rounds never ends. -/
theorem discardLoop_endless {fuel : Nat} (enough : (stages.map Stage.rounds).sum + 2 ≤ fuel)
    (unended : discardLoop conn fuel stages = none) (fuel' : Nat) : discardLoop conn fuel' stages = none := by
  by_cases drains : Drains stages
  · obtain ⟨how, after, returned, -⟩ := @discardLoop_drains conn stages drains fuel enough
    rw [unended] at returned
    cases returned
  · rcases @discardLoop_stalls conn stages drains fuel' with endless | ⟨after, raised⟩
    · exact endless
    · obtain ⟨_, raised', -⟩ := @discardLoop_jams conn stages (jams_of_discardLoop raised (Or.inl rfl)) fuel enough
      rw [unended] at raised'
      cases raised'

/-- The rounds that are enough for `discard_results`. -/
def Pq.rounds (conn : Pq) : Nat := (conn.stages.map Stage.rounds).sum + 2

theorem stages_nil {conn : Pq} (rests : pqTransactionStatus conn ≠ .active) : conn.stages = [] := by
  unfold pqTransactionStatus at rests
  cases stages : conn.stages with
  | nil => rfl
  | cons stage rest => simp [stages] at rests

/-- A command in progress or none: `discard_results` is the loop, or nothing. -/
theorem pgconnDiscardResults_cases (conn : Pq) :
    (∀ fuel, pgconnDiscardResults fuel conn = discardLoop conn fuel conn.stages) ∨
      (conn.stages = [] ∧ ∀ fuel, pgconnDiscardResults fuel conn = some (.nil, conn)) := by
  unfold pgconnDiscardResults
  cases status : pqTransactionStatus conn with
  | active => exact Or.inl fun _ => rfl
  | unknown => exact Or.inl fun _ => rfl
  | idle => exact Or.inr ⟨stages_nil (by rw [status]; decide), fun _ => rfl⟩
  | inTrans => exact Or.inr ⟨stages_nil (by rw [status]; decide), fun _ => rfl⟩
  | inError => exact Or.inr ⟨stages_nil (by rw [status]; decide), fun _ => rfl⟩

/-- With enough rounds `discard_results` leaves a COPY open when it comes to a COPY_IN that it cannot end, and then only. -/
theorem discardResults_open (conn : Pq) :
    (∃ how after, pgconnDiscardResults conn.rounds conn = some (how, after) ∧ after.link.Open) ↔ Jams conn.stages := by
  rcases pgconnDiscardResults_cases conn with loops | ⟨empty, returns⟩
  · rw [loops]
    constructor
    · exact fun ⟨_, _, run, isOpen⟩ => jams_of_discardLoop run (Or.inr isOpen)
    · intro jams
      obtain ⟨after, run, link⟩ := @discardLoop_jams conn _ jams _ (Nat.le_refl _)
      exact ⟨_, _, run, Or.inl link⟩
  · rw [returns]
    constructor
    · rintro ⟨_, _, run, isOpen⟩
      cases run
      exact absurd isOpen (by simpa [← empty] using link_nil conn)
    · exact fun jams => absurd (empty ▸ jams) not_jams_nil

/-- Where these rounds are not enough, `discard_results` never returns. -/
theorem discardResults_endless {conn : Pq} (unended : pgconnDiscardResults conn.rounds conn = none) (fuel : Nat) :
    pgconnDiscardResults fuel conn = none := by
  rcases pgconnDiscardResults_cases conn with loops | ⟨-, returns⟩
  · rw [loops] at unended ⊢
    exact discardLoop_endless (Nat.le_refl _) unended fuel
  · rw [returns] at unended
    cases unended

end Left

end RubyPg.Conn
