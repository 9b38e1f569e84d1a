import Mathlib.Tactic.SplitIfs
import RubyPg.Conn.DiscardResults
import RubyPg.Lib.Custody
import RubyPg.Lib.History
import RubyPg.Lib.Method

/-!
# `PG::Connection#exec`

`pgconn_async_exec` of `ext/pg_connection.c` on the libpq of `Conn.Libpq`: discard what is left of the last
command, send the next one, read its results to the end or to a COPY. In every wait an exception of another
thread, a signal or a timeout may strike, and what the call has not read then stays on the connection. The
loops of `DiscardResults` stand here once more with these waits in them (`discardLoop_refines`).
-/

namespace RubyPg.Exec
set_option autoImplicit false
open Conn Method

/-- A `PGresult`: its number among those of the connection, the command it answers, its status, and what is
still to come when it has been read. -/
structure PgResult where
  number : Nat
  command : Nat
  status : ResultStatus
  behind : List Stage

/-- What ends a call early. `struck` is the exception that strikes in a wait. -/
inductive Exn where
  | struck | connectionBad | unableToSend | pgError
  | badResult (r : PgResult)
  /-- Not a Ruby exception: the rounds given to a loop are used up. -/
  | hangs

/-- What refers to a `PGresult`: the variables of the C function that runs, or a `PG::Result`. -/
inductive Holder where
  | cur | prev
  | object (n : Nat)
deriving DecidableEq

/-- A connection with its `PGresult`s and `PG::Result`s, the number of commands sent, and which of the next
waits are struck. -/
structure Session where
  conn : Pq := { stages := [] }
  sent : Nat := 0
  pgresults : Custody Holder := ⟨fun _ => none, 0, []⟩
  objects : Nat := 0
  flushData : Bool := true
  strikes : List Bool := []

/-- What the server makes of the commands: the stages of the answer and the transaction status behind it. -/
structure Server where
  answer : Nat → List Stage
  xactStatus : Nat → TransactionStatus

/-- The answer to a command, up to its ReadyForQuery. -/
def Server.stages (server : Server) (command : Nat) : List Stage := server.answer command ++ [.wait .input]

abbrev ExecM := Method Exn Session

def Session.setStages (s : Session) (stages : List Stage) : Session := { s with conn := { s.conn with stages } }

def setStages (stages : List Stage) : ExecM Unit := change fun s => s.setStages stages

/-- `pgconn_close_socket_io` behind a failure of libpq. -/
def closeSocket : ExecM Unit := change fun s => { s with conn := closeSocketIo s.conn }

/-- `pg_rb_io_wait`. -/
def ioWait : ExecM Unit := fun s =>
  (if s.strikes.head? = some true then .error .struck else .ok (), { s with strikes := s.strikes.tail })

/-- `PQgetResult` into `cur`. -/
def getCur : ExecM (Option PgResult) := fun s =>
  match pqGetResult s.conn.stages with
  | (none, stages) => (.ok none, s.setStages stages)
  | (some status, stages) =>
    (.ok (some ⟨s.pgresults.issued, s.sent, status, stages⟩),
      { s.setStages stages with pgresults := s.pgresults.issue .cur })

/-- `PQclear`. -/
def pqClear (holder : Holder) : ExecM Unit := change fun s => { s with pgresults := s.pgresults.release holder }

/-! ### `discard_results` -/

/-- `while (PQisBusy)` of `discard_results`; `false` is `goto error`. -/
def discardWait : List Stage → ExecM Bool
  | .wait round :: rest => do
    ioWait
    if round = .lost then pure false
    else do
      setStages rest
      discardWait rest
  | _ => pure true

/-- What a flush behind `PQputCopyEnd` leaves of the stages; `none` when it fails. -/
def flushCopyEnd : List Stage → Option (List Stage)
  | .copyIn (.sent :: flushes) :: rest => some (.copyIn flushes :: rest)
  | _ => none

/-- A `pgconn_async_flush` that has to wait. -/
def asyncFlush : ExecM Unit := do
  ioWait
  match flushCopyEnd (← read).conn.stages with
  | some after => setStages after
  | none => raise .pgError

/-- `while (PQputCopyEnd(..) == 0) pgconn_async_flush(..)`, with the last answer of `PQputCopyEnd`. -/
def endCopyIn : Nat → ExecM Int
  | 0 => raise .hangs
  | fuel + 1 => do
    let (st, after) := pqPutCopyEnd (← read).conn.stages
    if st = 0 then do
      asyncFlush
      endCopyIn fuel
    else do
      setStages after
      pure st

/-- The loop that reads a COPY_OUT to its end; `false` is `goto error`. -/
def drainCopyOut : Nat → ExecM Bool
  | 0 => raise .hangs
  | fuel + 1 => do
    let (st, after) := pqGetCopyData (← read).conn.stages
    if st = 0 then do
      ioWait
      match pqConsumeInput after with
      | none => pure false
      | some after => do
        setStages after
        drainCopyOut fuel
    else do
      setStages after
      if 0 < st then drainCopyOut fuel else pure true

/-- What the loop does about a result: end a COPY_IN, read a COPY_OUT. -/
def endCopy (fuel : Nat) (status : ResultStatus) : ExecM Bool :=
  if status = .copyIn then do
    let _ ← endCopyIn fuel
    pure true
  else if status = .copyOut then drainCopyOut fuel
  else pure true

/-- `error:`. -/
def discardError : ExecM Discarded := do
  closeSocket
  pure .false

/-- The outer loop. -/
def discardLoop : Nat → ExecM Discarded
  | 0 => raise .hangs
  | fuel + 1 => do
    if ← discardWait (← read).conn.stages then
      match ← getCur with
      | none => pure .true
      | some cur => do
        pqClear .cur
        if ← endCopy fuel cur.status then discardLoop fuel else discardError
    else discardError

/-- `pgconn_discard_results`. Without a socket `pgconn_socket_io` raises. -/
def discardResults (fuel : Nat) : ExecM Discarded := do
  let s ← read
  match pqTransactionStatus s.conn with
  | .idle | .inTrans | .inError => pure .nil
  | _ => if s.conn.closed then raise .connectionBad else discardLoop fuel

/-! ### Sending and reading -/

section Calls

variable (server : Server) (fuel : Nat)

/-- `PQsendQuery`, which refuses while a command is in progress. -/
def pqSendQuery : ExecM Unit := fun s =>
  if s.conn.closed || !s.conn.stages.isEmpty then (.error .unableToSend, s)
  else
    let command := s.sent + 1
    let conn := { s.conn with stages := server.stages command, xactStatus := server.xactStatus command }
    (.ok (), { s with conn, sent := command })

/-- `pgconn_wait_for_flush`. -/
def waitForFlush : ExecM Unit := do
  if (← read).flushData then ioWait else pure ()

/-- `pgconn_send_query`. -/
def sendQuery : ExecM Unit := do
  pqSendQuery server
  waitForFlush

/-- `wait_socket_readable` with `get_result_readable`, over the rounds that `PQisBusy` lasts. -/
def waitReadable : List Stage → ExecM Unit
  | .wait round :: rest => do
    ioWait
    if round = .lost then do
      closeSocket
      raise .connectionBad
    else do
      setStages rest
      waitReadable rest
  | _ => pure ()

/-- An exception unwinds the frame of the C function: nothing refers to what `prev` did. -/
def unwinding {α : Type} (m : ExecM α) : ExecM α := fun s =>
  match m s with
  | (.ok a, s) => (.ok a, s)
  | (.error e, s) => (.error e, { s with pgresults := s.pgresults.drop .prev })

/-- `if (prev) PQclear(prev); prev = cur;`. -/
def keepCur : ExecM Unit := change fun s => { s with pgresults := (s.pgresults.release .prev).hand .cur .prev }

/-- The loop of `pgconn_async_get_last_result`. -/
def getLastLoop : Nat → Option PgResult → ExecM (Option PgResult)
  | 0, _ => raise .hangs
  | fuel + 1, prev => do
    waitReadable (← read).conn.stages
    match ← getCur with
    | none => pure prev
    | some cur => do
      keepCur
      if cur.status.isCopy then pure (some cur) else getLastLoop fuel (some cur)

/-- `pg_new_result`. -/
def newResult (holder : Holder) : ExecM Unit := change fun s =>
  { s with pgresults := s.pgresults.hand holder (.object s.objects), objects := s.objects + 1 }

/-- `pg_result_check`. -/
def resultCheck (r : PgResult) : ExecM Unit := if bad r.status then raise (.badResult r) else pure ()

/-- `pgconn_async_get_last_result`. -/
def getLastResult : ExecM (Option PgResult) := do
  match ← unwinding (getLastLoop fuel none) with
  | none => pure none
  | some r => do
    newResult .prev
    resultCheck r
    pure (some r)

/-- `pgconn_async_exec`. -/
def exec : ExecM (Option PgResult) := do
  let _ ← discardResults fuel
  sendQuery server
  getLastResult fuel

/-- `get_result` of `lib/pg/connection.rb`: `block` and `sync_get_result`. -/
def getResult : ExecM (Option PgResult) := do
  waitReadable (← read).conn.stages
  match ← getCur with
  | none => pure none
  | some r => do
    newResult .cur
    pure (some r)

/-- `put_copy_end` of `lib/pg/connection.rb`. -/
def putCopyEnd : ExecM Unit := do
  let st ← endCopyIn fuel
  if st = -1 then raise .pgError else waitForFlush

/-- `get_copy_data` of `lib/pg/connection.rb`: whether there is a row. -/
def getCopyData : Nat → ExecM Bool
  | 0 => raise .hangs
  | fuel + 1 => do
    let (st, after) := pqGetCopyData (← read).conn.stages
    if st = 0 then do
      ioWait
      match pqConsumeInput after with
      | none => do
        closeSocket
        raise .connectionBad
      | some after => do
        setStages after
        getCopyData fuel
    else do
      setStages after
      if st = -2 then raise .pgError else pure (decide (0 < st))

/-- The calls of a program. `clear` is `PG::Result#clear`, the end of the block of `exec`, or the garbage collector. -/
inductive Call where
  | exec | sendQuery | getResult | getLastResult | discardResults | putCopyEnd | getCopyData
  | clear (object : Nat)

/-- A call, with its value left out. -/
def Call.perform : Call → ExecM Unit
  | .exec => do let _ ← Exec.exec server fuel
  | .sendQuery => Exec.sendQuery server
  | .getResult => do let _ ← Exec.getResult
  | .getLastResult => do let _ ← Exec.getLastResult fuel
  | .discardResults => do let _ ← Exec.discardResults fuel
  | .putCopyEnd => Exec.putCopyEnd fuel
  | .getCopyData => do let _ ← Exec.getCopyData fuel
  | .clear object => pqClear (.object object)

/-- The state behind a call, whether it returns or raises. -/
def step (s : Session) (call : Call) : Session := (call.perform server fuel s).2

end Calls

/-! ### What the calls consist of -/

/-- The call did not get to the result of its command. -/
def Exn.Early : Exn → Prop
  | .badResult _ => False
  | _ => True

/-- What holds of the steps that wait, and of one step after the other. -/
structure Closed (G : ∀ ⦃α : Type⦄, ExecM α → Prop) : Prop where
  pure : ∀ {α : Type} (a : α), G (Pure.pure a)
  raise : ∀ {α : Type} {e : Exn}, e.Early → G (Method.raise e : ExecM α)
  bind : ∀ {α β : Type} {m : ExecM α} {k : α → ExecM β}, G m → (∀ a, G (k a)) → G (m >>= k)
  read : G read
  ioWait : G ioWait
  setStages : ∀ stages, G (setStages stages)
  closeSocket : G closeSocket

/-- It also holds of the steps that read results. -/
structure ClosedReading (G : ∀ ⦃α : Type⦄, ExecM α → Prop) : Prop extends Closed G where
  getCur : G getCur
  clearCur : G (pqClear .cur)
  keepCur : G keepCur

namespace Closed

variable {G : ∀ ⦃α : Type⦄, ExecM α → Prop} {fuel : Nat} (closed : Closed G)
include closed

theorem discardWait (stages : List Stage) : G (discardWait stages) := by
  induction stages with
  | nil => exact closed.pure _
  | cons stage rest ih =>
    cases stage with
    | wait round =>
      refine closed.bind closed.ioWait fun _ => ?_
      split_ifs
      · exact closed.pure _
      · exact closed.bind (closed.setStages _) fun _ => ih
    | result status => exact closed.pure _
    | copyIn flushes => exact closed.pure _
    | copyOut items => exact closed.pure _
    | copyBoth items => exact closed.pure _

theorem asyncFlush : G asyncFlush := by
  refine closed.bind closed.ioWait fun _ => closed.bind closed.read fun s => ?_
  split
  · exact closed.setStages _
  · exact closed.raise trivial

theorem endCopyIn : G (endCopyIn fuel) := by
  induction fuel with
  | zero => exact closed.raise trivial
  | succ fuel ih =>
    refine closed.bind closed.read fun s => ?_
    dsimp only
    split_ifs
    · exact closed.bind closed.asyncFlush fun _ => ih
    · exact closed.bind (closed.setStages _) fun _ => closed.pure _

theorem drainCopyOut : G (drainCopyOut fuel) := by
  induction fuel with
  | zero => exact closed.raise trivial
  | succ fuel ih =>
    refine closed.bind closed.read fun s => ?_
    dsimp only
    split_ifs
    · refine closed.bind closed.ioWait fun _ => ?_
      split
      · exact closed.pure _
      · exact closed.bind (closed.setStages _) fun _ => ih
    · exact closed.bind (closed.setStages _) fun _ => ih
    · exact closed.bind (closed.setStages _) fun _ => closed.pure _

theorem endCopy (status : ResultStatus) : G (endCopy fuel status) := by
  unfold Exec.endCopy
  split_ifs
  · exact closed.bind closed.endCopyIn fun _ => closed.pure _
  · exact closed.drainCopyOut
  · exact closed.pure _

theorem waitForFlush : G waitForFlush := by
  refine closed.bind closed.read fun s => ?_
  split_ifs
  · exact closed.ioWait
  · exact closed.pure _

theorem waitReadable (stages : List Stage) : G (waitReadable stages) := by
  induction stages with
  | nil => exact closed.pure _
  | cons stage rest ih =>
    cases stage with
    | wait round =>
      refine closed.bind closed.ioWait fun _ => ?_
      split_ifs
      · exact closed.bind closed.closeSocket fun _ => closed.raise trivial
      · exact closed.bind (closed.setStages _) fun _ => ih
    | result status => exact closed.pure _
    | copyIn flushes => exact closed.pure _
    | copyOut items => exact closed.pure _
    | copyBoth items => exact closed.pure _

theorem putCopyEnd : G (putCopyEnd fuel) := by
  refine closed.bind closed.endCopyIn fun st => ?_
  split_ifs
  · exact closed.raise trivial
  · exact closed.waitForFlush

theorem getCopyData : G (getCopyData fuel) := by
  induction fuel with
  | zero => exact closed.raise trivial
  | succ fuel ih =>
    refine closed.bind closed.read fun s => ?_
    dsimp only
    split_ifs
    · refine closed.bind closed.ioWait fun _ => ?_
      split
      · exact closed.bind closed.closeSocket fun _ => closed.raise trivial
      · exact closed.bind (closed.setStages _) fun _ => ih
    · exact closed.bind (closed.setStages _) fun _ => closed.raise trivial
    · exact closed.bind (closed.setStages _) fun _ => closed.pure _

end Closed

namespace ClosedReading

variable {G : ∀ ⦃α : Type⦄, ExecM α → Prop} {fuel : Nat} (closed : ClosedReading G)
include closed

theorem discardLoop : G (discardLoop fuel) := by
  have failing : G discardError := closed.bind closed.closeSocket fun _ => closed.pure _
  induction fuel with
  | zero => exact closed.raise trivial
  | succ fuel ih =>
    refine closed.bind closed.read fun s => closed.bind (closed.discardWait _) fun read => ?_
    split_ifs
    · refine closed.bind closed.getCur fun cur => ?_
      cases cur with
      | none => exact closed.pure _
      | some cur =>
        refine closed.bind closed.clearCur fun _ => closed.bind (closed.endCopy _) fun ended => ?_
        split_ifs
        · exact ih
        · exact failing
    · exact failing

theorem discardResults : G (discardResults fuel) := by
  refine closed.bind closed.read fun s => ?_
  split
  · exact closed.pure _
  · exact closed.pure _
  · exact closed.pure _
  · split_ifs
    · exact closed.raise trivial
    · exact closed.discardLoop

theorem getLastLoop (prev : Option PgResult) : G (getLastLoop fuel prev) := by
  induction fuel generalizing prev with
  | zero => exact closed.raise trivial
  | succ fuel ih =>
    refine closed.bind closed.read fun s => closed.bind (closed.waitReadable _) fun _ => closed.bind closed.getCur fun cur => ?_
    cases cur with
    | none => exact closed.pure _
    | some cur =>
      refine closed.bind closed.keepCur fun _ => ?_
      split_ifs
      · exact closed.pure _
      · exact ih _

end ClosedReading

theorem early : ClosedReading fun _ => Raises Exn.Early where
  pure := .pure
  raise := .raise
  bind := .bind
  read := .read
  ioWait := by
    intro s e s' raised
    unfold ioWait at raised
    split_ifs at raised
    · cases raised
      trivial
    · cases raised
  setStages _ := .change _
  closeSocket := .change _
  getCur := by
    intro s e s' raised
    unfold getCur at raised
    split at raised <;> cases raised
  clearCur := .change _
  keepCur := .change _

/-- Nothing but sending a command counts it. -/
theorem keepsSent : ClosedReading fun _ => Keeps Session.sent where
  pure := .pure
  raise _ := .raise _
  bind := .bind
  read _ := rfl
  ioWait _ := rfl
  setStages _ _ := rfl
  closeSocket _ := rfl
  getCur s := by
    unfold getCur
    split <;> rfl
  clearCur _ := rfl
  keepCur _ := rfl

/-! ### Where nothing strikes -/

/-- No exception is going to strike. -/
def Session.Quiet (s : Session) : Prop := ∀ strike ∈ s.strikes, strike = false

/-- What a quiet call may have changed besides the connection. -/
structure Session.Onward (s s' : Session) : Prop where
  sent : s'.sent = s.sent
  quiet : s'.Quiet

namespace Session

variable {s s' s'' : Session}

theorem Onward.refl (quiet : s.Quiet) : s.Onward s := ⟨rfl, quiet⟩

theorem Onward.trans (first : s.Onward s') (second : s'.Onward s'') : s.Onward s'' :=
  ⟨second.sent.trans first.sent, second.quiet⟩

/-- Whatever else is written, a session is quiet by its strikes. -/
theorem Onward.of_eq (quiet : s.Quiet) (sent : s'.sent = s.sent) (strikes : s'.strikes = s.strikes) : s.Onward s' :=
  ⟨sent, fun strike member => quiet strike (strikes ▸ member)⟩

@[simp] theorem setStages_conn (stages : List Stage) : (s.setStages stages).conn = { s.conn with stages } := rfl

@[simp] theorem setStages_sent (stages : List Stage) : (s.setStages stages).sent = s.sent := rfl

@[simp] theorem setStages_strikes (stages : List Stage) : (s.setStages stages).strikes = s.strikes := rfl

@[simp] theorem setStages_objects (stages : List Stage) : (s.setStages stages).objects = s.objects := rfl

end Session

section Steps

variable {s : Session} {fuel : Nat} {rest : List Stage}

@[simp] theorem setStages_bind {α : Type} (stages : List Stage) (f : Unit → ExecM α) :
    (setStages stages >>= f) s = f () (s.setStages stages) := rfl

/-- A wait that is not struck passes. -/
theorem ioWait_quiet (quiet : s.Quiet) : ∃ s', ioWait s = (.ok (), s') ∧ s'.conn = s.conn ∧ s.Onward s' := by
  refine ⟨{ s with strikes := s.strikes.tail }, ?_, rfl, rfl, fun strike member => quiet strike (List.mem_of_mem_tail member)⟩
  unfold ioWait
  rw [if_neg]
  intro struck
  have here := quiet true (List.mem_of_mem_head? struck)
  cases here

theorem getCur_none {stages : List Stage} (null : pqGetResult s.conn.stages = (none, stages)) :
    getCur s = (.ok none, s.setStages stages) := by
  unfold getCur
  rw [null]

theorem getCur_some {status : ResultStatus} {stages : List Stage} (found : pqGetResult s.conn.stages = (some status, stages)) :
    getCur s = (.ok (some ⟨s.pgresults.issued, s.sent, status, stages⟩),
      { s.setStages stages with pgresults := s.pgresults.issue .cur }) := by
  unfold getCur
  rw [found]

theorem waitNotBusy_arrives {round : Round} (arrives : round ≠ .lost) :
    waitNotBusy (.wait round :: rest) = waitNotBusy rest := by
  cases round with
  | lost => exact absurd rfl arrives
  | input => rfl
  | writable => rfl

/-- The waits of `discard_results` are those of `waitNotBusy`. -/
theorem discardWait_quiet {conn : Pq} {stages : List Stage} (here : s.conn = { conn with stages }) (quiet : s.Quiet) :
    ∃ s', s.Onward s' ∧
      match waitNotBusy stages with
      | some stages' => discardWait stages s = (.ok true, s') ∧ s'.conn = { conn with stages := stages' }
      | none => discardWait stages s = (.ok false, s') ∧ closeSocketIo s'.conn = closeSocketIo conn := by
  induction stages generalizing s with
  | nil => exact ⟨s, .refl quiet, rfl, here⟩
  | cons stage rest ih =>
    cases stage with
    | wait round =>
      obtain ⟨s₁, waited, conn₁, onward⟩ := ioWait_quiet quiet
      by_cases lost : round = .lost
      · subst lost
        exact ⟨s₁, onward, bind_ok waited, by rw [conn₁, here]; rfl⟩
      · have onward₁ : s.Onward (s₁.setStages rest) := onward.trans (.of_eq onward.quiet rfl rfl)
        have here₁ : (s₁.setStages rest).conn = { conn with stages := rest } := by
          rw [Session.setStages_conn, conn₁, here]
        obtain ⟨s₂, onward₂, ends⟩ := ih here₁ onward₁.quiet
        have same : discardWait (.wait round :: rest) s = discardWait rest (s₁.setStages rest) := by
          rw [discardWait, bind_ok waited, if_neg lost, setStages_bind]
        refine ⟨s₂, onward₁.trans onward₂, ?_⟩
        rw [same, waitNotBusy_arrives lost]
        exact ends
    | result status => exact ⟨s, .refl quiet, rfl, here⟩
    | copyIn flushes => exact ⟨s, .refl quiet, rfl, here⟩
    | copyOut items => exact ⟨s, .refl quiet, rfl, here⟩
    | copyBoth items => exact ⟨s, .refl quiet, rfl, here⟩

/-- `PQputCopyEnd` leaves a COPY_IN as it is while that would block. -/
theorem pqPutCopyEnd_zero {stages after : List Stage} (blocks : pqPutCopyEnd stages = (0, after)) : stages = after := by
  unfold pqPutCopyEnd at blocks
  split at blocks
  · cases blocks
  · cases blocks
    rfl
  · cases blocks

/-- Ending a COPY_IN without an exception is what `Conn.endCopyIn` does. -/
theorem endCopyIn_quiet {conn : Pq} {stages after : List Stage} (here : s.conn = { conn with stages }) (quiet : s.Quiet)
    (ends : Conn.endCopyIn fuel stages = some (.ok after)) :
    ∃ st s', endCopyIn fuel s = (.ok st, s') ∧ s'.conn = { conn with stages := after } ∧ s.Onward s' := by
  induction fuel generalizing s stages with
  | zero => cases ends
  | succ fuel ih =>
    have reads : s.conn.stages = stages := by rw [here]
    rw [endCopyIn, read_bind, reads]
    unfold Conn.endCopyIn at ends
    split at ends
    · rename_i flushes behind put
      obtain ⟨s₁, waited, conn₁, onward₁⟩ := ioWait_quiet quiet
      have onward : s.Onward (s₁.setStages (.copyIn flushes :: behind)) := onward₁.trans (.of_eq onward₁.quiet rfl rfl)
      have here₁ : (s₁.setStages (.copyIn flushes :: behind)).conn = { conn with stages := .copyIn flushes :: behind } := by
        rw [Session.setStages_conn, conn₁, here]
      have unsent := pqPutCopyEnd_zero put
      have flushed : asyncFlush s = (.ok (), s₁.setStages (.copyIn flushes :: behind)) := by
        rw [asyncFlush, bind_ok waited, read_bind, conn₁, reads, unsent]
        rfl
      obtain ⟨st, s₂, later, conn₂, onward₂⟩ := ih here₁ onward.quiet ends
      exact ⟨st, s₂, by rw [put]; exact (bind_ok flushed).trans later, conn₂, onward.trans onward₂⟩
    · cases ends
    · rename_i st behind unsent nonzero put
      cases ends
      refine ⟨st, s.setStages after, ?_, by rw [Session.setStages_conn, here], .of_eq quiet rfl rfl⟩
      rw [put]
      exact congrFun (if_neg nonzero) s

/-- A part of `discard_results` ends as the one of `Conn` does: on the same stages, or at `goto error`. -/
def EndsAs (conn : Pq) (s : Session) (run : Except Exn Bool × Session) : Option (Except Discarded (List Stage)) → Prop
  | some (.ok after) => ∃ s', run = (.ok true, s') ∧ s'.conn = { conn with stages := after } ∧ s.Onward s'
  | some (.error .false) => ∃ s', run = (.ok false, s') ∧ closeSocketIo s'.conn = closeSocketIo conn ∧ s.Onward s'
  | _ => True

theorem EndsAs.onward {conn : Pq} {s₁ : Session} {run : Except Exn Bool × Session}
    {ends : Option (Except Discarded (List Stage))} (before : s.Onward s₁) (later : EndsAs conn s₁ run ends) :
    EndsAs conn s run ends := by
  unfold EndsAs at later ⊢
  split
  · obtain ⟨s', ran, there, after⟩ := later
    exact ⟨s', ran, there, before.trans after⟩
  · obtain ⟨s', ran, there, after⟩ := later
    exact ⟨s', ran, there, before.trans after⟩
  · trivial

/-- Reading a COPY_OUT without an exception is what `Conn.drainCopyOut` does. -/
theorem drainCopyOut_quiet {conn : Pq} {stages : List Stage} (here : s.conn = { conn with stages }) (quiet : s.Quiet) :
    EndsAs conn s (drainCopyOut fuel s) (Conn.drainCopyOut fuel stages) := by
  induction fuel generalizing s stages with
  | zero => trivial
  | succ fuel ih =>
    have reads : s.conn.stages = stages := by rw [here]
    rw [drainCopyOut, read_bind, reads, Conn.drainCopyOut]
    obtain ⟨st, after⟩ := pqGetCopyData stages
    have moved : (s.setStages after).conn = { conn with stages := after } := by rw [Session.setStages_conn, here]
    have onward : s.Onward (s.setStages after) := .of_eq quiet rfl rfl
    dsimp only
    split_ifs with blocks row
    · obtain ⟨s₁, waited, conn₁, onward₁⟩ := ioWait_quiet quiet
      rw [bind_ok waited]
      cases pqConsumeInput after with
      | none => exact ⟨s₁, rfl, by rw [conn₁, here]; rfl, onward₁⟩
      | some arrived =>
        have here₂ : (s₁.setStages arrived).conn = { conn with stages := arrived } := by
          rw [Session.setStages_conn, conn₁, here]
        have onward₂ : s.Onward (s₁.setStages arrived) := onward₁.trans (.of_eq onward₁.quiet rfl rfl)
        exact (ih here₂ onward₂.quiet).onward onward₂
    · exact (ih moved onward.quiet).onward onward
    · exact ⟨_, rfl, moved, onward⟩

theorem endCopy_quiet {conn : Pq} {stages : List Stage} {status : ResultStatus} (here : s.conn = { conn with stages })
    (quiet : s.Quiet) : EndsAs conn s (endCopy fuel status s) (Conn.endCopy fuel status stages) := by
  unfold endCopy Conn.endCopy
  split_ifs with copyIn copyOut
  · cases ends : Conn.endCopyIn fuel stages with
    | none => trivial
    | some ended =>
      cases ended with
      | ok after =>
        obtain ⟨st, s', ended, there, onward⟩ := endCopyIn_quiet here quiet ends
        exact ⟨s', bind_ok ended, there, onward⟩
      | error how =>
        obtain rfl := endCopyIn_error ends
        trivial
  · exact drainCopyOut_quiet here quiet
  · exact ⟨s, rfl, here, .refl quiet⟩

theorem endCopy_error {stages : List Stage} {status : ResultStatus} {how : Discarded}
    (failed : Conn.endCopy fuel status stages = some (.error how)) : how = .raised ∨ how = .false := by
  unfold Conn.endCopy at failed
  split_ifs at failed with copyIn copyOut
  · exact .inl (endCopyIn_error failed)
  · exact .inr (drainCopyOut_error failed)
  · cases failed

/-- **The loop of `discard_results`**, where nothing strikes, is `Conn.discardLoop`. -/
theorem discardLoop_refines {conn after : Pq} {stages : List Stage} {how : Discarded} (here : s.conn = { conn with stages })
    (quiet : s.Quiet) (returned : how ≠ .raised) (run : Conn.discardLoop conn fuel stages = some (how, after)) :
    ∃ s', discardLoop fuel s = (.ok how, s') ∧ s'.conn = after ∧ s.Onward s' := by
  induction fuel generalizing s stages with
  | zero => cases run
  | succ fuel ih =>
    have reads : s.conn.stages = stages := by rw [here]
    have failing : ∀ {s₁ : Session}, closeSocketIo s₁.conn = closeSocketIo conn → s.Onward s₁ →
        ∃ s', discardError s₁ = (.ok .false, s') ∧ s'.conn = closeSocketIo conn ∧ s.Onward s' := by
      intro s₁ closes onward
      exact ⟨_, rfl, closes, onward.trans (.of_eq onward.quiet rfl rfl)⟩
    obtain ⟨s₁, onward₁, waited⟩ := discardWait_quiet here quiet
    rw [discardLoop, read_bind, reads]
    unfold Conn.discardLoop at run
    cases rounds : waitNotBusy stages with
    | none =>
      simp only [rounds] at run waited
      cases run
      rw [bind_ok waited.1]
      exact failing waited.2 onward₁
    | some busy =>
      simp only [rounds] at run waited
      have reads₁ : s₁.conn.stages = busy := by rw [waited.2]
      rw [bind_ok waited.1]
      cases found : pqGetResult busy with
      | mk status rest =>
        cases status with
        | none =>
          simp only [found] at run
          cases run
          rw [← reads₁] at found
          refine ⟨s₁.setStages rest, ?_, by rw [Session.setStages_conn, waited.2], onward₁.trans (.of_eq onward₁.quiet rfl rfl)⟩
          exact bind_ok (getCur_none found)
        | some status =>
          simp only [found] at run
          rw [← reads₁] at found
          have read := getCur_some found
          set s₂ : Session := { s₁.setStages rest with pgresults := (s₁.pgresults.issue .cur).release .cur }
          have here₂ : s₂.conn = { conn with stages := rest } := by
            show (s₁.setStages rest).conn = _
            rw [Session.setStages_conn, waited.2]
          have onward₂ : s.Onward s₂ := onward₁.trans (.of_eq onward₁.quiet rfl rfl)
          have copy := @endCopy_quiet s₂ fuel conn rest status here₂ onward₂.quiet
          have cleared : (pqClear .cur : ExecM Unit) { s₁.setStages rest with pgresults := s₁.pgresults.issue .cur } = (.ok (), s₂) := rfl
          show ∃ s', (getCur >>= _) s₁ = _ ∧ _
          rw [bind_ok read]
          show ∃ s', (pqClear .cur >>= _) _ = _ ∧ _
          rw [bind_ok cleared]
          split at run
          · cases run
          · rename_i failed
            rcases endCopy_error failed with rfl | rfl
            · cases run
              exact absurd rfl returned
            · cases run
              rw [failed] at copy
              obtain ⟨s₃, ended, closes, onward₃⟩ := copy
              rw [bind_ok ended]
              exact failing closes (onward₂.trans onward₃)
          · rename_i next ended
            rw [ended] at copy
            obtain ⟨s₃, ended, there, onward₃⟩ := copy
            rw [bind_ok ended]
            obtain ⟨s₄, later, there, onward₄⟩ := ih there onward₃.quiet run
            exact ⟨s₄, later, there, (onward₂.trans onward₃).trans onward₄⟩

end Steps

end RubyPg.Exec
