import Mathlib.Algebra.Order.Ring.Int

/-!
# A connection of libpq

The part of libpq that the connection code drives, outside pipeline mode. What the server
and the network will do is the list of `stages` a command still goes through: rounds of
waiting for input, ordinary results, and copy states that last until the client ends them
on its side or has read them to the end.
-/

namespace RubyPg.Conn
set_option autoImplicit false

/-- `PGTransactionStatusType`. -/
inductive TransactionStatus where
  | idle | active | inTrans | inError | unknown
deriving DecidableEq, Repr

/-- `ExecStatusType`. -/
inductive ResultStatus where
  | emptyQuery | commandOk | tuplesOk | copyOut | copyIn | badResponse | nonfatalError | fatalError
  | copyBoth | singleTuple
deriving DecidableEq, Repr

/-- The statuses of the copy states. -/
def ResultStatus.isCopy (status : ResultStatus) : Bool :=
  status = .copyOut || status = .copyIn || status = .copyBoth

/-- The statuses for which `pg_result_check` raises. -/
def bad (status : ResultStatus) : Bool := status = .badResponse || status = .nonfatalError || status = .fatalError

/-- A round of waiting while `PQisBusy`: input arrives, the socket gets writable while output is
pending, or `PQflush` or `PQconsumeInput` fails. -/
inductive Round where
  | input | writable | lost
deriving DecidableEq, Repr

/-- How a blocking flush ends. -/
inductive Flush where
  | sent | failed
deriving DecidableEq, Repr

/-- What `PQgetCopyData` meets in a COPY_OUT: a row, nothing yet (input then arrives or the
connection is lost), or a failure of the connection inside the data. -/
inductive CopyItem where
  | row | wouldBlock | lost | broken
deriving DecidableEq, Repr

/-- A stage of the command in progress: a round of waiting, an ordinary result, or a copy state. A COPY_IN has
the flushes that its end takes while `PQputCopyEnd` answers 0. -/
inductive Stage where
  | wait (round : Round)
  | result (status : { s : ResultStatus // s.isCopy = false })
  | copyIn (flushes : List Flush)
  | copyOut (items : List CopyItem)
  | copyBoth (items : List CopyItem)
deriving DecidableEq, Repr

/-- A `PGconn`: the stages of the command in progress, the transaction status between commands, and
whether the socket was given up. -/
structure Pq where
  stages : List Stage
  xactStatus : TransactionStatus := .idle
  closed : Bool := false
deriving DecidableEq, Repr

/-- `PQtransactionStatus`. -/
def pqTransactionStatus (conn : Pq) : TransactionStatus :=
  if conn.stages.isEmpty then conn.xactStatus else .active

/-- `PQgetResult` when not busy: in a copy state it answers with a result of that kind and the
state stays; `none` is NULL. -/
def pqGetResult : List Stage → Option ResultStatus × List Stage
  | [] => (none, [])
  | .wait _ :: rest => pqGetResult rest
  | .result status :: rest => (some status.1, rest)
  | .copyIn flushes :: rest => (some .copyIn, .copyIn flushes :: rest)
  | .copyOut items :: rest => (some .copyOut, .copyOut items :: rest)
  | .copyBoth items :: rest => (some .copyBoth, .copyBoth items :: rest)

/-- `PQputCopyEnd`: 1 when the COPY_IN is ended, 0 when that would block, -1 outside COPY_IN. -/
def pqPutCopyEnd : List Stage → Int × List Stage
  | .copyIn [] :: rest => (1, rest)
  | .copyIn (flush :: flushes) :: rest => (0, .copyIn (flush :: flushes) :: rest)
  | stages => (-1, stages)

/-- `PQgetCopyData` without blocking: positive for a row, 0 for nothing yet, -1 when the COPY_OUT is
done, -2 for an error. A broken connection leaves one error result to be read. -/
def pqGetCopyData : List Stage → Int × List Stage
  | .copyOut [] :: rest => (-1, rest)
  | .copyOut (.row :: items) :: rest => (1, .copyOut items :: rest)
  | .copyOut (.wouldBlock :: items) :: rest => (0, .copyOut (.wouldBlock :: items) :: rest)
  | .copyOut (.lost :: items) :: rest => (0, .copyOut (.lost :: items) :: rest)
  | .copyOut (.broken :: _) :: _ => (-2, [.result ⟨.fatalError, rfl⟩])
  | stages => (-2, stages)

/-- libpq behind a connection that broke: one error result is left to be read. -/
def Pq.lose (pq : Pq) : Pq := { pq with stages := [.result ⟨.fatalError, rfl⟩] }

/-- `PQconsumeInput` after a wait inside a COPY_OUT; `none` when it fails. -/
def pqConsumeInput : List Stage → Option (List Stage)
  | .copyOut (.wouldBlock :: items) :: rest => some (.copyOut items :: rest)
  | .copyOut (.lost :: _) :: _ => none
  | stages => some stages

/-- What the connection is doing: a copy in either direction, results to be read, nothing, or it
is broken. -/
inductive Link where
  | copyIn | copyOut | results | idle | broken
deriving DecidableEq, Repr

/-- The connection is in COPY_IN or COPY_OUT state. -/
def Link.Open (link : Link) : Prop := link = .copyIn ∨ link = .copyOut

instance (link : Link) : Decidable link.Open := inferInstanceAs (Decidable (_ ∨ _))

/-- What a `PGconn` is doing. -/
def Pq.link (conn : Pq) : Link :=
  match conn.stages with
  | [] => if conn.closed then .broken else .idle
  | .copyIn _ :: _ => .copyIn
  | .copyOut _ :: _ => .copyOut
  | _ :: _ => .results

end RubyPg.Conn
