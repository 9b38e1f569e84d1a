import RubyPg.Lib.Method
import RubyPg.Value
import RubyPg.Conn.DiscardResults

/-!
# `PG::Connection#copy_data`

`copy_data` of `lib/pg/connection.rb` with the calls it makes of `put_copy_data`,
`put_copy_end`, `get_copy_data`, `get_last_result`, `discard_results` and `cancel`, on the
libpq of `Conn.Libpq`. The stages of the connection say what is still to come of the SQL command,
and so whether another COPY follows the one in progress; the `World` decides what the calls, the
coders and the block do.
-/

namespace RubyPg.Conn
set_option autoImplicit false
open Ascii Method

/-- A raised exception: whether it is a `PG::Error`, the name of its class and its message. -/
structure Exn where
  pgError : Bool
  name : Bytes
  message : Bytes
deriving DecidableEq, Repr

/-- A way out of a method other than its end: an exception, a `break` or `throw` out of the block, or a
call that never comes back. What stands behind the last is of no account, be it in an `ensure`. -/
inductive Exit where
  | raised (e : Exn)
  | left
  | never
deriving DecidableEq, Repr

/-- What `rescue Exception` gets. -/
def Exit.exception : Exit → Option Exn
  | .raised e => some e
  | .left | .never => none

/-- What `rescue PG::Error` gets. -/
def Exit.isPgError (exit : Exit) : Bool := exit.exception.any Exn.pgError

/-- A coder of COPY data: what `put_copy_data` makes of a String, and whether what `get_copy_data`
makes of a message is truthy. -/
structure RowCoder where
  encode : Bytes → Except Exn Bytes
  decode : Bytes → Except Exn Bool

/-- The connection object. -/
structure CopyConn where
  pq : Pq
  encoderForPutCopyData : Option RowCoder
  decoderForGetCopyData : Option RowCoder

/-- How a `put_copy_data` in COPY_IN goes: the message is sent, the call raises with the COPY as it was,
or the connection breaks. -/
inductive PutAnswer where
  | sent
  | refused (e : Exn)
  | lost (e : Exn)

/-- How a `put_copy_end` in COPY_IN goes: the COPY is ended, it is ended but the flush behind it raises, the
call raises with the COPY as it was, or the connection breaks. -/
inductive EndAnswer where
  | ended
  | unflushed (e : Exn)
  | refused (e : Exn)
  | lost (e : Exn)

/-- What `PQgetCopyData` makes of a message that is there: its data, or without memory for it an error. -/
inductive ReadAnswer where
  | row (data : Bytes)
  | refused

/-- How `exec(sql)` ends: with the COPY that it has started, in a COPY_BOTH, with a finished command, or with an
exception and what the connection is left with. -/
inductive Executed where
  | copyIn (flushes : List Flush) (rest : List Stage)
  | copyOut (items : List CopyItem) (rest : List Stage)
  | copyBoth (items : List CopyItem) (rest : List Stage)
  | finished
  | raised (e : Exn) (stages : List Stage)

/-- Everything outside `copy_data`. -/
structure World where
  sql : Bytes
  /-- `exec(sql)` -/
  exec : Executed
  /-- `res.binary_tuples == 1` -/
  binary : Bool
  /-- `yield res`; `none` when the block returns -/
  block : CopyConn → Option Exit × CopyConn
  putHeader : PutAnswer
  putTrailer : PutAnswer
  putEnd : EndAnswer
  getCopyData : ReadAnswer
  /-- what a cancel request makes of the command, or what `cancel` raises and does not rescue -/
  cancel : List Stage → Except Exn (List Stage)
  /-- `err.message` in an encoding that the format takes -/
  message : Exn → Except Exn Bytes
  /-- `rb_str_export_to_enc` -/
  transcode : Bytes → Except Exn Bytes
  transcode_raises : ∀ str e, transcode str = .error e → e.pgError = false
  /-- `PQerrorMessage` -/
  errorMessage : Bytes

/-- The variables of the method: the connection and the local `old_coder`, `nil` until assigned. -/
structure Frame where
  conn : CopyConn
  oldCoder : Option RowCoder := none

abbrev CopyM := Method Exit Frame

/-- The frame with libpq in the state `pq`. -/
def Frame.withPq (s : Frame) (pq : Pq) : Frame := { s with conn := { s.conn with pq } }

def setPq (pq : Pq) : CopyM Unit := change fun s => s.withPq pq

def setStages (stages : List Stage) : CopyM Unit := change fun s => s.withPq { s.conn.pq with stages }

def raiseExn {α : Type} (e : Exn) : CopyM α := raise (.raised e)

/-- A computation on values. -/
def attempt {α : Type} (r : Except Exn α) : CopyM α := ofExcept (r.mapError Exit.raised)

/-- A call that works on libpq. -/
def onPq {α : Type} (call : Pq → Except Exn α × Pq) : CopyM α := do
  let s ← read
  setPq (call s.conn.pq).2
  attempt (call s.conn.pq).1

/-- A `PG::Error` with the message of libpq. -/
def World.pgError (w : World) : Exn := ⟨true, "PG::Error".toUTF8.toList, w.errorMessage⟩

def argumentError (message : Bytes) : Exn := ⟨false, "ArgumentError".toUTF8.toList, message⟩

/-- `PQputCopyData` and the flushes around it. Outside COPY_IN there is no COPY in progress. -/
def Pq.putCopyData (w : World) (answer : PutAnswer) (pq : Pq) : Except Exn Unit × Pq :=
  match pq.stages, answer with
  | .copyIn _ :: _, .sent => (.ok (), pq)
  | .copyIn _ :: _, .refused e => (.error e, pq)
  | .copyIn _ :: _, .lost e => (.error e, pq.lose)
  | _, _ => (.error w.pgError, pq)

/-- What the encoder of the connection, if there is one, makes of a String. -/
def encodeRow (encoder : Option RowCoder) (buffer : Bytes) : Except Exn Bytes :=
  match encoder with
  | none => .ok buffer
  | some encoder => encoder.encode buffer

/-- `put_copy_data(buffer)` with the encoder of the connection. -/
def putCopyData (w : World) (answer : PutAnswer) (buffer : Bytes) : CopyM Unit := do
  let s ← read
  let _ ← attempt (encodeRow s.conn.encoderForPutCopyData buffer)
  onPq (Pq.putCopyData w answer)

/-- `pg_cstr_enc`: the text must be free of NUL and be transcodable. -/
def pgCstrEnc (w : World) (str : Bytes) : Except Exn Bytes :=
  if nul ∈ str then .error (argumentError "string contains null byte".toUTF8.toList) else w.transcode str

/-- `PQputCopyEnd` and the flushes around it. Behind the end the answer of the server is still to come. -/
def Pq.putCopyEnd (w : World) (pq : Pq) : Except Exn Unit × Pq :=
  match pq.stages, w.putEnd with
  | .copyIn _ :: rest, .ended => (.ok (), { pq with stages := .wait .input :: rest })
  | .copyIn _ :: rest, .unflushed e => (.error e, { pq with stages := .wait .input :: rest })
  | .copyIn _ :: _, .refused e => (.error e, pq)
  | .copyIn _ :: _, .lost e => (.error e, pq.lose)
  | _, _ => (.error w.pgError, pq)

/-- `put_copy_end`. -/
def putCopyEnd (w : World) : CopyM Unit := onPq (Pq.putCopyEnd w)

/-- `put_copy_end(error_message)`. -/
def putCopyFail (w : World) (errorMessage : Bytes) : CopyM Unit := do
  let _ ← attempt (pgCstrEnc w errorMessage)
  putCopyEnd w

/-- `discard_results`. -/
def discardResults (w : World) : CopyM Unit := do
  let s ← read
  match pgconnDiscardResults s.conn.pq.rounds s.conn.pq with
  | none => raise .never
  | some (how, pq) => do
    setPq pq
    if how = .raised then raiseExn w.pgError else pure ()

/-- The loop of `pgconn_async_get_last_result`: the status of the last result and the stages left behind it.
It ends at a COPY, and `none` is a connection lost in a wait. -/
def lastResult (last : Option ResultStatus) : List Stage → Option (Option ResultStatus × List Stage)
  | [] => some (last, [])
  | .wait .lost :: _ => none
  | .wait _ :: rest => lastResult last rest
  | .result status :: rest => lastResult (some status.1) rest
  | .copyIn flushes :: rest => some (some .copyIn, .copyIn flushes :: rest)
  | .copyOut items :: rest => some (some .copyOut, .copyOut items :: rest)
  | .copyBoth items :: rest => some (some .copyBoth, .copyBoth items :: rest)

/-- `get_last_result`: the status of the last result, `none` for `nil`. -/
def getLastResult (w : World) : CopyM (Option ResultStatus) := do
  let s ← read
  match lastResult none s.conn.pq.stages with
  | none => do
    setPq (closeSocketIo s.conn.pq)
    raiseExn w.pgError
  | some (last, stages) => do
    setStages stages
    if last.any bad then raiseExn w.pgError else pure last

/-- Whether what the decoder of the connection makes of a message is truthy; without one it is a String. -/
def decodeRow (decoder : Option RowCoder) (data : Bytes) : Except Exn Bool :=
  match decoder with
  | none => .ok true
  | some decoder => decoder.decode data

/-- `get_copy_data` in a COPY_OUT with the decoder of the connection: whether something truthy came. -/
def readCopyOut (w : World) (rest : List Stage) : List CopyItem → CopyM Bool
  | [] => do
    setStages rest
    pure false
  | .wouldBlock :: items => do
    setStages (.copyOut items :: rest)
    readCopyOut w rest items
  | .row :: items =>
    match w.getCopyData with
    | .refused => raiseExn w.pgError
    | .row data => do
      setStages (.copyOut items :: rest)
      attempt (decodeRow (← read).conn.decoderForGetCopyData data)
  | .lost :: _ => do
    setPq (closeSocketIo (← read).conn.pq)
    raiseExn w.pgError
  | .broken :: _ => do
    setPq (← read).conn.pq.lose
    raiseExn w.pgError

/-- `get_copy_data`. -/
def getCopyData (w : World) : CopyM Bool := do
  match (← read).conn.pq.stages with
  | .copyOut items :: rest => readCopyOut w rest items
  | _ => raiseExn w.pgError

/-- `cancel`. -/
def cancel (w : World) : CopyM Unit := do
  match w.cancel (← read).conn.pq.stages with
  | .error e => raiseExn e
  | .ok stages => setStages stages

/-- `yield res`. -/
def yieldBlock (w : World) : CopyM Unit := fun s =>
  match w.block s.conn with
  | (none, conn) => (.ok (), { s with conn })
  | (some exit, conn) => (.error exit, { s with conn })

/-- The file header: 11 byte signature, flags and extension length. -/
def copyHeader : Bytes :=
  [0x50, 0x47, 0x43, 0x4f, 0x50, 0x59, newline, 0xff, cr, newline, nul] ++ List.replicate 8 nul

/-- The file trailer. -/
def copyTrailer : Bytes := [0xff, 0xff]

/-- `"%s while copy data: %s" % [ err.class.name, err.message ]`. -/
def errmsg (w : World) (err : Exn) : Except Exn Bytes := do
  let message ← w.message err
  pure (err.name ++ " while copy data: ".toUTF8.toList ++ message)

/-- The body of the COPY_IN branch. -/
def copyInBody (w : World) (coder : Option RowCoder) : CopyM Unit := do
  if coder.isSome ∧ w.binary then putCopyData w w.putHeader copyHeader
  match coder with
  | none => pure ()
  | some coder =>
    change fun s => ⟨{ s.conn with encoderForPutCopyData := some coder }, s.conn.encoderForPutCopyData⟩
  yieldBlock w

/-- Its `rescue Exception => err`. -/
def copyInRescue (w : World) (err : Exn) : CopyM Unit := do
  let text ← attempt (errmsg w err)
  rescueIf (putCopyFail w text) Exit.isPgError fun _ => pure ()
  discardResults w
  raiseExn err

/-- A `PG::LostCopyState`. -/
def lostCopyState (message : Bytes) : Exn :=
  ⟨true, "PG::LostCopyState".toUTF8.toList, message ++
    " (probably by executing another SQL query while running a COPY command)".toUTF8.toList⟩

/-- `self.encoder_for_put_copy_data = old_coder if coder`. -/
def restoreEncoder (coder : Option RowCoder) (s : Frame) : Frame :=
  if coder.isSome then { s with conn := { s.conn with encoderForPutCopyData := s.oldCoder } } else s

/-- The inner `begin` of its `else`: restore the encoder, send the trailer and end the COPY. -/
def finishCopyIn (w : World) (coder : Option RowCoder) : CopyM Unit := do
  change (restoreEncoder coder)
  if coder.isSome ∧ w.binary then putCopyData w w.putTrailer copyTrailer
  putCopyEnd w

/-- The exception that takes the place of a `PG::Error` in it. -/
def Exit.lostCopyState (exit : Exit) : Exit :=
  match exit with
  | .raised e => .raised (Conn.lostCopyState e.message)
  | exit => exit

/-- Its `else`. -/
def copyInElse (w : World) (coder : Option RowCoder) : CopyM Unit := do
  rescueIf (finishCopyIn w coder) Exit.isPgError fun exit => raise exit.lostCopyState
  let _ ← getLastResult w

/-- The COPY_IN branch. -/
def copyInBranch (w : World) (coder : Option RowCoder) : CopyM Unit :=
  protect (copyInBody w coder) Exit.exception (copyInRescue w) (fun _ => copyInElse w coder)
    (change (restoreEncoder coder))

/-- The body of the COPY_OUT branch. -/
def copyOutBody (w : World) (coder : Option RowCoder) : CopyM Unit := do
  match coder with
  | none => pure ()
  | some coder =>
    change fun s => ⟨{ s.conn with decoderForGetCopyData := some coder }, s.conn.decoderForGetCopyData⟩
  yieldBlock w

/-- Its `rescue Exception`. -/
def copyOutRescue (w : World) (err : Exn) : CopyM Unit := do
  cancel w
  discardResults w
  raiseExn err

def notAllCopyDataRetrieved (message : String) : Exn :=
  ⟨true, "PG::NotAllCopyDataRetrieved".toUTF8.toList, message.toUTF8.toList⟩

/-- The end of its `else`: the last result must be there and be that of a finished command. -/
def checkLastResult (w : World) : CopyM Unit := do
  match ← getLastResult w with
  | none => do
    discardResults w
    raiseExn (lostCopyState "Lost COPY state".toUTF8.toList)
  | some .commandOk => pure ()
  | some _ => do
    discardResults w
    raiseExn (notAllCopyDataRetrieved "Not all COPY data retrieved")

/-- In binary format the final `nil` is still to be read. -/
def finalRead (w : World) : CopyM Unit := do
  if ← getCopyData w then
    discardResults w
    raiseExn (notAllCopyDataRetrieved "Not all binary COPY data retrieved")

/-- Its `else`. -/
def copyOutElse (w : World) (coder : Option RowCoder) : CopyM Unit := do
  if coder.isSome ∧ w.binary then finalRead w
  checkLastResult w

/-- `self.decoder_for_get_copy_data = old_coder if coder`. -/
def restoreDecoder (coder : Option RowCoder) (s : Frame) : Frame :=
  if coder.isSome then { s with conn := { s.conn with decoderForGetCopyData := s.oldCoder } } else s

/-- The COPY_OUT branch. -/
def copyOutBranch (w : World) (coder : Option RowCoder) : CopyM Unit :=
  protect (copyOutBody w coder) Exit.exception (copyOutRescue w) (fun _ => copyOutElse w coder)
    (change (restoreDecoder coder))

/-- `copy_data(sql, coder)` on a connection in blocking mode. -/
def copyData (w : World) (coder : Option RowCoder) : CopyM Unit :=
  match w.exec with
  | .copyIn flushes rest => do
    setStages (.copyIn flushes :: rest)
    copyInBranch w coder
  | .copyOut items rest => do
    setStages (.copyOut items :: rest)
    copyOutBranch w coder
  | .copyBoth items rest => do
    setStages (.copyBoth items :: rest)
    raiseExn (argumentError ("SQL command is no COPY statement: ".toUTF8.toList ++ w.sql))
  | .finished => do
    setStages []
    raiseExn (argumentError ("SQL command is no COPY statement: ".toUTF8.toList ++ w.sql))
  | .raised e stages => do
    setStages stages
    raiseExn e

end RubyPg.Conn
