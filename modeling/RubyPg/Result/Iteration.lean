import RubyPg.Lib.Method
import RubyPg.Result.Objects

/-!
# Iterating over a `PG::Result`

`each`, `each_row`, `each_tuple` and the `stream_each` methods of `ext/pg_result.c`, with a block; the
enumerators without one are left out, and so are the symbols as field names. The block may clear the
result, which is object 0, and leave the iteration; while it runs, objects that nothing refers to any
more may be collected. A block is given by what it does at its calls, whatever it decides that by.
-/

namespace RubyPg.PgResult
set_option autoImplicit false

/-- The classes of the exceptions. -/
inductive ErrorClass where
  | pgError | invalidResultStatus | invalidChangeOfResultFields | noResultError | indexError
  | argumentError | frozenError
  /-- `lookup_error_class(sqlstate)`. -/
  | server (sqlstate : Option String)
deriving DecidableEq, Repr

/-- How a block leaves the iteration. -/
inductive Leave (ε : Type) where
  | broke
  | raised (e : ε)

/-- What ends an iteration early. -/
inductive Exit (ε : Type) where
  | error (cls : ErrorClass) (msg : String)
  /-- The cast of a field raises, or waiting for the server. -/
  | raised (e : ε)
  | block (how : Leave ε)

/-- What a block does at its calls, numbered from 0. -/
structure Block (ε : Type) where
  /-- Which objects are collected during a call, if nothing refers to them. -/
  collects : Nat → Nat → Bool := fun _ _ => false
  /-- Whether the block calls `clear` on the result. -/
  clears : Nat → Bool := fun _ => false
  leaves : Nat → Option (Leave ε) := fun _ => none

/-- What is handed to a block. `none` is `nil`. -/
inductive Row (α : Type) where
  | hash (entries : OrderedHash String (Option α))
  | array (values : List (Option α))
  /-- A `PG::Tuple` of an object, and the `PGresult` that the object holds then. -/
  | tuple (result rowNum : Nat) (numFields : Int) (pgresult : Option Nat)
deriving DecidableEq

/-- What libpq has next, when the client waits for it. -/
inductive Delivery (β ε : Type) where
  | result (r : PGresult β)
  | failed (e : ε)

/-- The objects, and a record of the iteration. -/
structure World (α β : Type) where
  store : Store β
  /-- The result is frozen. -/
  frozen : Bool
  /-- The rows the block got. -/
  handed : List (Row α)
  /-- How many rows the block had got when it cleared the result. -/
  clearedAt : Option Nat
  /-- The released `PGresult`s an accessor of libpq was called on. -/
  touched : List Nat
  /-- The objects each time that other code ran. -/
  moments : List (Store β)

/-- A method of a result. -/
abbrev Iter (α β ε γ : Type) := Method (Exit ε) (World α β) γ

variable {α β ε γ : Type}

namespace World

/-- `this->... = ...` -/
def write (w : World α β) (self : Nat) (f : TPgResult β → TPgResult β) : World α β :=
  { w with store := w.store.write self f }

/-- `pgresult_clear`. -/
def pgresultClear (w : World α β) (self : Nat) : World α β := { w with store := w.store.pgresultClear self }

/-- `pg_result_clear`, called by the block; on a frozen result it raises FrozenError there. -/
def pgResultClear (w : World α β) : World α β :=
  if w.frozen then w
  else { w.pgresultClear 0 with clearedAt := some (w.clearedAt.getD w.handed.length) }

/-- The garbage collector frees objects. -/
def collect (w : World α β) (picked : Nat → Bool) : World α β :=
  { w with store := w.store.collect ((List.range w.store.objects).filter picked) }

/-- Other code gets to run. -/
def moment (w : World α β) : World α β := { w with moments := w.moments ++ [w.store] }

/-- The block gets a row, and objects are collected that nothing refers to: not the result, and not
the object `kept` that the iteration works on. -/
def give (w : World α β) (block : Block ε) (kept : Nat) (row : Row α) : World α β :=
  { w.moment with handed := w.handed ++ [row] }.collect fun v =>
    v != 0 && v != kept && block.collects w.handed.length v

/-- A call of the block. -/
def yield (w : World α β) (block : Block ε) (kept : Nat) (row : Row α) : World α β :=
  if block.clears w.handed.length then (w.give block kept row).pgResultClear else w.give block kept row

end World

/-- `rb_raise`. -/
def rbRaise (cls : ErrorClass) (msg : String) : Iter α β ε γ := Method.raise (.error cls msg)

/-- `rb_yield`. -/
def rbYield (block : Block ε) (kept : Nat) (row : Row α) : Iter α β ε Unit := do
  let w ← Method.read
  Method.change (·.yield block kept row)
  match block.leaves w.handed.length with
  | some how => Method.raise (.block how)
  | none => pure ()

/-- An accessor of libpq. What it reads from released memory is of no importance here. -/
def ask (p : Pointer β) (accessor : PGresult β → γ) : Iter α β ε γ := do
  Method.change fun w => if p.id ∈ w.store.released then { w with touched := w.touched ++ [p.id] } else w
  pure (accessor p.toPGresult)

/-- `pgresult_get_this`. -/
def pgresultGetThis (self : Nat) : Iter α β ε (TPgResult β) := do
  let w ← Method.read
  pure (w.store.object self)

/-- `pgresult_get`, `pgresult_get_this_safe`. -/
def pgresultGet (self : Nat) : Iter α β ε (Pointer β) := do
  match (← pgresultGetThis self).pgresult with
  | none => rbRaise .pgError "result has been cleared"
  | some p => pure p

/-- `pgresult_init_fnames`. -/
def pgresultInitFnames (self : Nat) : Iter α β ε Unit := do
  let p ← pgresultGet self
  if (← pgresultGetThis self).nfields = -1 then
    let nfields ← ask p (·.nfields)
    let fnames ← (List.range nfields).mapM fun i => ask p (·.fname i)
    Method.change (·.write self fun this => { this with nfields := nfields, fnames := fnames })

/-- `typecast_result_value` of the type maps in C: `PQgetisnull` says of NULL that it is null. -/
def typecastResultValue (decode : Nat → Nat → β → Except ε α) (self tuple field : Nat) : Iter α β ε (Option α) := do
  match (← pgresultGetThis self).pgresult with
  | none => pure none
  | some p =>
    match ← ask p (·.value tuple field) with
    | none => pure none
    | some val => Method.ofExcept ((decode tuple field val).map some |>.mapError Exit.raised)

/-- `Index %d is out of range`. -/
def checkIndex (tupleNum numTuples : Nat) : Iter α β ε Unit :=
  if tupleNum < numTuples then pure () else rbRaise .indexError s!"Index {tupleNum} is out of range"

/-- `pgresult_aref`. -/
def pgresultAref (decode : Nat → Nat → β → Except ε α) (self tupleNum : Nat) : Iter α β ε (Row α) := do
  let p ← pgresultGet self
  let numTuples ← ask p (·.ntuples)
  pgresultInitFnames self
  checkIndex tupleNum numTuples
  let this ← pgresultGetThis self
  let aset tuple field := do
    let val ← typecastResultValue decode self tupleNum field
    pure (OrderedHash.aset tuple (this.fnames.getD field "") val)
  let tuple ← (List.range this.nfields.toNat).foldlM aset []
  pure (.hash tuple)

/-- The array of a row. -/
def rowArray (decode : Nat → Nat → β → Except ε α) (self nfields row : Nat) : Iter α β ε (Row α) := do
  let rowValues ← (List.range nfields).mapM (typecastResultValue decode self row)
  pure (.array rowValues)

/-- `ensure_init_for_tuple`. -/
def ensureInitForTuple (self : Nat) : Iter α β ε Unit := do
  let _ ← pgresultGet self
  if (← pgresultGetThis self).fieldMap.isNone then
    pgresultInitFnames self
    let this ← pgresultGetThis self
    let fieldMap := OrderedHash.indexHash (this.fnames.take this.nfields.toNat)
    Method.change (·.write self fun this => { this with fieldMap := some fieldMap })

/-- `pg_tuple_new`: the names are copied when there are more of them than keys, which `rb_ary_new4`
refuses to do when the number of fields is -1. -/
def pgTupleNew (result rowNum : Nat) : Iter α β ε (Row α) := do
  let this ← pgresultGetThis result
  let dupNames := this.nfields ≠ (this.fieldMap.getD []).length
  if dupNames ∧ this.nfields < 0 then rbRaise .argumentError "negative array size (or size too big)"
  else pure (.tuple result rowNum this.nfields (this.pgresult.map (·.id)))

/-- `pgresult_tuple`. -/
def pgresultTuple (self tupleNum : Nat) : Iter α β ε (Row α) := do
  let p ← pgresultGet self
  let numTuples ← ask p (·.ntuples)
  checkIndex tupleNum numTuples
  ensureInitForTuple self
  pgTupleNew self tupleNum

/-- `for (n = ...; n < bound; n++) rb_yield(make(n));` -/
def forTuples (block : Block ε) (kept : Nat) (bound : Iter α β ε Nat) (make : Nat → Iter α β ε (Row α)) :
    Nat → Nat → Iter α β ε Unit
  | 0, _ => pure ()
  | fuel + 1, n => do
    let ntuples ← bound
    if n < ntuples then
      let row ← make n
      rbYield block kept row
      forTuples block kept bound make fuel (n + 1)
    else pure ()

section Methods

variable (decode : Nat → Nat → β → Except ε α) (block : Block ε)

/-- `pgresult_each`. -/
def pgresultEach : Iter α β ε Unit := do
  let result ← pgresultGet 0
  forTuples block 0 (ask result (·.ntuples)) (pgresultAref decode 0) (result.ntuples + 1) 0

/-- `pgresult_each_row`. -/
def pgresultEachRow : Iter α β ε Unit := do
  let result ← pgresultGet 0
  let numRows ← ask result (·.ntuples)
  let numFields ← ask result (·.nfields)
  forTuples block 0 (pure numRows) (rowArray decode 0 numFields) (numRows + 1) 0

/-- `pgresult_each_tuple`. -/
def pgresultEachTuple : Iter α β ε Unit := do
  let result ← pgresultGet 0
  forTuples block 0 (ask result (·.ntuples)) (pgresultTuple 0) (result.ntuples + 1) 0

/-- `yield_hash`. -/
def yieldHash (ntuples _nfields : Nat) : Iter α β ε Bool := do
  forTuples block 0 (pure ntuples) (pgresultAref decode 0) (ntuples + 1) 0
  pure true

/-- `yield_array`. -/
def yieldArray (ntuples nfields : Nat) : Iter α β ε Bool := do
  forTuples block 0 (pure ntuples) (rowArray decode 0 nfields) (ntuples + 1) 0
  pure true

/-- `yield_tuple`. -/
def yieldTuple (ntuples _nfields : Nat) : Iter α β ε Bool := do
  let w ← Method.read
  let copy := w.store.objects
  Method.change fun w => { w with store := w.store.pgCopyResult 0 }
  Method.change (·.write 0 fun this => { this with pgresult := none })
  forTuples block copy (pure ntuples) (pgresultTuple copy) (ntuples + 1) 0
  pure false

end Methods

/-- `pg_result_check`. Without a `PGresult` the text would be that of the connection. -/
def pgResultCheck (self : Nat) : Iter α β ε Unit := do
  match (← pgresultGetThis self).pgresult with
  | none => rbRaise (.server none) ""
  | some p =>
    match ← ask p (·.status) with
    | .tuplesOk | .copyOut | .copyIn | .copyBoth | .singleTuple | .emptyQuery | .commandOk
    | .pipelineSync | .tuplesChunk => pure ()
    | .badResponse | .fatalError | .nonfatalError | .pipelineAborted => do
      let error ← ask p (·.errorMessage)
      let sqlstate ← ask p (·.sqlstate)
      rbRaise (.server sqlstate) error
    | .unknown => do
      let sqlstate ← ask p (·.sqlstate)
      rbRaise (.server sqlstate) "internal error : unknown result status."

/-- The `switch` of `pgresult_stream_any`: whether there are more rows to come. -/
def streamStatus (pgresult : Pointer β) (ntuples : Nat) : Iter α β ε Bool := do
  match ← ask pgresult (·.status) with
  | .tuplesOk | .commandOk =>
    if ntuples = 0 then pure false
    else rbRaise .invalidResultStatus "PG::Result is not in single row mode"
  | .singleTuple | .tuplesChunk => pure true
  | _ => do
    pgResultCheck 0
    pure true

/-- `if( nfields != nfields2 )` in `pgresult_stream_any`. -/
def checkFields (nfields nfields2 : Nat) : Iter α β ε Unit :=
  if nfields ≠ nfields2 then do
    Method.change (·.pgresultClear 0)
    rbRaise .invalidChangeOfResultFields
      s!"number of fields changed in single row mode from {nfields} to {nfields2} - this is a sign for intersection with another query"
  else pure ()

/-- The loop body of `pgresult_stream_any` up to waiting for the next result; `false` for its `return self`. -/
def streamRound (yielder : Nat → Nat → Iter α β ε Bool) (nfields : Nat) (pgresult : Pointer β) : Iter α β ε Bool := do
  let ntuples ← ask pgresult (·.ntuples)
  if ← streamStatus pgresult ntuples then
    let nfields2 ← ask pgresult (·.nfields)
    checkFields nfields nfields2
    if ← yielder ntuples nfields then
      Method.change (·.pgresultClear 0)
      pure true
    else pure true
  else pure false

/-- `PQgetResult`, and `this->pgresult = pgresult`. -/
def assignResult (result : PGresult β) : Iter α β ε (Pointer β) := do
  let w ← Method.read
  Method.change fun w => { w with store := w.store.assignResult 0 result }
  pure ⟨result, w.store.arrived⟩

/-- The loop of `pgresult_stream_any`, on what libpq has from there on. -/
def streamLoop (yielder : Nat → Nat → Iter α β ε Bool) (nfields : Nat) : List (Delivery β ε) → Pointer β → Iter α β ε Unit
  | [], pgresult => do
    if ← streamRound yielder nfields pgresult then
      Method.change World.moment
      rbRaise .noResultError "no result received - possibly an intersection with another query"
  | .failed e :: _, pgresult => do
    if ← streamRound yielder nfields pgresult then
      Method.change World.moment
      Method.raise (.raised e)
  | .result r :: incoming, pgresult => do
    if ← streamRound yielder nfields pgresult then
      Method.change World.moment
      let pgresult ← assignResult r
      streamLoop yielder nfields incoming pgresult

/-- `pgresult_stream_any`. -/
def pgresultStreamAny (yielder : Nat → Nat → Iter α β ε Bool) (incoming : List (Delivery β ε)) : Iter α β ε Unit := do
  if (← Method.read).frozen then rbRaise .frozenError "can't modify frozen PG::Result"
  let pgresult ← pgresultGet 0
  let nfields ← ask pgresult (·.nfields)
  streamLoop yielder nfields incoming pgresult

section Streams

variable (decode : Nat → Nat → β → Except ε α) (block : Block ε) (incoming : List (Delivery β ε))

/-- `pgresult_stream_each`. -/
def pgresultStreamEach : Iter α β ε Unit := pgresultStreamAny (yieldHash decode block) incoming

/-- `pgresult_stream_each_row`. -/
def pgresultStreamEachRow : Iter α β ε Unit := pgresultStreamAny (yieldArray decode block) incoming

/-- `pgresult_stream_each_tuple`. -/
def pgresultStreamEachTuple : Iter α β ε Unit := do
  ensureInitForTuple 0
  pgresultStreamAny (yieldTuple block) incoming

end Streams

end RubyPg.PgResult
