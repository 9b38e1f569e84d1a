import RubyPg.Lib.Method
import RubyPg.Lib.OrderedHash
import RubyPg.Value

/-!
# `PG::Tuple`

`ext/pg_tuple.c` and `pgresult_tuple` of `ext/pg_result.c`. The state is the tuple together with
the type maps of the results, which `Result#type_map=` may exchange at any time, and a record of
all casts and of all values that were handed out. The results are not cleared, so that
`pgresult_get` never raises. Generic instance variables are left out.
-/

namespace RubyPg.PgTuple
set_option autoImplicit false

/-- What happens to the fields of a tuple, by column. -/
inductive Event (κ ν τ ρ : Type) where
  | cast (typemap : τ) (result : ρ) (row : Int) (col : Nat) (succeeds : Bool)
  /-- A field is to be cast through a result or a type map that was dropped. -/
  | dangling (col : Nat)
  | gave (col : Nat) (value : ν)
  | yielded (name : κ) (col : Nat) (value : ν)

/-- `t_pg_tuple`. `none` among the values is `Qundef`; `behind` is what stands behind them, if memory
was reserved for it. -/
structure Tuple (κ ν τ ρ : Type) where
  result : Option ρ
  typemap : Option τ
  fieldMap : OrderedHash κ Nat
  rowNum : Int
  numFields : Nat
  values : List (Option ν)
  behind : Option (List κ)

/-- The state the methods run in; the latest event comes first. -/
structure World (κ ν τ ρ : Type) where
  typeMap : ρ → τ
  tuple : Tuple κ ν τ ρ
  log : List (Event κ ν τ ρ)

/-- The results, and what their type maps make of the fields. -/
structure Results (κ ν τ ρ : Type) where
  fnames : ρ → List κ
  ntuples : ρ → Nat
  /-- The value of a cast that succeeds. -/
  value : τ → ρ → Int → Nat → ν
  /-- The exception of a cast, which may depend on all that happened before. -/
  raises : List (Event κ ν τ ρ) → τ → ρ → Int → Nat → Option (ErrClass × String)

/-- A key of `[]` and `fetch`: an Integer, or any other object. -/
inductive Key (κ : Type) where
  | int (i : Int)
  | name (key : κ)

variable {κ ν τ ρ : Type} [DecidableEq κ]

/-- A method of a tuple. -/
abbrev TupleMethod (κ ν τ ρ α : Type) := Method Stop (World κ ν τ ρ) α

/-- `rb_raise`. -/
def raiseExn {α : Type} (cls : ErrClass) (msg : String) : TupleMethod κ ν τ ρ α := Method.raise (.exn cls msg)

/-- Record an event. -/
def note (event : Event κ ν τ ρ) : TupleMethod κ ν τ ρ Unit :=
  Method.change fun w => ⟨w.typeMap, w.tuple, event :: w.log⟩

/-- `RB_OBJ_WRITE(self, &this->..., ...)`. -/
def write (f : Tuple κ ν τ ρ → Tuple κ ν τ ρ) : TupleMethod κ ν τ ρ Unit :=
  Method.change fun w => ⟨w.typeMap, f w.tuple, w.log⟩

/-- `result.type_map = typemap`. -/
def setTypeMap [DecidableEq ρ] (result : ρ) (typemap : τ) : TupleMethod κ ν τ ρ Unit :=
  Method.change fun w => ⟨fun r => if r = result then typemap else w.typeMap r, w.tuple, w.log⟩

/-- `pg_tuple_new`, on a result with this field map. -/
def pgTupleNew (rs : Results κ ν τ ρ) (typeMap : ρ → τ) (result : ρ) (fieldMap : OrderedHash κ Nat) (rowNum : Int) :
    Tuple κ ν τ ρ :=
  let numFields := (rs.fnames result).length
  let dupNames := numFields ≠ fieldMap.length
  { result := some result
    typemap := some (typeMap result)
    fieldMap := fieldMap
    rowNum := rowNum
    numFields := numFields
    values := List.replicate numFields none
    behind := if dupNames then some (rs.fnames result) else none }

/-- `pgresult_tuple`; the field map is that of `ensure_init_for_tuple`. -/
def pgresultTuple (rs : Results κ ν τ ρ) (typeMap : ρ → τ) (result : ρ) (index : Int) : Outcome (Tuple κ ν τ ρ) := do
  let tupleNum ← num2int index
  if tupleNum < 0 ∨ tupleNum ≥ rs.ntuples result then
    rbRaise .indexError s!"Index {tupleNum} is out of range"
  else pure (pgTupleNew rs typeMap result (OrderedHash.indexHash (rs.fnames result)) tupleNum)

section Fields

variable (rs : Results κ ν τ ρ)

/-- `typecast_result_value`. -/
def typecastResultValue (typemap : τ) (result : ρ) (row : Int) (col : Nat) : TupleMethod κ ν τ ρ ν := do
  let w ← Method.read
  match rs.raises w.log typemap result row col with
  | some (cls, msg) => do
    note (.cast typemap result row col false)
    raiseExn cls msg
  | none => do
    note (.cast typemap result row col true)
    pure (rs.value typemap result row col)

/-- `pgresult_tuple_values`. -/
def pgresultTupleValues (result : ρ) (index : Int) : TupleMethod κ ν τ ρ (List ν) := do
  let tupleNum ← Method.ofExcept (num2int index)
  if tupleNum < 0 ∨ tupleNum ≥ rs.ntuples result then
    raiseExn .indexError s!"Index {tupleNum} is out of range"
  else (List.range (rs.fnames result).length).mapM fun field => do
    let w ← Method.read
    typecastResultValue rs (w.typeMap result) result tupleNum field

/-- `pg_tuple_get_field_names`, where `none` is `Qfalse`. -/
def getFieldNames (this : Tuple κ ν τ ρ) : Outcome (Option (List κ)) :=
  if this.numFields ≠ this.fieldMap.length then
    match this.behind with
    | some names => pure (some names)
    | none => .error .undefined
  else pure none

/-- `pg_tuple_materialize_field`. -/
def materializeField (col : Nat) : TupleMethod κ ν τ ρ ν := do
  let w ← Method.read
  match w.tuple.values[col]? with
  | none => Method.raise .undefined
  | some (some value) => pure value
  | some none =>
    match w.tuple.typemap, w.tuple.result with
    | some typemap, some result => do
      let value ← typecastResultValue rs typemap result w.tuple.rowNum col
      write fun this => { this with values := this.values.set col (some value) }
      pure value
    | _, _ => do
      note (.dangling col)
      Method.raise .undefined

/-- `pg_tuple_detach`. -/
def detach : TupleMethod κ ν τ ρ Unit :=
  write fun this => { this with result := none, typemap := none, rowNum := -1 }

/-- `pg_tuple_materialize`. -/
def materialize : TupleMethod κ ν τ ρ Unit := do
  let w ← Method.read
  (List.range w.tuple.numFields).forM fun fieldNum => do
    let _ ← materializeField rs fieldNum
    pure ()
  detach

/-- Hand out the value of a field. -/
def give (col : Nat) : TupleMethod κ ν τ ρ ν := do
  let value ← materializeField rs col
  note (.gave col value)
  pure value

/-- The column of an Integer key, or the exception of `fetch`. -/
def intColumn (numFields : Nat) (key : Int) : Outcome (Except (ErrClass × String) Nat) := do
  let fieldNum ← num2int key
  let fieldNum := if fieldNum < 0 then numFields + fieldNum else fieldNum
  if fieldNum < 0 ∨ fieldNum ≥ numFields then
    pure (.error (.indexError, s!"Index {fieldNum} is out of range"))
  else pure (.ok fieldNum.toNat)

/-- The column of a key, or the exception of `fetch`. -/
def keyColumn (this : Tuple κ ν τ ρ) : Key κ → Outcome (Except (ErrClass × String) Nat)
  | .int i => intColumn this.numFields i
  | .name name =>
    match this.fieldMap.aref name with
    | none => pure (.error (.keyError, "column not found"))
    | some index => pure (.ok index)

/-- `pg_tuple_fetch`. -/
def pgTupleFetch (key : Key κ) (default : Option ν) (block : Option (Key κ → TupleMethod κ ν τ ρ ν)) :
    TupleMethod κ ν τ ρ ν := do
  let w ← Method.read
  let column ← Method.ofExcept (keyColumn w.tuple key)
  match column with
  | .ok col => give rs col
  | .error (cls, msg) =>
    match block, default with
    | some block, _ => block key
    | none, some value => pure value
    | none, none => raiseExn cls msg

/-- `pg_tuple_aref`, where `none` is `nil`. -/
def pgTupleAref (key : Key κ) : TupleMethod κ ν τ ρ (Option ν) := do
  let w ← Method.read
  let column ← Method.ofExcept (keyColumn w.tuple key)
  match column with
  | .ok col => do
    let value ← give rs col
    pure (some value)
  | .error _ => pure none

/-- Yield a field with its name. -/
def yieldField (block : κ → ν → TupleMethod κ ν τ ρ Unit) (name : κ) (col : Nat) : TupleMethod κ ν τ ρ Unit := do
  let value ← materializeField rs col
  note (.yielded name col value)
  block name value

/-- `pg_tuple_each`. -/
def pgTupleEach (block : κ → ν → TupleMethod κ ν τ ρ Unit) : TupleMethod κ ν τ ρ Unit := do
  let w ← Method.read
  let fieldNames ← Method.ofExcept (getFieldNames w.tuple)
  match fieldNames with
  | none => w.tuple.fieldMap.forM fun entry => yieldField rs block entry.1 entry.2
  | some names => (List.range w.tuple.numFields).forM fun i => do
    match names[i]? with
    | some name => yieldField rs block name i
    | none => Method.raise .undefined
  detach

/-- `pg_tuple_each_value`. -/
def pgTupleEachValue (block : ν → TupleMethod κ ν τ ρ Unit) : TupleMethod κ ν τ ρ Unit := do
  let w ← Method.read
  (List.range w.tuple.numFields).forM fun fieldNum => do
    let value ← give rs fieldNum
    block value
  detach

/-- `rb_ary_new4(this->num_fields, &this->values[0])`, for values that are all materialised. -/
def valuesArray : TupleMethod κ ν τ ρ (List ν) := do
  let w ← Method.read
  match w.tuple.values.mapM id with
  | some values => do
    values.zipIdx.forM fun entry => note (.gave entry.2 entry.1)
    pure values
  | none => Method.raise .undefined

/-- `pg_tuple_values`. -/
def pgTupleValues : TupleMethod κ ν τ ρ (List ν) := do
  materialize rs
  valuesArray

/-- `pg_tuple_length`. -/
def pgTupleLength (this : Tuple κ ν τ ρ) : Nat := this.numFields

/-- `PG::Tuple#keys`. -/
def keys (this : Tuple κ ν τ ρ) : Outcome (List κ) := do
  match ← getFieldNames this with
  | some names => pure names
  | none => pure (this.fieldMap.map Prod.fst)

/-- `pg_tuple_dump`: the names and the values. -/
def pgTupleDump : TupleMethod κ ν τ ρ (List κ × List ν) := do
  materialize rs
  let w ← Method.read
  let fieldNames ← Method.ofExcept (keys w.tuple)
  let values ← valuesArray
  pure (fieldNames, values)

/-- `pg_tuple_load`, on an object that was only allocated or on a tuple. -/
def pgTupleLoad (self : Option (Tuple κ ν τ ρ)) (a : List κ × List ν) : Outcome (Tuple κ ν τ ρ) :=
  match self with
  | some _ => rbRaise .typeError "tuple is not empty"
  | none =>
    let (fieldNames, values) := a
    let numFields := values.length
    if fieldNames.length ≠ numFields then rbRaise .typeError "different number of fields and values"
    else
      let fieldMap := OrderedHash.indexHash fieldNames
      let dupNames := numFields ≠ fieldMap.length
      pure
        { result := none
          typemap := none
          fieldMap := fieldMap
          rowNum := -1
          numFields := numFields
          values := values.map some
          behind := if dupNames then some fieldNames else none }

end Fields

end RubyPg.PgTuple
