import RubyPg.Coder
import RubyPg.Lib.Region

/-!
# The parameters of a query

`alloc_query_params` and `alloc_typecast_buf` of `ext/pg_connection.c`. The four argument
arrays stand at the start of the stack pool, or in a heap pool of their own if they do not
fit. Values that need a second pass are written at `typecast_buf`, which points into the
stack pool until the first value does not fit and into a fresh heap chunk from then on.
The model logs the memory granted to every second pass, also when one of them raises.
-/

namespace RubyPg.Query
set_option autoImplicit false
open Ascii

/-- `QUERYDATA_BUFFER_SIZE`, the size of `memory_pool`. -/
def querydataBufferSize : Nat := 4000

/-- `INT_MAX`. -/
def intMax : Nat := 2 ^ 31 - 1

/-- The hash form of a parameter, with what `NUM2INT` and `NUM2UINT` make of its entries. -/
structure HashParam where
  value : Value
  format : Outcome (Option Int)
  type : Outcome (Option Nat)

/-- An entry of `params`. -/
inductive QueryParam where
  | value (v : Value)
  | hash (h : HashParam)

/-- `t_pg_coder`, as far as a query uses it. -/
structure QueryCoder where
  format : Int
  oid : Nat
  encFunc : QueryParam → Outcome FirstPass

/-- The functions of the type map that a query calls. -/
structure QueryTypeMap where
  fitToQuery : List QueryParam → Outcome Unit
  typecastQueryParam : QueryParam → Nat → Option QueryCoder

/-- The buffers a pointer can point into: the stack pool, the heap pool of the argument arrays
and the chunks of `typecast_heap_chain`, oldest first. -/
inductive Buffer where
  | memoryPool
  | heapPool
  | chunk (k : Nat)
deriving DecidableEq, Repr

/-- An entry of `values`. -/
inductive ValuePtr where
  | null
  | rstring (s : Bytes)
  | buffer (buf : Buffer) (off : Nat)

/-- What the arrays hold for one parameter. `lengths` is not set for a value that was written
in text format. -/
structure Arg where
  value : ValuePtr
  length : Option Nat
  format : Int
  type : Nat

/-- The memory of one second pass: it may write `size` bytes, and `kept` bytes (the terminator
included) are in use afterwards. -/
structure Grant where
  buf : Buffer
  start : Nat
  size : Nat
  kept : Nat
deriving DecidableEq, Repr

def Grant.granted (g : Grant) : Region Buffer := ⟨g.buf, g.start, g.size⟩

def Grant.inUse (g : Grant) : Region Buffer := ⟨g.buf, g.start, g.kept⟩

/-- The variables of the loop: `required_pool_size`, `typecast_buf` (`buf` and `off`), the sizes of
the heap chunks, the arguments so far and the log of the second passes. -/
structure PoolState where
  required : Nat
  buf : Buffer
  off : Nat
  chunks : List Nat := []
  args : List Arg := []
  grants : List Grant := []

/-- `len + 1` as an `int`; where that overflows, nothing is said about the chunk. -/
def intSucc (len : Nat) : Nat := if len < intMax then len + 1 else 0

/-- `alloc_typecast_buf`: a fresh chunk. -/
def allocTypecastBuf (st : PoolState) (len : Nat) : PoolState :=
  { st with buf := .chunk st.chunks.length, off := 0, chunks := st.chunks ++ [len] }

/-- Is the memory pool too small to take the value? -/
def reserve (st : PoolState) (len : Nat) : PoolState :=
  if querydataBufferSize < st.required + len + 1 then allocTypecastBuf st (intSucc len) else st

/-- The second pass, into the reserved memory. -/
def castParam (st : PoolState) (format : Int) (type len : Nat) (second : Outcome Bytes) : PoolState × Outcome Unit :=
  let st := reserve st len
  match second with
  | .error e => ({ st with grants := st.grants ++ [⟨st.buf, st.off, len, 0⟩] }, .error e)
  | .ok bytes =>
    let kept := if format = 0 then bytes.length + 1 else bytes.length
    let length := if format = 0 then none else some bytes.length
    ({ st with
        required := st.required + kept, off := st.off + kept
        args := st.args ++ [⟨.buffer st.buf st.off, length, format, type⟩]
        grants := st.grants ++ [⟨st.buf, st.off, len, kept⟩] }, .ok ())

/-- Format code, OID and value of a parameter: from its coder, or from its hash form. -/
def paramForm (withTypes : Bool) (conv : Option QueryCoder) (param : QueryParam) :
    Outcome (Int × Nat × QueryParam) :=
  match conv, param with
  | some coder, param => pure (coder.format, if withTypes then coder.oid else 0, param)
  | none, .value v => pure (0, 0, .value v)
  | none, .hash h => do
    let format ← h.format
    let type ← if withTypes then h.type else pure none
    pure (format.getD 0, type.getD 0, .value h.value)

/-- `pg_coder_enc_func`. -/
def pgCoderEncFunc (rt : Runtime) (conv : Option QueryCoder) (param : QueryParam) : Outcome FirstPass :=
  match conv, param with
  | some coder, param => coder.encFunc param
  | none, .value v => pgCoderEncToS rt v
  | none, .hash h => pgCoderEncToS rt h.value

/-- One round of the loop. The `RangeError` of `RSTRING_LENINT` for a String of `2 ** 31` bytes is left out. -/
def allocParam (rt : Runtime) (withTypes : Bool) (typemap : QueryTypeMap) (st : PoolState) (i : Nat)
    (param : QueryParam) : PoolState × Outcome Unit :=
  let conv := typemap.typecastQueryParam param i
  match paramForm withTypes conv param with
  | .error e => (st, .error e)
  | .ok (format, type, .value .nil) => ({ st with args := st.args ++ [⟨.null, some 0, format, type⟩] }, .ok ())
  | .ok (format, type, value) =>
    match pgCoderEncFunc rt conv value with
    | .error e => (st, .error e)
    | .ok (.string s) =>
      if format = 0 ∧ nul ∈ s then (st, rbRaise .argumentError "string contains null byte")
      else ({ st with args := st.args ++ [⟨.rstring s, some s.length, format, type⟩] }, .ok ())
    | .ok (.size len second) => castParam st format type len second

/-- The loop, from parameter `i` on; it ends with the first exception. -/
def allocParams (rt : Runtime) (withTypes : Bool) (typemap : QueryTypeMap) (st : PoolState) (i : Nat) :
    List QueryParam → PoolState × Outcome Unit
  | [] => (st, .ok ())
  | param :: params =>
    match allocParam rt withTypes typemap st i param with
    | (st, .error e) => (st, .error e)
    | (st, .ok ()) => allocParams rt withTypes typemap st (i + 1) params

/-- The size of the argument arrays: a pointer, two ints and possibly an Oid per parameter. -/
def arraysSize (withTypes : Bool) (nParams : Nat) : Nat := nParams * (8 + 4 + 4 + if withTypes then 4 else 0)

/-- The buffer that takes the argument arrays. -/
def arraysBuffer (withTypes : Bool) (nParams : Nat) : Buffer :=
  if querydataBufferSize < arraysSize withTypes nParams then .heapPool else .memoryPool

/-- `values`, `lengths`, `formats` and `types`, one behind the other. -/
def argArrays (withTypes : Bool) (nParams : Nat) : List (Region Buffer) :=
  let buf := arraysBuffer withTypes nParams
  [⟨buf, 0, 8 * nParams⟩, ⟨buf, 8 * nParams, 4 * nParams⟩, ⟨buf, 12 * nParams, 4 * nParams⟩,
    ⟨buf, 16 * nParams, if withTypes then 4 * nParams else 0⟩]

/-- The state in front of the loop. -/
def initialPool (withTypes : Bool) (nParams : Nat) : PoolState :=
  let required := if querydataBufferSize < arraysSize withTypes nParams then 0 else arraysSize withTypes nParams
  { required, buf := .memoryPool, off := required }

/-- `alloc_query_params`. The `RangeError` of `RARRAY_LENINT` for `2 ** 31` parameters is left out. -/
def allocQueryParams (rt : Runtime) (withTypes : Bool) (typemap : QueryTypeMap) (params : List QueryParam) :
    PoolState × Outcome Unit :=
  match typemap.fitToQuery params with
  | .error e => (initialPool withTypes params.length, .error e)
  | .ok () => allocParams rt withTypes typemap (initialPool withTypes params.length) 0 params

/-- The size of each buffer. -/
def capacity (withTypes : Bool) (nParams : Nat) (chunks : List Nat) : Buffer → Nat
  | .memoryPool => querydataBufferSize
  | .heapPool => if querydataBufferSize < arraysSize withTypes nParams then arraysSize withTypes nParams else 0
  | .chunk k => chunks.getD k 0

end RubyPg.Query
