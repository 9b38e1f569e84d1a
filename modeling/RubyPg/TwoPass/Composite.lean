import RubyPg.TwoPass.Encoders

/-!
# Composite encoders that write into memory

`pg_bin_enc_array`, `pg_text_enc_to_base64` and `pg_bin_enc_from_base64`, and the encoders that
can be built from them. The walk of `pg_bin_enc_array` over `arrays` and `dimpos` visits the
sub-arrays depth first, and is written as a recursion over the dimensions.
-/

namespace RubyPg.TwoPass
set_option autoImplicit false
open Ascii Writer

variable (api : CApi) (elem : EncFunc)

/-- `rb_ary_entry`. -/
def rbAryEntry (array : Value) (i : Nat) : Value :=
  match array with
  | .ary xs => xs.getD i .nil
  | _ => .nil

/-- The first entries of an array. -/
def entries (array : Value) (size : Nat) : List Value := (List.range size).map (rbAryEntry array)

/-- The first element, where it is taken as a further dimension. -/
def nextDim (dimensions : Option Nat) (ndim : Nat) (el1 : List Value) : Option (List Value) :=
  match rbAryEntry (.ary el1) 0 with
  | .ary el2 =>
    match dimensions with
    | none => some el2
    | some d => if ndim < d then some el2 else none
  | _ => none

/-- The sizes of the dimensions, from the first elements; `room` dimensions may still follow. -/
def dimSizes (dimensions : Option Nat) : Nat → Nat → List Value → Outcome (List Nat)
  | room, ndim, el1 =>
    match nextDim dimensions ndim el1, room with
    | none, _ => pure [el1.length]
    | some _, 0 =>
      let ndim := ndim + 1
      rbRaise .argumentError s!"unsupported number of array dimensions: >{ndim}"
    | some el2, room + 1 => do pure (el1.length :: (← dimSizes dimensions room (ndim + 1) el2))

/-- The dimensions of an array; an empty one has none. -/
def foundDims (dimensions : Option Nat) (xs : List Value) : Outcome (List Nat) :=
  if xs = [] then pure [] else dimSizes dimensions 5 1 xs

/-- The number of dimensions has to be the expected one, if there is one. -/
def checkDims (dimensions : Option Nat) (sizes : List Nat) : Outcome (List Nat) :=
  let ndim := sizes.length
  match dimensions with
  | some expected =>
    if (if ndim = 0 then 1 else ndim) ≠ expected then
      rbRaise .argumentError s!"less array dimensions to encode ({ndim}) than expected ({expected})"
    else pure sizes
  | none => pure sizes

/-- The sizes of the dimensions to encode. -/
def arrayDims (dimensions : Option Nat) (xs : List Value) : Outcome (List Nat) := do
  checkDims dimensions (← foundDims dimensions xs)

/-- The length that an answer stands for. -/
def Answer.length : Answer → Nat
  | .size n _ => n
  | .string s => s.length

/-- The first call over the items of one array: the size, and the answers for all that are not nil. -/
def firstLeaves : List Value → Outcome (Nat × List Answer)
  | [] => pure (0, [])
  | .nil :: items => do
    let (size, answers) ← firstLeaves items
    pure (4 + size, answers)
  | item :: items => do
    let answer ← elem item
    let (size, answers) ← firstLeaves items
    pure (4 + answer.length + size, answer :: answers)

/-- A sub-array has to be an array of the size of its dimension. -/
def checkSubArray (dim size : Nat) (array : Value) : Outcome Unit :=
  let dim := dim + 1
  match array with
  | .ary xs =>
    let len := xs.length
    if size ≠ len then
      rbRaise .argumentError s!"varying number of array elements ({size} and {len}) in dimension {dim}"
    else pure ()
  | other =>
    let text := api.inspect other
    rbRaise .argumentError s!"expected Array instead of {text} in dimension {dim}"

/-- The first call over some sub-arrays. -/
def firstSubs (check : Value → Outcome Unit) (walk : Value → Outcome (Nat × List Answer)) :
    List Value → Outcome (Nat × List Answer)
  | [] => pure (0, [])
  | sub :: subs => do
    check sub
    let (size, answers) ← walk sub
    let (size', answers') ← firstSubs check walk subs
    pure (size + size', answers ++ answers')

/-- The walk of the first call. -/
def firstWalk : Nat → List Nat → Value → Outcome (Nat × List Answer)
  | _, [], _ => pure (0, [])
  | _, [size], array => firstLeaves elem (entries array size)
  | dim, size :: next :: rest, array =>
    firstSubs (checkSubArray api dim next) (firstWalk (dim + 1) (next :: rest)) (entries array size)

/-- The items in the order of the walk. -/
def leaves : List Nat → Value → List Value
  | [], _ => []
  | [size], array => entries array size
  | size :: next :: rest, array => (entries array size).flatMap (leaves (next :: rest))

/-- The second call for one item. -/
def Answer.write (answer : Answer) (out : Nat) : Writer Stop Nat :=
  match answer with
  | .string s => block s out
  | .size _ second => second out

/-- The loop of the second call over the items, with the answers kept from the first. -/
def writeItems : List Value → List Answer → Nat → Writer Stop Nat
  | [], _, out => pure out
  | .nil :: items, answers, out => do
    storeAll out (writeNbo 4 (-1))
    writeItems items answers (out + 4)
  | _ :: items, answer :: answers, out => do
    let strlen ← answer.write (out + 4)
    storeAll out (writeNbo 4 strlen)
    writeItems items answers (out + 4 + strlen)
  | _ :: _, [], _ => Method.raise .undefined

/-- The header of an array. -/
def arrayHeader (oid : Nat) (sizes : List Nat) : Bytes :=
  writeNbo 4 sizes.length ++ writeNbo 4 1 ++ writeNbo 4 oid ++
    sizes.flatMap fun size : Nat => writeNbo 4 size ++ writeNbo 4 1

/-- The second call of `pg_bin_enc_array`. -/
def arraySecond (oid : Nat) (sizes : List Nat) (items : List Value) (answers : List Answer) (out : Nat) :
    Writer Stop Nat := do
  storeAll out (arrayHeader oid sizes)
  let stop ← writeItems items answers (out + (12 + 8 * sizes.length))
  pure (stop - out)

/-- `pg_bin_enc_array`. -/
def pgBinEncArray (dimensions : Option Nat) (oid : Nat) : EncFunc
  | .ary xs => do
    let sizes ← arrayDims dimensions xs
    let (size, answers) ← firstWalk api elem 0 sizes (.ary xs)
    pure (.size (12 + sizes.length * 8 + size) (arraySecond oid sizes (leaves sizes (.ary xs)) answers))
  | value => pgCoderEncToS api value

/-- A byte string as memory. -/
def memOf (s : Bytes) : Mem := fun i => s.getD i 0

/-- The base64 form of a String, in a new String. -/
def base64String (s : Bytes) : Outcome Bytes :=
  match rbpgBase64Encode (fun i => pure (memOf s i)) 0 s.length ⟨memOf [], []⟩ with
  | (.ok (), buf) => pure (buf.mem.slice 0 (base64EncodedSize s.length))
  | (.error stop, _) => .error stop

/-- A String decoded from base64, in a new String. -/
def unbase64String (s : Bytes) : Outcome Bytes :=
  match rbpgBase64Decode (fun i => pure (memOf s i)) 0 s.length ⟨memOf [], []⟩ with
  | (.ok len, buf) => pure (buf.mem.slice 0 len)
  | (.error stop, _) => .error stop

/-- The second call of `pg_text_enc_to_base64`. -/
def toBase64Second (second : Nat → Writer Stop Nat) (out : Nat) : Writer Stop Nat := do
  let strlen ← second out
  rbpgBase64Encode (fun i => load (out + i)) out strlen
  pure (base64EncodedSize strlen)

/-- `pg_text_enc_to_base64`. -/
def pgTextEncToBase64 : EncFunc := fun value => do
  match ← elem value with
  | .string s => pure (.string (← base64String s))
  | .size strlen second => pure (.size (base64EncodedSize strlen) (toBase64Second second))

/-- The second call of `pg_bin_enc_from_base64`. -/
def fromBase64Second (second : Nat → Writer Stop Nat) (out : Nat) : Writer Stop Nat := do
  let strlen ← second out
  rbpgBase64Decode (fun i => load (out + i)) out strlen

/-- `pg_bin_enc_from_base64`. -/
def pgBinEncFromBase64 : EncFunc := fun value => do
  match ← elem value with
  | .string s => pure (.string (← unbase64String s))
  | .size strlen second => pure (.size (base64DecodedSize strlen) (fromBase64Second second))

/-- The encoders, with the elements of the composite ones. `onePass` is any encoder that only
answers with Strings: `TextEncoder::String`, the composite text encoders, those written in Ruby
and the missing encoder. -/
inductive Enc where
  | onePass (encode : Value → Outcome Bytes)
  | textBoolean
  | textInteger
  | textFloat
  | textNumeric
  | textBytea
  | boolean
  | int2
  | int4
  | int8
  | float4
  | float8
  | timestamp (flags : Nat)
  | date
  | array (dimensions : Option Nat) (oid : Nat) (elem : Enc)
  | toBase64 (elem : Enc)
  | fromBase64 (elem : Enc)

/-- The encoder function of an encoder. -/
def Enc.func : Enc → EncFunc
  | .onePass encode => fun value => do pure (.string (← encode value))
  | .textBoolean => pgTextEncBoolean api
  | .textInteger => pgTextEncInteger api
  | .textFloat => pgTextEncFloat api
  | .textNumeric => pgTextEncNumeric api
  | .textBytea => pgTextEncBytea api
  | .boolean => pgBinEncBoolean
  | .int2 => pgBinEncInt2 api
  | .int4 => pgBinEncInt4 api
  | .int8 => pgBinEncInt8 api
  | .float4 => pgBinEncFloat4 api
  | .float8 => pgBinEncFloat8 api
  | .timestamp flags => pgBinEncTimestamp api flags
  | .date => pgBinEncDate api
  | .array dimensions oid elem => pgBinEncArray api elem.func dimensions oid
  | .toBase64 elem => pgTextEncToBase64 elem.func
  | .fromBase64 elem => pgBinEncFromBase64 elem.func

/-- The first dimension found is the last one, or further ones are found in the first element. -/
theorem dimSizes_cases {dimensions : Option Nat} {room ndim : Nat} {xs : List Value} {sizes : List Nat}
    (found : dimSizes dimensions room ndim xs = .ok sizes) :
    nextDim dimensions ndim xs = none ∧ sizes = [xs.length] ∨
      ∃ el2 below tail, nextDim dimensions ndim xs = some el2 ∧ room = below + 1 ∧
        dimSizes dimensions below (ndim + 1) el2 = .ok tail ∧ sizes = xs.length :: tail := by
  unfold dimSizes at found
  cases next : nextDim dimensions ndim xs with
  | none =>
    rw [next] at found
    cases found
    exact .inl ⟨rfl, rfl⟩
  | some el2 =>
    rw [next] at found
    cases room with
    | zero => cases found
    | succ below =>
      obtain ⟨tail, rest, found⟩ := Outcome.of_bind found
      cases found
      exact .inr ⟨el2, below, tail, rfl, rfl, rest, rfl⟩

end RubyPg.TwoPass
