import RubyPg.Coder
import RubyPg.Lib.Field

/-!
# `PG::BinaryDecoder::Array`

`pg_bin_dec_array` of `ext/pg_binary_decoder.c`. The arrays it is filling are `arrays[dim]` and
those above it, from the innermost to the outermost; a sub-array stands in its parent from when it
is begun, here from when it is filled, so that the length of a parent is that of the list only
while none of its sub-arrays is open.
-/

namespace RubyPg.Binary
set_option autoImplicit false
open Reader

/-- `pg_bin_dec_bytea`. -/
def pgBinDecBytea : Decoder := fun val => pure (.str val)

/-- `MAXDIM`. -/
def maxDim : Nat := 6

/-- The error at `length_error`. -/
def arrayLengthError (pos : Nat) : Stop :=
  let position := pos + 1
  .exn .argumentError s!"premature end of binary array data at position: {position}"

/-- The error about what stands behind an array. -/
def arrayTrailingData (pos : Nat) : Stop :=
  let position := pos + 1
  .exn .argumentError s!"trailing data after binary array data at position: {position}"

/-- The number of dimensions. -/
def readNdim : Reader Stop Nat := do
  let c ← take arrayLengthError 4
  let ndim := readNbo c
  if ndim < 0 ∨ ndim > maxDim then
    Method.raise (.exn .argumentError s!"unsupported number of array dimensions: {ndim}")
  else pure ndim.toNat

/-- The flags. -/
def readFlags : Reader Stop Unit := do
  let c ← take arrayLengthError 4
  let flags := readNbo c
  if flags ≠ 0 ∧ flags ≠ 1 then Method.raise (.exn .argumentError s!"unsupported binary array flags: {flags}")
  else pure ()

/-- The loop over the sizes of `n` dimensions, with `nitems32` so far. -/
def readDimSizes : Nat → Int → Reader Stop (List Nat × Int)
  | 0, nitems => pure ([], nitems)
  | n + 1, nitems => do
    let c ← take arrayLengthError 8
    let dimSize := readNbo (c.take 4)
    let prod := nitems * dimSize
    if dimSize < 0 ∨ Int.bmod prod (2 ^ 32) ≠ prod then
      Method.raise (.exn .argumentError s!"unsupported array size: {prod}")
    else do
      let (dimSizes, nitems) ← readDimSizes n prod
      pure (dimSize.toNat :: dimSizes, nitems)

/-- The arrays that are being filled. -/
structure Open where
  array : List Value
  outer : List (List Value)

/-- `while (dim < ndim - 1)` begin a sub-array; so many dimensions are below. -/
def Open.down : Nat → Open → Open
  | 0, s => s
  | below + 1, s => down below ⟨[], s.array :: s.outer⟩

/-- `while (RARRAY_LEN(arrays[dim]) >= dim_sizes[dim] && dim > 0) dim--;`. -/
def Open.up (dimSizes : List Nat) : List Value → List (List Value) → Open
  | array, [] => ⟨array, []⟩
  | array, parent :: outer =>
    if array.length ≥ dimSizes.getD (outer.length + 1) 0 then up dimSizes (parent ++ [.ary array]) outer
    else ⟨array, parent :: outer⟩

/-- Put an element into the arrays. -/
def Open.push (dimSizes : List Nat) (s : Open) (element : Value) : Open :=
  let s := s.down (dimSizes.length - 1 - s.outer.length)
  up dimSizes (s.array ++ [element]) s.outer

/-- `arrays[0]`. -/
def Open.outermost : List Value → List (List Value) → List Value
  | array, [] => array
  | array, parent :: outer => outermost (parent ++ [.ary array]) outer

/-- The loop over `n` elements. -/
def readElements (elem : Decoder) (dimSizes : List Nat) : Nat → Open → Reader Stop Open
  | 0, s => pure s
  | n + 1, s => do
    let element ← field arrayLengthError .nil elem
    readElements elem dimSizes n (s.push dimSizes element)

/-- What `pg_bin_dec_array` reads. -/
def readArray (elem : Decoder) : Reader Stop Value := do
  let ndim ← readNdim
  readFlags
  let _ ← take arrayLengthError 4
  let (dimSizes, nitems) ← readDimSizes ndim (if ndim = 0 then 0 else 1)
  let s ← readElements elem dimSizes nitems.toNat ⟨[], []⟩
  pure (.ary (Open.outermost s.array s.outer))

/-- `pg_bin_dec_array`. -/
def pgBinDecArray (elem : Decoder) : Decoder := fun inputLine =>
  ((do
    let array ← readArray elem
    atEnd arrayTrailingData
    pure array : Reader Stop Value) ⟨0, inputLine⟩).1

end RubyPg.Binary
