import RubyPg.TwoPass.ArrayShape

/-!
# The size of a binary array as an `int`

`pg_bin_enc_array` counts in `int`: the number of items, the sum of the sizes and the index of
`*intermediate` all wrap, and the sum is what the callers allocate. The sum of the lengths that
fit into an `int` need not fit, so the size announced may be any `int` (`announces_iff`).
-/

namespace RubyPg.TwoPass
set_option autoImplicit false
open Ascii Writer

/-- `RSTRING_LENINT` and `RARRAY_LENINT`. -/
def rbLong2int (len : Nat) : Outcome Nat :=
  if len < 2 ^ 31 then pure len else rbRaise .rangeError s!"integer {len} too big to convert to 'int'"

/-- `rb_ary_new2`. -/
def rbAryNew2 {α : Type} (capa : Int) : Outcome (List (Option α)) :=
  if capa < 0 then rbRaise .argumentError "negative array size (or size too big)" else pure []

/-- `rb_ary_store`; the gap that it may fill with nils is `none`. -/
def rbAryStore {α : Type} (ary : List (Option α)) (idx : Int) (val : α) : Outcome (List (Option α)) :=
  let place := if idx < 0 then idx + ary.length else idx
  let len := ary.length
  if place < 0 then rbRaise .indexError s!"index {idx} too small for array; minimum: -{len}"
  else if place < ary.length then pure (ary.set place.toNat (some val))
  else pure (ary ++ List.replicate (place.toNat - ary.length) none ++ [some val])

/-- `rb_ary_entry`. -/
def rbAryAt {α : Type} (ary : List (Option α)) (idx : Int) : Option α :=
  let place := if idx < 0 then idx + ary.length else idx
  if place < 0 then none else ary.getD place.toNat none

/-- What the first call of an element encoder leaves in `subint`: something for the second call, for
which it answers a size, or the finished String. -/
inductive Subint (ι : Type) where
  | twoPass (strlen : Nat) (subint : ι)
  | onePass (subint : Bytes)

/-- The length that is added to the sum. -/
def Subint.strlen {ι : Type} : Subint ι → Nat
  | .twoPass strlen _ => strlen
  | .onePass subint => subint.length

/-- An element encoder with its two calls. -/
structure ElemCoder (ι : Type) where
  first : Value → Outcome (Subint ι)
  second : Value → ι → Nat → Writer Stop Nat

/-- The second call for an item, from what the first one left. -/
def ElemCoder.write {ι : Type} (elem : ElemCoder ι) (item : Value) : Subint ι → Nat → Writer Stop Nat
  | .twoPass _ subint, out => elem.second item subint out
  | .onePass subint, out => do
    let strlen ← Method.ofExcept (rbLong2int subint.length)
    storeAll out subint
    pure strlen

/-- The encoder function of an element encoder. -/
def ElemCoder.func {ι : Type} (elem : ElemCoder ι) : EncFunc := fun value =>
  (elem.first value).map fun
    | .twoPass strlen subint => .size strlen (elem.second value subint)
    | .onePass subint => .string subint

section Code

variable {ι : Type} (api : CApi) (elem : ElemCoder ι)

/-- The loop over the first elements: `dim_sizes` and `nitems`. -/
def dimSizesInt (dimensions : Option Nat) : Nat → Nat → Int → List Value → Outcome (List Nat × Int)
  | room, ndim, nitems, el1 => do
    let size ← rbLong2int el1.length
    let nitems := int32 (nitems * size)
    match nextDim dimensions ndim el1, room with
    | none, _ => pure ([size], nitems)
    | some _, 0 =>
      let ndim := ndim + 1
      rbRaise .argumentError s!"unsupported number of array dimensions: >{ndim}"
    | some el2, room + 1 => do
      let (sizes, nitems) ← dimSizesInt dimensions room (ndim + 1) nitems el2
      pure (size :: sizes, nitems)

/-- The dimensions and the number of items. -/
def arrayDimsInt (dimensions : Option Nat) (xs : List Value) : Outcome (List Nat × Int) := do
  let (found, nitems) ← if xs = [] then pure ([], 0) else dimSizesInt dimensions 5 1 1 xs
  let sizes ← checkDims dimensions found
  pure (sizes, nitems)

/-- `size_sum`, `item_idx` and `*intermediate` of the first call. An item has two places in
`*intermediate`, and one here, so `item_idx` wraps at half of the bound of an `int`. -/
structure Counters (ι : Type) where
  sizeSum : Int
  itemIdx : Int
  intermediate : List (Option (Subint ι))

/-- `item_idx++`, twice. -/
def nextIdx (itemIdx : Int) : Int := Int.bmod (itemIdx + 1) (2 ^ 31)

/-- The first call for one item. -/
def firstItemInt (item : Value) : Method Stop (Counters ι) Unit :=
  match item with
  | .nil => Method.change fun s => ⟨int32 (s.sizeSum + 4), s.itemIdx, s.intermediate⟩
  | item => do
    let subint ← Method.ofExcept (elem.first item)
    let s ← Method.read
    let intermediate ← Method.ofExcept (rbAryStore s.intermediate s.itemIdx subint)
    let strlen ← Method.ofExcept (rbLong2int subint.strlen)
    Method.change fun s => ⟨int32 (s.sizeSum + int32 (4 + strlen)), nextIdx s.itemIdx, intermediate⟩

/-- A sub-array has to be an array of the size of its dimension. -/
def checkSubArrayInt (dim size : Nat) (array : Value) : Outcome Unit :=
  match array with
  | .ary xs =>
    if size ≠ xs.length then do
      let len ← rbLong2int xs.length
      let dim := dim + 1
      rbRaise .argumentError s!"varying number of array elements ({size} and {len}) in dimension {dim}"
    else pure ()
  | other => checkSubArray api dim size other

/-- The loops of the first call. -/
def firstLoopsInt (sizes : List Nat) : Walker (Method Stop (Counters ι)) Value where
  entry := rbAryEntry
  levels := sizes.dropLast
  enter dim array := Method.ofExcept (checkSubArrayInt api dim (sizes.getD (dim + 1) 0) array)
  leaf array := (entries array (sizes.getLastD 0)).forM (firstItemInt elem)
  tired := Method.raise .fuel

/-- `out` and `item_idx` of the second call. -/
structure Cursors where
  out : Nat
  itemIdx : Int

/-- The second call for one item. -/
def secondItemInt (intermediate : List (Option (Subint ι))) (item : Value) : StateT Cursors (Writer Stop) Unit := fun s =>
  match item with
  | .nil => do
    storeAll s.out (writeNbo 4 (-1))
    pure ((), ⟨s.out + 4, s.itemIdx⟩)
  | item =>
    match rbAryAt intermediate s.itemIdx with
    | some subint => do
      let strlen ← elem.write item subint (s.out + 4)
      storeAll s.out (writeNbo 4 strlen)
      pure ((), ⟨s.out + 4 + strlen, nextIdx s.itemIdx⟩)
    | none => Method.raise .undefined

/-- The loops of the second call. -/
def secondLoopsInt (sizes : List Nat) (intermediate : List (Option (Subint ι))) :
    Walker (StateT Cursors (Writer Stop)) Value where
  entry := rbAryEntry
  levels := sizes.dropLast
  enter _ _ := pure ()
  leaf array := (entries array (sizes.getLastD 0)).forM (secondItemInt elem intermediate)
  tired := fun _ => Method.raise .fuel

/-- The second call of `pg_bin_enc_array`, with the number of bytes it writes. -/
def arraySecondInt (oid : Nat) (sizes : List Nat) (value : Value) (intermediate : List (Option (Subint ι))) (out : Nat) :
    Writer Stop Nat := do
  storeAll out (arrayHeader oid sizes)
  let (_, s) ← (secondLoopsInt elem sizes intermediate).run (rounds sizes) value ⟨out + (12 + 8 * sizes.length), 0⟩
  pure (s.out - out)

/-- `pg_bin_enc_array` for an array, in `int` arithmetic: the size, and the second call. -/
def pgBinEncArrayInt (dimensions : Option Nat) (oid : Nat) (xs : List Value) :
    Outcome (Int × (Nat → Writer Stop Nat)) := do
  let (sizes, nitems) ← arrayDimsInt dimensions xs
  let intermediate ← rbAryNew2 nitems
  let s ← Method.finish ((firstLoopsInt api elem sizes).run (rounds sizes) (.ary xs)) ⟨0, 0, intermediate⟩
  pure (int32 (12 + sizes.length * 8 + s.sizeSum), arraySecondInt elem oid sizes (.ary xs) s.intermediate)

/-- `pg_coder_encode` up to the second call: with -1 the intermediate value is taken for the result,
otherwise `rb_str_new` makes room. -/
def pgCoderEncodeFirst (dimensions : Option Nat) (oid : Nat) (xs : List Value) :
    Outcome (Option (Nat × (Nat → Writer Stop Nat))) := do
  let (len, second) ← pgBinEncArrayInt api elem dimensions oid xs
  if len = -1 then pure none
  else if len < 0 then rbRaise .argumentError "negative string size (or size too big)"
  else pure (some (len.toNat, second))

end Code

/-- Either an exception is raised before the second call, or there is room for what it writes. -/
def Announces (before : Outcome (Option (Nat × (Nat → Writer Stop Nat)))) : Prop :=
  match before with
  | .error _ => True
  | .ok none => False
  | .ok (some (len, second)) => ∀ out mem written, (second out ⟨mem, []⟩).1 = .ok written → written ≤ len

section Accepted

variable {ι : Type}

/-- The encoding of an element, by the size announced for it and the length written: both fit an `int`. -/
structure ElemCoder.Encodes (elem : ElemCoder ι) (item : Value) (subint : Subint ι) (written : Nat) : Prop where
  first : elem.first item = .ok subint
  announced_lt : subint.strlen < 2 ^ 31
  written_lt : written < 2 ^ 31
  second : ∀ out s, (elem.write item subint out s).1 = .ok written

/-- The items of an array, with what the first call leaves for those that are not nil, the size announced for all of
them, and the number of bytes they take. -/
inductive Encoded (elem : ElemCoder ι) : List Value → List (Subint ι) → Nat → Nat → Prop where
  | none : Encoded elem [] [] 0 0
  | null {items : List Value} {subints : List (Subint ι)} {announced written : Nat} :
      Encoded elem items subints announced written →
      Encoded elem (.nil :: items) subints (4 + announced) (4 + written)
  | item {item : Value} {items : List Value} {subint : Subint ι} {subints : List (Subint ι)}
      {strlen announced written : Nat} : item ≠ .nil → elem.Encodes item subint strlen →
      Encoded elem items subints announced written →
      Encoded elem (item :: items) (subint :: subints) (4 + subint.strlen + announced) (4 + strlen + written)

/-- An array that the encoder accepts: it has the dimensions `sizes`, every element has an encoding that fits an `int`,
and the second call returns. -/
structure Accepted (api : CApi) (elem : ElemCoder ι) (dimensions : Option Nat) (oid : Nat) (xs : List Value)
    (sizes : List Nat) (announced written : Nat) : Prop where
  dims : arrayDims dimensions xs = .ok sizes
  shape : Layered sizes (.ary xs)
  items : ∃ subints, Encoded elem (leaves sizes (.ary xs)) subints announced written
  returns : ∀ len second, pgCoderEncodeFirst api elem dimensions oid xs = .ok (some (len, second)) →
    ∃ out mem n, (second out ⟨mem, []⟩).1 = .ok n

end Accepted

theorem rbLong2int_ok {len : Nat} (small : len < 2 ^ 31) : rbLong2int len = .ok len := if_pos small

theorem rbLong2int_large {len : Nat} (large : 2 ^ 31 ≤ len) : ∃ stop, rbLong2int len = .error stop :=
  ⟨_, if_neg (Nat.not_lt.2 large)⟩

section Dimensions

variable {dimensions : Option Nat} {xs : List Value} {sizes : List Nat}

theorem dimSizesInt_last {room ndim : Nat} (last : nextDim dimensions ndim xs = none) (nitems : Int) :
    dimSizesInt dimensions room ndim nitems xs = (do
      let size ← rbLong2int xs.length
      pure ([size], int32 (nitems * size))) := by
  unfold dimSizesInt
  simp only [last]

theorem dimSizesInt_next {room ndim : Nat} {el2 : List Value} (next : nextDim dimensions ndim xs = some el2)
    (nitems : Int) :
    dimSizesInt dimensions (room + 1) ndim nitems xs = (do
      let size ← rbLong2int xs.length
      let (sizes, nitems) ← dimSizesInt dimensions room (ndim + 1) (int32 (nitems * size)) el2
      pure (size :: sizes, nitems)) := by
  conv_lhs => unfold dimSizesInt
  simp only [next]

/-- A dimension that does not fit raises. -/
theorem dimSizesInt_large {room ndim : Nat} (found : dimSizes dimensions room ndim xs = .ok sizes) (nitems : Int)
    (large : ∃ size ∈ sizes, 2 ^ 31 ≤ size) : ∃ stop, dimSizesInt dimensions room ndim nitems xs = .error stop := by
  induction room generalizing ndim xs sizes nitems with
  | zero =>
    rcases dimSizes_cases found with ⟨last, rfl⟩ | ⟨el2, below, tail, -, room, -, -⟩
    · obtain ⟨size, member, long⟩ := large
      rw [List.mem_singleton.1 member] at long
      obtain ⟨stop, raised⟩ := rbLong2int_large long
      exact ⟨stop, by rw [dimSizesInt_last last, raised]; rfl⟩
    · cases room
  | succ room ih =>
    obtain ⟨size, member, long⟩ := large
    rcases dimSizes_cases found with ⟨last, rfl⟩ | ⟨el2, below, tail, next, room, rest, rfl⟩
    · rw [List.mem_singleton.1 member] at long
      obtain ⟨stop, raised⟩ := rbLong2int_large long
      exact ⟨stop, by rw [dimSizesInt_last last, raised]; rfl⟩
    · cases room
      rw [dimSizesInt_next next]
      by_cases short : xs.length < 2 ^ 31
      · have behind : ∃ size ∈ tail, 2 ^ 31 ≤ size := by
          rcases List.mem_cons.1 member with rfl | later
          · exact absurd short (Nat.not_lt.2 long)
          · exact ⟨size, later, long⟩
        obtain ⟨stop, raised⟩ := ih rest (int32 (nitems * xs.length)) behind
        exact ⟨stop, by rw [rbLong2int_ok short]; simp only [bind, Except.bind, raised]⟩
      · obtain ⟨stop, raised⟩ := rbLong2int_large (Nat.not_lt.1 short)
        exact ⟨stop, by rw [raised]; rfl⟩

/-- Otherwise the number of items is the product, as an `int`. -/
theorem dimSizesInt_small {room ndim : Nat} (found : dimSizes dimensions room ndim xs = .ok sizes) (nitems : Int)
    (small : ∀ size ∈ sizes, size < 2 ^ 31) :
    dimSizesInt dimensions room ndim nitems xs = .ok (sizes, int32 (nitems * sizes.prod)) := by
  induction room generalizing ndim xs sizes nitems with
  | zero =>
    rcases dimSizes_cases found with ⟨last, rfl⟩ | ⟨el2, below, tail, -, room, -, -⟩
    · rw [dimSizesInt_last last, rbLong2int_ok (small _ List.mem_cons_self), List.prod_singleton]
      rfl
    · cases room
  | succ room ih =>
    rcases dimSizes_cases found with ⟨last, rfl⟩ | ⟨el2, below, tail, next, room, rest, rfl⟩
    · rw [dimSizesInt_last last, rbLong2int_ok (small _ List.mem_cons_self), List.prod_singleton]
      rfl
    · cases room
      have product : int32 (int32 (nitems * xs.length) * tail.prod) = int32 (nitems * (xs.length :: tail).prod) := by
        rw [List.prod_cons, Nat.cast_mul, ← Int.mul_assoc]
        exact Int.bmod_mul_bmod
      have behind := ih rest (int32 (nitems * xs.length)) fun size member => small size (List.mem_cons_of_mem _ member)
      rw [dimSizesInt_next next, rbLong2int_ok (small _ List.mem_cons_self)]
      simp only [bind, Except.bind, behind, product]
      rfl

/-- The dimensions of an array that the encoder accepts. -/
theorem arrayDimsInt_cases (accepted : arrayDims dimensions xs = .ok sizes) :
    (∃ size ∈ sizes, 2 ^ 31 ≤ size) ∧ (∃ stop, arrayDimsInt dimensions xs = .error stop) ∨
      (∀ size ∈ sizes, size < 2 ^ 31) ∧
        ∃ nitems, arrayDimsInt dimensions xs = .ok (sizes, nitems) ∧ (nitems < 0 ↔ int32 sizes.prod < 0) := by
  obtain ⟨dims, found, checked⟩ := Outcome.of_bind accepted
  have same := checkDims_same checked
  subst same
  by_cases empty : xs = []
  · subst empty
    rw [foundDims, if_pos rfl] at found
    cases found
    refine .inr ⟨by simp, 0, ?_, ?_⟩
    · unfold arrayDimsInt
      rw [if_pos rfl]
      simp only [bind, Except.bind, pure, Except.pure] at checked ⊢
      rw [checked]
    · rw [List.prod_nil]
      decide
  · rw [foundDims, if_neg empty] at found
    by_cases large : ∃ size ∈ dims, 2 ^ 31 ≤ size
    · obtain ⟨stop, raised⟩ := dimSizesInt_large found 1 large
      refine .inl ⟨large, stop, ?_⟩
      unfold arrayDimsInt
      rw [if_neg empty, raised]
      rfl
    · have small : ∀ size ∈ dims, size < 2 ^ 31 := by
        intro size member
        by_contra long
        exact large ⟨size, member, Nat.not_lt.1 long⟩
      refine .inr ⟨small, int32 (1 * dims.prod), ?_, by rw [Int.one_mul]⟩
      unfold arrayDimsInt
      rw [if_neg empty, dimSizesInt_small found 1 small]
      simp only [bind, Except.bind, checked]
      rfl

end Dimensions

section Loops

variable {ι : Type} {api : CApi} {elem : ElemCoder ι} {sizes : List Nat}

/-- Arrays of one shape pass a walk that stops only at arrays of another size. -/
theorem Layered.passes {m : Type → Type} [Monad m] {w : Walker m Value} (entry : w.entry = rbAryEntry)
    (enters : ∀ dim ys, ys.length = sizes.getD (dim + 1) 0 → w.enter dim (.ary ys) = pure ()) {below : List Nat}
    {dim : Nat} (here : sizes.drop dim = below) {array : Value} (layered : Layered below array) :
    w.Passes below.dropLast dim array := by
  induction below generalizing dim array with
  | nil => trivial
  | cons size below ih =>
    cases below with
    | nil => trivial
    | cons next below =>
      obtain ⟨-, -, later⟩ := drop_cons here
      obtain ⟨-, bound, -⟩ := drop_cons later
      obtain ⟨xs, rfl, rfl, inner⟩ := layered
      intro i inside
      have element : w.entry (.ary xs) i = xs[i] := by simp [entry, rbAryEntry, inside]
      have deeper := inner xs[i] (List.getElem_mem inside)
      rw [element]
      constructor
      · obtain ⟨ys, array, length, -⟩ := deeper
        rw [array]
        exact enters dim ys (by rw [bound, length])
      · exact ih later deeper

theorem checkSubArrayInt_ok {dim size : Nat} {ys : List Value} (same : ys.length = size) :
    checkSubArrayInt api dim size (.ary ys) = .ok () := by
  rw [checkSubArrayInt, if_neg (not_not.2 same.symm)]
  rfl

theorem checkSubArray_ok {dim size : Nat} {ys : List Value} (same : ys.length = size) :
    checkSubArray api dim size (.ary ys) = .ok () := by
  rw [checkSubArray, if_neg (not_not.2 same.symm)]
  rfl

/-- The first call visits the items. -/
theorem firstLoopsInt_eq (positive : ∀ size ∈ sizes.dropLast, 0 < size) {array : Value} (layered : Layered sizes array) :
    (firstLoopsInt api elem sizes).run (rounds sizes) array = (leaves sizes array).forM (firstItemInt elem) :=
  run_leaves rfl rfl (fun _ => rfl) positive
    (Layered.passes rfl (fun _ _ same => congrArg Method.ofExcept (checkSubArrayInt_ok same)) List.drop_zero layered)

/-- And so does the second one. -/
theorem secondLoopsInt_eq (positive : ∀ size ∈ sizes.dropLast, 0 < size) (array : Value)
    (intermediate : List (Option (Subint ι))) :
    (secondLoopsInt elem sizes intermediate).run (rounds sizes) array =
      (leaves sizes array).forM (secondItemInt elem intermediate) := by
  have silent : ∀ levels dim array, (secondLoopsInt elem sizes intermediate).Passes levels dim array := by
    intro levels
    induction levels with
    | nil => exact fun _ _ => trivial
    | cons size below ih => exact fun dim array i _ => ⟨rfl, ih _ _⟩
  exact run_leaves rfl rfl (fun _ => rfl) positive (silent _ _ _)

end Loops

section Counting

variable {ι : Type} {elem : ElemCoder ι}

/-- An index of `*intermediate` that wrapped counts from the end. -/
theorem idx_wrapped {k : Nat} (wrapped : Int.bmod k (2 ^ 31) < 0) : 2 ^ 30 ≤ k ∧ -(2 ^ 30) ≤ Int.bmod k (2 ^ 31) := by
  rw [Int.bmod_def] at *
  split at wrapped <;> split <;> omega

/-- An index that did not wrap is below, and the number of items if there are no more. -/
theorem idx_plain {k : Nat} (plain : ¬Int.bmod k (2 ^ 31) < 0) :
    Int.bmod k (2 ^ 31) < 2 ^ 30 ∧ (k < 2 ^ 30 → Int.bmod k (2 ^ 31) = k) := by
  rw [Int.bmod_def] at *
  split at plain <;> split <;> omega

theorem nextIdx_bmod (k : Nat) : nextIdx (Int.bmod k (2 ^ 31)) = Int.bmod (k + 1 : Nat) (2 ^ 31) := by
  rw [nextIdx, Int.bmod_add_bmod]
  rfl

/-- The index and the intermediate values, behind the items gathered so far. -/
structure Counted (s : Counters ι) (subints : List (Subint ι)) : Prop where
  itemIdx : s.itemIdx = Int.bmod subints.length (2 ^ 31)
  length : s.intermediate.length = min subints.length (2 ^ 30)
  exact : subints.length ≤ 2 ^ 30 → s.intermediate = subints.map some

/-- The next value is stored: behind the others, or, once the index has wrapped, over one of them. -/
theorem Counted.store {s : Counters ι} {subints : List (Subint ι)} (counted : Counted s subints) (subint : Subint ι)
    (sizeSum : Int) :
    ∃ intermediate, rbAryStore s.intermediate s.itemIdx subint = .ok intermediate ∧
      Counted ⟨sizeSum, nextIdx s.itemIdx, intermediate⟩ (subints ++ [subint]) := by
  obtain ⟨itemIdx, length, exact⟩ := counted
  have next : nextIdx s.itemIdx = Int.bmod (subints ++ [subint]).length (2 ^ 31) := by
    rw [itemIdx, nextIdx_bmod, List.length_append, List.length_singleton]
  by_cases wrapped : s.itemIdx < 0
  · obtain ⟨many, low⟩ := idx_wrapped (itemIdx ▸ wrapped)
    rw [← itemIdx] at low
    refine ⟨s.intermediate.set (s.itemIdx + s.intermediate.length).toNat (some subint), ?_, next, ?_, ?_⟩
    · unfold rbAryStore
      simp only [if_pos wrapped]
      rw [if_neg (by omega), if_pos (by omega)]
      rfl
    · rw [List.length_set, length, List.length_append]
      omega
    · intro few
      rw [List.length_append, List.length_singleton] at few
      omega
  · obtain ⟨small, same⟩ := idx_plain (itemIdx ▸ wrapped)
    rw [← itemIdx] at small same
    by_cases full : subints.length < 2 ^ 30
    · have last : s.itemIdx.toNat = s.intermediate.length := by
        have here := same full
        omega
      refine ⟨s.intermediate ++ [some subint], ?_, next, ?_, ?_⟩
      · unfold rbAryStore
        simp only [if_neg wrapped]
        rw [if_neg (by omega), last, Nat.sub_self, List.replicate_zero, List.append_nil]
        rfl
      · simp only [List.length_append, List.length_singleton, length]
        omega
      · intro few
        rw [exact (Nat.le_of_lt full), List.map_append]
        rfl
    · refine ⟨s.intermediate.set s.itemIdx.toNat (some subint), ?_, next, ?_, ?_⟩
      · unfold rbAryStore
        simp only [if_neg wrapped]
        rw [if_pos (by omega)]
        rfl
      · rw [List.length_set, length, List.length_append]
        omega
      · intro few
        rw [List.length_append, List.length_singleton] at few
        omega

/-- The first call for an item that is not nil. -/
theorem firstItemInt_finish {item : Value} (given : item ≠ .nil) {subint : Subint ι} {written : Nat}
    (encodes : elem.Encodes item subint written) {s : Counters ι} {subints : List (Subint ι)}
    (counted : Counted s subints) :
    ∃ s', Method.finish (firstItemInt elem item) s = .ok s' ∧ Counted s' (subints ++ [subint]) ∧
      s'.sizeSum = int32 (s.sizeSum + int32 (4 + subint.strlen)) := by
  obtain ⟨intermediate, stored, counted'⟩ := counted.store subint (int32 (s.sizeSum + int32 (4 + subint.strlen)))
  refine ⟨_, ?_, counted', rfl⟩
  have step : firstItemInt elem item = (do
      let subint ← Method.ofExcept (elem.first item)
      let s ← Method.read
      let intermediate ← Method.ofExcept (rbAryStore s.intermediate s.itemIdx subint)
      let strlen ← Method.ofExcept (rbLong2int subint.strlen)
      Method.change fun s => ⟨int32 (s.sizeSum + int32 (4 + strlen)), nextIdx s.itemIdx, intermediate⟩) := by
    cases item with
    | nil => exact absurd rfl given
    | _ => rfl
  rw [step, encodes.first]
  simp only [Method.finish_bind, Method.ofExcept_apply, Method.read_apply, stored,
    rbLong2int_ok encodes.announced_lt]
  rfl

/-- The loop over the items: the sum is the one of the announced sizes, as an `int`. -/
theorem firstItemsInt_finish {items : List Value} {subints : List (Subint ι)} {announced written : Nat}
    (encoded : Encoded elem items subints announced written) {s : Counters ι} {before : List (Subint ι)}
    (counted : Counted s before) {sum : Int} (sizeSum : s.sizeSum = int32 sum) :
    ∃ s', Method.finish (items.forM (firstItemInt elem)) s = .ok s' ∧ Counted s' (before ++ subints) ∧
      s'.sizeSum = int32 (sum + announced) := by
  induction encoded generalizing s before sum with
  | none => exact ⟨s, rfl, by rwa [List.append_nil], by rw [sizeSum, Nat.cast_zero, Int.add_zero]⟩
  | @null items subints announced written encoded ih =>
    have loop : Method.finish ((Value.nil :: items).forM (firstItemInt elem)) s =
        Method.finish (items.forM (firstItemInt elem)) ⟨int32 (s.sizeSum + 4), s.itemIdx, s.intermediate⟩ := by
      rw [List.forM_eq_forM, List.forM_cons, Method.finish_seq]
      rfl
    have counted₁ : Counted ⟨int32 (s.sizeSum + 4), s.itemIdx, s.intermediate⟩ before :=
      ⟨counted.itemIdx, counted.length, counted.exact⟩
    have added : int32 (s.sizeSum + 4) = int32 (sum + 4) := by rw [sizeSum, int32_add]
    obtain ⟨s', run, counted', sum'⟩ := ih counted₁ added
    refine ⟨s', by rw [loop, run], counted', ?_⟩
    rw [sum']
    exact congrArg int32 (by omega)
  | @item item items subint subints strlen announced written given encodes encoded ih =>
    obtain ⟨s₁, first, counted₁, sum₁⟩ := firstItemInt_finish given encodes counted
    have loop : Method.finish ((item :: items).forM (firstItemInt elem)) s =
        Method.finish (items.forM (firstItemInt elem)) s₁ := by
      rw [List.forM_eq_forM, List.forM_cons, Method.finish_seq, first]
      rfl
    have added : s₁.sizeSum = int32 (sum + (4 + subint.strlen)) := by
      rw [sum₁, sizeSum, int32_add, Int.add_comm sum, int32_add, Int.add_comm sum]
    obtain ⟨s', run, counted', sum'⟩ := ih counted₁ added
    refine ⟨s', by rw [loop, run], ?_, ?_⟩
    · rwa [List.append_assoc] at counted'
    · rw [sum']
      exact congrArg int32 (by omega)

end Counting

section Writing

variable {ι : Type} {elem : ElemCoder ι}

theorem forM_cons_run {intermediate : List (Option (Subint ι))} (item : Value) (items : List Value) (c : Cursors)
    (s : Buf) : (item :: items).forM (secondItemInt elem intermediate) c s =
      (secondItemInt elem intermediate item c >>= fun r => items.forM (secondItemInt elem intermediate) r.2) s := by
  rw [List.forM_eq_forM, List.forM_cons]
  rfl

theorem secondItemInt_nil (intermediate : List (Option (Subint ι))) (c : Cursors) :
    secondItemInt elem intermediate .nil c = (do
      storeAll c.out (writeNbo 4 (-1))
      pure ((), ⟨c.out + 4, c.itemIdx⟩)) := rfl

theorem secondItemInt_given {item : Value} (given : item ≠ .nil) (intermediate : List (Option (Subint ι))) (c : Cursors) :
    secondItemInt elem intermediate item c = match rbAryAt intermediate c.itemIdx with
      | some subint => do
        let strlen ← elem.write item subint (c.out + 4)
        storeAll c.out (writeNbo 4 strlen)
        pure ((), ⟨c.out + 4 + strlen, nextIdx c.itemIdx⟩)
      | none => Method.raise .undefined := by
  cases item with
  | nil => exact absurd rfl given
  | _ => rfl

/-- As long as the index does not wrap, the value of the item is found. -/
theorem rbAryAt_stored (before rest : List (Subint ι)) (subint : Subint ι) :
    rbAryAt ((before ++ subint :: rest).map some) before.length = some subint := by
  unfold rbAryAt
  rw [if_neg (by omega), if_neg (by omega), Int.toNat_natCast, List.getD_eq_getElem?_getD]
  simp

theorem nextIdx_small {k : Nat} (small : k + 1 < 2 ^ 30) : nextIdx k = (k + 1 : Nat) :=
  Int.bmod_eq_of_le_mul_two (by omega) (by omega)

/-- The second call writes what the encodings take, if there are less than `2 ^ 30` of them. -/
theorem secondItemsInt_run {items : List Value} {subints : List (Subint ι)} {announced written : Nat}
    (encoded : Encoded elem items subints announced written) (before : List (Subint ι))
    (few : before.length + subints.length < 2 ^ 30) (out : Nat) (s : Buf) :
    ∃ c s', items.forM (secondItemInt elem ((before ++ subints).map some)) ⟨out, before.length⟩ s = (.ok ((), c), s') ∧
      c.out = out + written := by
  induction encoded generalizing before out s with
  | none => exact ⟨⟨out, before.length⟩, s, rfl, rfl⟩
  | @null items subints announced written encoded ih =>
    obtain ⟨s₁, stored, -⟩ := @storeAll_run Stop out (writeNbo 4 (-1)) s
    obtain ⟨c, s', run, stop⟩ := ih before few (out + 4) s₁
    refine ⟨c, s', ?_, by omega⟩
    rw [forM_cons_run, secondItemInt_nil, Method.bind_assoc, Method.bind_ok stored]
    exact run
  | @item item items subint subints strlen announced written given encodes encoded ih =>
    rw [List.length_cons] at few
    have next : nextIdx before.length = ((before ++ [subint]).length : Nat) := by
      rw [nextIdx_small (by omega), List.length_append, List.length_singleton]
    have all : (before ++ [subint]) ++ subints = before ++ subint :: subints := List.append_assoc ..
    obtain ⟨s₁, wrote⟩ : ∃ s₁, elem.write item subint (out + 4) s = (.ok strlen, s₁) :=
      ⟨_, Prod.ext (encodes.second (out + 4) s) rfl⟩
    obtain ⟨s₂, stored, -⟩ := @storeAll_run Stop out (writeNbo 4 strlen) s₁
    obtain ⟨c, s', run, stop⟩ := ih (before ++ [subint]) (by rw [List.length_append, List.length_singleton]; omega)
      (out + 4 + strlen) s₂
    rw [all, ← next] at run
    refine ⟨c, s', ?_, by omega⟩
    rw [forM_cons_run, secondItemInt_given given, rbAryAt_stored]
    simp only [Method.bind_assoc]
    rw [Method.bind_ok wrote, Method.bind_ok stored]
    exact run

/-- Every item takes four bytes at least, whatever is found in `*intermediate`. -/
theorem secondItemsInt_le {intermediate : List (Option (Subint ι))} {items : List Value} {c c' : Cursors} {s s' : Buf}
    (run : items.forM (secondItemInt elem intermediate) c s = (.ok ((), c'), s')) :
    c.out + 4 * items.length ≤ c'.out := by
  induction items generalizing c s with
  | nil =>
    cases run
    exact Nat.le_refl _
  | cons item items ih =>
    rw [forM_cons_run] at run
    obtain ⟨⟨u, c₁⟩, s₁, first, rest⟩ := Method.of_bind run
    have step : c.out + 4 ≤ c₁.out := by
      by_cases null : item = .nil
      · subst null
        rw [secondItemInt_nil] at first
        obtain ⟨-, s₂, -, last⟩ := Method.of_bind first
        cases last
        exact Nat.le_refl _
      · rw [secondItemInt_given null] at first
        split at first
        · obtain ⟨strlen, s₂, -, first⟩ := Method.of_bind first
          obtain ⟨-, s₃, -, last⟩ := Method.of_bind first
          cases last
          exact Nat.le_add_right _ _
        · cases first
    have behind : c₁.out + 4 * items.length ≤ c'.out := ih rest
    rw [List.length_cons]
    omega

end Writing

section Result

variable {ι : Type} {api : CApi} {elem : ElemCoder ι} {dimensions : Option Nat} {oid : Nat} {xs : List Value}
  {sizes : List Nat} {announced written : Nat}

/-- Every item takes its four bytes. -/
theorem Encoded.length_le {items : List Value} {subints : List (Subint ι)}
    (encoded : Encoded elem items subints announced written) :
    subints.length ≤ items.length ∧ 4 * items.length ≤ written := by
  induction encoded with
  | none => exact ⟨Nat.le_refl _, Nat.le_refl _⟩
  | null _ ih =>
    simp only [List.length_cons]
    omega
  | item _ _ _ ih =>
    simp only [List.length_cons]
    omega

/-- Where the dimensions and the number of items fit, the first call answers the sum as an `int`. -/
theorem pgBinEncArrayInt_ok {nitems : Int} (found : arrayDimsInt dimensions xs = .ok (sizes, nitems))
    (nonneg : ¬nitems < 0) (dims : arrayDims dimensions xs = .ok sizes) (shape : Layered sizes (.ary xs))
    {subints : List (Subint ι)} (encoded : Encoded elem (leaves sizes (.ary xs)) subints announced written) :
    ∃ intermediate, pgBinEncArrayInt api elem dimensions oid xs =
        .ok (int32 (12 + 8 * sizes.length + announced : Nat), arraySecondInt elem oid sizes (.ary xs) intermediate) ∧
      (subints.length ≤ 2 ^ 30 → intermediate = subints.map some) := by
  have start : Counted (⟨0, 0, []⟩ : Counters ι) [] :=
    ⟨Int.zero_bmod.symm, (Nat.zero_min _).symm, fun _ => rfl⟩
  have zero : (⟨0, 0, []⟩ : Counters ι).sizeSum = int32 0 := Int.zero_bmod.symm
  obtain ⟨s, run, counted, sum⟩ := firstItemsInt_finish encoded start zero
  rw [Int.zero_add] at sum
  rw [List.nil_append] at counted
  have total : int32 (12 + sizes.length * 8 + s.sizeSum) = int32 (12 + 8 * sizes.length + announced : Nat) := by
    rw [sum, Int.add_comm, int32_add]
    exact congrArg int32 (by push_cast; omega)
  refine ⟨s.intermediate, ?_, counted.exact⟩
  unfold pgBinEncArrayInt
  rw [found]
  simp only [bind, Except.bind, rbAryNew2, if_neg nonneg, pure, Except.pure]
  rw [firstLoopsInt_eq (arrayDims_positive dims) shape, run]
  simp only [total]

/-- The second call writes the header and what the encodings take. -/
theorem arraySecondInt_run (positive : ∀ size ∈ sizes.dropLast, 0 < size) {subints : List (Subint ι)} {value : Value}
    (encoded : Encoded elem (leaves sizes value) subints announced written) (few : subints.length < 2 ^ 30) (out : Nat)
    (s : Buf) : (arraySecondInt elem oid sizes value (subints.map some) out s).1 =
      .ok (12 + 8 * sizes.length + written) := by
  obtain ⟨s₁, stored, -⟩ := @storeAll_run Stop out (arrayHeader oid sizes) s
  obtain ⟨c, s₂, run, stop⟩ := secondItemsInt_run encoded [] (by simpa using few) (out + (12 + 8 * sizes.length)) s₁
  unfold arraySecondInt
  rw [Method.bind_ok stored, secondLoopsInt_eq positive]
  rw [List.nil_append, List.length_nil, Nat.cast_zero] at run
  rw [Method.bind_ok run]
  show Except.ok (c.out - out) = _
  rw [stop]
  exact congrArg Except.ok (by omega)

/-- It writes four bytes an item at least. -/
theorem arraySecondInt_le (positive : ∀ size ∈ sizes.dropLast, 0 < size) {value : Value}
    {intermediate : List (Option (Subint ι))} {out n : Nat} {s : Buf}
    (returned : (arraySecondInt elem oid sizes value intermediate out s).1 = .ok n) :
    4 * (leaves sizes value).length ≤ n := by
  obtain ⟨s', run⟩ : ∃ s', arraySecondInt elem oid sizes value intermediate out s = (.ok n, s') :=
    ⟨_, Prod.ext returned rfl⟩
  unfold arraySecondInt at run
  obtain ⟨-, s₁, -, run⟩ := Method.of_bind run
  obtain ⟨⟨u, c⟩, s₂, loop, last⟩ := Method.of_bind run
  rw [secondLoopsInt_eq positive] at loop
  have items : out + (12 + 8 * sizes.length) + 4 * (leaves sizes value).length ≤ c.out := secondItemsInt_le loop
  have length : n = c.out - out := (Except.ok.inj (congrArg Prod.fst last)).symm
  omega

/-- What the caller makes of the size. -/
theorem pgCoderEncodeFirst_cases {len : Int} {second : Nat → Writer Stop Nat}
    (first : pgBinEncArrayInt api elem dimensions oid xs = .ok (len, second)) :
    len = -1 ∧ pgCoderEncodeFirst api elem dimensions oid xs = .ok none ∨
      len < -1 ∧ (∃ stop, pgCoderEncodeFirst api elem dimensions oid xs = .error stop) ∨
      0 ≤ len ∧ pgCoderEncodeFirst api elem dimensions oid xs = .ok (some (len.toNat, second)) := by
  have answer : pgCoderEncodeFirst api elem dimensions oid xs =
      if len = -1 then pure none
      else if len < 0 then rbRaise .argumentError "negative string size (or size too big)"
      else pure (some (len.toNat, second)) := by
    unfold pgCoderEncodeFirst
    rw [first]
    rfl
  by_cases marker : len = -1
  · exact .inl ⟨marker, by rw [answer, if_pos marker]; rfl⟩
  · by_cases below : len < 0
    · exact .inr (.inl ⟨by omega, _, by rw [answer, if_neg marker, if_pos below]; rfl⟩)
    · exact .inr (.inr ⟨by omega, by rw [answer, if_neg marker, if_neg below]; rfl⟩)

/-- A dimension or a number of items that does not fit raises, and otherwise the first call answers. -/
theorem pgBinEncArrayInt_cases (dims : arrayDims dimensions xs = .ok sizes) (shape : Layered sizes (.ary xs))
    {subints : List (Subint ι)} (encoded : Encoded elem (leaves sizes (.ary xs)) subints announced written) :
    ((∃ size ∈ sizes, 2 ^ 31 ≤ size) ∨ int32 sizes.prod < 0) ∧
        (∃ stop, pgCoderEncodeFirst api elem dimensions oid xs = .error stop) ∨
      ¬((∃ size ∈ sizes, 2 ^ 31 ≤ size) ∨ int32 sizes.prod < 0) ∧
        ∃ intermediate, pgBinEncArrayInt api elem dimensions oid xs =
            .ok (int32 (12 + 8 * sizes.length + announced : Nat), arraySecondInt elem oid sizes (.ary xs) intermediate) ∧
          (subints.length ≤ 2 ^ 30 → intermediate = subints.map some) := by
  rcases arrayDimsInt_cases dims with ⟨large, stop, raised⟩ | ⟨small, nitems, found, negative⟩
  · refine .inl ⟨.inl large, stop, ?_⟩
    unfold pgCoderEncodeFirst pgBinEncArrayInt
    rw [raised]
    rfl
  · by_cases wrapped : nitems < 0
    · refine .inl ⟨.inr (negative.1 wrapped), .exn .argumentError "negative array size (or size too big)", ?_⟩
      unfold pgCoderEncodeFirst pgBinEncArrayInt
      rw [found]
      simp only [bind, Except.bind, rbAryNew2, if_pos wrapped]
      rfl
    · refine .inr ⟨?_, pgBinEncArrayInt_ok found wrapped dims shape encoded⟩
      rintro (⟨size, member, large⟩ | items)
      · exact absurd (small size member) (Nat.not_lt.2 large)
      · exact wrapped (negative.2 items)

/-- The second call of an array of fewer than `2 ^ 30` encodings returns. -/
theorem Accepted.of_few (dims : arrayDims dimensions xs = .ok sizes) (shape : Layered sizes (.ary xs))
    {subints : List (Subint ι)} (encoded : Encoded elem (leaves sizes (.ary xs)) subints announced written)
    (few : subints.length < 2 ^ 30) : Accepted api elem dimensions oid xs sizes announced written where
  dims := dims
  shape := shape
  items := ⟨subints, encoded⟩
  returns len second before := by
    rcases pgBinEncArrayInt_cases dims shape encoded with ⟨-, stop, raised⟩ | ⟨-, intermediate, first, stored⟩
    · rw [raised] at before
      cases before
    · generalize int32 (12 + 8 * sizes.length + announced : Nat) = size at first
      rcases pgCoderEncodeFirst_cases first with ⟨-, none⟩ | ⟨-, stop, raised⟩ | ⟨-, answered⟩
      · rw [none] at before
        cases before
      · rw [raised] at before
        cases before
      · rw [answered, stored (Nat.le_of_lt few)] at before
        cases before
        exact ⟨0, fun _ => 0, _, arraySecondInt_run (arrayDims_positive dims) encoded few 0 _⟩

theorem Encoded.firstLeaves {items : List Value} {subints : List (Subint ι)}
    (encoded : Encoded elem items subints announced written) :
    ∃ answers, TwoPass.firstLeaves elem.func items = .ok (announced, answers) := by
  induction encoded with
  | none => exact ⟨[], rfl⟩
  | null _ ih =>
    obtain ⟨answers, rest⟩ := ih
    refine ⟨answers, ?_⟩
    rw [firstLeaves_nil, rest]
    rfl
  | @item item items subint subints strlen announced written given encodes _ ih =>
    obtain ⟨answers, rest⟩ := ih
    obtain ⟨answer, first, length⟩ : ∃ answer, elem.func item = .ok answer ∧ answer.length = subint.strlen := by
      unfold ElemCoder.func
      rw [encodes.first]
      cases subint <;> exact ⟨_, rfl, rfl⟩
    refine ⟨answer :: answers, ?_⟩
    rw [firstLeaves_cons given, first, rest, ← length]
    rfl

/-- **Without the bounds of an `int`** the size announced is the sum. -/
theorem Accepted.loops (accepted : Accepted api elem dimensions oid xs sizes announced written) :
    ∃ second, pgBinEncArrayLoops api elem.func dimensions oid (.ary xs) =
      .ok (.size (12 + sizes.length * 8 + announced) second) := by
  obtain ⟨dims, shape, ⟨subints, encoded⟩, -⟩ := accepted
  obtain ⟨answers, gathered⟩ := encoded.firstLeaves
  have walked : (firstLoops api elem.func sizes).run (rounds sizes) (.ary xs) =
      (leaves sizes (.ary xs)).forM (firstItem elem.func) :=
    run_leaves rfl rfl (fun _ => rfl) (arrayDims_positive dims)
      (Layered.passes rfl (fun _ _ same => congrArg Method.ofExcept (checkSubArray_ok same)) List.drop_zero shape)
  unfold pgBinEncArrayLoops
  simp only [dims, bind, Except.bind, walked, firstItems_finish, gathered, Except.map, Gathered.add, Nat.zero_add]
  exact ⟨_, rfl⟩

/-- **The size announced is enough**, or an exception comes first, exactly if a dimension or the number of items does
not fit an `int`, or the sum of the sizes is a negative `int` other than -1 or one that the second call keeps to. -/
theorem announces_iff (accepted : Accepted api elem dimensions oid xs sizes announced written) :
    Announces (pgCoderEncodeFirst api elem dimensions oid xs) ↔
      ((∃ size ∈ sizes, 2 ^ 31 ≤ size) ∨ int32 sizes.prod < 0) ∨
        int32 (12 + 8 * sizes.length + announced : Nat) < -1 ∨
        (12 + 8 * sizes.length + written : Nat) ≤ int32 (12 + 8 * sizes.length + announced : Nat) := by
  obtain ⟨dims, shape, ⟨subints, encoded⟩, returns⟩ := accepted
  have positive := arrayDims_positive dims
  rcases @pgBinEncArrayInt_cases _ api elem dimensions oid xs sizes announced written dims shape subints encoded with
    ⟨raises, stop, before⟩ | ⟨fits, intermediate, first, stored⟩
  · rw [before]
    exact iff_of_true trivial (.inl raises)
  · have bound := int32_lt (12 + 8 * sizes.length + announced : Nat)
    simp only [fits, false_or]
    generalize int32 (12 + 8 * sizes.length + announced : Nat) = len at first bound
    rcases pgCoderEncodeFirst_cases first with ⟨marker, before⟩ | ⟨below, stop, before⟩ | ⟨nonneg, before⟩
    · rw [before]
      exact iff_of_false id (by omega)
    · rw [before]
      exact iff_of_true trivial (.inl below)
    · have room : ∀ n : Nat, n ≤ len.toNat ↔ (n : Int) ≤ len := by omega
      obtain ⟨out, mem, n, returned⟩ := returns _ _ before
      rw [before]
      by_cases few : subints.length < 2 ^ 30
      · have second := @arraySecondInt_run _ elem oid sizes announced written positive subints (.ary xs) encoded few
        rw [stored (Nat.le_of_lt few)]
        constructor
        · intro enough
          exact .inr ((room _).1 (enough out mem _ (second out ⟨mem, []⟩)))
        · rintro (negative | enough) out mem written' returned
          · omega
          · rw [second out ⟨mem, []⟩] at returned
            cases returned
            exact (room _).2 enough
      · -- The items alone take more than an `int` can say.
        have long := encoded.length_le
        have items := arraySecondInt_le positive returned
        refine iff_of_false ?_ (by omega)
        intro enough
        have short := (room n).1 (enough out mem n returned)
        omega

end Result

section Strings

/-- Elements that are Strings, encoded as they are. -/
def ElemCoder.strings (api : CApi) : ElemCoder Empty where
  first value := pure (.onePass (rbObjAsString api.toRuntime value))
  second _ subint := nomatch subint

variable {api : CApi}

theorem ElemCoder.strings_encodes {s : Bytes} (fits : s.length < 2 ^ 31) :
    (ElemCoder.strings api).Encodes (.str s) (.onePass s) s.length where
  first := rfl
  announced_lt := fits
  written_lt := fits
  second out buf := by
    obtain ⟨buf', stored, -⟩ := @storeAll_run Stop out s buf
    have write : (ElemCoder.strings api).write (.str s) (.onePass s) out = (do
        let strlen ← Method.ofExcept (rbLong2int s.length)
        storeAll out s
        pure strlen) := rfl
    rw [write, rbLong2int_ok fits, Method.bind_ok (Method.ofExcept_apply (.ok s.length) buf), Method.bind_ok stored]
    rfl

/-- An array with the same String twice. -/
theorem twice_accepted {s : Bytes} (fits : s.length < 2 ^ 31) (oid : Nat) :
    Accepted api (ElemCoder.strings api) none oid [.str s, .str s] [2] (4 + s.length + (4 + s.length + 0))
      (4 + s.length + (4 + s.length + 0)) := by
  have encodes : (ElemCoder.strings api).Encodes (.str s) (.onePass s) s.length := ElemCoder.strings_encodes fits
  have given : Value.str s ≠ .nil := fun same => nomatch same
  have encoded : Encoded (ElemCoder.strings api) (leaves [2] (.ary [.str s, .str s])) [.onePass s, .onePass s]
      (4 + s.length + (4 + s.length + 0)) (4 + s.length + (4 + s.length + 0)) :=
    .item given encodes (.item given encodes .none)
  exact .of_few rfl ⟨_, rfl, rfl, fun _ _ => trivial⟩ encoded (by simp)

/-- There is room for the letter `a` twice. -/
theorem announces_twice :
    Announces (pgCoderEncodeFirst CApi.sample (ElemCoder.strings CApi.sample) none 25 [.str [0x61], .str [0x61]]) := by
  have accepted := @twice_accepted CApi.sample [0x61] (by simp) 25
  have small : 12 + 8 * [2].length + (4 + [(0x61 : UInt8)].length + (4 + [(0x61 : UInt8)].length + 0)) < 2 ^ 31 := by
    simp
  rw [announces_iff accepted]
  exact Or.inr (Or.inr (Int.le_of_eq (int32_small small).symm))

/-- The sum wraps to 0, and the second call writes all of it. -/
theorem twice_overflows {s : Bytes} (length : s.length = 2147483634) (oid : Nat) :
    ¬Announces (pgCoderEncodeFirst api (ElemCoder.strings api) none oid [.str s, .str s]) := by
  have fits : s.length < 2 ^ 31 := by omega
  obtain ⟨dims, shape, ⟨subints, encoded⟩, returns⟩ := twice_accepted fits oid
  have sum : 12 + 8 * [2].length + (4 + s.length + (4 + s.length + 0)) = 2 ^ 32 := by
    rw [List.length_singleton]
    omega
  have wraps : int32 ((2 ^ 32 : Nat) : Int) = 0 := Int.bmod_self
  rcases pgBinEncArrayInt_cases dims shape encoded with ⟨large | items, -⟩ | ⟨-, intermediate, first, -⟩
  · obtain ⟨size, member, large⟩ := large
    rw [List.mem_singleton.1 member] at large
    omega
  · rw [List.prod_singleton] at items
    exact absurd items (by decide)
  · rw [sum, wraps] at first
    rcases pgCoderEncodeFirst_cases first with ⟨marker, -⟩ | ⟨below, -⟩ | ⟨-, answered⟩
    · cases marker
    · omega
    · obtain ⟨out, mem, n, returned⟩ := returns _ _ answered
      have items := arraySecondInt_le (arrayDims_positive dims) returned
      rw [answered]
      intro enough
      have none := enough out mem n returned
      have two : (leaves [2] (.ary [.str s, .str s])).length = 2 := rfl
      omega

/-- Two Strings of 2147483634 bytes: the sum is `2 ^ 32`, which is announced as 0. -/
theorem sum_overflows :
    Accepted CApi.sample (ElemCoder.strings CApi.sample) none 25
        [.str (List.replicate 2147483634 0x61), .str (List.replicate 2147483634 0x61)] [2] 4294967276 4294967276 ∧
      ¬Announces (pgCoderEncodeFirst CApi.sample (ElemCoder.strings CApi.sample) none 25
        [.str (List.replicate 2147483634 0x61), .str (List.replicate 2147483634 0x61)]) := by
  have length : (List.replicate 2147483634 (0x61 : UInt8)).length = 2147483634 := List.length_replicate
  generalize List.replicate 2147483634 (0x61 : UInt8) = s at length
  constructor
  · have accepted := @twice_accepted CApi.sample s (by omega) 25
    rwa [length] at accepted
  · exact twice_overflows length 25

end Strings

end RubyPg.TwoPass
