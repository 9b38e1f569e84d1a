import Mathlib.Data.List.ReduceOption
import RubyPg.Binary.ArrayDecoder
import RubyPg.TwoPass.ArrayWalk
import RubyPg.TwoPass.Encoding
import RubyPg.TwoPass.Overflow

/-!
# The binary array round trip

What `PG::BinaryEncoder::Array` writes for a rectangular array of Strings and `nil` is read back by
`PG::BinaryDecoder::Array`. Both walks of the encoder visit the leaves in row-major order, and the
decoder, which is only driven by the lengths of the arrays it fills, puts them back in that order.
-/

namespace RubyPg.Binary
set_option autoImplicit false
open Reader TwoPass

/-- A rectangular array with these dimensions, whose leaves are Strings and `nil`. -/
def Rect : List Nat → Value → Prop
  | [], v => ∃ bytes, v = fieldValue bytes
  | size :: below, v => ∃ xs, v = .ary xs ∧ xs.length = size ∧ ∀ x ∈ xs, Rect below x

section Leaves

/-- The leaves of an array or of a single value. -/
def leavesOf : List Nat → Value → List Value
  | [], x => [x]
  | size :: below, x => (entries x size).flatMap (leavesOf below)

theorem leaves_eq {dims : List Nat} (some : dims ≠ []) (array : Value) : leaves dims array = leavesOf dims array := by
  induction dims generalizing array with
  | nil => exact absurd rfl some
  | cons size below ih =>
    cases below with
    | nil => exact (List.flatMap_singleton' _).symm
    | cons next below =>
      rw [leaves, leavesOf]
      exact congrArg (List.flatMap · (entries array size)) (funext fun sub => ih (List.cons_ne_nil _ _) sub)

theorem leavesOf_ary (xs : List Value) (below : List Nat) :
    leavesOf (xs.length :: below) (.ary xs) = xs.flatMap (leavesOf below) := by
  rw [leavesOf, entries_self]

/-- The leaves are as many as the dimensions say, and each of them is a String or `nil`. -/
theorem Rect.leavesOf_fields {dims : List Nat} {x : Value} (rect : Rect dims x) :
    ∃ fields : List (Option Bytes), leavesOf dims x = fields.map fieldValue ∧ fields.length = dims.prod := by
  induction dims generalizing x with
  | nil =>
    obtain ⟨bytes, rfl⟩ := rect
    exact ⟨[bytes], rfl, rfl⟩
  | cons size below ih =>
    obtain ⟨xs, rfl, rfl, inner⟩ := rect
    rw [leavesOf_ary, List.prod_cons]
    induction xs with
    | nil => exact ⟨[], rfl, (Nat.zero_mul _).symm⟩
    | cons x xs rest =>
      obtain ⟨first, here, count⟩ := ih (inner x List.mem_cons_self)
      obtain ⟨later, there, count'⟩ := rest fun y member => inner y (List.mem_cons_of_mem _ member)
      refine ⟨first ++ later, ?_, ?_⟩
      · rw [List.flatMap_cons, here, there, List.map_append]
      · rw [List.length_append, count, count', List.length_cons, Nat.succ_mul, Nat.add_comm]

/-- An array without an empty dimension has leaves. -/
theorem flatMap_leavesOf_ne_nil {size : Nat} {below : List Nat} {xs : List Value}
    (positive : ∀ n ∈ size :: below, 0 < n) (rect : Rect (size :: below) (.ary xs)) :
    xs.flatMap (leavesOf below) ≠ [] := by
  obtain ⟨fields, same, count⟩ := rect.leavesOf_fields
  obtain ⟨xs', equal, rfl, -⟩ := rect
  cases equal
  rw [← leavesOf_ary, same]
  apply List.ne_nil_of_length_pos
  rw [List.length_map, count]
  exact CanonicallyOrderedAdd.list_prod_pos.2 positive

end Leaves

section Decoder

variable {dimSizes : List Nat}

/-- An element goes into the sub-array that has to be begun for it. -/
theorem Open.push_down (array : List Value) (outer : List (List Value)) (element : Value)
    (below : outer.length + 1 < dimSizes.length) :
    Open.push dimSizes ⟨array, outer⟩ element = Open.push dimSizes ⟨[], array :: outer⟩ element := by
  obtain ⟨more, left⟩ := Nat.exists_eq_add_of_lt below
  have here : dimSizes.length - 1 - outer.length = more + 1 := by omega
  have next : dimSizes.length - 1 - (array :: outer).length = more := by
    rw [List.length_cons]
    omega
  simp only [push, here, next, down]

/-- The sub-arrays of an array, when it is known how one of them is put back. As long as there are
sub-arrays missing, the array stays open. -/
theorem Open.push_subs {below : List Nat} {outer : List (List Value)} {rest ready : List Value} (some : rest ≠ [])
    (one : ∀ ready, ∀ y ∈ rest,
      (leavesOf below y).foldl (Open.push dimSizes) ⟨ready, outer⟩ = up dimSizes (ready ++ [y]) outer)
    (stays : ∀ part : List Value, part.length < (ready ++ rest).length → up dimSizes part outer = ⟨part, outer⟩) :
    (rest.flatMap (leavesOf below)).foldl (Open.push dimSizes) ⟨ready, outer⟩ = up dimSizes (ready ++ rest) outer := by
  induction rest generalizing ready with
  | nil => exact absurd rfl some
  | cons y rest ih =>
    have split : ready ++ y :: rest = (ready ++ [y]) ++ rest := (List.append_cons ready y rest)
    rw [List.flatMap_cons, List.foldl_append, one ready y List.mem_cons_self, split]
    rw [split] at stays
    by_cases last : rest = []
    · subst last
      rw [List.append_nil]
      rfl
    · have behind := List.length_pos_of_ne_nil last
      have missing : (ready ++ [y]).length < ((ready ++ [y]) ++ rest).length := by
        rw [@List.length_append _ (ready ++ [y]) rest]
        omega
      rw [stays _ missing]
      exact ih last (fun ready x member => one ready x (List.mem_cons_of_mem _ member)) stays

/-- **The decoder puts the leaves of a value back.** They arrive as the value, behind what is already
there. The induction is on the dimensions of the value, and in each on its sub-arrays. -/
theorem Open.push_leaves {below : List Nat} (positive : ∀ size ∈ below, 0 < size) {x : Value} (rect : Rect below x)
    {array : List Value} {outer : List (List Value)} (here : dimSizes.drop (outer.length + 1) = below)
    (known : outer.length < dimSizes.length) :
    (leavesOf below x).foldl (Open.push dimSizes) ⟨array, outer⟩ = up dimSizes (array ++ [x]) outer := by
  induction below generalizing x array outer with
  | nil =>
    have innermost : dimSizes.length - 1 - outer.length = 0 := by
      have short := List.drop_eq_nil_iff.1 here
      omega
    simp only [leavesOf, List.foldl_cons, List.foldl_nil, push, innermost, down]
  | cons size below ih =>
    obtain ⟨xs, rfl, length, inner⟩ := rect
    obtain ⟨there, bound, deeper⟩ := drop_cons here
    have closes : ∀ ys : List Value, up dimSizes ys (array :: outer) =
        if ys.length ≥ size then up dimSizes (array ++ [.ary ys]) outer else ⟨ys, array :: outer⟩ := by
      intro ys
      rw [up, bound 0]
    have filled : xs ≠ [] := by
      apply List.ne_nil_of_length_pos
      rw [length]
      exact positive size List.mem_cons_self
    have subs : (xs.flatMap (leavesOf below)).foldl (Open.push dimSizes) ⟨[], array :: outer⟩ =
        up dimSizes xs (array :: outer) := by
      apply push_subs filled
      · intro ready y member
        exact ih (fun n member => positive n (List.mem_cons_of_mem _ member)) (inner y member) deeper there
      · intro part short
        rw [closes, if_neg (Nat.not_le_of_lt (length ▸ short))]
    rw [closes, if_pos (Nat.le_of_eq length.symm)] at subs
    rw [← length, leavesOf_ary, ← subs]
    cases leaves : xs.flatMap (leavesOf below) with
    | nil => exact absurd leaves (flatMap_leavesOf_ne_nil positive ⟨xs, rfl, length, inner⟩)
    | cons element others => rw [List.foldl_cons, List.foldl_cons, push_down _ _ _ there]

/-- The whole array from its leaves. -/
theorem Open.push_all {size : Nat} {below : List Nat} (positive : ∀ n ∈ size :: below, 0 < n) {xs : List Value}
    (rect : Rect (size :: below) (.ary xs)) :
    (leavesOf (size :: below) (.ary xs)).foldl (Open.push (size :: below)) ⟨[], []⟩ = ⟨xs, []⟩ := by
  obtain ⟨xs', equal, length, inner⟩ := rect
  cases equal
  have filled : xs ≠ [] := by
    apply List.ne_nil_of_length_pos
    rw [length]
    exact positive size List.mem_cons_self
  rw [← length, leavesOf_ary, length]
  apply push_subs filled
  · intro ready y member
    exact push_leaves (fun n member => positive n (List.mem_cons_of_mem _ member)) (inner y member) rfl (Nat.succ_pos _)
  · intro part _
    rfl

variable {elem : Decoder}

/-- The elements are read one after the other. -/
theorem readElements_reads {fields : List (Option Bytes)} (small : ∀ s, some s ∈ fields → s.length < 2 ^ 31)
    (casts : ∀ s, elem s = .ok (.str s)) (s : Open) :
    Reader.Reads arrayLengthError (readElements elem dimSizes fields.length s) (fields.flatMap fieldText)
      ((fields.map fieldValue).foldl (Open.push dimSizes) s) := by
  induction fields generalizing s with
  | nil => exact .pure s
  | cons bytes fields ih =>
    have first : Reader.Reads arrayLengthError (field arrayLengthError .nil elem) (fieldText bytes) (fieldValue bytes) := by
      apply Reader.Reads.field
      · rintro s rfl
        exact small s List.mem_cons_self
      · rintro rfl
        rfl
      · rintro s rfl
        exact casts s
    rw [List.flatMap_cons]
    exact .bind first (ih (fun s member => small s (List.mem_cons_of_mem _ member)) _)

/-- The size of a dimension, and the lower bound 1. -/
def dimText (size : Nat) : Bytes := writeNbo 4 size ++ writeNbo 4 1

/-- The sizes of the dimensions are read, and multiplied. -/
theorem readDimSizes_reads {sizes : List Nat} {nitems : Nat} (positive : ∀ n ∈ sizes, 0 < n) (some : 0 < nitems)
    (small : nitems * sizes.prod < 2 ^ 31) :
    Reader.Reads arrayLengthError (readDimSizes sizes.length nitems) (sizes.flatMap dimText)
      (sizes, ((nitems * sizes.prod : Nat) : Int)) := by
  induction sizes generalizing nitems with
  | nil =>
    rw [List.prod_nil, Nat.mul_one]
    exact .pure _
  | cons size sizes ih =>
    have product : nitems * size * sizes.prod = nitems * (size :: sizes).prod := by
      rw [List.prod_cons, Nat.mul_assoc]
    have inner : ∀ n ∈ sizes, 0 < n := fun n member => positive n (List.mem_cons_of_mem _ member)
    have filled := positive size List.mem_cons_self
    have partly : nitems * size < 2 ^ 31 := by
      apply Nat.lt_of_le_of_lt _ small
      rw [← product]
      exact Nat.le_mul_of_pos_right _ (CanonicallyOrderedAdd.list_prod_pos.2 inner)
    have one : size < 2 ^ 31 := Nat.lt_of_le_of_lt (Nat.le_mul_of_pos_left _ some) partly
    have read : readNbo ((dimText size).take 4) = size := by
      rw [dimText, List.take_left' (length_writeNbo 4 _)]
      exact readNbo_length one
    have fits : ¬((size : Int) < 0 ∨ Int.bmod ((nitems : Int) * size) (2 ^ 32) ≠ (nitems : Int) * size) := by
      rw [← Int.natCast_mul]
      rintro (negative | overflow)
      · omega
      · apply overflow
        apply Int.bmod_eq_of_le_mul_two
        · omega
        · omega
    have rest := ih inner (Nat.mul_pos some filled) (product ▸ small)
    rw [product, Int.natCast_mul] at rest
    refine .bind (Reader.Reads.take (by rw [dimText, List.length_append, length_writeNbo, length_writeNbo])) ?_
    rw [read, if_neg fits]
    exact .map rest rfl

theorem readNdim_reads {ndim : Nat} (few : ndim ≤ maxDim) :
    Reader.Reads arrayLengthError readNdim (writeNbo 4 ndim) ndim := by
  have small : ndim ≤ 6 := few
  have read : readNbo (writeNbo 4 ndim) = ndim := readNbo_length (by omega)
  refine .map (Reader.Reads.take (length_writeNbo 4 _)) ?_
  dsimp only
  rw [read, if_neg (by unfold maxDim; omega), Int.toNat_natCast]

theorem readFlags_reads : Reader.Reads arrayLengthError readFlags (writeNbo 4 1) () := by
  have read : readNbo (writeNbo 4 1) = 1 := by decide
  refine .map (Reader.Reads.take (length_writeNbo 4 1)) ?_
  dsimp only
  rw [read, if_neg (by decide)]

/-- What follows the header of an array. -/
theorem readArray_header {oid : Nat} {sizes : List Nat} {body : Bytes} {v : Value} (few : sizes.length ≤ maxDim)
    (rest : Reader.Reads arrayLengthError (do
      let (dimSizes, nitems) ← readDimSizes sizes.length (if sizes.length = 0 then 0 else 1)
      let s ← readElements elem dimSizes nitems.toNat ⟨[], []⟩
      pure (.ary (Open.outermost s.array s.outer))) (sizes.flatMap dimText ++ body) v) :
    Reader.Reads arrayLengthError (readArray elem) (arrayHeader oid sizes ++ body) v := by
  have split : arrayHeader oid sizes ++ body =
      writeNbo 4 sizes.length ++ (writeNbo 4 1 ++ (writeNbo 4 oid ++ (sizes.flatMap dimText ++ body))) := by
    simp only [arrayHeader, List.append_assoc]
    rfl
  rw [split]
  exact .bind (readNdim_reads few) (.bind readFlags_reads (.bind (Reader.Reads.take (length_writeNbo 4 oid)) rest))

/-- The empty array is read. -/
theorem readArray_empty (oid : Nat) :
    Reader.Reads arrayLengthError (readArray elem) (arrayHeader oid []) (.ary []) := by
  have header := @readArray_header elem oid [] [] (.ary []) (Nat.zero_le _) (.pure _)
  rwa [List.append_nil] at header

/-- What is read as a whole is decoded. -/
theorem pgBinDecArray_of_reads {bs : Bytes} {v : Value} (reads : Reader.Reads arrayLengthError (readArray elem) bs v) :
    pgBinDecArray elem bs = .ok v := (reads.all arrayTrailingData).1 0

/-- **A rectangular array is read**, and every cut of it noticed. -/
theorem readArray_reads {oid size : Nat} {below : List Nat} (positive : ∀ n ∈ size :: below, 0 < n)
    (few : (size :: below).length ≤ maxDim) (casts : ∀ s, elem s = .ok (.str s)) {xs : List Value}
    (rect : Rect (size :: below) (.ary xs)) {fields : List (Option Bytes)}
    (same : leavesOf (size :: below) (.ary xs) = fields.map fieldValue)
    (total : (fields.flatMap fieldText).length < 2 ^ 31) :
    Reader.Reads arrayLengthError (readArray elem) (arrayHeader oid (size :: below) ++ fields.flatMap fieldText)
      (.ary xs) := by
  apply readArray_header few
  have count : fields.length = (size :: below).prod := by
    obtain ⟨fields', same', count⟩ := rect.leavesOf_fields
    rw [← count, ← List.length_map fieldValue, ← same, same', List.length_map]
  have short := four_mul_length_le fields
  have small : ∀ s, some s ∈ fields → s.length < 2 ^ 31 := fun s member =>
    Nat.lt_of_le_of_lt (length_le_of_mem member) total
  have dims := @readDimSizes_reads (size :: below) 1 positive Nat.one_pos (by rw [Nat.one_mul, ← count]; omega)
  rw [Nat.one_mul, ← count] at dims
  refine .bind dims ?_
  dsimp only
  rw [Int.toNat_natCast]
  refine .map (readElements_reads small casts _) ?_
  rw [← same, Open.push_all positive rect]
  rfl

end Decoder

section Encoder

variable {api : CApi}

/-- The Strings among the fields, as the answers of their encoder. -/
def strings (fields : List (Option Bytes)) : List Answer := fields.reduceOption.map Answer.string

/-- The first call over Strings and `nil` adds up what the second one will write. -/
theorem firstLeaves_strings (fields : List (Option Bytes)) :
    firstLeaves (TwoPass.pgCoderEncToS api) (fields.map fieldValue) =
      .ok ((fields.flatMap fieldText).length, strings fields) := by
  induction fields with
  | nil => rfl
  | cons field fields ih =>
    cases field with
    | none =>
      rw [List.map_cons, fieldValue, firstLeaves_nil, ih, List.flatMap_cons, List.length_append]
      rfl
    | some s =>
      rw [List.map_cons, fieldValue, firstLeaves_cons (by intro null; cases null), ih, List.flatMap_cons,
        List.length_append, fieldText, List.length_append, length_writeNbo]
      rfl

/-- The second call puts the fields behind each other. -/
theorem writeItems_strings (fields : List (Option Bytes)) (out : Nat) :
    Writer.Puts out (fields.flatMap fieldText) (out + (fields.flatMap fieldText).length)
      (writeItems (fields.map fieldValue) (strings fields) out) := by
  induction fields generalizing out with
  | nil => exact .pure out
  | cons field fields ih =>
    rw [List.flatMap_cons]
    cases field with
    | none =>
      have rest := ih (out + 4)
      rw [fieldText, List.length_append, length_writeNbo, ← Nat.add_assoc]
      apply Writer.Puts.bind (Writer.Puts.storeAll out (writeNbo 4 (-1)))
      rw [length_writeNbo]
      exact rest
    | some s =>
      have rest := ih (out + 4 + s.length)
      have item : Writer.Puts (out + 4) s s.length (block s (out + 4)) := by
        have stored : Writer.Puts (out + 4) (s ++ []) s.length (block s (out + 4)) :=
          .bind (.storeAll (out + 4) s) (.pure s.length)
        rwa [List.append_nil] at stored
      have size : (writeNbo 4 s.length ++ s).length = 4 + s.length := by
        rw [List.length_append, length_writeNbo]
      rw [List.map_cons, fieldValue, strings, List.reduceOption_cons_of_some, List.map_cons,
        writeItems_given (by intro null; cases null), fieldText, List.length_append, size, ← Nat.add_assoc,
        ← Nat.add_assoc]
      refine @Writer.Puts.head _ _ _ _ _ _ _ _ _ _ (fun strlen : Nat => writeNbo 4 strlen) ?_ ?_
      · rw [length_writeNbo]
        exact item
      · rw [size, ← Nat.add_assoc]
        exact rest

/-- An entry of a rectangular array is rectangular. -/
theorem Rect.entry {size : Nat} {below : List Nat} {array : Value} (rect : Rect (size :: below) array) {i : Nat}
    (inside : i < size) : Rect below (rbAryEntry array i) := by
  obtain ⟨xs, rfl, rfl, inner⟩ := rect
  rw [rbAryEntry, List.getD_eq_getElem?_getD, List.getElem?_eq_getElem inside]
  exact inner _ (List.getElem_mem inside)

/-- The sizes are found along the first elements. -/
theorem dimSizes_rect {dimensions : Option Nat} {size : Nat} {below : List Nat} (positive : ∀ n ∈ size :: below, 0 < n)
    {xs : List Value} (rect : Rect (size :: below) (.ary xs)) {room ndim : Nat} (enough : below.length ≤ room)
    (expected : dimensions = none ∨ dimensions = some (ndim + below.length)) :
    dimSizes dimensions room ndim xs = .ok (size :: below) := by
  have first := rect.entry (positive size List.mem_cons_self)
  obtain ⟨xs', equal, length, -⟩ := rect
  cases equal
  induction below generalizing size xs room ndim with
  | nil =>
    obtain ⟨bytes, leaf⟩ := first
    have none : nextDim dimensions ndim xs = none := by
      unfold nextDim
      rw [leaf]
      cases bytes with
      | none => rfl
      | some s => rfl
    unfold dimSizes
    rw [none, length]
    rfl
  | cons next below ih =>
    have inner : ∀ n ∈ next :: below, 0 < n := fun n member => positive n (List.mem_cons_of_mem _ member)
    have deeper := first.entry (inner next List.mem_cons_self)
    obtain ⟨ys, sub, length', -⟩ := first
    rw [sub] at deeper
    have found : nextDim dimensions ndim xs = some ys := by
      unfold nextDim
      rw [sub]
      rcases expected with rfl | rfl
      · rfl
      · exact if_pos (Nat.lt_add_of_pos_right (Nat.succ_pos _))
    have expected' : dimensions = none ∨ dimensions = some (ndim + 1 + below.length) := by
      rw [Nat.add_assoc, Nat.add_comm 1]
      exact expected
    obtain ⟨room, rfl⟩ : ∃ r, room = r + 1 := ⟨room - 1, by rw [List.length_cons] at enough; omega⟩
    unfold dimSizes
    rw [found]
    dsimp only
    rw [ih inner (Nat.le_of_succ_le_succ enough) expected' deeper length', length]
    rfl

/-- The sizes that are written: the empty array has no dimensions. -/
def writtenDims (dims : List Nat) : List Nat := if dims = [0] then [] else dims

theorem arrayDims_rect {dimensions : Option Nat} {dims : List Nat} (deep : dims ≠ []) (few : dims.length ≤ 6)
    (filled : dims = [0] ∨ ∀ n ∈ dims, 0 < n) {xs : List Value} (rect : Rect dims (.ary xs))
    (expected : dimensions = none ∨ dimensions = some dims.length) :
    arrayDims dimensions xs = .ok (writtenDims dims) := by
  have found : foundDims dimensions xs = .ok (writtenDims dims) := by
    unfold foundDims writtenDims
    rcases filled with rfl | positive
    · obtain ⟨xs', equal, length, -⟩ := rect
      cases equal
      rw [if_pos (List.eq_nil_of_length_eq_zero length), if_pos rfl]
      rfl
    · cases dims with
      | nil => exact absurd rfl deep
      | cons size below =>
        have some := positive size List.mem_cons_self
        have nonempty : xs ≠ [] := by
          obtain ⟨xs', equal, length, -⟩ := rect
          cases equal
          exact List.ne_nil_of_length_pos (length ▸ some)
        have counted : size :: below ≠ [0] := by
          intro equal
          cases equal
          exact Nat.lt_irrefl 0 some
        rw [if_neg nonempty, if_neg counted]
        apply dimSizes_rect positive rect (Nat.le_of_succ_le_succ few)
        rw [Nat.add_comm]
        exact expected
  have count : (if (writtenDims dims).length = 0 then 1 else (writtenDims dims).length) = dims.length := by
    unfold writtenDims
    split
    · rename_i empty
      rw [empty]
      rfl
    · exact if_neg (Nat.ne_of_gt (List.length_pos_of_ne_nil deep))
  have checked : checkDims dimensions (writtenDims dims) = .ok (writtenDims dims) := by
    rcases expected with rfl | rfl
    · rfl
    · simp only [checkDims, count, ne_eq, not_true_eq_false, if_false]
      rfl
  rw [arrayDims, found]
  exact checked

/-- The checks of the first call pass a rectangular array. -/
theorem firstLoops_passes {elem : EncFunc} {dims sizes : List Nat} {dim : Nat} (here : dims.drop dim = sizes)
    {array : Value} (rect : Rect sizes array) : (firstLoops api elem dims).Passes sizes.dropLast dim array := by
  induction sizes generalizing dim array with
  | nil => trivial
  | cons size rest ih =>
    cases rest with
    | nil => trivial
    | cons next below =>
      obtain ⟨-, -, later⟩ := drop_cons here
      obtain ⟨-, bound, -⟩ := drop_cons later
      intro i inside
      have sub := rect.entry inside
      refine ⟨?_, ih later sub⟩
      obtain ⟨ys, same, length, -⟩ := sub
      show Method.ofExcept (checkSubArray api dim (dims.getD (dim + 1) 0) (rbAryEntry array i)) = _
      rw [bound 0, same, checkSubArray, length]
      simp only [ne_eq, not_true_eq_false, if_false]
      rfl

/-- What one leaf adds to the size. -/
def itemSize : Value → Nat
  | .str s => 4 + s.length
  | _ => 4

theorem sum_itemSize (fields : List (Option Bytes)) :
    ((fields.map fieldValue).map itemSize).sum = (fields.flatMap fieldText).length := by
  induction fields with
  | nil => rfl
  | cons field fields ih =>
    rw [List.map_cons, List.map_cons, List.sum_cons, ih, List.flatMap_cons, List.length_append]
    cases field with
    | none => rw [fieldText, length_writeNbo]; rfl
    | some s => rw [fieldText, List.length_append, length_writeNbo]; rfl

theorem answersFor_fields (fields : List (Option Bytes)) :
    answersFor (fields.map fieldValue) = (strings fields).length := by
  induction fields with
  | nil => rfl
  | cons field fields ih =>
    cases field with
    | none => exact ih
    | some s =>
      rw [List.map_cons, fieldValue, answersFor_given (by intro null; cases null), ih]
      rfl

/-- The written dimensions of a rectangular array are those of its leaves. -/
theorem Rect.writtenDims {dims : List Nat} (deep : dims ≠ []) (filled : dims = [0] ∨ ∀ n ∈ dims, 0 < n) {array : Value}
    (rect : Rect dims array) :
    (∀ n ∈ writtenDims dims, 0 < n) ∧ leaves (Binary.writtenDims dims) array = leaves dims array ∧
      (firstLoops api (TwoPass.pgCoderEncToS api) (Binary.writtenDims dims)).Passes
        (Binary.writtenDims dims).dropLast 0 array := by
  rcases filled with rfl | positive
  · obtain ⟨xs, rfl, length, -⟩ := rect
    cases List.eq_nil_of_length_eq_zero length
    refine ⟨?_, rfl, trivial⟩
    intro n member
    cases member
  · have counted : dims ≠ [0] := by
      rintro rfl
      exact Nat.lt_irrefl 0 (positive 0 List.mem_cons_self)
    have same : Binary.writtenDims dims = dims := if_neg counted
    rw [same]
    exact ⟨positive, rfl, firstLoops_passes List.drop_zero rect⟩

/-- The second call puts the array into the memory it is given. -/
theorem arraySecondLoops_puts (oid : Nat) {sizes : List Nat} (positive : ∀ n ∈ sizes.dropLast, 0 < n) {array : Value}
    {fields : List (Option Bytes)} (same : leaves sizes array = fields.map fieldValue) :
    Writer.Puts 0 (arrayHeader oid sizes ++ fields.flatMap fieldText)
      (arrayHeader oid sizes ++ fields.flatMap fieldText).length
      (arraySecondLoops oid sizes array (strings fields) 0) := by
  have header := length_arrayHeader oid sizes
  have items := writeItems_strings fields (12 + 8 * sizes.length)
  rw [arraySecondLoops_eq oid positive, same, List.length_append, header]
  unfold arraySecond
  simp only [Nat.sub_zero, bind_pure, Nat.zero_add]
  apply Writer.Puts.bind (Writer.Puts.storeAll 0 _)
  rw [header, Nat.zero_add]
  exact items

end Encoder

/-- What is written for a rectangular array is decoded to it. -/
theorem pgBinDecArray_rect {oid : Nat} {dims : List Nat} (deep : dims ≠ []) (few : dims.length ≤ 6)
    (filled : dims = [0] ∨ ∀ n ∈ dims, 0 < n) {elem : Decoder} (casts : ∀ s, elem s = .ok (.str s)) {xs : List Value}
    (rect : Rect dims (.ary xs)) {fields : List (Option Bytes)} (same : leaves dims (.ary xs) = fields.map fieldValue)
    (total : (fields.flatMap fieldText).length < 2 ^ 31) :
    pgBinDecArray elem (arrayHeader oid (writtenDims dims) ++ fields.flatMap fieldText) = .ok (.ary xs) := by
  have reads : Reader.Reads arrayLengthError (readArray elem)
      (arrayHeader oid (writtenDims dims) ++ fields.flatMap fieldText) (.ary xs) := by
    rcases filled with rfl | positive
    · obtain ⟨xs', equal, length, -⟩ := rect
      cases equal
      cases List.eq_nil_of_length_eq_zero length
      have none : fields = [] := List.map_eq_nil_iff.1 same.symm
      rw [none, List.flatMap_nil, List.append_nil]
      exact readArray_empty oid
    · cases dims with
      | nil => exact absurd rfl deep
      | cons size below =>
        have counted : size :: below ≠ [0] := by
          intro equal
          cases equal
          exact Nat.lt_irrefl 0 (positive 0 List.mem_cons_self)
        have dims : writtenDims (size :: below) = size :: below := if_neg counted
        rw [leaves_eq deep] at same
        rw [dims]
        exact readArray_reads positive few casts rect same total
  exact pgBinDecArray_of_reads reads

/-- **The binary array round trip.** A rectangular array of Strings and `nil`, with one to six
dimensions that are not empty, or the empty array, is encoded to as many bytes as the first call
said, and these are decoded to the array. The loops of both calls visit the leaves, one after the
other, and the second call has taken all answers of the first when it is done. -/
theorem bin_array_round_trip (api : CApi) (oid : Nat) {dims : List Nat} (deep : dims ≠ []) (few : dims.length ≤ 6)
    (filled : dims = [0] ∨ ∀ n ∈ dims, 0 < n) {array : Value} (rect : Rect dims array) {dimensions : Option Nat}
    (expected : dimensions = none ∨ dimensions = some dims.length) {elem : Decoder}
    (decodes : elem = pgTextDecString ∨ elem = pgBinDecBytea)
    (total : 12 + 8 * dims.length + ((leaves dims array).map itemSize).sum < 2 ^ 31) :
    (∃ bytes second, pgBinEncArrayLoops api (TwoPass.pgCoderEncToS api) dimensions oid array =
        .ok (.size bytes.length second) ∧ written second = .ok bytes ∧ pgBinDecArray elem bytes = .ok array) ∧
      ∃ sizeSum answers,
        (firstLoops api (TwoPass.pgCoderEncToS api) (writtenDims dims)).run (rounds (writtenDims dims)) array =
          (leaves dims array).forM (firstItem (TwoPass.pgCoderEncToS api)) ∧
        Method.finish ((leaves dims array).forM (firstItem (TwoPass.pgCoderEncToS api))) ⟨0, []⟩ =
          .ok ⟨sizeSum, answers⟩ ∧
        (secondLoops (writtenDims dims) answers).run (rounds (writtenDims dims)) array =
          (leaves dims array).forM (secondItem answers) ∧
        ∀ out buf, ((leaves dims array).forM (secondItem answers) ⟨out, 0⟩ buf).1 =
          .ok ((), ⟨out + sizeSum, answers.length⟩) := by
  obtain ⟨fields, same, count⟩ := rect.leavesOf_fields
  obtain ⟨positive, leaves_same, passes⟩ := @Rect.writtenDims api dims deep filled array rect
  rw [← leaves_eq deep] at same
  rw [same, sum_itemSize] at total
  have inner : ∀ n ∈ (writtenDims dims).dropLast, 0 < n := fun n member => positive n ((List.dropLast_subset _) member)
  have first : (firstLoops api (TwoPass.pgCoderEncToS api) (writtenDims dims)).run (rounds (writtenDims dims)) array =
      (leaves dims array).forM (firstItem (TwoPass.pgCoderEncToS api)) := by
    rw [← leaves_same]
    exact run_leaves rfl rfl (fun _ => rfl) inner passes
  have second : ∀ answers, (secondLoops (writtenDims dims) answers).run (rounds (writtenDims dims)) array =
      (leaves dims array).forM (secondItem answers) := by
    intro answers
    rw [secondLoops_eq answers inner, leaves_same]
  have gathered : Method.finish ((leaves dims array).forM (firstItem (TwoPass.pgCoderEncToS api))) ⟨0, []⟩ =
      .ok ⟨(fields.flatMap fieldText).length, strings fields⟩ := by
    rw [firstItems_finish, same, firstLeaves_strings]
    simp only [Except.map, Gathered.add, Nat.zero_add, List.nil_append]
  constructor
  · obtain ⟨xs, rfl⟩ : ∃ xs, array = .ary xs := by
      cases dims with
      | nil => exact absurd rfl deep
      | cons size below =>
        obtain ⟨xs, rfl, -⟩ := rect
        exact ⟨xs, rfl⟩
    have length : (arrayHeader oid (writtenDims dims) ++ fields.flatMap fieldText).length =
        12 + (writtenDims dims).length * 8 + (fields.flatMap fieldText).length := by
      rw [List.length_append, length_arrayHeader, Nat.mul_comm]
    refine ⟨arrayHeader oid (writtenDims dims) ++ fields.flatMap fieldText,
      arraySecondLoops oid (writtenDims dims) (.ary xs) (strings fields), ?_, ?_, ?_⟩
    · unfold pgBinEncArrayLoops
      dsimp only
      rw [arrayDims_rect deep few filled rect expected]
      simp only [bind, Except.bind]
      rw [first, gathered, length]
      rfl
    · exact written_of_puts (arraySecondLoops_puts oid inner (leaves_same.trans same)) rfl
    · have casts : ∀ s, elem s = .ok (.str s) := by
        rcases decodes with rfl | rfl
        · exact fun _ => rfl
        · exact fun _ => rfl
      exact pgBinDecArray_rect deep few filled casts rect same (by omega)
  · refine ⟨_, _, first, gathered, second _, ?_⟩
    intro out buf
    obtain ⟨s', run, -⟩ := writeItems_strings fields out buf
    have left : writeItems (fields.map fieldValue) ((strings fields).drop 0) out buf =
        (.ok (out + (fields.flatMap fieldText).length), s') := run
    rw [same, secondItems_run, Method.bind_ok left, answersFor_fields, Nat.zero_add]
    rfl

/-- Two rows of two Strings, one of them missing and one of them empty. -/
theorem bin_array_round_trip_square :
    ∃ bytes second, pgBinEncArrayLoops .sample (TwoPass.pgCoderEncToS .sample) (some 2) 25
        (.ary [.ary [.str [0x61], .nil], .ary [.str [], .str [0x62, 0x63]]]) = .ok (.size bytes.length second) ∧
      written second = .ok bytes ∧
      pgBinDecArray pgTextDecString bytes = .ok (.ary [.ary [.str [0x61], .nil], .ary [.str [], .str [0x62, 0x63]]]) := by
  have leaf : ∀ bytes, Rect [] (fieldValue bytes) := fun bytes => ⟨bytes, rfl⟩
  have row : ∀ a b, Rect [2] (.ary [fieldValue a, fieldValue b]) := by
    intro a b
    refine ⟨_, rfl, rfl, ?_⟩
    simp only [List.mem_cons, List.not_mem_nil, or_false, forall_eq_or_imp, forall_eq]
    exact ⟨leaf a, leaf b⟩
  have square : Rect [2, 2] (.ary [.ary [.str [0x61], .nil], .ary [.str [], .str [0x62, 0x63]]]) := by
    refine ⟨_, rfl, rfl, ?_⟩
    simp only [List.mem_cons, List.not_mem_nil, or_false, forall_eq_or_imp, forall_eq]
    exact ⟨row (some [0x61]) none, row (some []) (some [0x62, 0x63])⟩
  exact (bin_array_round_trip .sample 25 (List.cons_ne_nil _ _) (by decide) (Or.inr (by decide)) square (Or.inr rfl)
    (Or.inl rfl) (by decide)).1

end RubyPg.Binary
