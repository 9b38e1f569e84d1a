import Mathlib.Algebra.BigOperators.Ring.List
import RubyPg.Binary.ArrayAccesses
import RubyPg.Binary.ArrayRoundTrip

/-!
# The binary array decoder is exact

The inputs that `pg_bin_dec_array` accepts are those of the format, and the array it returns has the
dimensions of the header and the elements in their order. Everything else is an `ArgumentError`.
-/

namespace RubyPg.Binary
set_option autoImplicit false
open Reader TwoPass

/-- The products of the sizes, from the first on, are `int32_t`s. -/
def Fits32 : Nat → List Nat → Prop
  | _, [] => True
  | nitems, size :: rest => size < 2 ^ 31 ∧ nitems * size < 2 ^ 31 ∧ Fits32 (nitems * size) rest

/-- A size, and a lower bound. -/
def dimBytes (dim : Nat × Bytes) : Bytes := writeNbo 4 dim.1 ++ dim.2

/-- A binary array with these dimensions and elements. -/
structure IsBinArray (input : Bytes) (dims : List (Nat × Bytes)) (fields : List (Option Bytes)) : Prop where
  few : dims.length ≤ maxDim
  bounds : ∀ dim ∈ dims, dim.2.length = 4
  fits : Fits32 1 (dims.map Prod.fst)
  count : fields.length = if dims = [] then 0 else (dims.map Prod.fst).prod
  small : ∀ s, some s ∈ fields → s.length < 2 ^ 31
  text : ∃ (flags : Int) (oid : Bytes), (flags = 0 ∨ flags = 1) ∧ oid.length = 4 ∧
    input = writeNbo 4 dims.length ++ (writeNbo 4 flags ++ (oid ++ (dims.flatMap dimBytes ++ fields.flatMap fieldText)))

/-- The array with these dimensions and elements. -/
def Denotes (dims : List Nat) (fields : List (Option Bytes)) (v : Value) : Prop :=
  if dims = [] ∨ 0 ∈ dims then v = .ary [] else Rect dims v ∧ leavesOf dims v = fields.map fieldValue

/-- The exception is an `ArgumentError`. -/
def IsArgumentError (stop : Stop) : Prop := ∃ msg, stop = .exn .argumentError msg

section Parsing

variable {elem : Decoder}

theorem lengthError_known (pos : Nat) : IsArgumentError (arrayLengthError pos) := ⟨_, rfl⟩

theorem readNdim_parses :
    Parses readNdim (fun bs ndim => bs = writeNbo 4 ndim ∧ ndim ≤ maxDim) IsArgumentError := by
  refine (Parses.take lengthError_known).bind fun bs c => ?_
  rintro ⟨rfl, length⟩
  dsimp only
  by_cases unsupported : readNbo bs < 0 ∨ readNbo bs > maxDim
  · rw [if_pos unsupported]
    exact .raise ⟨_, rfl⟩
  · rw [if_neg unsupported]
    refine .pure ⟨?_, by omega⟩
    rw [List.append_nil, Int.toNat_of_nonneg (by omega), ← length, writeNbo_readNbo]

theorem readFlags_parses :
    Parses readFlags (fun bs _ => ∃ flags : Int, (flags = 0 ∨ flags = 1) ∧ bs = writeNbo 4 flags) IsArgumentError := by
  refine (Parses.take lengthError_known).bind fun bs c => ?_
  rintro ⟨rfl, length⟩
  dsimp only
  by_cases unsupported : readNbo bs ≠ 0 ∧ readNbo bs ≠ 1
  · rw [if_pos unsupported]
    exact .raise ⟨_, rfl⟩
  · rw [if_neg unsupported]
    refine .pure ⟨readNbo bs, by omega, ?_⟩
    rw [List.append_nil, ← length, writeNbo_readNbo]

/-- A product is that of the `int32_t`s exactly if it fits. -/
theorem product_fits {nitems : Nat} {size : Int}
    (kept : ¬(size < 0 ∨ Int.bmod (nitems * size) (2 ^ 32) ≠ nitems * size)) : nitems * size.toNat < 2 ^ 31 := by
  push Not at kept
  obtain ⟨nonneg, same⟩ := kept
  have bound := @Int.bmod_lt (nitems * size) (2 ^ 32) (by decide)
  obtain ⟨n, rfl⟩ := Int.eq_ofNat_of_zero_le nonneg
  rw [same, ← Int.natCast_mul] at bound
  rw [Int.toNat_natCast]
  omega

theorem readDimSizes_parses (n : Nat) {nitems : Nat} (known : nitems < 2 ^ 31) :
    Parses (readDimSizes n nitems) (fun bs r => ∃ dims : List (Nat × Bytes), dims.length = n ∧
      (∀ dim ∈ dims, dim.2.length = 4) ∧ Fits32 nitems (dims.map Prod.fst) ∧ bs = dims.flatMap dimBytes ∧
      r = (dims.map Prod.fst, ((nitems * (dims.map Prod.fst).prod : Nat) : Int))) IsArgumentError := by
  induction n generalizing nitems with
  | zero =>
    refine .pure ⟨[], rfl, (fun dim member => nomatch member), trivial, rfl, ?_⟩
    rw [List.map_nil, List.prod_nil, Nat.mul_one]
  | succ n ih =>
    refine (Parses.take lengthError_known).bind fun bs c => ?_
    rintro ⟨rfl, length⟩
    dsimp only
    by_cases unsupported : readNbo (bs.take 4) < 0 ∨
        Int.bmod (nitems * readNbo (bs.take 4)) (2 ^ 32) ≠ nitems * readNbo (bs.take 4)
    · rw [if_pos unsupported]
      exact .raise ⟨_, rfl⟩
    · rw [if_neg unsupported]
      have four : (bs.take 4).length = 4 := by
        rw [List.length_take]
        omega
      have upper := (readNbo_bounds four).2
      have product := product_fits unsupported
      obtain ⟨size, read⟩ := Int.eq_ofNat_of_zero_le (Int.not_lt.1 fun negative => unsupported (.inl negative))
      rw [read, Int.toNat_natCast] at product
      rw [read, Int.toNat_natCast, ← Int.natCast_mul]
      refine (ih product).bind fun cs r => ?_
      rintro ⟨dims, rfl, bounds, fits, rfl, rfl⟩
      refine .pure ⟨(size, bs.drop 4) :: dims, rfl, ?_, ⟨by omega, product, fits⟩, ?_, ?_⟩
      · intro dim member
        rcases List.mem_cons.1 member with rfl | member
        · rw [List.length_drop]
          omega
        · exact bounds dim member
      · have first : dimBytes (size, bs.drop 4) = bs := by
          have written : writeNbo 4 size = bs.take 4 := by
            have back := writeNbo_readNbo (bs.take 4)
            rwa [four, read] at back
          rw [dimBytes, written, List.take_append_drop]
        rw [List.append_nil, List.flatMap_cons, first]
      · rw [List.map_cons, List.prod_cons, Nat.mul_assoc]

theorem field_parses (strings : ∀ s, elem s = .ok (.str s)) :
    Parses (field arrayLengthError .nil elem)
      (fun bs v => ∃ bytes, (∀ s, bytes = some s → s.length < 2 ^ 31) ∧ bs = fieldText bytes ∧ v = fieldValue bytes)
      IsArgumentError := by
  refine (Parses.take lengthError_known).bind fun bs c => ?_
  rintro ⟨rfl, length⟩
  by_cases negative : readNbo bs < 0
  · rw [if_pos negative]
    by_cases other : readNbo bs ≠ -1
    · rw [if_pos other]
      exact .fail lengthError_known
    · rw [if_neg other]
      refine .pure ⟨none, (fun s same => by cases same), ?_, rfl⟩
      rw [List.append_nil, fieldText, ← not_not.1 other, ← length, writeNbo_readNbo]
  · rw [if_neg negative]
    refine (Parses.take lengthError_known).bind fun cs c => ?_
    rintro ⟨rfl, size⟩
    rw [strings]
    refine .ofExcept (fun v same => ?_) fun e same => by cases same
    cases same
    have upper := (readNbo_bounds length).2
    refine ⟨some cs, ?_, ?_, rfl⟩
    · intro s same
      cases same
      omega
    · rw [List.append_nil, fieldText, size, Int.toNat_of_nonneg (by omega)]
      conv_rhs => rw [← length]
      rw [writeNbo_readNbo]

theorem readElements_parses (strings : ∀ s, elem s = .ok (.str s)) (dimSizes : List Nat) (n : Nat) (s : Open) :
    Parses (readElements elem dimSizes n s) (fun bs r => ∃ fields : List (Option Bytes), fields.length = n ∧
      (∀ s, some s ∈ fields → s.length < 2 ^ 31) ∧ bs = fields.flatMap fieldText ∧
      r = (fields.map fieldValue).foldl (Open.push dimSizes) s) IsArgumentError := by
  induction n generalizing s with
  | zero => exact .pure ⟨[], rfl, (fun s member => nomatch member), rfl, rfl⟩
  | succ n ih =>
    refine (field_parses strings).bind fun bs v => ?_
    rintro ⟨bytes, small, rfl, rfl⟩
    refine (ih _).mono fun cs r => ?_
    rintro ⟨fields, rfl, smalls, rfl, rfl⟩
    refine ⟨bytes :: fields, rfl, ?_, rfl, rfl⟩
    intro s member
    rcases List.mem_cons.1 member with same | member
    · exact small s same.symm
    · exact smalls s member

end Parsing

section Shape

/-- Values of one shape from their leaves. -/
theorem exists_rects {below : List Nat} {size : Nat}
    (one : ∀ fields : List (Option Bytes), fields.length = below.prod →
      ∃ v, Rect below v ∧ leavesOf below v = fields.map fieldValue)
    {fields : List (Option Bytes)} (count : fields.length = size * below.prod) :
    ∃ xs : List Value, xs.length = size ∧ (∀ x ∈ xs, Rect below x) ∧
      xs.flatMap (leavesOf below) = fields.map fieldValue := by
  induction size generalizing fields with
  | zero =>
    rw [Nat.zero_mul, List.length_eq_zero_iff] at count
    subst count
    exact ⟨[], rfl, (fun x member => nomatch member), rfl⟩
  | succ size ih =>
    rw [Nat.succ_mul] at count
    have first : (fields.take below.prod).length = below.prod := by
      rw [List.length_take]
      omega
    have later : (fields.drop below.prod).length = size * below.prod := by
      rw [List.length_drop]
      omega
    obtain ⟨v, rect, leaves⟩ := one _ first
    obtain ⟨xs, length, rects, others⟩ := ih later
    refine ⟨v :: xs, by rw [List.length_cons, length], ?_, ?_⟩
    · intro x member
      rcases List.mem_cons.1 member with rfl | member
      · exact rect
      · exact rects x member
    · rw [List.flatMap_cons, leaves, others, ← List.map_append, List.take_append_drop]

/-- An array from its leaves. -/
theorem exists_rect {dims : List Nat} {fields : List (Option Bytes)} (count : fields.length = dims.prod) :
    ∃ v, Rect dims v ∧ leavesOf dims v = fields.map fieldValue := by
  induction dims generalizing fields with
  | nil =>
    obtain ⟨bytes, rfl⟩ := List.length_eq_one_iff.1 count
    exact ⟨fieldValue bytes, ⟨bytes, rfl⟩, rfl⟩
  | cons size below ih =>
    rw [List.prod_cons] at count
    obtain ⟨xs, rfl, rects, leaves⟩ := exists_rects (fun _ => ih) count
    exact ⟨.ary xs, ⟨xs, rfl, rfl, rects⟩, by rw [leavesOf_ary, leaves]⟩

/-- The arrays that are filled with all the elements. -/
def filled (dims : List Nat) (fields : List (Option Bytes)) : Value :=
  let s := (fields.map fieldValue).foldl (Open.push dims) ⟨[], []⟩
  .ary (Open.outermost s.array s.outer)

/-- What is filled with the elements is the array with these dimensions, and no other. -/
theorem denotes_filled {dims : List Nat} {fields : List (Option Bytes)} {v : Value}
    (count : fields.length = if dims = [] then 0 else dims.prod) : Denotes dims fields v ↔ v = filled dims fields := by
  by_cases none : dims = [] ∨ 0 ∈ dims
  · have empty : fields = [] := by
      rw [← List.length_eq_zero_iff, count]
      rcases none with rfl | zero
      · rfl
      · rw [if_neg (List.ne_nil_of_mem zero)]
        exact List.prod_eq_zero zero
    rw [Denotes, if_pos none, empty]
    rfl
  · obtain ⟨some, nonzero⟩ := not_or.1 none
    obtain ⟨size, below, rfl⟩ := List.exists_cons_of_ne_nil some
    have positive : ∀ n ∈ size :: below, 0 < n := by
      intro n member
      apply Nat.pos_of_ne_zero
      rintro rfl
      exact nonzero member
    have only : ∀ v, Rect (size :: below) v → leavesOf (size :: below) v = fields.map fieldValue →
        v = filled (size :: below) fields := by
      rintro v rect leaves
      obtain ⟨xs, rfl, -, -⟩ := id rect
      have all := Open.push_all positive rect
      rw [leaves] at all
      rw [filled, all]
      rfl
    rw [Denotes, if_neg none]
    rw [if_neg some] at count
    constructor
    · rintro ⟨rect, leaves⟩
      exact only v rect leaves
    · rintro rfl
      obtain ⟨v, rect, leaves⟩ := exists_rect count
      rw [← only v rect leaves]
      exact ⟨rect, leaves⟩

end Shape

section Format

variable {elem : Decoder}

/-- What `pg_bin_dec_array` reads is a binary array. -/
theorem readArray_parses (strings : ∀ s, elem s = .ok (.str s)) :
    Parses (readArray elem)
      (fun bs v => ∃ dims fields, IsBinArray bs dims fields ∧ Denotes (dims.map Prod.fst) fields v) IsArgumentError := by
  refine readNdim_parses.bind ?_
  rintro _ ndim ⟨rfl, few⟩
  refine readFlags_parses.bind ?_
  rintro _ - ⟨flags, known, rfl⟩
  refine (Parses.take lengthError_known).bind ?_
  rintro _ oid ⟨rfl, oidLength⟩
  by_cases none : ndim = 0
  · subst none
    refine .pure ⟨[], [], ⟨few, (fun dim member => nomatch member), trivial, rfl, (fun s member => nomatch member), ?_⟩, ?_⟩
    · exact ⟨flags, _, known, oidLength, rfl⟩
    · exact (denotes_filled rfl).2 rfl
  · rw [if_neg none]
    refine (readDimSizes_parses ndim (by decide)).bind ?_
    rintro _ _ ⟨dims, rfl, bounds, fits, rfl, rfl⟩
    dsimp only
    rw [Int.toNat_natCast, Nat.one_mul]
    refine (readElements_parses strings _ _ _).bind ?_
    rintro _ _ ⟨fields, count, small, rfl, rfl⟩
    have some : dims ≠ [] := fun empty => none (by rw [empty]; rfl)
    refine .pure ⟨dims, fields, ⟨few, bounds, fits, by rw [count, if_neg some], small, flags, _, known, oidLength, ?_⟩, ?_⟩
    · rw [List.append_nil]
    · apply (denotes_filled ?_).2
      · rfl
      · rw [count, if_neg]
        simpa using some

theorem readFlags_reads_of {flags : Int} (known : flags = 0 ∨ flags = 1) :
    Reader.Reads arrayLengthError readFlags (writeNbo 4 flags) () := by
  have read : readNbo (writeNbo 4 flags) = flags := by rcases known with rfl | rfl <;> decide
  refine .map (.take (length_writeNbo 4 flags)) ?_
  rw [read, if_neg (by omega)]

/-- Sizes with any lower bounds are read, and multiplied. -/
theorem readDimSizes_reads_of {dims : List (Nat × Bytes)} {nitems : Nat} (bounds : ∀ dim ∈ dims, dim.2.length = 4)
    (fits : Fits32 nitems (dims.map Prod.fst)) :
    Reader.Reads arrayLengthError (readDimSizes dims.length nitems) (dims.flatMap dimBytes)
      (dims.map Prod.fst, ((nitems * (dims.map Prod.fst).prod : Nat) : Int)) := by
  induction dims generalizing nitems with
  | nil =>
    rw [List.map_nil, List.prod_nil, Nat.mul_one]
    exact .pure _
  | cons dim dims ih =>
    obtain ⟨one, product, more⟩ := fits
    have bound := bounds dim List.mem_cons_self
    have read : readNbo ((dimBytes dim).take 4) = dim.1 := by
      rw [dimBytes, List.take_left' (length_writeNbo 4 _)]
      exact readNbo_length one
    have kept : ¬((dim.1 : Int) < 0 ∨ Int.bmod ((nitems : Int) * dim.1) (2 ^ 32) ≠ (nitems : Int) * dim.1) := by
      rw [← Int.natCast_mul]
      rintro (negative | overflow)
      · omega
      · apply overflow
        apply Int.bmod_eq_of_le_mul_two
        · omega
        · omega
    have rest := ih (fun d member => bounds d (List.mem_cons_of_mem dim member)) more
    rw [Int.natCast_mul] at rest
    refine .bind (.take (by rw [dimBytes, List.length_append, length_writeNbo, bound])) ?_
    rw [read, if_neg kept]
    refine .map rest ?_
    rw [List.map_cons, List.prod_cons, ← Nat.mul_assoc, Int.natCast_mul, Int.natCast_mul]
    rfl

/-- A binary array is read as the array it denotes. -/
theorem readArray_reads_of {input : Bytes} {dims : List (Nat × Bytes)} {fields : List (Option Bytes)} {v : Value}
    (strings : ∀ s, elem s = .ok (.str s)) (form : IsBinArray input dims fields)
    (denotes : Denotes (dims.map Prod.fst) fields v) : Reader.Reads arrayLengthError (readArray elem) input v := by
  obtain ⟨flags, oid, known, oidLength, rfl⟩ := form.text
  have count := form.count
  have same : v = filled (dims.map Prod.fst) fields := by
    apply (denotes_filled ?_).1 denotes
    rw [count]
    simp
  subst same
  refine .bind (readNdim_reads form.few) (.bind (readFlags_reads_of known) (.bind (.take oidLength) ?_))
  by_cases none : dims = []
  · subst none
    rw [if_pos rfl, List.length_eq_zero_iff] at count
    subst count
    exact .pure _
  · have several : dims.length ≠ 0 := fun empty => none (List.length_eq_zero_iff.1 empty)
    rw [if_neg several]
    rw [if_neg none] at count
    refine .bind (readDimSizes_reads_of form.bounds form.fits) ?_
    dsimp only
    rw [Nat.one_mul, Int.toNat_natCast, ← count]
    exact .map (readElements_reads form.small strings _) rfl

end Format

section Decoder

variable {elem : Decoder} {input : Bytes}

/-- The sizes the header gives to the loop over the elements. -/
theorem readDimSizes_known {n : Nat} {start total : Int} (begins : start = if n = 0 then 0 else 1) {s s' : Cursor}
    {dimSizes : List Nat} (read : readDimSizes n start s = (.ok (dimSizes, total), s')) :
    total.toNat = 0 ∨ dimSizes ≠ [] ∧ total.toNat = dimSizes.prod := by
  by_cases none : n = 0
  · rw [if_pos none] at begins
    subst none begins
    cases read
    exact .inl rfl
  · rw [if_neg none] at begins
    subst begins
    have parsed := readDimSizes_parses n (show 1 < 2 ^ 31 by decide) s
    rw [Int.natCast_one, read] at parsed
    obtain ⟨bs, -, dims, rfl, -, -, -, same⟩ := parsed
    cases same
    refine .inr ⟨fun empty => none ?_, by rw [Nat.one_mul, Int.toNat_natCast]⟩
    rw [List.map_eq_nil_iff] at empty
    rw [empty, List.length_nil]

theorem endAt_follows : Follows input (endAt input) (atEnd arrayTrailingData) := by
  intro d inside
  by_cases more : d.cur < input.length
  · have left : ¬input.drop d.cur = [] := by
      rw [List.drop_eq_nil_iff]
      omega
    have stops : endAt input d = (.error (arrayTrailingData d.cur), d) := if_pos more
    have stops' : (atEnd arrayTrailingData : Reader Stop Unit) (d.cursor input) =
        (.error (arrayTrailingData d.cur), d.cursor input) := if_neg left
    rw [stops, stops']
    exact ⟨inside, _, rfl⟩
  · have left : input.drop d.cur = [] := List.drop_eq_nil_of_le (by omega)
    have goes : endAt input d = (.ok (), d) := if_neg more
    have goes' : (atEnd arrayTrailingData : Reader Stop Unit) (d.cursor input) = (.ok (), d.cursor input) := if_pos left
    rw [goes, goes']
    exact ⟨inside, rfl⟩

/-- **The decoder over `cur_ptr`** is the one that reads from the front of its input, and nothing it does is
outside. -/
theorem binDecArrayAt_follows : Follows input (binDecArrayAt input elem) (do
    let array ← readArray elem
    atEnd arrayTrailingData
    pure array) := by
  have oid : ∀ next : Reader Stop Value, (take arrayLengthError 4 >>= fun _ => next) =
      (take arrayLengthError 4 >>= fun _ => pure ()) >>= fun _ => next := by
    intro next
    rw [bind_assoc]
    simp only [pure_bind]
  simp only [readArray, bind_assoc, pure_bind]
  refine ndimAt_follows.bind fun ndim => flagsAt_follows.bind fun _ => ?_
  rw [oid]
  refine (oidAt_follows fun _ => rfl).bind fun _ => ?_
  refine (dimSizesAt_follows ndim _).bind_of (fun s a s' read => readDimSizes_known rfl read) ?_
  rintro ⟨dimSizes, total⟩ known
  dsimp only at known ⊢
  refine Follows.bind ?_ fun s => endAt_follows.bind fun _ => .pure _
  rcases known with zero | ⟨some, product⟩
  · rw [zero]
    exact .pure _
  · rw [product]
    by_cases zero : 0 ∈ dimSizes
    · rw [List.prod_eq_zero zero]
      exact .pure _
    · have positive : ∀ n ∈ dimSizes, 0 < n := by
        intro n member
        apply Nat.pos_of_ne_zero
        rintro rfl
        exact zero member
      have filled := List.length_pos_of_ne_nil some
      apply elementsAt_follows positive
      · refine ⟨filled, trivial, .inl ?_⟩
        apply positive
        show dimSizes.getD 0 0 ∈ dimSizes
        rw [List.getD_eq_getElem?_getD, List.getElem?_eq_getElem filled]
        exact List.getElem_mem filled
      · exact Nat.le_of_eq (slots_start dimSizes filled).symm

/-- What the decoder returns has the form it read; the rest is an `ArgumentError`. -/
theorem pgBinDecArray_cases (strings : ∀ s, elem s = .ok (.str s)) :
    (∃ msg, pgBinDecArray elem input = .error (.exn .argumentError msg)) ∨
      ∃ dims fields v, pgBinDecArray elem input = .ok v ∧ IsBinArray input dims fields ∧
        Denotes (dims.map Prod.fst) fields v := by
  have parsed := readArray_parses strings ⟨0, input⟩
  cases run : readArray elem ⟨0, input⟩ with
  | mk result s' =>
    rw [run] at parsed
    cases result with
    | error e =>
      obtain ⟨msg, rfl⟩ := parsed
      exact .inl ⟨msg, by rw [pgBinDecArray, Method.bind_error run]⟩
    | ok v =>
      obtain ⟨bs, whole, dims, fields, form, denotes⟩ := parsed
      by_cases trailing : s'.rest = []
      · have last : (atEnd arrayTrailingData : Reader Stop Unit) s' = (.ok (), s') := if_pos trailing
        refine .inr ⟨dims, fields, v, ?_, ?_, denotes⟩
        · rw [pgBinDecArray, Method.bind_ok run, Method.bind_ok last]
          rfl
        · have all : input = bs := by
            rw [trailing, List.append_nil] at whole
            exact whole
          rwa [all]
      · have last : (atEnd arrayTrailingData : Reader Stop Unit) s' = (.error (arrayTrailingData s'.pos), s') :=
          if_neg trailing
        obtain ⟨msg, named⟩ : IsArgumentError (arrayTrailingData s'.pos) := ⟨_, rfl⟩
        refine .inl ⟨msg, ?_⟩
        rw [pgBinDecArray, Method.bind_ok run, Method.bind_error last, named]

/-- **The binary array decoder is exact.** On every input it reads inside the input, and pushes nothing into an
array that has the size of its dimension; it raises an `ArgumentError`, or the input is a binary array and
what it returns is the array that this denotes. Of every binary array it does return that. -/
theorem bin_dec_array_exact (input : Bytes) {elem : Decoder} (strings : elem = pgTextDecString ∨ elem = pgBinDecBytea) :
    (binDecArrayAt input elem ⟨0, [], []⟩).2.Inside input ∧
      ((∃ msg, (binDecArrayAt input elem ⟨0, [], []⟩).1 = .error (.exn .argumentError msg)) ∨
        ∃ dims fields v, (binDecArrayAt input elem ⟨0, [], []⟩).1 = .ok v ∧ IsBinArray input dims fields ∧
          Denotes (dims.map Prod.fst) fields v) ∧
      ∀ dims fields v, IsBinArray input dims fields → Denotes (dims.map Prod.fst) fields v →
        (binDecArrayAt input elem ⟨0, [], []⟩).1 = .ok v := by
  have casts : ∀ s, elem s = .ok (.str s) := by
    rcases strings with rfl | rfl
    · exact fun _ => rfl
    · exact fun _ => rfl
  have start : (⟨0, [], []⟩ : Decoding).Inside input :=
    ⟨Nat.zero_le _, (fun _ member => nomatch member), (fun _ member => nomatch member)⟩
  obtain ⟨inside, same⟩ := binDecArrayAt_follows _ start
  have agrees : (binDecArrayAt input elem ⟨0, [], []⟩).1 = pgBinDecArray elem input := by
    cases run : (binDecArrayAt input elem ⟨0, [], []⟩).1 with
    | ok v =>
      rw [run] at same
      exact (congrArg Prod.fst same).symm
    | error e =>
      rw [run] at same
      obtain ⟨s, same⟩ := same
      exact (congrArg Prod.fst same).symm
  rw [agrees]
  refine ⟨inside, pgBinDecArray_cases casts, ?_⟩
  intro dims fields v form denotes
  exact pgBinDecArray_of_reads (readArray_reads_of casts form denotes)

/-- One dimension with a `nil` and a String. -/
theorem bin_dec_array_exact_pair :
    (binDecArrayAt ([0, 0, 0, 1, 0, 0, 0, 1, 0, 0, 0, 25, 0, 0, 0, 2, 0, 0, 0, 1] ++
        [255, 255, 255, 255, 0, 0, 0, 1, 0x61]) pgBinDecBytea ⟨0, [], []⟩).1 = .ok (.ary [.nil, .str [0x61]]) := by
  refine (bin_dec_array_exact _ (Or.inr rfl)).2.2 [(2, [0, 0, 0, 1])] [none, some [0x61]] _ ?_ ?_
  · refine ⟨by decide, by decide, ⟨by decide, by decide, trivial⟩, rfl, ?_, 1, [0, 0, 0, 25], by decide, rfl, by decide⟩
    intro s member
    simp at member
    subst member
    decide
  · exact (denotes_filled rfl).2 rfl

end Decoder

end RubyPg.Binary
