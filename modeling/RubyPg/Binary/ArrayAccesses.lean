import Mathlib.Algebra.BigOperators.Ring.List
import RubyPg.Binary.ArrayDecoder

/-!
# The accesses of `pg_bin_dec_array`

`pg_bin_dec_array` over `cur_ptr`, with a record of what it reads of its input and of what it pushes
into which array. A read is not stopped at the end of the input here, and a push not at the size of the
dimension: that none gets there is what is proved (`Inside`), and that the decoder is the one that reads
from the front of its input.
-/

namespace RubyPg.Binary
set_option autoImplicit false
open Reader

/-- `cur_ptr`, and what was done so far. -/
structure Decoding where
  cur : Nat
  /-- The place and the number of the bytes of each read. -/
  reads : List (Nat × Nat)
  /-- The length of the array before each push, and the size of its dimension. -/
  pushes : List (Nat × Nat)

section Code

variable (inputLine : Bytes)

/-- `if (line_end_ptr - cur_ptr < n) goto length_error;`. -/
def need (n : Int) : Method Stop Decoding Unit := fun d =>
  if (inputLine.length : Int) - d.cur < n then (.error (arrayLengthError d.cur), d) else (.ok (), d)

/-- `goto length_error;`. -/
def lengthErrorAt {α : Type} : Method Stop Decoding α := fun d => (.error (arrayLengthError d.cur), d)

/-- The `n` bytes at `cur_ptr`. -/
def bytesAt (n : Nat) : Method Stop Decoding Bytes := fun d =>
  (.ok ((inputLine.drop d.cur).take n), { d with reads := (d.cur, n) :: d.reads })

/-- `cur_ptr += n`. -/
def skip (n : Nat) : Method Stop Decoding Unit := Method.change fun d => { d with cur := d.cur + n }

/-- `rb_ary_push` into `arrays[dim]`. -/
def rbAryPush (dimSizes : List Nat) (array : List Value) (dim : Nat) : Method Stop Decoding Unit :=
  Method.change fun d => { d with pushes := (array.length, dimSizes.getD dim 0) :: d.pushes }

/-- The number of dimensions. -/
def ndimAt : Method Stop Decoding Nat := do
  need inputLine 4
  let ndim := readNbo (← bytesAt inputLine 4)
  if ndim < 0 ∨ ndim > maxDim then
    Method.raise (.exn .argumentError s!"unsupported number of array dimensions: {ndim}")
  else do
    skip 4
    pure ndim.toNat

/-- The flags. -/
def flagsAt : Method Stop Decoding Unit := do
  need inputLine 4
  let flags := readNbo (← bytesAt inputLine 4)
  if flags ≠ 0 ∧ flags ≠ 1 then Method.raise (.exn .argumentError s!"unsupported binary array flags: {flags}")
  else skip 4

/-- The element OID, which is ignored. -/
def oidAt : Method Stop Decoding Unit := do
  need inputLine 4
  skip 4

/-- The loop over the sizes of `n` dimensions, with `nitems32` so far. -/
def dimSizesAt : Nat → Int → Method Stop Decoding (List Nat × Int)
  | 0, nitems32 => pure ([], nitems32)
  | n + 1, nitems32 => do
    need inputLine 8
    let dimSize := readNbo (← bytesAt inputLine 4)
    let prod := nitems32 * dimSize
    if dimSize < 0 ∨ Int.bmod prod (2 ^ 32) ≠ prod then
      Method.raise (.exn .argumentError s!"unsupported array size: {prod}")
    else do
      skip 8
      let (dimSizes, nitems32) ← dimSizesAt n (Int.bmod prod (2 ^ 32))
      pure (dimSize.toNat :: dimSizes, nitems32)

/-- `while (dim < ndim - 1)` begin a sub-array and push it into its parent. -/
def downAt (dimSizes : List Nat) : Nat → Open → Method Stop Decoding Open
  | 0, s => pure s
  | below + 1, s => do
    rbAryPush dimSizes s.array s.outer.length
    downAt dimSizes below ⟨[], s.array :: s.outer⟩

/-- An element: its length, and its bytes through the element decoder. -/
def elementAt (elem : Decoder) : Method Stop Decoding Value := do
  need inputLine 4
  let inputLen := readNbo (← bytesAt inputLine 4)
  skip 4
  if inputLen < 0 then
    if inputLen ≠ -1 then lengthErrorAt else pure .nil
  else do
    need inputLine inputLen
    let fieldStr ← bytesAt inputLine inputLen.toNat
    skip inputLen.toNat
    Method.ofExcept (elem fieldStr)

/-- The loop over `n` elements. -/
def elementsAt (elem : Decoder) (dimSizes : List Nat) : Nat → Open → Method Stop Decoding Open
  | 0, s => pure s
  | n + 1, s => do
    let s ← downAt dimSizes (dimSizes.length - 1 - s.outer.length) s
    let element ← elementAt inputLine elem
    rbAryPush dimSizes s.array s.outer.length
    elementsAt elem dimSizes n (Open.up dimSizes (s.array ++ [element]) s.outer)

/-- `if (cur_ptr < line_end_ptr)` there is trailing data. -/
def endAt : Method Stop Decoding Unit := fun d =>
  if d.cur < inputLine.length then (.error (arrayTrailingData d.cur), d) else (.ok (), d)

/-- `pg_bin_dec_array`, access by access. -/
def binDecArrayAt (elem : Decoder) : Method Stop Decoding Value := do
  let ndim ← ndimAt inputLine
  flagsAt inputLine
  oidAt inputLine
  let (dimSizes, nitems32) ← dimSizesAt inputLine ndim (if ndim = 0 then 0 else 1)
  let s ← elementsAt inputLine elem dimSizes nitems32.toNat ⟨[], []⟩
  endAt inputLine
  pure (.ary (Open.outermost s.array s.outer))

/-- Everything was read inside the input, and pushed into an array that was not full. -/
structure Decoding.Inside (d : Decoding) : Prop where
  cur : d.cur ≤ inputLine.length
  reads : ∀ read ∈ d.reads, read.1 + read.2 ≤ inputLine.length
  pushes : ∀ push ∈ d.pushes, push.1 < push.2

/-- What is left to read. -/
def Decoding.cursor (d : Decoding) : Cursor := ⟨d.cur, inputLine.drop d.cur⟩

/-- Two runs end alike: with the same value at the same place, or with the same exception; and the one
stays inside. -/
def Agree {α : Type} (run : Except Stop α × Decoding) (run' : Except Stop α × Cursor) : Prop :=
  run.2.Inside inputLine ∧
    match run.1 with
    | .ok a => run' = (.ok a, run.2.cursor inputLine)
    | .error e => ∃ s, run' = (.error e, s)

/-- From inside the input the one does what the other does at its front. -/
def Follows {α : Type} (m : Method Stop Decoding α) (r : Reader Stop α) : Prop :=
  ∀ d : Decoding, d.Inside inputLine → Agree inputLine (m d) (r (d.cursor inputLine))

/-- The same behind a test for `n` bytes: the other has gone behind them. -/
def Ahead {α : Type} (n : Nat) (m : Method Stop Decoding α) (r : Reader Stop α) : Prop :=
  ∀ d : Decoding, d.Inside inputLine → d.cur + n ≤ inputLine.length →
    Agree inputLine (m d) (r ⟨d.cur + n, inputLine.drop (d.cur + n)⟩)

end Code

section Laws

variable {inputLine : Bytes} {α β : Type}

theorem Follows.pure (a : α) : Follows inputLine (Pure.pure a : Method Stop Decoding α) (Pure.pure a) :=
  fun _ inside => ⟨inside, rfl⟩

theorem Follows.raise (e : Stop) : Follows inputLine (Method.raise e : Method Stop Decoding α) (Method.raise e) :=
  fun _ inside => ⟨inside, _, rfl⟩

theorem Follows.ofExcept (x : Outcome α) :
    Follows inputLine (Method.ofExcept x : Method Stop Decoding α) (Method.ofExcept x) := by
  intro d inside
  cases x with
  | ok a => exact ⟨inside, rfl⟩
  | error e => exact ⟨inside, _, rfl⟩

/-- A sequence whose second part relies on what the first returns. -/
theorem Follows.bind_of {P : α → Prop} {m : Method Stop Decoding α} {r : Reader Stop α}
    {k : α → Method Stop Decoding β} {k' : α → Reader Stop β} (first : Follows inputLine m r)
    (known : ∀ s a s', r s = (.ok a, s') → P a) (next : ∀ a, P a → Follows inputLine (k a) (k' a)) :
    Follows inputLine (m >>= k) (r >>= k') := by
  intro d inside
  obtain ⟨within, same⟩ := first d inside
  cases run : m d with
  | mk result d' =>
    rw [run] at within same
    cases result with
    | ok a =>
      rw [Method.bind_ok run, Method.bind_ok same]
      exact next a (known _ _ _ same) d' within
    | error e =>
      obtain ⟨s, same⟩ := same
      rw [Method.bind_error run]
      exact ⟨within, s, Method.bind_error same⟩

theorem Follows.bind {m : Method Stop Decoding α} {r : Reader Stop α} {k : α → Method Stop Decoding β}
    {k' : α → Reader Stop β} (first : Follows inputLine m r) (next : ∀ a, Follows inputLine (k a) (k' a)) :
    Follows inputLine (m >>= k) (r >>= k') :=
  first.bind_of (P := fun _ => True) (fun _ _ _ _ => trivial) fun a _ => next a

/-- Something that is only recorded. -/
theorem Follows.record {f : Decoding → Decoding} {k : Unit → Method Stop Decoding β} {r : Reader Stop β}
    (stays : ∀ d : Decoding, d.Inside inputLine → (f d).Inside inputLine ∧ (f d).cur = d.cur)
    (next : Follows inputLine (k ()) r) : Follows inputLine (Method.change f >>= k) r := by
  intro d inside
  obtain ⟨within, same⟩ := stays d inside
  have later := next (f d) within
  have cursor : (f d).cursor inputLine = d.cursor inputLine := by rw [Decoding.cursor, same, Decoding.cursor]
  rw [cursor] at later
  exact later

theorem Ahead.raise {n : Nat} (e : Stop) : Ahead inputLine n (Method.raise e : Method Stop Decoding α) (Method.raise e) :=
  fun _ inside _ => ⟨inside, _, rfl⟩

theorem Ahead.skip {n : Nat} {k : Unit → Method Stop Decoding α} {r : Reader Stop α} (next : Follows inputLine (k ()) r) :
    Ahead inputLine n (Binary.skip n >>= k) r :=
  fun d inside enough => next ⟨d.cur + n, d.reads, d.pushes⟩ ⟨enough, inside.reads, inside.pushes⟩

theorem Ahead.skip_last {n : Nat} : Ahead inputLine n (Binary.skip n) (Pure.pure ()) :=
  fun _ inside enough => ⟨⟨enough, inside.reads, inside.pushes⟩, rfl⟩

/-- A test for `n` bytes, and what is done when there are as many. -/
theorem Follows.need {n : Nat} {k : Unit → Method Stop Decoding α} {k' : Bytes → Reader Stop α}
    (next : ∀ d : Decoding, d.Inside inputLine → d.cur + n ≤ inputLine.length →
      Agree inputLine (k () d) (k' ((inputLine.drop d.cur).take n) ⟨d.cur + n, inputLine.drop (d.cur + n)⟩)) :
    Follows inputLine (Binary.need inputLine n >>= k) (Reader.take arrayLengthError n >>= k') := by
  intro d inside
  have here := inside.cur
  by_cases few : inputLine.length < d.cur + n
  · have stops : Binary.need inputLine n d = (Except.error (arrayLengthError d.cur), d) := by
      apply if_pos
      omega
    have short : Reader.take arrayLengthError n (d.cursor inputLine) =
        (Except.error (arrayLengthError d.cur), d.cursor inputLine) := by
      apply if_pos
      left
      show (inputLine.drop d.cur).length < n
      rw [List.length_drop]
      omega
    rw [Method.bind_error stops]
    exact ⟨inside, _, Method.bind_error short⟩
  · have goes : Binary.need inputLine n d = (Except.ok (), d) := by
      apply if_neg
      omega
    have taken : Reader.take arrayLengthError n (d.cursor inputLine) =
        (Except.ok ((inputLine.drop d.cur).take n), ⟨d.cur + n, inputLine.drop (d.cur + n)⟩) := by
      rw [← List.drop_drop]
      apply if_neg
      rintro (short | refused)
      · apply few
        have left : (inputLine.drop d.cur).length < n := short
        rw [List.length_drop] at left
        omega
      · cases refused
    rw [Method.bind_ok goes, Method.bind_ok taken]
    exact next d inside (by omega)

/-- A test for `n` bytes, and a read of the first of them. -/
theorem Follows.take {n m : Nat} {k : Bytes → Method Stop Decoding α} {k' : Bytes → Reader Stop α} (few : m ≤ n)
    (next : ∀ bs : Bytes, Ahead inputLine n (k (bs.take m)) (k' bs)) :
    Follows inputLine (Binary.need inputLine n >>= fun _ => bytesAt inputLine m >>= k) (Reader.take arrayLengthError n >>= k') := by
  refine Follows.need fun d inside enough => ?_
  have later := next ((inputLine.drop d.cur).take n)
  rw [List.take_take, Nat.min_eq_left few] at later
  refine later ⟨d.cur, (d.cur, m) :: d.reads, d.pushes⟩ ⟨inside.cur, ?_, inside.pushes⟩ enough
  intro read member
  rcases List.mem_cons.1 member with rfl | member
  · show d.cur + m ≤ inputLine.length
    omega
  · exact inside.reads read member

/-- A test for `n` bytes, and a read of them all. -/
theorem Follows.take_all {n : Nat} {k : Bytes → Method Stop Decoding α} {k' : Bytes → Reader Stop α}
    (next : ∀ bs : Bytes, Ahead inputLine n (k bs) (k' bs)) :
    Follows inputLine (Binary.need inputLine n >>= fun _ => bytesAt inputLine n >>= k) (Reader.take arrayLengthError n >>= k') := by
  refine Follows.need fun d inside enough => ?_
  refine next _ ⟨d.cur, (d.cur, n) :: d.reads, d.pushes⟩ ⟨inside.cur, ?_, inside.pushes⟩ enough
  intro read member
  rcases List.mem_cons.1 member with rfl | member
  · exact enough
  · exact inside.reads read member

end Laws

section Steps

variable {inputLine : Bytes} {elem : Decoder}

theorem ndimAt_follows : Follows inputLine (ndimAt inputLine) readNdim := by
  refine Follows.take_all fun bs => ?_
  dsimp only
  by_cases unsupported : readNbo bs < 0 ∨ readNbo bs > maxDim
  · rw [if_pos unsupported, if_pos unsupported]
    exact .raise _
  · rw [if_neg unsupported, if_neg unsupported]
    exact .skip (.pure _)

theorem flagsAt_follows : Follows inputLine (flagsAt inputLine) readFlags := by
  refine Follows.take_all fun bs => ?_
  dsimp only
  by_cases unsupported : readNbo bs ≠ 0 ∧ readNbo bs ≠ 1
  · rw [if_pos unsupported, if_pos unsupported]
    exact .raise _
  · rw [if_neg unsupported, if_neg unsupported]
    exact .skip_last

theorem oidAt_follows {k : Bytes → Reader Stop Unit} (nothing : ∀ bs, k bs = pure ()) :
    Follows inputLine (oidAt inputLine) (take arrayLengthError 4 >>= k) := by
  refine Follows.need fun d inside enough => ?_
  rw [nothing]
  exact Ahead.skip_last d inside enough

theorem dimSizesAt_follows (n : Nat) (nitems32 : Int) :
    Follows inputLine (dimSizesAt inputLine n nitems32) (readDimSizes n nitems32) := by
  induction n generalizing nitems32 with
  | zero => exact .pure _
  | succ n ih =>
    refine Follows.take (by decide) fun bs => ?_
    dsimp only
    by_cases unsupported : readNbo (bs.take 4) < 0 ∨
        Int.bmod (nitems32 * readNbo (bs.take 4)) (2 ^ 32) ≠ nitems32 * readNbo (bs.take 4)
    · rw [if_pos unsupported, if_pos unsupported]
      exact .raise _
    · rw [if_neg unsupported, if_neg unsupported]
      have same := not_not.1 (not_or.1 unsupported).2
      rw [same]
      exact .skip (.bind (ih _) fun r => .pure _)

theorem elementAt_follows : Follows inputLine (elementAt inputLine elem) (field arrayLengthError .nil elem) := by
  refine Follows.take_all fun bs => .skip ?_
  by_cases negative : readNbo bs < 0
  · rw [if_pos negative, if_pos negative]
    by_cases other : readNbo bs ≠ -1
    · rw [if_pos other, if_pos other]
      exact fun d inside => ⟨inside, _, rfl⟩
    · rw [if_neg other, if_neg other]
      exact .pure _
  · rw [if_neg negative, if_neg negative]
    have size : readNbo bs = ((readNbo bs).toNat : Int) := (Int.toNat_of_nonneg (by omega)).symm
    rw [size, Int.toNat_natCast]
    exact Follows.take_all fun bytes => .skip (.ofExcept _)

end Steps

section Room

variable {dimSizes : List Nat}

/-- Each of the arrays above has room for the one that is open in it. -/
def Parents (dimSizes : List Nat) : List (List Value) → Prop
  | [] => True
  | parent :: outer => parent.length < dimSizes.getD outer.length 0 ∧ Parents dimSizes outer

/-- No array has more than its dimension, and one that is full is the outermost. -/
structure Open.Fits (dimSizes : List Nat) (s : Open) : Prop where
  depth : s.outer.length < dimSizes.length
  parents : Parents dimSizes s.outer
  array : s.array.length < dimSizes.getD s.outer.length 0 ∨ s.outer = [] ∧ s.array.length = dimSizes.getD 0 0

/-- How many elements still go into arrays with these lengths. -/
def slots (dimSizes : List Nat) : Nat → List Nat → Nat
  | length, [] => (dimSizes.getD 0 0 - length) * (dimSizes.drop 1).prod
  | length, parent :: outer =>
    (dimSizes.getD (outer.length + 1) 0 - length) * (dimSizes.drop (outer.length + 2)).prod +
      slots dimSizes (parent + 1) outer

/-- The same for the arrays that are being filled. -/
def Open.slots (dimSizes : List Nat) (s : Open) : Nat := Binary.slots dimSizes s.array.length (s.outer.map List.length)

/-- What comes into an array takes the place of its elements. -/
theorem slots_succ {length : Nat} {outer : List Nat} (room : length < dimSizes.getD outer.length 0) :
    slots dimSizes (length + 1) outer + (dimSizes.drop (outer.length + 1)).prod = slots dimSizes length outer := by
  have one : dimSizes.getD outer.length 0 - length = dimSizes.getD outer.length 0 - (length + 1) + 1 := by omega
  cases outer with
  | nil =>
    simp only [List.length_nil] at one
    rw [slots, slots, one, Nat.succ_mul, List.length_nil]
  | cons parent outer =>
    simp only [List.length_cons] at one
    have next : (parent :: outer).length + 1 = outer.length + 2 := by rw [List.length_cons]
    rw [slots, slots, one, Nat.succ_mul, next]
    omega

/-- A full array has no place left. -/
theorem slots_full {length parent : Nat} {outer : List Nat} (full : dimSizes.getD (outer.length + 1) 0 ≤ length) :
    slots dimSizes length (parent :: outer) = slots dimSizes (parent + 1) outer := by
  rw [slots, Nat.sub_eq_zero_of_le full, Nat.zero_mul, Nat.zero_add]

theorem prod_drop {i : Nat} (inside : i < dimSizes.length) :
    (dimSizes.drop i).prod = dimSizes.getD i 0 * (dimSizes.drop (i + 1)).prod := by
  rw [List.drop_eq_getElem_cons inside, List.prod_cons, List.getD_eq_getElem?_getD, List.getElem?_eq_getElem inside]
  rfl

/-- A sub-array that is begun has the places of one element of its parent. -/
theorem slots_begin {length : Nat} {outer : List Nat} (room : length < dimSizes.getD outer.length 0)
    (below : outer.length + 1 < dimSizes.length) : slots dimSizes 0 (length :: outer) = slots dimSizes length outer := by
  rw [slots, Nat.sub_zero, ← prod_drop below, ← slots_succ room]
  exact Nat.add_comm _ _

theorem slots_start (dimSizes : List Nat) (some : 0 < dimSizes.length) : slots dimSizes 0 [] = dimSizes.prod := by
  rw [slots, Nat.sub_zero, ← prod_drop some, List.drop_zero]

/-- As long as there is a place, the open array has room. -/
theorem Open.Fits.room {s : Open} (fits : s.Fits dimSizes) (left : 0 < s.slots dimSizes) :
    s.array.length < dimSizes.getD s.outer.length 0 := by
  rcases fits.array with room | ⟨outermost, full⟩
  · exact room
  · obtain ⟨array, outer⟩ := s
    subst outermost
    rw [Open.slots, List.map_nil, Binary.slots, full, Nat.sub_self, Nat.zero_mul] at left
    exact absurd left (Nat.lt_irrefl 0)

/-- Up to the array that goes on, nothing gets more than it has room for. -/
theorem Open.up_fits {array : List Value} {outer : List (List Value)} (depth : outer.length < dimSizes.length)
    (parents : Parents dimSizes outer) (room : array.length ≤ dimSizes.getD outer.length 0) :
    (Open.up dimSizes array outer).Fits dimSizes ∧
      (Open.up dimSizes array outer).slots dimSizes = Binary.slots dimSizes array.length (outer.map List.length) := by
  induction outer generalizing array with
  | nil =>
    refine ⟨⟨depth, trivial, ?_⟩, rfl⟩
    rcases Nat.lt_or_eq_of_le room with less | full
    · exact .inl less
    · exact .inr ⟨rfl, full⟩
  | cons parent outer ih =>
    rw [List.length_cons] at depth room
    by_cases full : array.length ≥ dimSizes.getD (outer.length + 1) 0
    · have closed : Open.up dimSizes array (parent :: outer) = Open.up dimSizes (parent ++ [.ary array]) outer := if_pos full
      have more : (parent ++ [Value.ary array]).length ≤ dimSizes.getD outer.length 0 := by
        rw [List.length_append, List.length_singleton]
        exact parents.1
      obtain ⟨fits, count⟩ := ih (Nat.lt_of_succ_lt depth) parents.2 more
      refine ⟨closed ▸ fits, ?_⟩
      rw [closed, count, List.map_cons, slots_full (by rwa [List.length_map]), List.length_append, List.length_singleton]
    · have stays : Open.up dimSizes array (parent :: outer) = ⟨array, parent :: outer⟩ := if_neg full
      rw [stays]
      exact ⟨⟨depth, parents, .inl (Nat.lt_of_not_le full)⟩, rfl⟩

end Room

section Loop

variable {inputLine : Bytes} {elem : Decoder} {dimSizes : List Nat}

/-- A push into an array with room for it is recorded. -/
theorem Follows.push {α : Type} {array : List Value} {dim : Nat} {k : Unit → Method Stop Decoding α} {r : Reader Stop α}
    (room : array.length < dimSizes.getD dim 0) (next : Follows inputLine (k ()) r) :
    Follows inputLine (rbAryPush dimSizes array dim >>= k) r := by
  refine .record (fun d inside => ⟨⟨inside.cur, inside.reads, ?_⟩, rfl⟩) next
  intro push member
  rcases List.mem_cons.1 member with rfl | member
  · exact room
  · exact inside.pushes push member

/-- On the way down every array that is begun has its place in its parent. -/
theorem downAt_follows {α : Type} {k : Open → Method Stop Decoding α} {r : Reader Stop α} (positive : ∀ n ∈ dimSizes, 0 < n)
    (below : Nat) {s : Open} (depth : s.outer.length + below < dimSizes.length) (parents : Parents dimSizes s.outer)
    (room : s.array.length < dimSizes.getD s.outer.length 0)
    (next : ∀ s', s' = s.down below → Parents dimSizes s'.outer → s'.array.length < dimSizes.getD s'.outer.length 0 →
      s'.outer.length = s.outer.length + below → s'.slots dimSizes = s.slots dimSizes → Follows inputLine (k s') r) :
    Follows inputLine (downAt dimSizes below s >>= k) r := by
  induction below generalizing s with
  | zero => exact next s rfl parents room rfl rfl
  | succ below ih =>
    have assoc : downAt dimSizes (below + 1) s >>= k =
        rbAryPush dimSizes s.array s.outer.length >>= fun _ => downAt dimSizes below ⟨[], s.array :: s.outer⟩ >>= k :=
      bind_assoc _ _ _
    have inside : (s.array :: s.outer).length < dimSizes.length := by
      rw [List.length_cons]
      omega
    have filled : 0 < dimSizes.getD (s.array :: s.outer).length 0 := by
      apply positive
      rw [List.getD_eq_getElem?_getD, List.getElem?_eq_getElem inside]
      exact List.getElem_mem inside
    rw [assoc]
    refine .push room (ih (s := ⟨[], s.array :: s.outer⟩) ?_ ⟨room, parents⟩ filled ?_)
    · show (s.array :: s.outer).length + below < dimSizes.length
      rw [List.length_cons]
      omega
    · intro s' same parents' room' depth' count
      apply next s' same parents' room'
      · rw [depth', List.length_cons]
        omega
      · rw [count]
        exact slots_begin (by rwa [List.length_map]) (by rwa [List.length_map])

/-- **The loop over the elements** follows the one over the front of the input, as long as there are places
for the elements. -/
theorem elementsAt_follows (positive : ∀ n ∈ dimSizes, 0 < n) (n : Nat) {s : Open} (fits : s.Fits dimSizes)
    (enough : n ≤ s.slots dimSizes) :
    Follows inputLine (elementsAt inputLine elem dimSizes n s) (readElements elem dimSizes n s) := by
  induction n generalizing s with
  | zero => exact .pure s
  | succ n ih =>
    have room := fits.room (Nat.lt_of_lt_of_le (Nat.succ_pos n) enough)
    have depth := fits.depth
    refine downAt_follows positive (dimSizes.length - 1 - s.outer.length) (by omega) fits.parents room ?_
    intro s' same parents' room' depth' count
    refine .bind elementAt_follows fun element => .push room' ?_
    have pushed : s.push dimSizes element = Open.up dimSizes (s'.array ++ [element]) s'.outer := by rw [Open.push, ← same]
    have innermost : s'.outer.length + 1 = dimSizes.length := by omega
    have more : (s'.array ++ [element]).length ≤ dimSizes.getD s'.outer.length 0 := by
      rw [List.length_append, List.length_singleton]
      exact room'
    obtain ⟨fits', left⟩ := Open.up_fits (by omega) parents' more
    rw [pushed]
    apply ih fits'
    have place : s'.array.length < dimSizes.getD (s'.outer.map List.length).length 0 := by rwa [List.length_map]
    have one := slots_succ place
    rw [List.length_map, innermost, List.drop_length, List.prod_nil] at one
    rw [left, List.length_append, List.length_singleton]
    rw [Open.slots] at count
    omega

end Loop

end RubyPg.Binary
