import Mathlib.Algebra.BigOperators.Group.List.Basic
import RubyPg.TwoPass.ArrayWalk
import RubyPg.TwoPass.Overflow

/-!
# The shape `pg_bin_enc_array` accepts

The dimensions are taken from the first elements, down to the first one that is not an array. The walk
of the first call compares every array down to there with them, but hands what it finds below to the
element encoder, which takes an array as well. So a nested array that is not rectangular is refused,
unless the only thing wrong with it is an array among the items of the innermost dimension
(`refused_iff`).
-/

namespace RubyPg.TwoPass
set_option autoImplicit false

/-- `TYPE(v) == T_ARRAY`. -/
def IsArray : Value → Prop
  | .ary _ => True
  | _ => False

/-- Arrays with these sizes, one depth below the other, whatever the innermost ones hold. -/
def Layered : List Nat → Value → Prop
  | [], _ => True
  | size :: below, v => ∃ xs, v = .ary xs ∧ xs.length = size ∧ ∀ x ∈ xs, Layered below x

/-- What stands at a depth, in row-major order. -/
def itemsAt : Nat → Value → List Value
  | 0, v => [v]
  | depth + 1, .ary xs => xs.flatMap (itemsAt depth)
  | _ + 1, _ => []

/-- A nested array of one shape: the arrays of a depth have one size, and below the innermost ones is
no array. -/
def Rectangular (v : Value) : Prop :=
  ∃ dims, dims ≠ [] ∧ Layered dims v ∧ ∀ x ∈ itemsAt dims.length v, ¬IsArray x

/-- A nested array of at most six dimensions with an array among the innermost items, but not as the
first of them. -/
def Frayed (v : Value) : Prop :=
  ∃ dims, dims ≠ [] ∧ dims.length ≤ 6 ∧ Layered dims v ∧
    ∃ first items, itemsAt dims.length v = first :: items ∧ ¬IsArray first ∧ ∃ x ∈ items, IsArray x

/-- The outcome is an `ArgumentError`. -/
def Refuses {α : Type} (outcome : Outcome α) : Prop := ∃ msg, outcome = .error (.exn .argumentError msg)

theorem Refuses.bind {α β : Type} {x : Outcome α} (refuses : Refuses x) (f : α → Outcome β) : Refuses (x >>= f) := by
  obtain ⟨msg, rfl⟩ := refuses
  exact ⟨msg, rfl⟩

theorem Refuses.not_ok {α : Type} {a : α} : ¬Refuses (Except.ok a : Outcome α) := by
  rintro ⟨msg, refused⟩
  cases refused

section Walk

variable {api : CApi} {elem : EncFunc}

/-- The items of an innermost array are encoded, arrays or not. -/
theorem firstLeaves_ok (total : ∀ v, ∃ answer, elem v = .ok answer) (items : List Value) :
    ∃ r, firstLeaves elem items = .ok r := by
  induction items with
  | nil => exact ⟨(0, []), rfl⟩
  | cons item items ih =>
    obtain ⟨⟨size, answers⟩, rest⟩ := ih
    by_cases null : item = .nil
    · subst null
      rw [firstLeaves_nil, rest]
      exact ⟨_, rfl⟩
    · obtain ⟨answer, encoded⟩ := total item
      rw [firstLeaves_cons null, encoded, rest]
      exact ⟨_, rfl⟩

/-- The outcome tells whether something holds: it is a value if so, and else an `ArgumentError`. -/
def Decides {α : Type} (p : Prop) (outcome : Outcome α) : Prop := p ∧ (∃ r, outcome = .ok r) ∨ ¬p ∧ Refuses outcome

theorem checkSubArray_decides (dim size : Nat) (v : Value) :
    Decides (∃ xs, v = .ary xs ∧ xs.length = size) (checkSubArray api dim size v) := by
  cases v with
  | ary xs =>
    by_cases same : size = xs.length
    · refine .inl ⟨⟨xs, rfl, same.symm⟩, (), ?_⟩
      rw [checkSubArray, if_neg (not_not.2 same)]
      rfl
    · refine .inr ⟨?_, ?_⟩
      · rintro ⟨xs', equal, length⟩
        cases equal
        exact same length.symm
      · rw [checkSubArray, if_pos same]
        exact ⟨_, rfl⟩
  | _ =>
    refine .inr ⟨?_, ⟨_, rfl⟩⟩
    rintro ⟨xs, equal, -⟩
    cases equal

/-- All sub-arrays are walked, if the check and the walk of each of them decide its shape. -/
theorem firstSubs_decides {check : Value → Outcome Unit} {walk : Value → Outcome (Nat × List Answer)}
    {sized below : Value → Prop} (checks : ∀ v, Decides (sized v) (check v))
    (walks : ∀ v, sized v → Decides (below v) (walk v)) (subs : List Value) :
    Decides (∀ x ∈ subs, sized x ∧ below x) (firstSubs check walk subs) := by
  induction subs with
  | nil => exact .inl ⟨fun x member => absurd member List.not_mem_nil, _, rfl⟩
  | cons sub subs ih =>
    rw [firstSubs]
    rcases checks sub with ⟨size, u, checked⟩ | ⟨size, refused⟩
    · rw [checked]
      rcases walks sub size with ⟨shape, r, walked⟩ | ⟨shape, refused⟩
      · show Decides _ (walk sub >>= fun first => _)
        rw [walked]
        rcases ih with ⟨rest, r', walked'⟩ | ⟨rest, refused⟩
        · refine .inl ⟨?_, ?_⟩
          · intro x member
            rcases List.mem_cons.1 member with rfl | member
            · exact ⟨size, shape⟩
            · exact rest x member
          · show ∃ r, (firstSubs check walk subs >>= fun later => _) = .ok r
            rw [walked']
            exact ⟨_, rfl⟩
        · refine .inr ⟨?_, refused.bind _⟩
          intro all
          exact rest fun x member => all x (List.mem_cons_of_mem sub member)
      · refine .inr ⟨?_, refused.bind _⟩
        intro all
        exact shape (all sub List.mem_cons_self).2
    · refine .inr ⟨?_, refused.bind _⟩
      intro all
      exact size (all sub List.mem_cons_self).1

/-- The walk of the first call decides whether the array has the dimensions all over. -/
theorem firstWalk_decides (total : ∀ v, ∃ answer, elem v = .ok answer) (below : List Nat) (dim : Nat) {xs : List Value} :
    Decides (Layered (xs.length :: below) (.ary xs)) (firstWalk api elem dim (xs.length :: below) (.ary xs)) := by
  induction below generalizing dim xs with
  | nil => exact .inl ⟨⟨xs, rfl, rfl, fun _ _ => trivial⟩, firstLeaves_ok total _⟩
  | cons next below ih =>
    have walks : ∀ v, (∃ ys, v = .ary ys ∧ ys.length = next) →
        Decides (Layered (next :: below) v) (firstWalk api elem (dim + 1) (next :: below) v) := by
      rintro v ⟨ys, rfl, rfl⟩
      exact ih (dim + 1)
    have checks : ∀ v, Decides (∃ ys, v = .ary ys ∧ ys.length = next) (checkSubArray api dim next v) :=
      checkSubArray_decides dim next
    have subs := firstSubs_decides checks walks (entries (.ary xs) xs.length)
    have shape : Layered (xs.length :: next :: below) (.ary xs) ↔
        ∀ x ∈ xs, (∃ ys, x = .ary ys ∧ ys.length = next) ∧ Layered (next :: below) x := by
      constructor
      · rintro ⟨xs', same, -, inner⟩ x member
        cases same
        obtain ⟨ys, rfl, length, deeper⟩ := inner x member
        exact ⟨⟨ys, rfl, length⟩, ys, rfl, length, deeper⟩
      · intro all
        exact ⟨xs, rfl, rfl, fun x member => (all x member).2⟩
    rw [shape]
    rw [entries_self] at subs
    have unfolded : firstWalk api elem dim (xs.length :: next :: below) (.ary xs) =
        firstSubs (checkSubArray api dim next) (firstWalk api elem (dim + 1) (next :: below))
          (entries (.ary xs) xs.length) := rfl
    rw [unfolded, entries_self]
    exact subs

end Walk

section Dims

theorem itemsAt_ary (depth : Nat) (xs : List Value) : itemsAt (depth + 1) (.ary xs) = xs.flatMap (itemsAt depth) := rfl

/-- The items are as many as the dimensions say. -/
theorem Layered.items {dims : List Nat} {v : Value} (layered : Layered dims v) :
    (itemsAt dims.length v).length = dims.prod := by
  induction dims generalizing v with
  | nil => rfl
  | cons size below ih =>
    obtain ⟨xs, rfl, rfl, inner⟩ := layered
    have each : xs.map (fun x => (itemsAt below.length x).length) = List.replicate xs.length below.prod := by
      rw [List.map_eq_replicate_iff]
      exact fun x member => ih (inner x member)
    rw [List.length_cons, itemsAt_ary, List.length_flatMap, each, List.sum_replicate, List.prod_cons]
    rfl

/-- The first items of an array of arrays are those of its first array. -/
theorem Layered.head {below : List Nat} {x : Value} {rest : List Value} {size : Nat}
    (layered : Layered (size :: below) (.ary (x :: rest))) :
    Layered below x ∧ (itemsAt (below.length + 1) (.ary (x :: rest))).head? = (itemsAt below.length x).head? := by
  obtain ⟨xs, same, -, inner⟩ := layered
  cases same
  have first := inner x List.mem_cons_self
  refine ⟨first, ?_⟩
  rw [itemsAt_ary, List.flatMap_cons]
  cases here : itemsAt below.length x with
  | nil =>
    have empty : below.prod = 0 := by rw [← first.items, here, List.length_nil]
    have others : rest.flatMap (itemsAt below.length) = [] := by
      rw [List.flatMap_eq_nil_iff]
      intro y member
      rw [← List.length_eq_zero_iff, (inner y (List.mem_cons_of_mem x member)).items, empty]
    rw [others]
    rfl
  | cons first' others => rfl

/-- The first element is an array, or no dimension follows. -/
theorem nextDim_cases (ndim : Nat) (xs : List Value) :
    (∃ ys rest, xs = .ary ys :: rest ∧ nextDim none ndim xs = some ys) ∨
      nextDim none ndim xs = none ∧ ∀ x rest, xs = x :: rest → ¬IsArray x := by
  cases xs with
  | nil => exact .inr ⟨rfl, fun x rest same => nomatch same⟩
  | cons x rest =>
    cases x with
    | ary ys => exact .inl ⟨ys, rest, rfl, rfl⟩
    | _ =>
      refine .inr ⟨rfl, ?_⟩
      intro x rest' same isArray
      cases same
      exact isArray

section Sizes

variable {dimensions : Option Nat} {room ndim : Nat} {xs : List Value}

theorem dimSizes_last (last : nextDim dimensions ndim xs = none) : dimSizes dimensions room ndim xs = .ok [xs.length] := by
  cases room with
  | zero =>
    unfold dimSizes
    rw [last]
    rfl
  | succ room =>
    unfold dimSizes
    rw [last]
    rfl

theorem dimSizes_deep {ys : List Value} (next : nextDim dimensions ndim xs = some ys) :
    Refuses (dimSizes dimensions 0 ndim xs) := by
  unfold dimSizes
  rw [next]
  exact ⟨_, rfl⟩

theorem dimSizes_next {ys : List Value} (next : nextDim dimensions ndim xs = some ys) :
    dimSizes dimensions (room + 1) ndim xs = (do pure (xs.length :: (← dimSizes dimensions room (ndim + 1) ys))) := by
  conv_lhs => unfold dimSizes
  rw [next]

end Sizes

/-- The first item at the depth of the innermost dimension is not an array. -/
def StopsAt (dims : List Nat) (v : Value) : Prop := ∀ x, (itemsAt dims.length v).head? = some x → ¬IsArray x

theorem stopsAt_one {xs : List Value} (last : ∀ x rest, xs = x :: rest → ¬IsArray x) : StopsAt [xs.length] (.ary xs) := by
  intro x head
  cases xs with
  | nil => cases head
  | cons y rest =>
    cases head
    exact last _ rest rfl

/-- The loop over the first elements ends at an item that is not an array, or refuses a seventh
dimension. -/
theorem dimSizes_stops (room ndim : Nat) (xs : List Value) :
    Refuses (dimSizes none room ndim xs) ∨
      ∃ below, dimSizes none room ndim xs = .ok (xs.length :: below) ∧ below.length ≤ room ∧
        (Layered (xs.length :: below) (.ary xs) → StopsAt (xs.length :: below) (.ary xs)) := by
  induction room generalizing ndim xs with
  | zero =>
    rcases nextDim_cases ndim xs with ⟨ys, rest, rfl, next⟩ | ⟨none, last⟩
    · exact .inl (dimSizes_deep next)
    · exact .inr ⟨[], dimSizes_last none, le_rfl, fun _ => stopsAt_one last⟩
  | succ room ih =>
    rcases nextDim_cases ndim xs with ⟨ys, rest, rfl, next⟩ | ⟨none, last⟩
    · rw [dimSizes_next next]
      rcases ih (ndim + 1) ys with refused | ⟨below, found, few, stops⟩
      · exact .inl (refused.bind _)
      · refine .inr ⟨ys.length :: below, ?_, Nat.succ_le_succ few, ?_⟩
        · rw [found]
          rfl
        · intro layered
          obtain ⟨first, same⟩ := layered.head
          intro x head
          apply stops first x
          rw [← same]
          exact head
    · exact .inr ⟨[], dimSizes_last none, Nat.zero_le _, fun _ => stopsAt_one last⟩

/-- It finds the dimensions of an array whose innermost items begin with one that is not an array. -/
theorem dimSizes_layered {below : List Nat} {room ndim : Nat} {xs : List Value} {first : Value}
    (layered : Layered (xs.length :: below) (.ary xs)) (few : below.length ≤ room)
    (head : (itemsAt (below.length + 1) (.ary xs)).head? = some first) (last : ¬IsArray first) :
    dimSizes none room ndim xs = .ok (xs.length :: below) := by
  induction below generalizing room ndim xs with
  | nil =>
    apply dimSizes_last
    rcases nextDim_cases ndim xs with ⟨ys, rest, rfl, -⟩ | ⟨none, -⟩
    · cases head
      exact absurd trivial last
    · exact none
  | cons size below ih =>
    obtain ⟨room, rfl⟩ := Nat.exists_eq_add_of_lt (Nat.lt_of_lt_of_le (Nat.succ_pos _) few)
    rw [Nat.zero_add] at few ⊢
    cases xs with
    | nil => cases head
    | cons x rest =>
      obtain ⟨inner, same⟩ := layered.head
      obtain ⟨ys, rfl, rfl, deeper⟩ := inner
      rw [dimSizes_next rfl, ih ⟨ys, rfl, rfl, deeper⟩ (Nat.le_of_succ_le_succ few) (same ▸ head)]
      rfl

/-- The dimensions on the way to an item that is not an array are those of a rectangular array. -/
theorem Layered.unique {dims dims' : List Nat} {v first : Value} (layered : Layered dims v)
    (head : (itemsAt dims.length v).head? = some first) (last : ¬IsArray first) (layered' : Layered dims' v)
    (flat : ∀ x ∈ itemsAt dims'.length v, ¬IsArray x) : dims = dims' := by
  induction dims generalizing dims' v with
  | nil =>
    cases head
    cases dims' with
    | nil => rfl
    | cons size below =>
      obtain ⟨xs, rfl, -⟩ := layered'
      exact absurd trivial last
  | cons size below ih =>
    obtain ⟨xs, rfl, rfl, inner⟩ := layered
    cases dims' with
    | nil => exact absurd trivial (flat _ List.mem_cons_self)
    | cons size' below' =>
      obtain ⟨xs', same, rfl, inner'⟩ := layered'
      cases same
      cases xs with
      | nil => cases head
      | cons x rest =>
        obtain ⟨first', same⟩ := Layered.head ⟨x :: rest, rfl, rfl, inner⟩
        have deeper : below = below' := by
          apply ih first' (same ▸ head) (inner' x List.mem_cons_self)
          intro y member
          apply flat y
          rw [List.length_cons, itemsAt_ary, List.flatMap_cons]
          exact List.mem_append_left _ member
        rw [deeper]

end Dims

section Refusal

/-- A frayed array is not rectangular. -/
theorem Frayed.not_rectangular {v : Value} (frayed : Frayed v) : ¬Rectangular v := by
  rintro ⟨dims', -, layered', flat⟩
  obtain ⟨dims, -, -, layered, first, items, found, last, x, member, isArray⟩ := frayed
  have same := layered.unique (by rw [found]; rfl) last layered' flat
  subst same
  rw [found] at flat
  exact flat x (List.mem_cons_of_mem first member) isArray

/-- **Non-rectangular arrays are refused** by the binary array encoder with string elements and no
number of dimensions, exactly if it is not only an array among the innermost items that is wrong. -/
theorem refused_iff (api : CApi) (oid : Nat) (xs : List Value) :
    (¬Rectangular (.ary xs) → Refuses (pgBinEncArrayLoops api (pgCoderEncToS api) none oid (.ary xs))) ↔
      ¬Frayed (.ary xs) := by
  have total : ∀ v, ∃ answer, pgCoderEncToS api v = .ok answer := fun v => ⟨_, rfl⟩
  rw [pgBinEncArrayLoops_eq]
  constructor
  · intro refuses frayed
    have refused := refuses frayed.not_rectangular
    obtain ⟨dims, deep, few, layered, first, items, found, last, -⟩ := frayed
    obtain ⟨size, below, rfl⟩ := List.exists_cons_of_ne_nil deep
    obtain ⟨xs', same, rfl, inner⟩ := layered
    cases same
    have filled : xs ≠ [] := by
      rintro rfl
      cases found
    have sizes : arrayDims none xs = .ok (xs.length :: below) := by
      have head : (itemsAt (below.length + 1) (.ary xs)).head? = some first := by
        rw [← List.length_cons, found]
        rfl
      rw [arrayDims, foundDims, if_neg filled,
        dimSizes_layered ⟨xs, rfl, rfl, inner⟩ (Nat.le_of_succ_le_succ few) head last]
      rfl
    rw [pgBinEncArray, sizes] at refused
    rcases firstWalk_decides total below 0 with ⟨-, r, walked⟩ | ⟨shape, -⟩
    · have accepted : ∃ answer, pgBinEncArray api (pgCoderEncToS api) none oid (.ary xs) = .ok answer := by
        rw [pgBinEncArray, sizes]
        show ∃ answer, (firstWalk api (pgCoderEncToS api) 0 (xs.length :: below) (.ary xs) >>= fun _ => _) = .ok answer
        rw [walked]
        exact ⟨_, rfl⟩
      obtain ⟨answer, accepted⟩ := accepted
      rw [pgBinEncArray, sizes] at accepted
      rw [accepted] at refused
      exact refused.not_ok
    · exact shape ⟨xs, rfl, rfl, inner⟩
  · intro plain ragged
    rw [pgBinEncArray]
    have filled : xs ≠ [] := by
      rintro rfl
      exact ragged ⟨[0], List.cons_ne_nil _ _, ⟨[], rfl, rfl, List.forall_mem_nil _⟩, List.forall_mem_nil _⟩
    rcases dimSizes_stops 5 1 xs with refused | ⟨below, found, few, stops⟩
    · refine Refuses.bind ?_ _
      rw [arrayDims, foundDims, if_neg filled]
      exact refused.bind _
    · have sizes : arrayDims none xs = .ok (xs.length :: below) := by
        rw [arrayDims, foundDims, if_neg filled, found]
        rfl
      rw [sizes]
      rcases firstWalk_decides total below 0 with ⟨layered, -⟩ | ⟨-, refused⟩
      · refine absurd ?_ plain
        have uneven : ∃ x ∈ itemsAt (xs.length :: below).length (.ary xs), IsArray x := by
          by_contra none
          push Not at none
          exact ragged ⟨_, List.cons_ne_nil _ _, layered, none⟩
        obtain ⟨x, member, isArray⟩ := uneven
        cases items : itemsAt (xs.length :: below).length (.ary xs) with
        | nil =>
          rw [items] at member
          cases member
        | cons first others =>
          have last := stops layered first (by rw [items]; rfl)
          rw [items] at member
          refine ⟨_, List.cons_ne_nil _ _, Nat.succ_le_succ few, layered, first, others, items, last, x, ?_, isArray⟩
          rcases List.mem_cons.1 member with rfl | behind
          · exact absurd isArray last
          · exact behind
      · exact refused.bind _

/-- A Ruby in which every object that is neither a String nor an Integer is inspected as `["b"]`. -/
def inspecting : CApi := { CApi.sample with toS := fun _ => [0x5b, 0x22, 0x62, 0x22, 0x5d] }

/-- `["a", ["b"]]` is not rectangular, and is encoded as one dimension of two strings. -/
theorem mixed_not_refused :
    ¬Rectangular (.ary [.str [0x61], .ary [.str [0x62]]]) ∧
      ∃ second, pgBinEncArrayLoops inspecting (pgCoderEncToS inspecting) none 25 (.ary [.str [0x61], .ary [.str [0x62]]]) =
        .ok (.size 34 second) := by
  constructor
  · apply Frayed.not_rectangular
    refine ⟨[2], by decide, by decide, ⟨_, rfl, rfl, fun _ _ => trivial⟩, .str [0x61], [.ary [.str [0x62]]], rfl, id, ?_⟩
    exact ⟨_, List.mem_cons_self, trivial⟩
  · exact ⟨_, rfl⟩

end Refusal

end RubyPg.TwoPass
