import Mathlib.Algebra.Order.BigOperators.Ring.List
import Mathlib.Algebra.Order.Ring.Nat
import Mathlib.Logic.Function.Basic

/-!
# Walks over nested arrays without a recursion

C code that visits the innermost arrays of nested arrays with a vector of positions: down along the
positions to an innermost array, and then up to the next array that has a sibling left. `walk_eq`
says that such a walk is the recursion over the dimensions (`visit`), and how many rounds of the
loop it takes.
-/

namespace RubyPg
set_option autoImplicit false

/-- The element at a position, when the list from there on is known. -/
theorem drop_cons {α : Type} {xs rest : List α} {i : Nat} {x : α} (here : xs.drop i = x :: rest) :
    i < xs.length ∧ (∀ d, xs.getD i d = x) ∧ xs.drop (i + 1) = rest := by
  have inside : i < xs.length := by
    apply Nat.lt_of_not_le
    intro short
    rw [List.drop_eq_nil_iff.2 short] at here
    cases here
  rw [List.drop_eq_getElem_cons inside, List.cons.injEq] at here
  refine ⟨inside, ?_, here.2⟩
  intro d
  rw [List.getD_eq_getElem?_getD, List.getElem?_eq_getElem inside, here.1]
  rfl

/-- Where a walk stands: the positions `dimpos`, the array `arrays[dim]` and those above it,
`arrays[dim - 1]` to `arrays[0]`. What is below `arrays[dim]` is not looked at any more. -/
structure Place (α : Type) where
  dimpos : Nat → Nat
  array : α
  outer : List α

/-- `dim`. -/
def Place.dim {α : Type} (p : Place α) : Nat := p.outer.length

/-- What a walk does. -/
structure Walker (m : Type → Type) (α : Type) where
  entry : α → Nat → α
  /-- The sizes of the dimensions, less that of the innermost one. -/
  levels : List Nat
  /-- What is done on the way down with a sub-array of the array of dimension `dim`. -/
  enter : Nat → α → m Unit
  /-- What is done with an innermost array. -/
  leaf : α → m Unit
  /-- For a loop that does not end. -/
  tired : m Unit

namespace Walker

section Code

variable {m : Type → Type} {α : Type} [Monad m] (w : Walker m α)

/-- `while (dim < ndim - 1)` go down; so many dimensions are below. -/
def descend : Nat → Place α → m (Place α)
  | 0, p => pure p
  | below + 1, p => do
    let array := w.entry p.array (p.dimpos p.dim)
    w.enter p.dim array
    descend below ⟨p.dimpos, array, p.array :: p.outer⟩

/-- `do { if (dim > 0) { dimpos[dim] = 0; dim--; dimpos[dim]++; } else goto finished; }
while (dimpos[dim] >= dim_sizes[dim])`. -/
def climb (levels : List Nat) : (Nat → Nat) → List α → Option (Place α)
  | _, [] => none
  | dimpos, array :: outer =>
    let dim := outer.length
    let dimpos := Function.update dimpos (dim + 1) 0
    let dimpos := Function.update dimpos dim (dimpos dim + 1)
    if levels.getD dim 0 ≤ dimpos dim then climb levels dimpos outer else some ⟨dimpos, array, outer⟩

/-- `while (1)` go down, do what is to be done with the innermost array, and go up. -/
def walk : Nat → Place α → m Unit
  | 0, _ => w.tired
  | fuel + 1, p => do
    let p ← w.descend (w.levels.length - p.dim) p
    w.leaf p.array
    match climb w.levels p.dimpos p.outer with
    | some p => walk fuel p
    | none => pure ()

/-- The walk over an array. -/
def run (fuel : Nat) (array : α) : m Unit := w.walk fuel ⟨fun _ => 0, array, []⟩

/-- The recursion over the dimensions. -/
def visit : List Nat → Nat → α → m Unit
  | [], _, array => w.leaf array
  | size :: below, dim, array =>
    ((List.range size).map (w.entry array)).forM fun sub => do
      w.enter dim sub
      visit below (dim + 1) sub

/-- The innermost arrays, in the order of the recursion. -/
def innermost : List Nat → α → List α
  | [], array => [array]
  | size :: below, array => ((List.range size).map (w.entry array)).flatMap (innermost below)

/-- Nothing happens on the way down. -/
def Passes : List Nat → Nat → α → Prop
  | [], _, _ => True
  | size :: below, dim, array =>
    ∀ i, i < size → w.enter dim (w.entry array i) = pure () ∧ Passes below (dim + 1) (w.entry array i)

/-- What a walk goes on with when an array is done. -/
def resume (fuel : Nat) (dimpos : Nat → Nat) (outer : List α) : m Unit :=
  match climb w.levels dimpos outer with
  | some p => w.walk fuel p
  | none => pure ()

end Code

section Laws

variable {m : Type → Type} {α : Type} [Monad m] {w : Walker m α} {dimpos : Nat → Nat} {array : α} {outer : List α}
  {fuel : Nat}

/-- The way up begins with a reset of the position it comes from. -/
theorem climb_update (levels : List Nat) (dimpos : Nat → Nat) (outer : List α) (i : Nat) :
    climb levels (Function.update dimpos outer.length i) outer = climb levels dimpos outer := by
  cases outer with
  | nil => rfl
  | cons array outer => simp only [climb, List.length_cons, Function.update_idem]

/-- The last sub-array of an array is done, and with it the array. -/
theorem resume_last (last : w.levels.getD outer.length 0 ≤ dimpos outer.length + 1)
    (clear : dimpos (outer.length + 1) = 0) : w.resume fuel dimpos (array :: outer) = w.resume fuel dimpos outer := by
  have same : Function.update dimpos (outer.length + 1) 0 = dimpos := by
    rw [← clear]
    exact Function.update_eq_self _ _
  simp only [resume, climb, same, Function.update_self, climb_update, if_pos last]

/-- A sub-array with a sibling is done. -/
theorem resume_next (more : dimpos outer.length + 1 < w.levels.getD outer.length 0)
    (clear : dimpos (outer.length + 1) = 0) :
    w.resume fuel dimpos (array :: outer) =
      w.walk fuel ⟨Function.update dimpos outer.length (dimpos outer.length + 1), array, outer⟩ := by
  have same : Function.update dimpos (outer.length + 1) 0 = dimpos := by
    rw [← clear]
    exact Function.update_eq_self _ _
  simp only [resume, climb, same, Function.update_self, if_neg (Nat.not_le_of_lt more)]

variable [LawfulMonad m]

/-- A loop over all elements of some lists. -/
theorem forM_flatMap {β : Type} (xs : List α) (f : α → List β) (action : β → m Unit) :
    (xs.flatMap f).forM action = xs.forM fun x => (f x).forM action := by
  induction xs with
  | nil => rfl
  | cons x xs ih =>
    simp only [List.forM_eq_forM] at ih
    simp only [List.flatMap_cons, List.forM_eq_forM, List.forM_append, List.forM_cons, ih]

/-- A recursion that passes all arrays does nothing but visit the innermost ones, one after the other. -/
theorem Passes.visit_eq {levels : List Nat} {dim : Nat} (passes : w.Passes levels dim array) :
    w.visit levels dim array = (w.innermost levels array).forM w.leaf := by
  induction levels generalizing dim array with
  | nil =>
    rw [visit, innermost, List.forM_eq_forM, List.forM_cons, List.forM_nil]
    exact (bind_pure (w.leaf array)).symm
  | cons size below ih =>
    have subs : ∀ indices : List Nat, (∀ i ∈ indices, i < size) →
        ((indices.map (w.entry array)).forM fun sub => do
          w.enter dim sub
          w.visit below (dim + 1) sub) = ((indices.map (w.entry array)).flatMap (w.innermost below)).forM w.leaf := by
      intro indices inside
      induction indices with
      | nil => rfl
      | cons i indices rest =>
        obtain ⟨silent, deeper⟩ := passes i (inside i List.mem_cons_self)
        have following := rest fun j member => inside j (List.mem_cons_of_mem _ member)
        simp only [List.forM_eq_forM] at following
        simp only [List.map_cons, List.flatMap_cons, List.forM_eq_forM, List.forM_cons, List.forM_append, silent,
          pure_bind, ih deeper, following]
    exact subs _ fun i member => List.mem_range.1 member

/-- A walk with a dimension below goes down to the array at its position. -/
theorem walk_down (going : 0 < fuel) (below : outer.length < w.levels.length) :
    w.walk fuel ⟨dimpos, array, outer⟩ = (do
      w.enter outer.length (w.entry array (dimpos outer.length))
      w.walk fuel ⟨dimpos, w.entry array (dimpos outer.length), array :: outer⟩) := by
  obtain ⟨fuel, rfl⟩ := Nat.exists_eq_succ_of_ne_zero (Nat.ne_of_gt going)
  obtain ⟨more, left⟩ := Nat.exists_eq_add_of_lt below
  have here : w.levels.length - outer.length = more + 1 := by omega
  have next : w.levels.length - (array :: outer).length = more := by
    rw [List.length_cons]
    omega
  simp only [walk, Place.dim, here, next, descend, bind_assoc]

/-- A walk in an innermost array does what is to be done with it. -/
theorem walk_leaf (innermost : w.levels.length ≤ outer.length) :
    w.walk (fuel + 1) ⟨dimpos, array, outer⟩ = (do
      w.leaf array
      w.resume fuel dimpos outer) := by
  have none : w.levels.length - outer.length = 0 := Nat.sub_eq_zero_of_le innermost
  simp only [walk, Place.dim, none, descend, pure_bind]
  rfl

/-- The walk over the sub-arrays of one array, from position `i` on, when the walk below each of them
is known. The induction is on the number of those behind the next one. -/
theorem walk_siblings {laps : Nat} {below : α → m Unit} (there : outer.length < w.levels.length) (some : 0 < laps)
    (one : ∀ (dimpos : Nat → Nat) (fuel : Nat) (sub : α), (∀ i, outer.length < i → dimpos i = 0) →
      w.walk (fuel + laps) ⟨dimpos, sub, array :: outer⟩ = (do
        below sub
        w.resume fuel dimpos (array :: outer)))
    {behind i : Nat} (here : dimpos outer.length = i) (size : w.levels.getD outer.length 0 = i + (behind + 1))
    (clear : ∀ i, outer.length < i → dimpos i = 0) :
    w.walk (fuel + (behind + 1) * laps) ⟨dimpos, array, outer⟩ = (do
      ((List.range' i (behind + 1)).map (w.entry array)).forM fun sub => do
        w.enter outer.length sub
        below sub
      w.resume fuel dimpos outer) := by
  induction behind generalizing i dimpos with
  | zero =>
    have last : w.levels.getD outer.length 0 ≤ dimpos outer.length + 1 := by omega
    rw [Nat.zero_add, Nat.one_mul, walk_down (Nat.add_pos_right fuel some) there, here, one _ _ _ clear,
      resume_last last (clear _ (Nat.lt_succ_self _))]
    simp only [List.range'_one, List.map_cons, List.map_nil, List.forM_eq_forM, List.forM_cons, List.forM_nil,
      bind_assoc, pure_bind]
  | succ behind ih =>
    have more : dimpos outer.length + 1 < w.levels.getD outer.length 0 := by omega
    have later : ∀ j, outer.length < j → Function.update dimpos outer.length (i + 1) j = 0 := by
      intro j inner
      rw [Function.update_of_ne (Nat.ne_of_gt inner)]
      exact clear j inner
    have rest := ih (Function.update_self _ _ _) (by omega) later
    have resumed : w.resume fuel (Function.update dimpos outer.length (i + 1)) outer = w.resume fuel dimpos outer := by
      rw [resume, climb_update]
      rfl
    rw [Nat.succ_mul, ← Nat.add_assoc, walk_down (Nat.add_pos_right _ some) there, here, one _ _ _ clear,
      resume_next more (clear _ (Nat.lt_succ_self _)), here, rest, resumed]
    simp only [List.range'_succ, List.map_cons, List.forM_eq_forM, List.forM_cons, bind_assoc]

/-- The walk below one array, and what follows it. The induction is on the dimensions below. -/
theorem walk_visit {below : List Nat} (positive : ∀ size ∈ below, 0 < size)
    (here : w.levels.drop outer.length = below) (clear : ∀ i, outer.length ≤ i → dimpos i = 0) :
    w.walk (fuel + below.prod) ⟨dimpos, array, outer⟩ = (do
      w.visit below outer.length array
      w.resume fuel dimpos outer) := by
  induction below generalizing fuel dimpos array outer with
  | nil => exact walk_leaf (List.drop_eq_nil_iff.1 here)
  | cons size below ih =>
    obtain ⟨there, bound, deeper⟩ := drop_cons here
    have inner : ∀ size ∈ below, 0 < size := fun size member => positive size (List.mem_cons_of_mem _ member)
    obtain ⟨behind, rfl⟩ := Nat.exists_eq_succ_of_ne_zero (Nat.ne_of_gt (positive size List.mem_cons_self))
    rw [List.prod_cons, walk_siblings there (CanonicallyOrderedAdd.list_prod_pos.2 inner) ?_ (clear _ (Nat.le_refl _)) ((bound 0).trans (by omega))
      fun i inside => clear i (Nat.le_of_lt inside)]
    · rw [visit, List.range_eq_range']
    · intro dimpos fuel sub clear
      exact ih inner deeper clear

/-- **The walk is the recursion.** The rounds are as many as there are innermost arrays. -/
theorem run_eq (positive : ∀ size ∈ w.levels, 0 < size) (fuel : Nat) (array : α) :
    w.run (fuel + w.levels.prod) array = w.visit w.levels 0 array := by
  have whole : w.walk (fuel + w.levels.prod) ⟨fun _ => 0, array, []⟩ = (do
      w.visit w.levels 0 array
      w.resume fuel (fun _ => 0) []) := walk_visit positive rfl fun _ _ => rfl
  rw [run, whole]
  exact bind_pure (w.visit w.levels 0 array)

end Laws

end Walker

end RubyPg
