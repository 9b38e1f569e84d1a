import RubyPg.Lib.Walk
import RubyPg.TwoPass.Composite

/-!
# The loops of `pg_bin_enc_array`

Both calls of `pg_bin_enc_array` as the loops they are, over `dimpos` and `arrays`: the first one
adds up `size_sum` and stores `*intermediate`, the second one writes behind `out` and takes the
answers out of `*intermediate` again. `pgBinEncArrayLoops_eq` says that they are the recursion of
`pgBinEncArray`.
-/

namespace RubyPg.TwoPass
set_option autoImplicit false
open Ascii Writer

section Code

variable (api : CApi) (elem : EncFunc)

/-- `size_sum` and `*intermediate` of the first call. -/
structure Gathered where
  sizeSum : Nat
  intermediate : List Answer

/-- The first call for one item. -/
def firstItem (item : Value) : Method Stop Gathered Unit :=
  match item with
  | .nil => Method.change fun s => ⟨s.sizeSum + 4, s.intermediate⟩
  | item => do
    let answer ← Method.ofExcept (elem item)
    Method.change fun s => ⟨s.sizeSum + (4 + answer.length), s.intermediate ++ [answer]⟩

/-- The loops of the first call. -/
def firstLoops (dimSizes : List Nat) : Walker (Method Stop Gathered) Value where
  entry := rbAryEntry
  levels := dimSizes.dropLast
  enter dim array := Method.ofExcept (checkSubArray api dim (dimSizes.getD (dim + 1) 0) array)
  leaf array := (entries array (dimSizes.getLastD 0)).forM (firstItem elem)
  tired := Method.raise .fuel

/-- `out` and `item_idx` of the second call. An item has two places in `*intermediate`, and one
here. -/
structure Written where
  out : Nat
  itemIdx : Nat

/-- The second call for one item. -/
def secondItem (intermediate : List Answer) (item : Value) : StateT Written (Writer Stop) Unit := fun s =>
  match item with
  | .nil => do
    storeAll s.out (writeNbo 4 (-1))
    pure ((), ⟨s.out + 4, s.itemIdx⟩)
  | _ =>
    match intermediate[s.itemIdx]? with
    | some answer => do
      let strlen ← answer.write (s.out + 4)
      storeAll s.out (writeNbo 4 strlen)
      pure ((), ⟨s.out + 4 + strlen, s.itemIdx + 1⟩)
    | none => Method.raise .undefined

/-- The loops of the second call. -/
def secondLoops (dimSizes : List Nat) (intermediate : List Answer) : Walker (StateT Written (Writer Stop)) Value where
  entry := rbAryEntry
  levels := dimSizes.dropLast
  enter _ _ := pure ()
  leaf array := (entries array (dimSizes.getLastD 0)).forM (secondItem intermediate)
  tired := fun _ => Method.raise .fuel

/-- As many rounds as there are innermost arrays. -/
def rounds (dimSizes : List Nat) : Nat := dimSizes.dropLast.prod

/-- The second call of `pg_bin_enc_array`. -/
def arraySecondLoops (oid : Nat) (dimSizes : List Nat) (value : Value) (intermediate : List Answer) (out : Nat) :
    Writer Stop Nat := do
  storeAll out (arrayHeader oid dimSizes)
  let (_, s) ← (secondLoops dimSizes intermediate).run (rounds dimSizes) value ⟨out + (12 + 8 * dimSizes.length), 0⟩
  pure (s.out - out)

/-- `pg_bin_enc_array`, with its loops. -/
def pgBinEncArrayLoops (dimensions : Option Nat) (oid : Nat) : EncFunc
  | .ary xs => do
    let dimSizes ← arrayDims dimensions xs
    let s ← Method.finish ((firstLoops api elem dimSizes).run (rounds dimSizes) (.ary xs)) ⟨0, []⟩
    pure (.size (12 + dimSizes.length * 8 + s.sizeSum) (arraySecondLoops oid dimSizes (.ary xs) s.intermediate))
  | value => pgCoderEncToS api value

end Code

/-- All entries of an array. -/
theorem entries_self (xs : List Value) : entries (.ary xs) xs.length = xs := by
  apply List.ext_getElem
  · simp [entries]
  · intro i inside inside'
    simp [entries, rbAryEntry, inside']

section FirstCall

variable {api : CApi} {elem : EncFunc}

/-- What the recursion returns, behind what was gathered before. -/
def Gathered.add (s : Gathered) (more : Nat × List Answer) : Gathered :=
  ⟨s.sizeSum + more.1, s.intermediate ++ more.2⟩

theorem Gathered.add_add (s : Gathered) (more more' : Nat × List Answer) :
    (s.add more).add more' = s.add (more.1 + more'.1, more.2 ++ more'.2) := by
  simp only [add, Nat.add_assoc, List.append_assoc]

/-- The first call for an item that is not nil. -/
theorem firstItem_finish {item : Value} (given : item ≠ .nil) (s : Gathered) :
    Method.finish (firstItem elem item) s = (elem item).map fun answer => s.add (4 + answer.length, [answer]) := by
  have step : firstItem elem item = (do
      let answer ← Method.ofExcept (elem item)
      Method.change fun s => ⟨s.sizeSum + (4 + answer.length), s.intermediate ++ [answer]⟩) := by
    cases item with
    | nil => exact absurd rfl given
    | _ => rfl
  rw [step, Method.finish_bind, Method.ofExcept_apply]
  cases elem item with
  | ok answer => rfl
  | error stop => rfl

theorem firstLeaves_nil (items : List Value) :
    firstLeaves elem (.nil :: items) = (do
      let (size, answers) ← firstLeaves elem items
      pure (4 + size, answers)) := rfl

/-- The recursion for an item that is not nil. -/
theorem firstLeaves_cons {item : Value} (given : item ≠ .nil) (items : List Value) :
    firstLeaves elem (item :: items) = (do
      let answer ← elem item
      let (size, answers) ← firstLeaves elem items
      pure (4 + answer.length + size, answer :: answers)) := by
  cases item with
  | nil => exact absurd rfl given
  | _ => rfl

/-- The loop over some items gathers their answers. -/
theorem firstItems_finish (items : List Value) (s : Gathered) :
    Method.finish (items.forM (firstItem elem)) s = (firstLeaves elem items).map s.add := by
  induction items generalizing s with
  | nil =>
    show Except.ok s = Except.ok (s.add (0, []))
    rw [Gathered.add, Nat.add_zero, List.append_nil]
  | cons item items ih =>
    have loop : Method.finish ((item :: items).forM (firstItem elem)) s =
        Method.finish (firstItem elem item) s >>= Method.finish (items.forM (firstItem elem)) := by
      rw [List.forM_eq_forM, List.forM_cons, Method.finish_seq]
    rw [loop]
    by_cases null : item = .nil
    · subst null
      have rest := ih (s.add (4, []))
      have first : Method.finish (firstItem elem .nil) s = .ok (s.add (4, [])) := by
        rw [Gathered.add, List.append_nil]
        rfl
      rw [first, firstLeaves_nil]
      refine rest.trans ?_
      cases firstLeaves elem items with
      | error stop => rfl
      | ok more => exact congrArg Except.ok (s.add_add (4, []) more)
    · rw [firstItem_finish null, firstLeaves_cons null]
      cases elem item with
      | error stop => rfl
      | ok answer =>
        refine (ih (s.add (4 + answer.length, [answer]))).trans ?_
        simp only [bind, Except.bind]
        cases firstLeaves elem items with
        | error stop => rfl
        | ok more => exact congrArg Except.ok (s.add_add (4 + answer.length, [answer]) more)

/-- The loop over some sub-arrays, when the recursion below them is known. -/
theorem firstSubs_finish {check : Value → Outcome Unit} {walk : Value → Outcome (Nat × List Answer)}
    {below : Value → Method Stop Gathered Unit}
    (one : ∀ sub s, Method.finish (below sub) s = (walk sub).map (Gathered.add s)) (subs : List Value) (s : Gathered) :
    Method.finish (subs.forM fun sub => do
      Method.ofExcept (check sub)
      below sub) s = (firstSubs check walk subs).map s.add := by
  induction subs generalizing s with
  | nil =>
    show Except.ok s = Except.ok (s.add (0, []))
    rw [Gathered.add, Nat.add_zero, List.append_nil]
  | cons sub subs ih =>
    have passed : Method.finish (do
        Method.ofExcept (check sub)
        below sub) s = check sub >>= fun _ => (walk sub).map s.add := by
      rw [Method.finish_bind, Method.ofExcept_apply]
      cases check sub with
      | error stop => rfl
      | ok u => exact one sub s
    rw [List.forM_eq_forM, List.forM_cons, Method.finish_seq, passed, firstSubs]
    cases check sub with
    | error stop => rfl
    | ok u =>
      simp only [bind, Except.bind]
      cases walk sub with
      | error stop => rfl
      | ok more =>
        refine (ih (s.add more)).trans ?_
        cases firstSubs check walk subs with
        | error stop => rfl
        | ok more' => exact congrArg Except.ok (s.add_add more more')

/-- The recursion of the walk is that of `firstWalk`. -/
theorem visit_firstWalk {dimSizes sizes : List Nat} {dim : Nat} (here : dimSizes.drop dim = sizes) (some : sizes ≠ [])
    (array : Value) (s : Gathered) :
    Method.finish ((firstLoops api elem dimSizes).visit sizes.dropLast dim array) s =
      (firstWalk api elem dim sizes array).map s.add := by
  induction sizes generalizing dim array s with
  | nil => exact absurd rfl some
  | cons size rest ih =>
    obtain ⟨-, -, later⟩ := drop_cons here
    cases rest with
    | nil =>
      have last : dimSizes.getLastD 0 = size := by
        rw [← List.take_append_drop dim dimSizes, here]
        exact List.getLastD_concat ..
      show Method.finish ((entries array (dimSizes.getLastD 0)).forM (firstItem elem)) s = _
      rw [last, firstItems_finish]
      rfl
    | cons next rest =>
      obtain ⟨-, bound, -⟩ := drop_cons later
      have step := @firstSubs_finish (checkSubArray api dim next) (firstWalk api elem (dim + 1) (next :: rest))
        ((firstLoops api elem dimSizes).visit (next :: rest).dropLast (dim + 1))
        (fun sub s => ih later (List.cons_ne_nil _ _) sub s) (entries array size) s
      rw [← bound 0] at step ⊢
      exact step

end FirstCall

section SecondCall

/-- The second call takes an answer for every item that is not nil. -/
def answersFor (items : List Value) : Nat := items.countP fun
  | .nil => false
  | _ => true

theorem answersFor_given {item : Value} (given : item ≠ .nil) (items : List Value) :
    answersFor (item :: items) = answersFor items + 1 := by
  apply List.countP_cons_of_pos
  cases item with
  | nil => exact absurd rfl given
  | _ => rfl

theorem writeItems_given {item : Value} (given : item ≠ .nil) (items : List Value) (answer : Answer)
    (answers : List Answer) (out : Nat) :
    writeItems (item :: items) (answer :: answers) out = (do
      let strlen ← answer.write (out + 4)
      storeAll out (writeNbo 4 strlen)
      writeItems items answers (out + 4 + strlen)) := by
  cases item with
  | nil => exact absurd rfl given
  | _ => rfl

theorem writeItems_missing {item : Value} (given : item ≠ .nil) (items : List Value) (out : Nat) :
    writeItems (item :: items) [] out = Method.raise .undefined := by
  cases item with
  | nil => exact absurd rfl given
  | _ => rfl

theorem secondItem_given {item : Value} (given : item ≠ .nil) (intermediate : List Answer) (s : Written) :
    secondItem intermediate item s = match intermediate[s.itemIdx]? with
      | some answer => do
        let strlen ← answer.write (s.out + 4)
        storeAll s.out (writeNbo 4 strlen)
        pure ((), ⟨s.out + 4 + strlen, s.itemIdx + 1⟩)
      | none => Method.raise .undefined := by
  cases item with
  | nil => exact absurd rfl given
  | _ => rfl

/-- The loop over some items writes them, and goes on in `*intermediate` behind their answers. -/
theorem secondItems_run (intermediate : List Answer) (items : List Value) (s : Written) :
    items.forM (secondItem intermediate) s = (do
      let stop ← writeItems items (intermediate.drop s.itemIdx) s.out
      pure ((), ⟨stop, s.itemIdx + answersFor items⟩)) := by
  induction items generalizing s with
  | nil => rfl
  | cons item items ih =>
    have loop : (item :: items).forM (secondItem intermediate) s =
        (secondItem intermediate item s >>= fun r => items.forM (secondItem intermediate) r.2) := by
      rw [List.forM_eq_forM, List.forM_cons]
      rfl
    rw [loop]
    by_cases null : item = .nil
    · subst null
      simp only [secondItem, writeItems, bind_assoc, pure_bind, ih]
      rfl
    · rw [secondItem_given null, answersFor_given null]
      cases there : intermediate[s.itemIdx]? with
      | none =>
        rw [List.drop_eq_nil_of_le (List.getElem?_eq_none_iff.1 there), writeItems_missing null]
        rfl
      | some answer =>
        obtain ⟨inside, here⟩ := List.getElem?_eq_some_iff.1 there
        rw [List.drop_eq_getElem_cons inside, here, writeItems_given null]
        simp only [bind_assoc, pure_bind, ih]
        simp only [Nat.add_assoc, Nat.add_comm 1]

end SecondCall

section Order

variable {api : CApi} {elem : EncFunc} {dimSizes : List Nat}

/-- The sub-arrays of the innermost arrays, in the order of the recursion, are the leaves. -/
theorem innermost_leaves {m : Type → Type} {w : Walker m Value} (entry : w.entry = rbAryEntry) (sizes : List Nat)
    (array : Value) :
    ((w.innermost sizes.dropLast array).flatMap fun sub => entries sub (sizes.getLastD 0)) = leaves sizes array := by
  induction sizes generalizing array with
  | nil => rfl
  | cons size rest ih =>
    cases rest with
    | nil => exact List.append_nil _
    | cons next rest =>
      have last : (size :: next :: rest).getLastD 0 = (next :: rest).getLastD 0 := rfl
      rw [List.dropLast_cons_cons, Walker.innermost, last, List.flatMap_assoc]
      simp only [ih, entry]
      rfl

/-- The loops of both calls end after as many rounds as there are innermost arrays. -/
theorem run_visit {m : Type → Type} [Monad m] [LawfulMonad m] {w : Walker m Value}
    (positive : ∀ size ∈ w.levels, 0 < size) (array : Value) : w.run w.levels.prod array = w.visit w.levels 0 array := by
  have whole := Walker.run_eq positive 0 array
  rwa [Nat.zero_add] at whole

/-- Where nothing happens on the way down, the loops visit the leaves. -/
theorem run_leaves {m : Type → Type} [Monad m] [LawfulMonad m] {w : Walker m Value} {item : Value → m Unit}
    (entry : w.entry = rbAryEntry) (levels : w.levels = dimSizes.dropLast)
    (leaf : ∀ sub, w.leaf sub = (entries sub (dimSizes.getLastD 0)).forM item)
    (positive : ∀ size ∈ dimSizes.dropLast, 0 < size) {array : Value} (passes : w.Passes dimSizes.dropLast 0 array) :
    w.run (rounds dimSizes) array = (leaves dimSizes array).forM item := by
  have walked : w.run (rounds dimSizes) array = w.visit dimSizes.dropLast 0 array := by
    rw [rounds, ← levels]
    exact run_visit (levels ▸ positive) array
  rw [walked, passes.visit_eq, ← innermost_leaves entry dimSizes array, Walker.forM_flatMap]
  exact congrArg _ (funext leaf)

/-- **The second call writes the leaves**, one after the other. -/
theorem secondLoops_eq (intermediate : List Answer) (positive : ∀ size ∈ dimSizes.dropLast, 0 < size) (array : Value) :
    (secondLoops dimSizes intermediate).run (rounds dimSizes) array =
      (leaves dimSizes array).forM (secondItem intermediate) := by
  have silent : ∀ levels dim array, (secondLoops dimSizes intermediate).Passes levels dim array := by
    intro levels
    induction levels with
    | nil => exact fun _ _ => trivial
    | cons size below ih => exact fun dim array i _ => ⟨rfl, ih _ _⟩
  exact run_leaves rfl rfl (fun _ => rfl) positive (silent _ _ _)

/-- **The first call is the recursion**, and gathers what that returns. -/
theorem firstLoops_eq (positive : ∀ size ∈ dimSizes.dropLast, 0 < size) (array : Value) :
    Method.finish ((firstLoops api elem dimSizes).run (rounds dimSizes) array) ⟨0, []⟩ =
      (firstWalk api elem 0 dimSizes array).map fun (size, answers) => ⟨size, answers⟩ := by
  have walked : (firstLoops api elem dimSizes).run (rounds dimSizes) array =
      (firstLoops api elem dimSizes).visit dimSizes.dropLast 0 array := run_visit positive array
  rw [walked]
  by_cases empty : dimSizes = []
  · subst empty
    rfl
  · rw [visit_firstWalk List.drop_zero empty]
    cases firstWalk api elem 0 dimSizes array with
    | error stop => rfl
    | ok more => simp only [Except.map, Gathered.add, Nat.zero_add, List.nil_append]

/-- Only the innermost arrays may be empty. -/
theorem dimSizes_positive {dimensions : Option Nat} {room ndim : Nat} {xs : List Value} {sizes : List Nat}
    (found : TwoPass.dimSizes dimensions room ndim xs = .ok sizes) : ∀ size ∈ sizes.dropLast, 0 < size := by
  induction room generalizing ndim xs sizes with
  | zero =>
    rcases dimSizes_cases found with ⟨-, rfl⟩ | ⟨el2, below, tail, -, room, -, -⟩
    · exact fun _ member => absurd member List.not_mem_nil
    · cases room
  | succ room ih =>
    rcases dimSizes_cases found with ⟨-, rfl⟩ | ⟨el2, below, tail, next, room, rest, rfl⟩
    · exact fun _ member => absurd member List.not_mem_nil
    · cases room
      have filled : 0 < xs.length := by
        cases xs with
        | nil => cases next
        | cons x xs => exact Nat.succ_pos _
      intro size member
      cases tail with
      | nil => exact absurd member List.not_mem_nil
      | cons s tail =>
        rw [List.dropLast_cons_cons, List.mem_cons] at member
        rcases member with rfl | inner
        · exact filled
        · exact ih rest size inner

theorem checkDims_same {dimensions : Option Nat} {dims sizes : List Nat}
    (checked : checkDims dimensions dims = .ok sizes) : dims = sizes := by
  cases dimensions with
  | none =>
    cases checked
    rfl
  | some expected =>
    by_cases same : (if dims.length = 0 then 1 else dims.length) = expected
    · simp only [checkDims, ne_eq, same, not_true_eq_false, if_false] at checked
      cases checked
      rfl
    · simp only [checkDims, ne_eq, same, not_false_eq_true, if_true] at checked
      cases checked

theorem arrayDims_positive {dimensions : Option Nat} {xs : List Value} {sizes : List Nat}
    (accepted : arrayDims dimensions xs = .ok sizes) : ∀ size ∈ sizes.dropLast, 0 < size := by
  obtain ⟨dims, found, checked⟩ := Outcome.of_bind accepted
  have same := checkDims_same checked
  subst same
  unfold foundDims at found
  split at found
  · cases found
    exact fun _ member => absurd member List.not_mem_nil
  · exact dimSizes_positive found

/-- The second call with its loops is the one with the recursion. -/
theorem arraySecondLoops_eq (oid : Nat) (positive : ∀ size ∈ dimSizes.dropLast, 0 < size) (array : Value)
    (intermediate : List Answer) :
    arraySecondLoops oid dimSizes array intermediate = arraySecond oid dimSizes (leaves dimSizes array) intermediate := by
  funext out
  unfold arraySecondLoops arraySecond
  rw [secondLoops_eq intermediate positive, secondItems_run]
  simp only [bind_assoc, pure_bind, List.drop_zero]

/-- **`pg_bin_enc_array` is the recursion** over the dimensions, for every element encoder and every
value, and its loops end. -/
theorem pgBinEncArrayLoops_eq (api : CApi) (elem : EncFunc) (dimensions : Option Nat) (oid : Nat) :
    pgBinEncArrayLoops api elem dimensions oid = pgBinEncArray api elem dimensions oid := by
  funext value
  unfold pgBinEncArrayLoops pgBinEncArray
  cases value with
  | ary xs =>
    dsimp only
    cases accepted : arrayDims dimensions xs with
    | error stop => rfl
    | ok sizes =>
      have positive := arrayDims_positive accepted
      simp only [bind, Except.bind, firstLoops_eq positive, arraySecondLoops_eq oid positive]
      cases firstWalk api elem 0 sizes (.ary xs) with
      | error stop => rfl
      | ok more => rfl
  | _ => rfl

end Order

end RubyPg.TwoPass
