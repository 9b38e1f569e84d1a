import RubyPg.Result.Rows

/-!
# The calls of the block

What becomes of a run of rows when they are handed to the block one by one (`fate`): a row cannot be
made or the block leaves, the block clears the result and stays, or all rows pass. `forTuples_run`
carries the loops of all six methods there, for any property of the objects that their functions keep.
-/

namespace RubyPg.PgResult
set_option autoImplicit false

variable {α β ε : Type}

/-- The block as a result sees it that may be frozen and then is not cleared. -/
def Block.unless (block : Block ε) (frozen : Bool) : Block ε :=
  { block with clears := fun call => !frozen && block.clears call }

/-- What becomes of a run of rows. -/
inductive Fate where
  | left
  /-- The block clears the result and stays; so many rows are left. -/
  | cleared (rest : Nat)
  | passed
deriving DecidableEq

/-- The fate of rows that are handed to the block from a call on. -/
def fate {δ ρ : Type} (block : Block ε) : Nat → List (Except δ ρ) → Fate
  | _, [] => .passed
  | _, .error _ :: _ => .left
  | call, .ok _ :: rows =>
    if (block.leaves call).isSome then .left
    else if block.clears call then .cleared rows.length
    else fate block (call + 1) rows

/-- The rows up to the one at which the block leaves or that cannot be made. -/
def upToExit {δ ρ : Type} (block : Block ε) : Nat → List (Except δ ρ) → List ρ
  | _, [] => []
  | _, .error _ :: _ => []
  | call, .ok row :: rows => row :: if (block.leaves call).isSome then [] else upToExit block (call + 1) rows

/-- The objects are in order, at present and whenever other code ran, and nothing released was read. -/
structure Sane (Φ : Store β → Prop) (w : World α β) : Prop where
  store : Φ w.store
  past : ∀ s ∈ w.moments, Φ s
  untouched : w.touched = []

/-- The rows of a `PGresult` that an object holds. -/
structure Service (α β ε : Type) where
  object : Nat
  pgresult : Pointer β
  row : Nat → Except (Exit ε) (Row α)
  autoclear : Bool
  frozen : Bool
  objects : Nat
  arrived : Nat
  /-- What the rows require of the object. -/
  fit : TPgResult β → Prop
  /-- The result itself, when the rows are those of another object. -/
  base : TPgResult β

/-- The rows from one on. -/
def Service.rows (sv : Service α β ε) (n left : Nat) : List (Except (Exit ε) (Row α)) := (List.range' n left).map sv.row

/-- Before the block has cleared the result. -/
structure Serving (Φ : Store β → Prop) (sv : Service α β ε) (w : World α β) : Prop extends Sane Φ w where
  frozen : w.frozen = sv.frozen
  uncleared : w.clearedAt = none
  objects : w.store.objects = sv.objects
  arrived : w.store.arrived = sv.arrived
  holds : (w.store.object sv.object).pgresult = some sv.pgresult
  autoclear : (w.store.object sv.object).autoclear = sv.autoclear
  fits : sv.fit (w.store.object sv.object)
  base : sv.object ≠ 0 → w.store.object 0 = sv.base

/-- Right after the call in which the block cleared the result. -/
structure Cleared (Φ : Store β → Prop) (sv : Service α β ε) (w : World α β) : Prop extends Sane Φ w where
  now : w.clearedAt = some w.handed.length
  null : (w.store.object 0).pgresult = none
  unnamed : (w.store.object 0).nfields = -1
  fieldMap : sv.object ≠ 0 → (w.store.object 0).fieldMap = sv.base.fieldMap
  released : sv.object = 0 → (sv.pgresult.id ∈ w.store.released ↔ sv.autoclear = false)
  holds : sv.object ≠ 0 → (w.store.object sv.object).pgresult = some sv.pgresult
  fits : sv.object ≠ 0 → sv.fit (w.store.object sv.object)

/-- An iteration that was left early; if the block had cleared the result, it left in the same call. -/
structure Settled (Φ : Store β → Prop) (e : Exit ε) (w : World α β) : Prop extends Sane Φ w where
  uncleared : w.clearedAt = none ∨ w.clearedAt = some w.handed.length ∧ ∃ how, e = .block how

section Give

variable {Φ : Store β → Prop} {w : World α β} {block : Block ε} {kept v : Nat} {row : Row α}

variable (block kept row) in
theorem object_give (used : v = 0 ∨ v = kept) : (w.give block kept row).store.object v = w.store.object v := by
  apply Store.object_collect
  intro member
  have picked := (List.mem_filter.1 member).2
  rcases used with rfl | rfl <;> simp at picked

theorem objects_give : (w.give block kept row).store.objects = w.store.objects := Store.objects_collect

theorem Sane.give (closed : Store.Closed Φ) (sane : Sane Φ w) : Sane Φ (w.give block kept row) where
  store := closed.collect sane.store fun _ member => List.mem_range.1 (List.mem_of_mem_filter member)
  past s member := by
    rcases List.mem_append.1 member with before | now
    · exact sane.past s before
    · exact List.mem_singleton.1 now ▸ sane.store
  untouched := sane.untouched

variable (block kept row) in
/-- The block is called, and leaves or stays. -/
theorem rbYield_apply : (rbYield block kept row : Iter α β ε Unit) w =
    (match block.leaves w.handed.length with | some how => .error (.block how) | none => .ok (), w.yield block kept row) := by
  unfold rbYield
  rw [Method.read_bind, Method.change_bind]
  cases block.leaves w.handed.length <;> rfl

end Give

section Run

variable {Φ : Store β → Prop} {sv : Service α β ε} {w : World α β} {block : Block ε} {row : Row α}

theorem Serving.live (serving : Serving Φ sv w) (closed : Store.Closed Φ) : Live w sv.object sv.pgresult where
  holds := serving.holds
  unreleased := by
    apply (closed.sound serving.store).apart sv.object
    show (w.store.object sv.object).pgresult.map (·.id) = _
    rw [serving.holds]
    rfl

variable (block row) in
theorem Serving.give (serving : Serving Φ sv w) (closed : Store.Closed Φ) : Serving Φ sv (w.give block sv.object row) := by
  have self := object_give block sv.object row (w := w) (v := sv.object) (.inr rfl)
  have zero := object_give block sv.object row (w := w) (v := 0) (.inl rfl)
  exact {
    toSane := serving.toSane.give closed
    frozen := serving.frozen
    uncleared := serving.uncleared
    objects := objects_give.trans serving.objects
    arrived := Store.arrived_collect.trans serving.arrived
    holds := self ▸ serving.holds
    autoclear := self ▸ serving.autoclear
    fits := self ▸ serving.fits
    base := fun other => zero.trans (serving.base other) }

theorem Serving.clear (serving : Serving Φ sv w) (closed : Store.Closed Φ) (melted : sv.frozen = false) :
    Cleared Φ sv w.pgResultClear := by
  have eq : w.pgResultClear = { w.pgresultClear 0 with clearedAt := some w.handed.length } := by
    unfold World.pgResultClear
    rw [serving.frozen, melted, serving.uncleared]
    rfl
  have zero := Store.object_clear_same 0 (s := w.store)
  have other : sv.object ≠ 0 → (w.store.pgresultClear 0).object sv.object = w.store.object sv.object :=
    fun ne => Store.object_clear_other ne
  rw [eq]
  refine {
    store := closed.clear serving.store (closed.self serving.store)
    past := serving.past
    untouched := serving.untouched
    now := rfl
    null := congrArg TPgResult.pgresult zero
    unnamed := congrArg TPgResult.nfields zero
    fieldMap := fun ne => (congrArg TPgResult.fieldMap zero).trans (serving.base ne ▸ rfl)
    released := fun here => ?_
    holds := fun ne => (congrArg TPgResult.pgresult (other ne)).trans serving.holds
    fits := fun ne => (other ne).symm ▸ serving.fits }
  have holds := serving.holds
  have flag := serving.autoclear
  have live := (serving.live closed).unreleased
  rw [here] at holds flag
  show sv.pgresult.id ∈ (w.store.pqClear (w.store.object 0)).released ↔ _
  unfold Store.pqClear
  rw [holds, flag]
  cases sv.autoclear with
  | true => simp [live]
  | false => simp

/-- A call in which the block does not clear the result. -/
theorem yield_quiet (serving : Serving Φ sv w) (quiet : (block.unless sv.frozen).clears w.handed.length = false) :
    w.yield block sv.object row = w.give block sv.object row := by
  unfold World.yield
  split
  · rename_i clears
    have frozen : sv.frozen = true := by
      simpa [Block.unless, clears] using quiet
    unfold World.pgResultClear
    rw [if_pos]
    exact serving.frozen.trans frozen
  · rfl

variable (row) in
/-- A call in which it does. -/
theorem yield_clear (serving : Serving Φ sv w) (closed : Store.Closed Φ)
    (clears : (block.unless sv.frozen).clears w.handed.length = true) : Cleared Φ sv (w.yield block sv.object row) := by
  simp only [Block.unless, Bool.and_eq_true, Bool.not_eq_true'] at clears
  unfold World.yield
  rw [if_pos clears.2]
  exact (serving.give block row closed).clear closed clears.1

theorem handed_yield {kept : Nat} : (w.yield block kept row).handed = w.handed ++ [row] := by
  unfold World.yield World.pgResultClear
  split
  · split <;> rfl
  · rfl

/-- How a loop over rows goes on from a state. -/
inductive Ran (Φ : Store β → Prop) (sv : Service α β ε) (block : Block ε) (loop : Nat → Nat → Iter α β ε Unit)
    (n left : Nat) (w : World α β) : Fate → Prop where
  | left (e : Exit ε) (w' : World α β) (run : loop (left + 1) n w = (.error e, w')) (settled : Settled Φ e w')
      (handed : w'.handed = w.handed ++ upToExit block w.handed.length (sv.rows n left)) : Ran Φ sv block loop n left w .left
  | cleared (rest : Nat) (w' : World α β) (run : loop (left + 1) n w = loop (rest + 1) (sv.pgresult.ntuples - rest) w')
      (below : rest < sv.pgresult.ntuples) (cleared : Cleared Φ sv w') : Ran Φ sv block loop n left w (.cleared rest)
  | passed (w' : World α β) (run : loop (left + 1) n w = (.ok (), w')) (serving : Serving Φ sv w')
      (handed : w'.handed = w.handed ++ upToExit block w.handed.length (sv.rows n left))
      (count : w'.handed.length = w.handed.length + left) : Ran Φ sv block loop n left w .passed

/-- One row more in front. -/
theorem Ran.behind {loop : Nat → Nat → Iter α β ε Unit} {n left : Nat} {w' : World α β} {f : Fate}
    (later : Ran Φ sv block loop (n + 1) left w' f) (run : loop (left + 1 + 1) n w = loop (left + 1) (n + 1) w')
    (handed : w'.handed = w.handed ++ [row]) (value : sv.row n = .ok row) (stays : block.leaves w.handed.length = none) :
    Ran Φ sv block loop n (left + 1) w f := by
  have count : w'.handed.length = w.handed.length + 1 := by
    rw [handed, List.length_append, List.length_singleton]
  have rows : upToExit block w.handed.length (sv.rows n (left + 1)) =
      row :: upToExit block w'.handed.length (sv.rows (n + 1) left) := by
    have split : sv.rows n (left + 1) = sv.row n :: sv.rows (n + 1) left := rfl
    rw [split, value, upToExit, stays, count]
    rfl
  have append : ∀ more, w'.handed ++ more = w.handed ++ row :: more := by
    intro more
    rw [handed, List.append_assoc]
    rfl
  cases later with
  | left e w'' end' settled all =>
    exact .left e w'' (run.trans end') settled (by rw [all, append, rows])
  | cleared rest w'' end' below cleared => exact .cleared rest w'' (run.trans end') below cleared
  | passed w'' end' serving all total =>
    exact .passed w'' (run.trans end') serving (by rw [all, append, rows]) (by omega)

/-! The fate of a row that is made. -/

section Fates

variable {rows : List (Except (Exit ε) (Row α))} {call : Nat}

theorem fate_leaves {how : Leave ε} (leaves : block.leaves call = some how) : fate block call (.ok row :: rows) = .left := by
  unfold fate
  rw [leaves]
  rfl

theorem fate_clears (stays : block.leaves call = none) (clears : block.clears call = true) :
    fate block call (.ok row :: rows) = .cleared rows.length := by
  unfold fate
  rw [stays, clears]
  rfl

theorem fate_stays (stays : block.leaves call = none) (quiet : block.clears call = false) :
    fate block call (.ok row :: rows) = fate block (call + 1) rows := by
  conv_lhs => unfold fate
  rw [stays, quiet]
  rfl

end Fates

variable (block row) in
/-- The block leaves in a call in which it may have cleared the result. -/
theorem Serving.settled_yield (serving : Serving Φ sv w) (closed : Store.Closed Φ) (how : Leave ε) :
    Settled Φ (.block how) (w.yield block sv.object row) := by
  cases clears : (block.unless sv.frozen).clears w.handed.length with
  | true =>
    have cleared := yield_clear row serving closed clears
    exact ⟨cleared.toSane, .inr ⟨cleared.now, how, rfl⟩⟩
  | false =>
    rw [yield_quiet serving clears]
    have given := serving.give block row closed
    exact ⟨given.toSane, .inl given.uncleared⟩

/-- The block stays: the loop is through where it cleared the result, and else goes on with the next row. -/
theorem ran_stays {loop : Nat → Nat → Iter α β ε Unit} {n left : Nat} {w₁ : World α β} (closed : Store.Closed Φ)
    (serving : Serving Φ sv w₁) (same : w₁.handed = w.handed) (value : sv.row n = .ok row)
    (stays : block.leaves w.handed.length = none) (all : n + 1 + left = sv.pgresult.ntuples)
    (next : loop (left + 1 + 1) n w = loop (left + 1) (n + 1) (w₁.yield block sv.object row))
    (later : ∀ w', Serving Φ sv w' → Ran Φ sv block loop (n + 1) left w'
      (fate (block.unless sv.frozen) w'.handed.length (sv.rows (n + 1) left))) :
    Ran Φ sv block loop n (left + 1) w (fate (block.unless sv.frozen) w.handed.length (sv.rows n (left + 1))) := by
  have rows : sv.rows n (left + 1) = sv.row n :: sv.rows (n + 1) left := rfl
  have stays' : (block.unless sv.frozen).leaves w.handed.length = none := stays
  rw [rows, value]
  cases clears : (block.unless sv.frozen).clears w.handed.length with
  | true =>
    have size : (sv.rows (n + 1) left).length = left := by simp [Service.rows]
    rw [fate_clears stays' clears, size]
    refine .cleared left _ ?_ (by omega) (yield_clear row serving closed (same.symm ▸ clears))
    rw [next]
    congr 1
    omega
  | false =>
    have given := serving.give block row closed
    rw [← yield_quiet serving (same.symm ▸ clears)] at given
    have handed : (w₁.yield block sv.object row).handed = w.handed ++ [row] := handed_yield.trans (by rw [same])
    have later := later _ given
    rw [handed, List.length_append, List.length_singleton] at later
    rw [fate_stays stays' clears]
    exact later.behind next handed value stays

theorem forTuples_enter {object total left n : Nat} {bound : Iter α β ε Nat} {make : Nat → Iter α β ε (Row α)}
    (bounds : bound w = (.ok total, w)) (inside : n < total) :
    forTuples block object bound make (left + 1) n w =
      (make n >>= fun row => rbYield block object row >>= fun _ => forTuples block object bound make left (n + 1)) w := by
  conv_lhs => unfold forTuples
  rw [Method.bind_ok bounds, if_pos inside]

variable (block) in
theorem forTuples_run {bound : Iter α β ε Nat} {make : Nat → Iter α β ε (Row α)} (closed : Store.Closed Φ)
    (bounds : ∀ w, Serving Φ sv w → bound w = (.ok sv.pgresult.ntuples, w))
    (makes : ∀ w n, Serving Φ sv w → n < sv.pgresult.ntuples →
      ∃ w', make n w = (sv.row n, w') ∧ Serving Φ sv w' ∧ w'.handed = w.handed)
    (left n : Nat) (w : World α β) (serving : Serving Φ sv w) (all : n + left = sv.pgresult.ntuples) :
    Ran Φ sv block (forTuples block sv.object bound make) n left w
      (fate (block.unless sv.frozen) w.handed.length (sv.rows n left)) := by
  induction left generalizing n w with
  | zero =>
    refine .passed w ?_ serving (List.append_nil _).symm rfl
    unfold forTuples
    rw [Method.bind_ok (bounds w serving), if_neg (by omega)]
    rfl
  | succ left ih =>
    have inside : n < sv.pgresult.ntuples := by omega
    obtain ⟨w₁, made, serving₁, same⟩ := makes w n serving inside
    have enter := @forTuples_enter α β ε w block sv.object _ (left + 1) n bound make (bounds w serving) inside
    have rows : sv.rows n (left + 1) = sv.row n :: sv.rows (n + 1) left := rfl
    cases value : sv.row n with
    | error e =>
      rw [value] at made
      rw [rows, value]
      refine .left e w₁ (enter.trans (Method.bind_error made)) ⟨serving₁.toSane, .inl serving₁.uncleared⟩ ?_
      rw [rows, value]
      exact same.trans (List.append_nil _).symm
    | ok row =>
      rw [value] at made
      have called := rbYield_apply block sv.object row (w := w₁) (ε := ε)
      rw [same] at called
      cases leaves : block.leaves w.handed.length with
      | some how =>
        rw [leaves] at called
        have leaves' : (block.unless sv.frozen).leaves w.handed.length = some how := leaves
        rw [rows, value, fate_leaves leaves']
        refine .left (.block how) _ (enter.trans ((Method.bind_ok made).trans (Method.bind_error called)))
          (serving₁.settled_yield block row closed how) ?_
        rw [handed_yield, same, rows, value]
        simp [upToExit, leaves]
      | none =>
        rw [leaves] at called
        exact ran_stays closed serving₁ same value leaves (by omega)
          (enter.trans ((Method.bind_ok made).trans (Method.bind_ok called))) fun w' given => ih (n + 1) w' given (by omega)

end Run

end RubyPg.PgResult
