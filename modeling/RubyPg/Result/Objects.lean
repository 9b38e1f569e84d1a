import Mathlib.Algebra.BigOperators.Fin
import Mathlib.Algebra.BigOperators.Intervals
import RubyPg.Lib.Custody
import RubyPg.Lib.OrderedHash

/-!
# `PG::Result` objects and the `PGresult`s behind them

`t_pg_result` and the functions of `ext/pg_result.c` that make, copy and clear it. A `PGresult` is
known by the order in which it came from libpq. The store remembers what `PQclear` got and the sum
of what `rb_gc_adjust_memory_usage` was told; seen as a `Custody`, the objects hold the `PGresult`s.
-/

namespace RubyPg.PgResult
set_option autoImplicit false

/-- `ExecStatusType`. -/
inductive ExecStatus where
  | emptyQuery | commandOk | tuplesOk | copyOut | copyIn | badResponse | nonfatalError | fatalError
  | copyBoth | singleTuple | pipelineSync | pipelineAborted | tuplesChunk
  /-- A status that `pg_result_check` does not know. -/
  | unknown
deriving DecidableEq, Repr

/-- A `PGresult`. `β` is what libpq tells of a field that is not NULL. -/
structure PGresult (β : Type) where
  status : ExecStatus
  ntuples : Nat
  nfields : Nat
  fname : Nat → String
  value : Nat → Nat → Option β
  /-- `pgresult_approx_size`. -/
  size : Nat
  errorMessage : String := ""
  sqlstate : Option String := none

/-- A `PGresult *`. -/
structure Pointer (β : Type) extends PGresult β where
  id : Nat

/-- `t_pg_result`; `none` is NULL in `pgresult` and `Qnil` in `fieldMap`. -/
structure TPgResult (β : Type) where
  pgresult : Option (Pointer β) := none
  autoclear : Bool := false
  nfields : Int := -1
  fnames : List String := []
  fieldMap : Option (OrderedHash String Nat) := none
  resultSize : Nat := 0

/-- The `PG::Result`s, by the order of their allocation, and what libpq and the garbage collector
were told so far. -/
structure Store (β : Type) where
  object : Nat → TPgResult β
  objects : Nat
  /-- So many `PGresult`s came from libpq. -/
  arrived : Nat
  /-- What `PQclear` got. -/
  released : List Nat
  /-- The sum of the arguments of `rb_gc_adjust_memory_usage`. -/
  usage : Int

namespace Store

variable {β : Type}

/-- No object yet. -/
def empty : Store β := ⟨fun _ => {}, 0, 0, [], 0⟩

/-- `this->... = ...` -/
def write (s : Store β) (self : Nat) (f : TPgResult β → TPgResult β) : Store β :=
  { s with object := Function.update s.object self (f (s.object self)) }

/-- `PQclear` and `rb_gc_adjust_memory_usage` on what an object holds. -/
def pqClear (s : Store β) (this : TPgResult β) : Store β :=
  match this.pgresult with
  | some p =>
    if !this.autoclear then { s with released := p.id :: s.released, usage := s.usage - this.resultSize } else s
  | none => s

/-- `pgresult_clear`. -/
def pgresultClear (s : Store β) (self : Nat) : Store β :=
  (s.pqClear (s.object self)).write self fun this => { this with resultSize := 0, nfields := -1, pgresult := none }

/-- `pgresult_gc_free`: what `xfree` gets is not used any more. -/
def pgresultGcFree (s : Store β) (self : Nat) : Store β := s.pgresultClear self

/-- The garbage collector frees objects. -/
def collect (s : Store β) (garbage : List Nat) : Store β := garbage.foldl pgresultGcFree s

/-- `pg_new_result` on the next `PGresult` from libpq. -/
def pgNewResult (s : Store β) (result : PGresult β) : Store β :=
  { object := Function.update s.object s.objects
      { pgresult := some ⟨result, s.arrived⟩, resultSize := result.size }
    objects := s.objects + 1
    arrived := s.arrived + 1
    released := s.released
    usage := s.usage + result.size }

/-- `pg_copy_result`; the copy is the next object. -/
def pgCopyResult (s : Store β) (self : Nat) : Store β :=
  let copy := s.object self
  let s := s.write self fun this => { this with resultSize := 0 }
  { s with object := Function.update s.object s.objects copy, objects := s.objects + 1 }

/-- `copy = pg_copy_result(this); this->pgresult = NULL;` -/
def copyAway (s : Store β) (self : Nat) : Store β :=
  (s.pgCopyResult self).write self fun this => { this with pgresult := none }

/-- `PQgetResult`, and `this->pgresult = pgresult`. -/
def assignResult (s : Store β) (self : Nat) (result : PGresult β) : Store β :=
  { s with arrived := s.arrived + 1 }.write self fun this => { this with pgresult := some ⟨result, s.arrived⟩ }

/-- Who holds which `PGresult`. -/
def custody (s : Store β) : Custody Nat := ⟨fun v => (s.object v).pgresult.map (·.id), s.arrived, s.released⟩

variable {s : Store β} {self v : Nat}

theorem object_write_same (f : TPgResult β → TPgResult β) : (s.write self f).object self = f (s.object self) :=
  Function.update_self ..

theorem object_write_other (f : TPgResult β → TPgResult β) (other : v ≠ self) :
    (s.write self f).object v = s.object v :=
  Function.update_of_ne other ..

theorem object_pqClear (this : TPgResult β) : (s.pqClear this).object = s.object := by
  unfold pqClear
  split
  · split <;> rfl
  · rfl

theorem objects_pqClear (this : TPgResult β) : (s.pqClear this).objects = s.objects := by
  unfold pqClear
  split
  · split <;> rfl
  · rfl

theorem arrived_pqClear (this : TPgResult β) : (s.pqClear this).arrived = s.arrived := by
  unfold pqClear
  split
  · split <;> rfl
  · rfl

variable (self) in
theorem object_clear_same :
    (s.pgresultClear self).object self = { s.object self with resultSize := 0, nfields := -1, pgresult := none } := by
  unfold pgresultClear
  rw [object_write_same, object_pqClear]

theorem object_clear_other (other : v ≠ self) : (s.pgresultClear self).object v = s.object v := by
  unfold pgresultClear
  rw [object_write_other _ other, object_pqClear]

theorem objects_clear : (s.pgresultClear self).objects = s.objects := objects_pqClear ..

theorem arrived_clear : (s.pgresultClear self).arrived = s.arrived := arrived_pqClear ..

/-- Who holds what after a write that sets the pointer of the object. -/
theorem holds_write (f : TPgResult β → TPgResult β) :
    (s.write self f).custody.holds =
      Function.update s.custody.holds self ((f (s.object self)).pgresult.map (·.id)) := by
  funext v
  by_cases same : v = self
  · subst same
    simp [custody, object_write_same]
  · simp [custody, object_write_other _ same, same]

theorem custody_write {f : TPgResult β → TPgResult β} (same : (f (s.object self)).pgresult = (s.object self).pgresult) :
    (s.write self f).custody = s.custody := by
  apply Custody.ext
  · rw [holds_write, same]
    exact Function.update_eq_self ..
  · rfl
  · rfl

theorem custody_clear (owned : (s.object self).autoclear = false) :
    (s.pgresultClear self).custody = s.custody.release self := by
  apply Custody.ext
  · unfold pgresultClear
    rw [holds_write, custody, object_pqClear]
    rfl
  · exact arrived_clear
  · show (s.pqClear (s.object self)).released = ((s.object self).pgresult.map (·.id)).toList ++ s.released
    unfold pqClear
    rw [owned]
    cases (s.object self).pgresult <;> rfl

theorem custody_clear_autoclear (lent : (s.object self).autoclear = true) :
    (s.pgresultClear self).custody = s.custody.drop self := by
  have idle : s.pqClear (s.object self) = s := by
    unfold pqClear
    rw [lent]
    cases (s.object self).pgresult <;> rfl
  unfold pgresultClear
  rw [idle]
  apply Custody.ext
  · rw [holds_write]
    rfl
  · rfl
  · rfl

theorem object_assign_same (result : PGresult β) :
    (s.assignResult self result).object self = { s.object self with pgresult := some ⟨result, s.arrived⟩ } := by
  unfold assignResult
  rw [object_write_same]

theorem custody_assign (result : PGresult β) : (s.assignResult self result).custody = s.custody.issue self := by
  apply Custody.ext
  · unfold assignResult
    rw [holds_write]
    rfl
  · rfl
  · rfl

theorem object_copyAway_self (there : self ≠ s.objects) :
    (s.copyAway self).object self = { s.object self with resultSize := 0, pgresult := none } := by
  have behind : (s.pgCopyResult self).object self = { s.object self with resultSize := 0 } :=
    (Function.update_of_ne there ..).trans (object_write_same _)
  unfold copyAway
  rw [object_write_same, behind]

theorem object_copyAway_copy (there : self ≠ s.objects) : (s.copyAway self).object s.objects = s.object self :=
  (object_write_other _ there.symm).trans (Function.update_self ..)

theorem object_copyAway_other (notSelf : v ≠ self) (notCopy : v ≠ s.objects) : (s.copyAway self).object v = s.object v :=
  (object_write_other _ notSelf).trans ((Function.update_of_ne notCopy ..).trans (object_write_other _ notSelf))

/-- The copy takes over what the object holds. -/
theorem custody_copyAway (there : self ≠ s.objects) : (s.copyAway self).custody = s.custody.hand self s.objects := by
  apply Custody.ext
  · funext v
    unfold custody Custody.hand
    by_cases same : v = self
    · subst same
      simp [object_copyAway_self there]
    · by_cases copy : v = s.objects
      · subst copy
        simp [object_copyAway_copy there, same]
      · simp [object_copyAway_other same copy, same, copy]
  · rfl
  · rfl

/-- What the garbage collector was told is what the objects answer for, and there are no results that
libpq clears itself. -/
structure Accounts (s : Store β) : Prop where
  total : s.usage = ∑ v ∈ Finset.range s.objects, ((s.object v).resultSize : Int)
  idle : ∀ v, (s.object v).pgresult = none → (s.object v).resultSize = 0
  owned : ∀ v, (s.object v).autoclear = false
  beyond : ∀ v, s.objects ≤ v → (s.object v).pgresult = none

/-- A sum over objects one of which changes. -/
theorem sum_write (f : TPgResult β → TPgResult β) (there : self < s.objects) :
    (∑ v ∈ Finset.range s.objects, (((s.write self f).object v).resultSize : Int)) =
      (∑ v ∈ Finset.range s.objects, ((s.object v).resultSize : Int)) - (s.object self).resultSize +
        (f (s.object self)).resultSize := by
  have member : self ∈ Finset.range s.objects := Finset.mem_range.2 there
  have others : ∀ v ∈ (Finset.range s.objects).erase self,
      (((s.write self f).object v).resultSize : Int) = (s.object v).resultSize := by
    intro v among
    rw [object_write_other f (Finset.ne_of_mem_erase among)]
  rw [← Finset.sum_erase_add _ _ member, ← Finset.sum_erase_add (a := self) _ _ member, object_write_same,
    Finset.sum_congr rfl others]
  omega

namespace Accounts

/-- A write that does not touch the pointer, its size and who clears it. -/
theorem write (accounts : s.Accounts) {f : TPgResult β → TPgResult β}
    (kept : ∀ this, (f this).pgresult = this.pgresult ∧ (f this).resultSize = this.resultSize ∧ (f this).autoclear = this.autoclear) :
    (s.write self f).Accounts := by
  have same : ∀ v, ((s.write self f).object v).pgresult = (s.object v).pgresult ∧
      ((s.write self f).object v).resultSize = (s.object v).resultSize ∧
      ((s.write self f).object v).autoclear = (s.object v).autoclear := by
    intro v
    by_cases here : v = self
    · subst here
      rw [object_write_same]
      exact kept _
    · rw [object_write_other f here]
      exact ⟨rfl, rfl, rfl⟩
  refine ⟨?_, fun v none => ?_, fun v => ?_, fun v outside => ?_⟩
  · refine accounts.total.trans (Finset.sum_congr rfl fun v _ => ?_)
    rw [(same v).2.1]
  · rw [(same v).2.1]
    exact accounts.idle v ((same v).1 ▸ none)
  · rw [(same v).2.2]
    exact accounts.owned v
  · rw [(same v).1]
    exact accounts.beyond v outside

theorem clear (accounts : s.Accounts) (there : self < s.objects) : (s.pgresultClear self).Accounts := by
  have usage : (s.pgresultClear self).usage = s.usage - (s.object self).resultSize := by
    show (s.pqClear (s.object self)).usage = _
    unfold pqClear
    rw [accounts.owned self]
    cases holding : (s.object self).pgresult with
    | none => simp [accounts.idle self holding]
    | some p => rfl
  refine ⟨?_, fun v none => ?_, fun v => ?_, fun v outside => ?_⟩
  · unfold pgresultClear at usage ⊢
    have sum := (s.pqClear (s.object self)).sum_write
      (fun this => { this with resultSize := 0, nfields := -1, pgresult := none }) (by rwa [objects_pqClear])
    rw [objects_pqClear, object_pqClear] at sum
    have total := accounts.total
    show _ = ∑ v ∈ Finset.range (s.pqClear (s.object self)).objects, _
    rw [objects_pqClear, sum, usage]
    simp only [Nat.cast_zero]
    omega
  · by_cases here : v = self
    · subst here
      rw [object_clear_same]
    · rw [object_clear_other here] at none ⊢
      exact accounts.idle v none
  · by_cases here : v = self
    · subst here
      rw [object_clear_same]
      exact accounts.owned v
    · rw [object_clear_other here]
      exact accounts.owned v
  · rw [objects_clear] at outside
    rw [object_clear_other (by omega)]
    exact accounts.beyond v outside

theorem assign (accounts : s.Accounts) (there : self < s.objects) (result : PGresult β) :
    (s.assignResult self result).Accounts := by
  have kept : ∀ v, ((s.assignResult self result).object v).resultSize = (s.object v).resultSize ∧
      ((s.assignResult self result).object v).autoclear = (s.object v).autoclear := by
    intro v
    by_cases here : v = self
    · subst here
      simp [assignResult, object_write_same]
    · simp [assignResult, object_write_other _ here]
  refine ⟨?_, fun v none => ?_, fun v => ?_, fun v outside => ?_⟩
  · refine accounts.total.trans (Finset.sum_congr rfl fun v _ => ?_)
    rw [(kept v).1]
  · rw [(kept v).1]
    apply accounts.idle
    by_cases here : v = self
    · subst here
      rw [assignResult, object_write_same] at none
      cases none
    · rwa [assignResult, object_write_other _ here] at none
  · rw [(kept v).2]
    exact accounts.owned v
  · have other : v ≠ self := Nat.ne_of_gt (Nat.lt_of_lt_of_le there outside)
    rw [assignResult, object_write_other _ other]
    exact accounts.beyond v outside

theorem copyAway (accounts : s.Accounts) (there : self < s.objects) : (s.copyAway self).Accounts := by
  have new := object_copyAway_copy (Nat.ne_of_lt there)
  have old := object_copyAway_self (Nat.ne_of_lt there)
  have count : (s.copyAway self).objects = s.objects + 1 := rfl
  refine ⟨?_, fun v none => ?_, fun v => ?_, fun v outside => ?_⟩
  · have sum := s.sum_write (fun this => { this with resultSize := 0, pgresult := none }) there
    have same : ∀ v ∈ Finset.range s.objects, (((s.copyAway self).object v).resultSize : Int) =
        ((s.write self fun this => { this with resultSize := 0, pgresult := none }).object v).resultSize := by
      intro v among
      have below := Finset.mem_range.1 among
      by_cases here : v = self
      · subst here
        rw [old, object_write_same]
      · rw [object_copyAway_other here (by omega), object_write_other _ here]
    rw [count, Finset.sum_range_succ, new, Finset.sum_congr rfl same, sum]
    have total := accounts.total
    show s.usage = _
    simp only [Nat.cast_zero]
    omega
  · by_cases here : v = self
    · subst here
      rw [old]
    · by_cases copy : v = s.objects
      · subst copy
        rw [new] at none ⊢
        exact accounts.idle self none
      · rw [object_copyAway_other here copy] at none ⊢
        exact accounts.idle v none
  · by_cases here : v = self
    · subst here
      rw [old]
      exact accounts.owned v
    · by_cases copy : v = s.objects
      · subst copy
        rw [new]
        exact accounts.owned self
      · rw [object_copyAway_other here copy]
        exact accounts.owned v
  · rw [count] at outside
    rw [object_copyAway_other (by omega) (by omega)]
    exact accounts.beyond v (by omega)

end Accounts

/-- What the functions of this file keep. -/
structure Closed (Φ : Store β → Prop) : Prop where
  sound : ∀ {s}, Φ s → s.custody.Sound
  self : ∀ {s}, Φ s → 0 < s.objects
  write : ∀ {s v} {f : TPgResult β → TPgResult β}, Φ s →
    (∀ this, (f this).pgresult = this.pgresult ∧ (f this).resultSize = this.resultSize ∧ (f this).autoclear = this.autoclear) →
    Φ (s.write v f)
  clear : ∀ {s v}, Φ s → v < s.objects → Φ (s.pgresultClear v)
  copyAway : ∀ {s}, Φ s → Φ (s.copyAway 0)
  assign : ∀ {s} (result : PGresult β), Φ s → (s.object 0).pgresult = none → Φ (s.assignResult 0 result)

/-- No two objects hold the same `PGresult`, and none holds a released one. -/
structure Unshared (s : Store β) : Prop where
  sound : s.custody.Sound
  self : 0 < s.objects

/-- Every `PGresult` that was not released is held, and accounted for. -/
structure Owned (s : Store β) : Prop extends Unshared s where
  complete : s.custody.Complete
  accounts : s.Accounts

theorem holds_null (null : (s.object v).pgresult = none) : s.custody.holds v = none := by
  show (s.object v).pgresult.map (·.id) = none
  rw [null]
  rfl

theorem Unshared.closed : Closed (Unshared (β := β)) where
  sound unshared := unshared.sound
  self unshared := unshared.self
  write unshared kept := by
    refine ⟨?_, unshared.self⟩
    rw [custody_write (kept _).1]
    exact unshared.sound
  clear {s v} unshared _ := by
    constructor
    · cases lent : (s.object v).autoclear with
      | true =>
        rw [custody_clear_autoclear lent]
        exact unshared.sound.drop
      | false =>
        rw [custody_clear lent]
        exact unshared.sound.release
    · rw [objects_clear]
      exact unshared.self
  copyAway unshared := by
    have there := Nat.ne_of_lt unshared.self
    refine ⟨?_, Nat.succ_pos _⟩
    rw [custody_copyAway there]
    exact unshared.sound.hand there.symm
  assign result unshared _ := by
    refine ⟨?_, unshared.self⟩
    rw [custody_assign]
    exact unshared.sound.issue

theorem Owned.closed : Closed (Owned (β := β)) where
  sound owned := owned.sound
  self owned := owned.self
  write owned kept := by
    refine ⟨Unshared.closed.write owned.toUnshared kept, ?_, owned.accounts.write kept⟩
    rw [custody_write (kept _).1]
    exact owned.complete
  clear {s v} owned there := by
    refine ⟨Unshared.closed.clear owned.toUnshared there, ?_, owned.accounts.clear there⟩
    rw [custody_clear (owned.accounts.owned v)]
    exact owned.complete.release
  copyAway {s} owned := by
    have there := Nat.ne_of_lt owned.self
    have free : s.custody.holds s.objects = none := holds_null (owned.accounts.beyond s.objects (Nat.le_refl _))
    refine ⟨Unshared.closed.copyAway owned.toUnshared, ?_, owned.accounts.copyAway owned.self⟩
    rw [custody_copyAway there]
    exact owned.complete.hand free there.symm
  assign {s} result owned null := by
    refine ⟨Unshared.closed.assign result owned.toUnshared null, ?_, owned.accounts.assign owned.self result⟩
    rw [custody_assign]
    exact owned.complete.issue (holds_null null)

section Collected

variable {Φ : Store β → Prop} {garbage : List Nat}

theorem objects_collect : (s.collect garbage).objects = s.objects := by
  induction garbage generalizing s with
  | nil => rfl
  | cons v garbage ih => exact (ih (s := s.pgresultClear v)).trans objects_clear

theorem arrived_collect : (s.collect garbage).arrived = s.arrived := by
  induction garbage generalizing s with
  | nil => rfl
  | cons v garbage ih => exact (ih (s := s.pgresultClear v)).trans arrived_clear

theorem object_collect (kept : v ∉ garbage) : (s.collect garbage).object v = s.object v := by
  induction garbage generalizing s with
  | nil => rfl
  | cons u garbage ih =>
    rw [List.mem_cons, not_or] at kept
    exact (ih (s := s.pgresultClear u) kept.2).trans (object_clear_other kept.1)

theorem Closed.collect (closed : Closed Φ) (holds : Φ s) (there : ∀ v ∈ garbage, v < s.objects) : Φ (s.collect garbage) := by
  induction garbage generalizing s with
  | nil => exact holds
  | cons v garbage ih =>
    apply ih (closed.clear holds (there v List.mem_cons_self))
    intro u member
    show u < (s.pgresultClear v).objects
    rw [objects_clear]
    exact there u (List.mem_cons_of_mem _ member)

end Collected

end Store

end RubyPg.PgResult
