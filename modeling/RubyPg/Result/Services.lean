import RubyPg.Result.Calls

/-!
# Rows as Hashes, as Arrays and as tuples

The three ways in which the methods make rows, each as a `Service` whose rows the loops hand out.
-/

namespace RubyPg.PgResult
set_option autoImplicit false

variable {α β ε : Type}

namespace TPgResult

variable (this : TPgResult β) (p : PGresult β)

theorem named_named : (this.named p).named p = this.named p := by
  by_cases unnamed : this.nfields = -1
  · have named : this.named p = { this with nfields := p.nfields, fnames := (List.range p.nfields).map p.fname } :=
      if_pos unnamed
    rw [named]
    exact if_neg (by show ¬(p.nfields : Int) = -1; omega)
  · have named : this.named p = this := if_neg unnamed
    rw [named, named]

theorem mapped_mapped : (this.mapped p).mapped p = this.mapped p := by
  have some' : (this.mapped p).fieldMap.isNone = false := by
    unfold mapped
    split
    · rfl
    · rename_i mapped
      exact Bool.eq_false_iff.2 mapped
  unfold mapped at some' ⊢
  rw [if_neg (Bool.eq_false_iff.1 some')]

theorem mapped_of_map {this : TPgResult β} (mapped : this.fieldMap.isSome = true) : this.mapped p = this := by
  unfold TPgResult.mapped
  rw [if_neg]
  rw [Option.isNone_iff_eq_none]
  exact Option.isSome_iff_ne_none.1 mapped

end TPgResult

theorem hashRow_named (decode : Nat → Nat → β → Except ε α) (this : TPgResult β) (p : PGresult β) (tuple : Nat) :
    hashRow decode (this.named p) p tuple = hashRow decode this p tuple := by
  unfold hashRow
  rw [TPgResult.named_named]

/-- Without names, they are those of the `PGresult`. -/
theorem hashRow_unnamed {this : TPgResult β} (decode : Nat → Nat → β → Except ε α) (unnamed : this.nfields = -1)
    (p : PGresult β) (tuple : Nat) : hashRow decode this p tuple = hashRow decode {} p tuple := by
  unfold hashRow TPgResult.named
  rw [if_pos unnamed, if_pos (c := ({} : TPgResult β).nfields = -1) rfl]

theorem tupleRow_mapped (this : TPgResult β) (p : Pointer β) (v tuple : Nat) :
    (tupleRow (this.mapped p.toPGresult) p v tuple : Except (Exit ε) (Row α)) = tupleRow this p v tuple := by
  unfold tupleRow
  rw [TPgResult.mapped_mapped]

section Services

variable {Φ : Store β → Prop} {sv : Service α β ε} {w : World α β}

/-- A write to the object that its rows do not see. -/
theorem Serving.write (serving : Serving Φ sv w) (closed : Store.Closed Φ) {f : TPgResult β → TPgResult β}
    (kept : ∀ this, (f this).pgresult = this.pgresult ∧ (f this).resultSize = this.resultSize ∧ (f this).autoclear = this.autoclear)
    (fits : sv.fit (f (w.store.object sv.object))) : Serving Φ sv (w.write sv.object f) := by
  have here : (w.write sv.object f).store.object sv.object = f (w.store.object sv.object) := Store.object_write_same f
  exact {
    store := closed.write serving.store kept
    past := serving.past
    untouched := serving.untouched
    frozen := serving.frozen
    uncleared := serving.uncleared
    objects := serving.objects
    arrived := serving.arrived
    holds := here ▸ (kept _).1.trans serving.holds
    autoclear := here ▸ (kept _).2.2.trans serving.autoclear
    fits := here ▸ fits
    base := fun other => (Store.object_write_other f other.symm).trans (serving.base other) }

theorem Serving.count (serving : Serving Φ sv w) (closed : Store.Closed Φ) :
    (ask sv.pgresult (·.ntuples) : Iter α β ε Nat) w = (.ok sv.pgresult.ntuples, w) :=
  ask_unreleased (serving.live closed).unreleased

variable (decode : Nat → Nat → β → Except ε α) (start : World α β) (this : TPgResult β) (p : Pointer β)

/-- The rows of the result as Hashes, from a state on. -/
def Service.hashes : Service α β ε where
  object := 0
  pgresult := p
  row := hashRow decode this p.toPGresult
  autoclear := (start.store.object 0).autoclear
  frozen := start.frozen
  objects := start.store.objects
  arrived := start.store.arrived
  fit object := ∀ n, hashRow decode object p.toPGresult n = hashRow decode this p.toPGresult n
  base := start.store.object 0

/-- The rows of the result as Arrays. -/
def Service.arrays (nfields : Nat) : Service α β ε where
  object := 0
  pgresult := p
  row := arrayRow decode p.toPGresult nfields
  autoclear := (start.store.object 0).autoclear
  frozen := start.frozen
  objects := start.store.objects
  arrived := start.store.arrived
  fit _ := True
  base := start.store.object 0

/-- The rows of an object as `PG::Tuple`s. -/
def Service.tuples (v : Nat) : Service α β ε where
  object := v
  pgresult := p
  row := tupleRow this p v
  autoclear := (start.store.object v).autoclear
  frozen := start.frozen
  objects := start.store.objects
  arrived := start.store.arrived
  fit object := ∀ n, (tupleRow object p v n : Except (Exit ε) (Row α)) = tupleRow this p v n
  base := start.store.object 0

variable {decode start this p}

theorem pgresultAref_makes (closed : Store.Closed Φ) {n : Nat} (serving : Serving Φ (.hashes decode start this p) w)
    (inside : n < p.ntuples) : ∃ w', pgresultAref decode 0 n w = (hashRow decode this p.toPGresult n, w') ∧
      Serving Φ (.hashes decode start this p) w' ∧ w'.handed = w.handed := by
  refine ⟨_, (pgresultAref_live _ (serving.live closed) inside).trans (congrArg (·, _) (serving.fits n)), ?_, rfl⟩
  refine serving.write closed (fun this => this.named_kept p.toPGresult) fun m => ?_
  exact (hashRow_named decode _ p.toPGresult m).trans (serving.fits m)

theorem rowArray_makes (closed : Store.Closed Φ) {n nfields : Nat}
    (serving : Serving Φ (.arrays decode start p nfields) w) :
    ∃ w', rowArray decode 0 nfields n w = (arrayRow decode p.toPGresult nfields n, w') ∧
      Serving Φ (.arrays decode start p nfields) w' ∧ w'.handed = w.handed :=
  ⟨w, rowArray_live _ (serving.live closed) nfields n, serving, rfl⟩

theorem pgresultTuple_makes (closed : Store.Closed Φ) {n v : Nat}
    (serving : Serving Φ (Service.tuples start this p v : Service α β ε) w) (inside : n < p.ntuples) :
    ∃ w', (pgresultTuple v n : Iter α β ε (Row α)) w = (tupleRow this p v n, w') ∧
      Serving Φ (Service.tuples start this p v : Service α β ε) w' ∧ w'.handed = w.handed := by
  refine ⟨_, (pgresultTuple_live (serving.live closed) inside).trans (congrArg (·, _) (serving.fits n)), ?_, rfl⟩
  refine serving.write closed (fun this => this.mapped_kept p.toPGresult) fun m => ?_
  exact (tupleRow_mapped _ p v m).trans (serving.fits m)

end Services

end RubyPg.PgResult
