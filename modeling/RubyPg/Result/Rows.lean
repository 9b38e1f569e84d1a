import RubyPg.Result.Iteration

/-!
# The rows of a result

What the methods make of a row of a `PGresult` that the object holds and that is not released
(`Live`), as functions of the object and the `PGresult`; and what they make of it when the object's
pointer is NULL.
-/

namespace RubyPg.PgResult
set_option autoImplicit false

variable {α β ε : Type}

/-- The object with its field names filled in. -/
def TPgResult.named (this : TPgResult β) (p : PGresult β) : TPgResult β :=
  if this.nfields = -1 then { this with nfields := p.nfields, fnames := (List.range p.nfields).map p.fname } else this

/-- The object with its field names and its field map filled in. -/
def TPgResult.mapped (this : TPgResult β) (p : PGresult β) : TPgResult β :=
  if this.fieldMap.isNone then
    { this.named p with
      fieldMap := some (OrderedHash.indexHash ((this.named p).fnames.take (this.named p).nfields.toNat)) }
  else this

namespace TPgResult

variable (this : TPgResult β) (p : PGresult β)

/-- Filling in the names leaves what the object answers for alone. -/
theorem named_kept : (this.named p).pgresult = this.pgresult ∧ (this.named p).resultSize = this.resultSize ∧
    (this.named p).autoclear = this.autoclear := by
  unfold named
  split
  · exact ⟨rfl, rfl, rfl⟩
  · exact ⟨rfl, rfl, rfl⟩

theorem mapped_kept : (this.mapped p).pgresult = this.pgresult ∧ (this.mapped p).resultSize = this.resultSize ∧
    (this.mapped p).autoclear = this.autoclear := by
  unfold mapped
  split
  · exact this.named_kept p
  · exact ⟨rfl, rfl, rfl⟩

end TPgResult

/-- A field as a Ruby object. -/
def castField (decode : Nat → Nat → β → Except ε α) (p : PGresult β) (tuple field : Nat) : Except (Exit ε) (Option α) :=
  match p.value tuple field with
  | none => .ok none
  | some val => (decode tuple field val).map some |>.mapError Exit.raised

/-- A row as a Hash. -/
def hashRow (decode : Nat → Nat → β → Except ε α) (this : TPgResult β) (p : PGresult β) (tuple : Nat) :
    Except (Exit ε) (Row α) := do
  let this := this.named p
  let aset entries field := do
    let val ← castField decode p tuple field
    pure (OrderedHash.aset entries (this.fnames.getD field "") val)
  let entries ← (List.range this.nfields.toNat).foldlM aset []
  pure (.hash entries)

/-- A row as an Array. -/
def arrayRow (decode : Nat → Nat → β → Except ε α) (p : PGresult β) (nfields tuple : Nat) : Except (Exit ε) (Row α) := do
  let values ← (List.range nfields).mapM (castField decode p tuple)
  pure (.array values)

/-- A row as a `PG::Tuple`. -/
def tupleRow (this : TPgResult β) (p : Pointer β) (self tuple : Nat) : Except (Exit ε) (Row α) :=
  let this := this.mapped p.toPGresult
  if this.nfields ≠ (this.fieldMap.getD []).length ∧ this.nfields < 0 then
    .error (.error .argumentError "negative array size (or size too big)")
  else .ok (.tuple self tuple this.nfields (some p.id))

/-- The object holds this `PGresult`, and it is not released. -/
structure Live (w : World α β) (v : Nat) (p : Pointer β) : Prop where
  holds : (w.store.object v).pgresult = some p
  unreleased : p.id ∉ w.store.released

theorem World.write_congr {w : World α β} {v : Nat} {f g : TPgResult β → TPgResult β}
    (same : f (w.store.object v) = g (w.store.object v)) : w.write v f = w.write v g := by
  unfold World.write Store.write
  rw [same]

/-- A write that changes nothing. -/
theorem World.write_same {w : World α β} {v : Nat} {f : TPgResult β → TPgResult β}
    (same : f (w.store.object v) = w.store.object v) : w.write v f = w := by
  unfold World.write Store.write
  rw [same, Function.update_eq_self]

section Live

variable {w : World α β} {v : Nat} {p : Pointer β} {decode : Nat → Nat → β → Except ε α}

theorem ask_unreleased {γ : Type} {accessor : PGresult β → γ} (unreleased : p.id ∉ w.store.released) :
    (ask p accessor : Iter α β ε γ) w = (.ok (accessor p.toPGresult), w) := by
  unfold ask
  rw [Method.change_bind, if_neg unreleased]
  rfl

theorem pgresultGet_live (live : Live w v p) : (pgresultGet v : Iter α β ε _) w = (.ok p, w) := by
  have got : (pgresultGetThis v : Iter α β ε _) w = (.ok (w.store.object v), w) := rfl
  unfold pgresultGet
  rw [Method.bind_ok got, live.holds]
  rfl

theorem pgresultGet_null (null : (w.store.object v).pgresult = none) :
    (pgresultGet v : Iter α β ε _) w = (.error (.error .pgError "result has been cleared"), w) := by
  have got : (pgresultGetThis v : Iter α β ε _) w = (.ok (w.store.object v), w) := rfl
  unfold pgresultGet
  rw [Method.bind_ok got, null]
  rfl

theorem pgresultInitFnames_live (live : Live w v p) :
    (pgresultInitFnames v : Iter α β ε _) w = (.ok (), w.write v (·.named p.toPGresult)) := by
  have got : (pgresultGetThis v : Iter α β ε _) w = (.ok (w.store.object v), w) := rfl
  unfold pgresultInitFnames
  rw [Method.bind_ok (pgresultGet_live live), Method.bind_ok got]
  by_cases unnamed : (w.store.object v).nfields = -1
  · have names : ((List.range p.nfields).mapM fun i => (ask p (·.fname i) : Iter α β ε String)) w =
        (.ok ((List.range p.nfields).map p.fname), w) := by
      refine (Method.mapM_at (g := fun i => .ok (p.fname i)) fun i _ => ask_unreleased live.unreleased).trans ?_
      exact congrArg (·, w) (List.mapM_pure ..)
    rw [if_pos unnamed, Method.bind_ok (ask_unreleased live.unreleased), Method.bind_ok names]
    exact congrArg (Except.ok (), ·) (World.write_congr (if_pos unnamed).symm)
  · have same : w.write v (·.named p.toPGresult) = w := World.write_same (if_neg unnamed)
    rw [if_neg unnamed, same]
    rfl

theorem typecastResultValue_live (live : Live w v p) (tuple field : Nat) :
    typecastResultValue decode v tuple field w = (castField decode p.toPGresult tuple field, w) := by
  have got : (pgresultGetThis v : Iter α β ε _) w = (.ok (w.store.object v), w) := rfl
  have read : (ask p (·.value tuple field) : Iter α β ε _) w = (.ok (p.value tuple field), w) :=
    ask_unreleased live.unreleased
  unfold typecastResultValue castField
  rw [Method.bind_ok got, live.holds]
  show (ask p _ >>= _) w = _
  rw [Method.bind_ok read]
  cases p.value tuple field <;> rfl

/-- The names are there after that. -/
theorem live_named (live : Live w v p) : Live (w.write v (·.named p.toPGresult)) v p where
  holds := by
    refine (congrArg _ (Store.object_write_same _)).trans (Eq.trans ?_ live.holds)
    show (TPgResult.named _ _).pgresult = _
    unfold TPgResult.named
    split <;> rfl
  unreleased := live.unreleased

variable (decode) in
theorem pgresultAref_live (live : Live w v p) {tuple : Nat} (inside : tuple < p.ntuples) :
    pgresultAref decode v tuple w =
      (hashRow decode (w.store.object v) p.toPGresult tuple, w.write v (·.named p.toPGresult)) := by
  have count : (ask p (·.ntuples) : Iter α β ε _) w = (.ok p.ntuples, w) := ask_unreleased live.unreleased
  have index : (checkIndex tuple p.ntuples : Iter α β ε _) (w.write v (·.named p.toPGresult)) =
      (.ok (), w.write v (·.named p.toPGresult)) := by
    unfold checkIndex
    rw [if_pos inside]
    rfl
  have got : (pgresultGetThis v : Iter α β ε _) (w.write v (·.named p.toPGresult)) =
      (.ok ((w.store.object v).named p.toPGresult), w.write v (·.named p.toPGresult)) :=
    congrArg (Except.ok ·, _) (Store.object_write_same _)
  unfold pgresultAref hashRow
  rw [Method.bind_ok (pgresultGet_live live), Method.bind_ok count, Method.bind_ok (pgresultInitFnames_live live),
    Method.bind_ok index, Method.bind_ok got]
  apply Method.bind_pure_at
  apply Method.foldlM_at
  intro entries field _
  exact Method.bind_pure_at (typecastResultValue_live (live_named live) tuple field)

variable (decode) in
theorem rowArray_live (live : Live w v p) (nfields tuple : Nat) :
    rowArray decode v nfields tuple w = (arrayRow decode p.toPGresult nfields tuple, w) := by
  apply Method.bind_pure_at
  apply Method.mapM_at
  exact fun field _ => typecastResultValue_live live tuple field

theorem ensureInitForTuple_live (live : Live w v p) :
    (ensureInitForTuple v : Iter α β ε _) w = (.ok (), w.write v (·.mapped p.toPGresult)) := by
  have got : (pgresultGetThis v : Iter α β ε _) w = (.ok (w.store.object v), w) := rfl
  unfold ensureInitForTuple
  rw [Method.bind_ok (pgresultGet_live live), Method.bind_ok got]
  by_cases unmapped : (w.store.object v).fieldMap.isNone = true
  · have behind : (w.write v (·.named p.toPGresult)).store.object v = (w.store.object v).named p.toPGresult :=
      Store.object_write_same _
    have got' : (pgresultGetThis v : Iter α β ε _) (w.write v (·.named p.toPGresult)) =
        (.ok ((w.store.object v).named p.toPGresult), w.write v (·.named p.toPGresult)) :=
      congrArg (Except.ok ·, _) behind
    rw [if_pos unmapped, Method.bind_ok (pgresultInitFnames_live live), Method.bind_ok got']
    have twice : ∀ f, (w.write v (·.named p.toPGresult)).write v f = w.write v fun this => f (this.named p.toPGresult) := by
      intro f
      unfold World.write Store.write
      simp only [Function.update_self, Function.update_idem]
    refine congrArg (Except.ok (), ·) ((twice _).trans (World.write_congr ?_))
    exact (if_pos unmapped).symm
  · have same : w.write v (·.mapped p.toPGresult) = w := World.write_same (if_neg unmapped)
    rw [if_neg unmapped, same]
    rfl

theorem pgresultTuple_live (live : Live w v p) {tuple : Nat} (inside : tuple < p.ntuples) :
    (pgresultTuple v tuple : Iter α β ε _) w =
      (tupleRow (w.store.object v) p v tuple, w.write v (·.mapped p.toPGresult)) := by
  have count : (ask p (·.ntuples) : Iter α β ε _) w = (.ok p.ntuples, w) := ask_unreleased live.unreleased
  have index : (checkIndex tuple p.ntuples : Iter α β ε _) w = (.ok (), w) := by
    unfold checkIndex
    rw [if_pos inside]
    rfl
  have got : (pgresultGetThis v : Iter α β ε _) (w.write v (·.mapped p.toPGresult)) =
      (.ok ((w.store.object v).mapped p.toPGresult), w.write v (·.mapped p.toPGresult)) :=
    congrArg (Except.ok ·, _) (Store.object_write_same _)
  unfold pgresultTuple pgTupleNew tupleRow
  rw [Method.bind_ok (pgresultGet_live live), Method.bind_ok count, Method.bind_ok index,
    Method.bind_ok (ensureInitForTuple_live live), Method.bind_ok got]
  dsimp only
  rw [((w.store.object v).mapped_kept p.toPGresult).1, live.holds]
  split <;> rfl

end Live

section Null

variable {w : World α β} {v : Nat} {decode : Nat → Nat → β → Except ε α}

theorem pgresultAref_null (null : (w.store.object v).pgresult = none) (tuple : Nat) :
    pgresultAref decode v tuple w = (.error (.error .pgError "result has been cleared"), w) :=
  Method.bind_error (pgresultGet_null null)

theorem pgresultTuple_null (null : (w.store.object v).pgresult = none) (tuple : Nat) :
    (pgresultTuple v tuple : Iter α β ε _) w = (.error (.error .pgError "result has been cleared"), w) :=
  Method.bind_error (pgresultGet_null null)

/-- The type maps take the fields of a cleared result for NULL. -/
theorem rowArray_null (null : (w.store.object v).pgresult = none) (nfields tuple : Nat) :
    rowArray decode v nfields tuple w = (.ok (.array ((List.range nfields).map fun _ => none)), w) := by
  have cast : ∀ field ∈ List.range nfields, typecastResultValue decode v tuple field w = (.ok none, w) := by
    intro field _
    have got : (pgresultGetThis v : Iter α β ε _) w = (.ok (w.store.object v), w) := rfl
    unfold typecastResultValue
    rw [Method.bind_ok got, null]
    rfl
  have values : (List.range nfields).mapM (typecastResultValue decode v tuple) w =
      (.ok ((List.range nfields).map fun _ => none), w) := by
    refine (Method.mapM_at (g := fun _ => .ok none) cast).trans ?_
    exact congrArg (·, w) (List.mapM_pure ..)
  exact Method.bind_ok values

end Null

end RubyPg.PgResult
