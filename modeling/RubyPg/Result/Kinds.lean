import RubyPg.Result.Streams

/-!
# Streaming Hashes, Arrays and tuples

What a round of `stream_each`, `stream_each_row` and `stream_each_tuple` does, by the fate of its rows,
and what it does after the block has cleared the result.
-/

namespace RubyPg.PgResult
set_option autoImplicit false

variable {α β ε : Type}

/-- A way of yielding the rows of a stream. -/
structure Kind (α β ε : Type) where
  yielder : Block ε → Nat → Nat → Iter α β ε Bool
  /-- The rows, by what the object was like when the `PGresult` came. -/
  row : TPgResult β → Pointer β → Nat → Except (Exit ε) (Row α)
  /-- What the object is like when the next one comes. -/
  next : TPgResult β → TPgResult β
  /-- The rows take two objects for the same. -/
  alike : TPgResult β → TPgResult β → Prop
  /-- The rows are those of a copy. -/
  copies : Bool
  /-- The rows are read through the getter of the result that checks it. -/
  guarded : Bool

namespace Kind

/-- `yield_hash`. -/
def hash (decode : Nat → Nat → β → Except ε α) : Kind α β ε where
  yielder := yieldHash decode
  row this p := hashRow decode this p.toPGresult
  next _ := {}
  alike this object := ∀ p n, hashRow decode object p n = hashRow decode this p n
  copies := false
  guarded := true

/-- `yield_array`. -/
def array (decode : Nat → Nat → β → Except ε α) : Kind α β ε where
  yielder := yieldArray decode
  row _ p := arrayRow decode p.toPGresult p.nfields
  next _ := {}
  alike _ _ := True
  copies := false
  guarded := false

/-- `yield_tuple`; the object behind the tuples of a `PGresult` comes right behind the result and the copies
for the ones before it. -/
def tuple : Kind α β ε where
  yielder := yieldTuple
  row this p := tupleRow this p (p.id + 1)
  next this := this
  alike this object := object.nfields = this.nfields ∧ object.fieldMap = this.fieldMap ∧ this.fieldMap.isSome = true
  copies := true
  guarded := false

/-- The rows of a `PGresult`. -/
def rows (k : Kind α β ε) (this : TPgResult β) (p : Pointer β) : List (Except (Exit ε) (Row α)) :=
  (List.range' 0 p.ntuples).map (k.row this p)

end Kind

/-- A `PGresult` came, and the result is not cleared. -/
structure Current (Φ : Store β → Prop) (k : Kind α β ε) (this : TPgResult β) (p : Pointer β) (frozen : Bool)
    (w : World α β) : Prop extends Sane Φ w where
  frozen : w.frozen = frozen
  uncleared : w.clearedAt = none
  holds : (w.store.object 0).pgresult = some p
  alike : k.alike this (w.store.object 0)
  arrived : w.store.arrived = p.id + 1
  copies : k.copies = true → w.store.objects = p.id + 1

/-- The rows of a `PGresult` have been yielded, and the result is not cleared. -/
structure Paused (Φ : Store β → Prop) (k : Kind α β ε) (this : TPgResult β) (frozen : Bool) (w : World α β) : Prop
    extends Sane Φ w where
  frozen : w.frozen = frozen
  uncleared : w.clearedAt = none
  null : (w.store.object 0).pgresult = none
  alike : k.alike this (w.store.object 0)
  copies : k.copies = true → w.store.objects = w.store.arrived + 1

/-- The result is cleared, and the block got no row since. -/
structure Spent (Φ : Store β → Prop) (k : Kind α β ε) (w : World α β) : Prop extends Sane Φ w where
  now : w.clearedAt = some w.handed.length
  unnamed : (w.store.object 0).nfields = -1
  mapped : k.copies = true → (w.store.object 0).fieldMap.isSome = true

/-- What a round does to a `PGresult`, by the fate of its rows. -/
inductive Rounds (Φ : Store β → Prop) (k : Kind α β ε) (block : Block ε) (this : TPgResult β) (p : Pointer β)
    (frozen : Bool) (round : Iter α β ε Bool) (w : World α β) : Fate → Prop where
  | left (e : Exit ε) (w' : World α β) (run : round w = (.error e, w')) (settled : Settled Φ e w')
      (handed : w'.handed = w.handed ++ upToExit block w.handed.length (k.rows this p)) :
      Rounds Φ k block this p frozen round w .left
  | passed (w' : World α β) (run : round w = (.ok true, w')) (paused : Paused Φ k (k.next this) frozen w')
      (arrived : w'.store.arrived = p.id + 1)
      (handed : w'.handed = w.handed ++ upToExit block w.handed.length (k.rows this p))
      (count : w'.handed.length = w.handed.length + p.ntuples) : Rounds Φ k block this p frozen round w .passed
  | spent (w' : World α β) (run : round w = (.ok true, w')) (spent : Spent Φ k w')
      (null : (w'.store.object 0).pgresult = none) : Rounds Φ k block this p frozen round w (.cleared 0)
  | raised (rest : Nat) (w' : World α β) (guarded : k.guarded = true)
      (run : round w = (.error (.error .pgError "result has been cleared"), w')) (sane : Sane Φ w')
      (now : w'.clearedAt = some w'.handed.length) : Rounds Φ k block this p frozen round w (.cleared (rest + 1))
  | breached (rest : Nat) (unguarded : k.guarded = false) (breached : Breached (round w).2) :
      Rounds Φ k block this p frozen round w (.cleared (rest + 1))

/-- What a stream needs to know of the way it yields rows. -/
structure Kind.Correct (Φ : Store β → Prop) (k : Kind α β ε) : Prop where
  round : ∀ {block this p frozen w}, Current Φ k this p frozen w →
    Rounds Φ k block this p frozen (chunk (k.yielder block) p.ntuples p.nfields) w
      (fate (block.unless frozen) w.handed.length (k.rows this p))
  idle : ∀ {block : Block ε} {p : Pointer β} {w : World α β}, Spent Φ k w → (w.store.object 0).pgresult = some p → p.ntuples = 0 →
    ∃ w', chunk (k.yielder block) p.ntuples p.nfields w = (.ok true, w') ∧ Spent Φ k w' ∧ (w'.store.object 0).pgresult = none
  late : ∀ {block : Block ε} {p : Pointer β} {w : World α β}, Spent Φ k w → (w.store.object 0).pgresult = some p → p.ntuples ≠ 0 →
    Breached (chunk (k.yielder block) p.ntuples p.nfields w).2 ∨
      ∃ e w', chunk (k.yielder block) p.ntuples p.nfields w = (.error e, w') ∧ w'.clearedAt ≠ none ∧ ¬Ends (.error e)
  /-- The rows do not depend on what the object holds. -/
  blind : ∀ {this object : TPgResult β} (p : Pointer β), k.alike this object → k.alike this { object with pgresult := some p }
  keeps : ∀ (block : Block ε) ntuples nfields, Method.Preserves Breached (k.yielder block ntuples nfields)

/-- `copy = pg_copy_result(this); this->pgresult = NULL;` -/
def World.copyAway (w : World α β) : World α β := { w with store := w.store.copyAway 0 }

section Live

variable {Φ : Store β → Prop} {w : World α β} {v : Nat} {p : Pointer β}

/-- What a sane state holds is not released. -/
theorem Sane.live (sane : Sane Φ w) (closed : Store.Closed Φ) (holds : (w.store.object v).pgresult = some p) :
    Live w v p where
  holds := holds
  unreleased := by
    apply (closed.sound sane.store).apart v
    show (w.store.object v).pgresult.map (·.id) = _
    rw [holds]
    rfl

theorem Sane.clear (sane : Sane Φ w) (closed : Store.Closed Φ) : Sane Φ (w.pgresultClear 0) :=
  ⟨closed.clear sane.store (closed.self sane.store), sane.past, sane.untouched⟩

theorem Sane.copyAway (sane : Sane Φ w) (closed : Store.Closed Φ) : Sane Φ w.copyAway :=
  ⟨closed.copyAway sane.store, sane.past, sane.untouched⟩

end Live

section Loop

variable {w w' : World α β} {block : Block ε} {kept n fuel ntuples : Nat} {make : Nat → Iter α β ε (Row α)} {row : Row α}

theorem forTuples_end : forTuples block kept (pure ntuples) make (fuel + 1) ntuples w = (.ok (), w) := by
  unfold forTuples
  rw [Method.pure_bind_apply, if_neg (Nat.lt_irrefl _)]
  rfl

theorem forTuples_error {e : Exit ε} (inside : n < ntuples) (raised : make n w = (.error e, w')) :
    forTuples block kept (pure ntuples) make (fuel + 1) n w = (.error e, w') := by
  unfold forTuples
  rw [Method.pure_bind_apply, if_pos inside]
  exact Method.bind_error raised

/-- A row for the block after it cleared the result. -/
theorem forTuples_breached (makes : ∀ n, Method.Preserves Breached (make n)) (inside : n < ntuples)
    (made : make n w = (.ok row, w')) (now : w'.clearedAt = some w'.handed.length) :
    Breached (forTuples block kept (pure ntuples) make (fuel + 1) n w).2 := by
  have late : Breached (w'.yield block kept row) := by
    refine .inr ⟨w'.handed.length, Breached.clearedAt_yield now, ?_⟩
    rw [handed_yield, List.length_append]
    exact Nat.lt_succ_self _
  unfold forTuples
  rw [Method.pure_bind_apply, if_pos inside, Method.bind_ok made]
  cases leaves : block.leaves w'.handed.length with
  | some how =>
    have called := rbYield_apply block kept row (w := w') (ε := ε)
    rw [leaves] at called
    rw [Method.bind_error called]
    exact late
  | none =>
    have called := rbYield_apply block kept row (w := w') (ε := ε)
    rw [leaves] at called
    rw [Method.bind_ok called]
    exact Breached.tuples (.pure _) makes fuel (n + 1) _ late

/-- A loop that begins after the block cleared the result: a row comes too late, and an exception of a decoder is not
the one that says so. -/
theorem forTuples_late {made : Except (Exit ε) (Row α)} (makes : ∀ n, Method.Preserves Breached (make n)) (inside : n < ntuples)
    (first : make n w = (made, w')) (raises : ∀ e, made = .error e → ∃ x, e = .raised x)
    (now : w'.clearedAt = some w'.handed.length) :
    let behind := fun _ : Unit => Method.change (·.pgresultClear 0) >>= fun _ => (pure true : Iter α β ε Bool)
    Breached ((forTuples block kept (pure ntuples) make (fuel + 1) n >>= behind) w).2 ∨
      ∃ e v, (forTuples block kept (pure ntuples) make (fuel + 1) n >>= behind) w = (.error e, v) ∧ v.clearedAt ≠ none ∧
        ¬Ends (.error e) := by
  intro behind
  have late : w'.clearedAt ≠ none := now ▸ Option.some_ne_none _
  cases made with
  | error e =>
    obtain ⟨x, rfl⟩ := raises e rfl
    exact .inr ⟨_, _, Method.bind_error (forTuples_error inside first), late, id⟩
  | ok row =>
    refine .inl (Method.Preserves.behind (forTuples_breached makes inside first now) fun _ => ?_)
    exact .bind (.change fun _ breached => breached) fun _ => .pure _

end Loop

section Clearing

variable {Φ : Store β → Prop} {k : Kind α β ε} {sv : Service α β ε} {block : Block ε} {this : TPgResult β}
  {frozen : Bool} {w : World α β} {f : Fate}

/-- `forTuples(...); return 1;`, and the `pgresult_clear` behind it. -/
theorem chunk_clearing {yielder : Nat → Nat → Iter α β ε Bool} {loop : Iter α β ε Unit} {ntuples nfields : Nat}
    (yields : yielder ntuples nfields = loop >>= fun _ => pure true) :
    chunk yielder ntuples nfields = loop >>= fun _ => Method.change (·.pgresultClear 0) >>= fun _ => pure true := by
  unfold chunk
  rw [yields, Method.bind_assoc]
  rfl

/-- The rounds of the ways of yielding that clear the result behind its rows. -/
theorem Ran.clearing {loop : Nat → Nat → Iter α β ε Unit} (closed : Store.Closed Φ)
    (ran : Ran Φ sv block loop 0 sv.pgresult.ntuples w f) (single : k.copies = false)
    (rows : sv.rows 0 sv.pgresult.ntuples = k.rows this sv.pgresult) (arrived : sv.arrived = sv.pgresult.id + 1)
    (alike : ∀ object : TPgResult β, object.nfields = -1 → k.alike (k.next this) object)
    (finish : ∀ w, loop 1 sv.pgresult.ntuples w = (.ok (), w))
    (more : ∀ rest w', rest < sv.pgresult.ntuples → 0 < rest → Cleared Φ sv w' →
      k.guarded = true ∧ loop (rest + 1) (sv.pgresult.ntuples - rest) w' =
          (.error (.error .pgError "result has been cleared"), w') ∨
        k.guarded = false ∧ Breached (loop (rest + 1) (sv.pgresult.ntuples - rest) w').2) :
    Rounds Φ k block this sv.pgresult sv.frozen
      (loop (sv.pgresult.ntuples + 1) 0 >>= fun _ => Method.change (·.pgresultClear 0) >>= fun _ => pure true) w f := by
  cases ran with
  | left e w' run settled handed => exact .left e w' (Method.bind_error run) settled (rows ▸ handed)
  | passed w' run serving handed count =>
    refine .passed (w'.pgresultClear 0) (Method.bind_ok run) ?_ (Store.arrived_clear.trans (serving.arrived.trans arrived))
      (rows ▸ handed) count
    have cleared := Store.object_clear_same 0 (s := w'.store)
    refine ⟨serving.toSane.clear closed, serving.frozen, serving.uncleared, congrArg TPgResult.pgresult cleared,
      alike _ (congrArg TPgResult.nfields cleared), fun copies => ?_⟩
    rw [single] at copies
    cases copies
  | cleared rest w' run below cleared =>
    cases rest with
    | zero =>
      have zero := Store.object_clear_same 0 (s := w'.store)
      have done : loop (sv.pgresult.ntuples + 1) 0 w = (.ok (), w') := run.trans (finish w')
      refine .spent (w'.pgresultClear 0) (Method.bind_ok done) ?_ (congrArg TPgResult.pgresult zero)
      refine ⟨cleared.toSane.clear closed, cleared.now, congrArg TPgResult.nfields zero, fun copies => ?_⟩
      rw [single] at copies
      cases copies
    | succ rest =>
      rcases more (rest + 1) w' below (Nat.succ_pos _) cleared with ⟨guarded, behind⟩ | ⟨unguarded, behind⟩
      · rw [← run] at behind
        exact .raised rest w' guarded (Method.bind_error behind) cleared.toSane cleared.now
      · rw [← run] at behind
        refine .breached rest unguarded (Method.Preserves.behind behind fun _ => .bind ?_ fun _ => .pure _)
        exact .change fun _ breached => breached

/-- A round without rows behind the `clear` of the block. -/
theorem Spent.clearing {loop : Iter α β ε Unit} (spent : Spent Φ k w) (closed : Store.Closed Φ) (single : k.copies = false)
    (finish : loop w = (.ok (), w)) :
    ∃ w', (loop >>= fun _ => Method.change (·.pgresultClear 0) >>= fun _ => pure true) w = (.ok true, w') ∧
      Spent Φ k w' ∧ (w'.store.object 0).pgresult = none := by
  have zero := Store.object_clear_same 0 (s := w.store)
  refine ⟨w.pgresultClear 0, Method.bind_ok finish, ?_, congrArg TPgResult.pgresult zero⟩
  refine ⟨spent.toSane.clear closed, spent.now, congrArg TPgResult.nfields zero, fun copies => ?_⟩
  rw [single] at copies
  cases copies

end Clearing

section Raised

variable {decode : Nat → Nat → β → Except ε α} {p : PGresult β}

theorem castField_error {tuple field : Nat} {e : Exit ε} (failed : castField decode p tuple field = .error e) :
    ∃ x, e = .raised x := by
  unfold castField at failed
  cases value : p.value tuple field with
  | none =>
    rw [value] at failed
    cases failed
  | some val =>
    rw [value] at failed
    dsimp only at failed
    cases cast : decode tuple field val with
    | ok a =>
      rw [cast] at failed
      cases failed
    | error x =>
      rw [cast] at failed
      cases failed
      exact ⟨x, rfl⟩

/-- A loop raises what one of its rounds raises. -/
theorem foldlM_error {δ σ ι : Type} {Q : δ → Prop} {f : σ → ι → Except δ σ} (rounds : ∀ s i e, f s i = .error e → Q e)
    {xs : List ι} {s : σ} {e : δ} (failed : xs.foldlM f s = .error e) : Q e := by
  induction xs generalizing s with
  | nil => cases failed
  | cons x xs ih =>
    rw [List.foldlM_cons] at failed
    cases here : f s x with
    | error e' =>
      rw [here] at failed
      cases failed
      exact rounds s x e here
    | ok s' =>
      rw [here] at failed
      exact ih failed

theorem mapM_error {δ ρ ι : Type} {Q : δ → Prop} {f : ι → Except δ ρ} (rounds : ∀ i e, f i = .error e → Q e)
    {xs : List ι} {e : δ} (failed : xs.mapM f = .error e) : Q e := by
  induction xs with
  | nil => cases failed
  | cons x xs ih =>
    rw [List.mapM_cons] at failed
    cases here : f x with
    | error e' =>
      rw [here] at failed
      cases failed
      exact rounds x e here
    | ok r =>
      rw [here] at failed
      cases later : xs.mapM f with
      | error e' =>
        rw [later] at failed
        cases failed
        exact ih later
      | ok rs =>
        rw [later] at failed
        cases failed

theorem hashRow_error {this : TPgResult β} {tuple : Nat} {e : Exit ε} (failed : hashRow decode this p tuple = .error e) :
    ∃ x, e = .raised x := by
  unfold hashRow at failed
  dsimp only at failed
  set rounds := List.foldlM (m := Except (Exit ε)) _ _ _ with run
  cases value : rounds with
  | ok entries =>
    rw [value] at failed
    cases failed
  | error e' =>
    rw [value] at failed
    cases failed
    refine foldlM_error (Q := fun e => ∃ x, e = .raised x) (fun entries field e raised => ?_) (run ▸ value)
    cases cast : castField decode p tuple field with
    | ok a =>
      rw [cast] at raised
      cases raised
    | error e' =>
      rw [cast] at raised
      cases raised
      exact castField_error cast

theorem arrayRow_error {nfields tuple : Nat} {e : Exit ε} (failed : arrayRow decode p nfields tuple = .error e) :
    ∃ x, e = .raised x := by
  unfold arrayRow at failed
  cases value : (List.range nfields).mapM (castField decode p tuple) with
  | ok values =>
    rw [value] at failed
    cases failed
  | error e' =>
    rw [value] at failed
    cases failed
    exact mapM_error (Q := fun e => ∃ x, e = .raised x) (fun _ _ raised => castField_error raised) value

end Raised

namespace Kind

variable {Φ : Store β → Prop}

theorem hash_correct (closed : Store.Closed Φ) (decode : Nat → Nat → β → Except ε α) : (hash decode).Correct Φ where
  round {block this p frozen w} current := by
    have serving : Serving Φ (Service.hashes decode w this p) w := {
      toSane := current.toSane
      frozen := rfl
      uncleared := current.uncleared
      objects := rfl
      arrived := rfl
      holds := current.holds
      autoclear := rfl
      fits := current.alike p.toPGresult
      base := fun _ => rfl }
    have ran := forTuples_run block closed (fun _ _ => rfl)
      (fun w' n serving inside => pgresultAref_makes closed serving inside) p.ntuples 0 w serving (Nat.zero_add _)
    rw [← current.frozen]
    rw [chunk_clearing rfl]
    refine ran.clearing closed rfl rfl current.arrived (fun object unnamed q n => hashRow_unnamed decode unnamed q n)
      (fun w => forTuples_end) fun rest w' below some' cleared => ?_
    exact .inl ⟨rfl, forTuples_error (Nat.sub_lt (Nat.lt_trans some' below) some') (pgresultAref_null cleared.null _)⟩
  idle {block p w} spent holds none := by
    rw [chunk_clearing rfl]
    refine spent.clearing closed rfl ?_
    rw [none]
    exact forTuples_end
  late {block p w} spent holds some' := by
    have live := spent.toSane.live closed holds
    have inside := Nat.pos_of_ne_zero some'
    rw [chunk_clearing rfl]
    exact forTuples_late (Breached.aref decode 0) inside (pgresultAref_live decode live inside) (fun _ => hashRow_error) spent.now
  blind {this object} p alike q n := by
    refine Eq.trans ?_ (alike q n)
    unfold hashRow TPgResult.named
    by_cases unnamed : object.nfields = -1
    · rw [if_pos unnamed, if_pos (c := ({ object with pgresult := some p } : TPgResult β).nfields = -1) unnamed]
    · rw [if_neg unnamed, if_neg (c := ({ object with pgresult := some p } : TPgResult β).nfields = -1) unnamed]
  keeps := Breached.yieldHash decode

theorem array_correct (closed : Store.Closed Φ) (decode : Nat → Nat → β → Except ε α) : (array decode).Correct Φ where
  round {block this p frozen w} current := by
    have serving : Serving Φ (Service.arrays decode w p p.nfields) w := {
      toSane := current.toSane
      frozen := rfl
      uncleared := current.uncleared
      objects := rfl
      arrived := rfl
      holds := current.holds
      autoclear := rfl
      fits := trivial
      base := fun _ => rfl }
    have ran := forTuples_run block closed (fun _ _ => rfl)
      (fun w' n serving _ => rowArray_makes closed serving) p.ntuples 0 w serving (Nat.zero_add _)
    rw [← current.frozen]
    rw [chunk_clearing rfl]
    refine ran.clearing closed rfl rfl current.arrived (fun _ _ => trivial) (fun w => forTuples_end) fun rest w' below some' cleared => ?_
    refine .inr ⟨rfl, ?_⟩
    exact forTuples_breached (Breached.array decode 0 p.nfields) (Nat.sub_lt (Nat.lt_trans some' below) some')
      (rowArray_null cleared.null p.nfields _) cleared.now
  idle {block p w} spent holds none := by
    rw [chunk_clearing rfl]
    refine spent.clearing closed rfl ?_
    rw [none]
    exact forTuples_end
  late {block p w} spent holds some' := by
    have live := spent.toSane.live closed holds
    have inside := Nat.pos_of_ne_zero some'
    have made := rowArray_live decode live p.nfields 0
    rw [chunk_clearing rfl]
    exact forTuples_late (Breached.array decode 0 p.nfields) inside made (fun _ => arrayRow_error) spent.now
  blind _ _ := trivial
  keeps := Breached.yieldArray decode

/-- `yield_tuple` works on the copy. -/
theorem chunk_yieldTuple (block : Block ε) (ntuples nfields : Nat) (w : World α β) :
    chunk (yieldTuple block) ntuples nfields w =
      (forTuples block w.store.objects (pure ntuples) (pgresultTuple w.store.objects) (ntuples + 1) 0 >>= fun _ => pure true)
        w.copyAway := by
  have yields : (yieldTuple block ntuples nfields : Iter α β ε Bool) w =
      (forTuples block w.store.objects (pure ntuples) (pgresultTuple w.store.objects) (ntuples + 1) 0 >>= fun _ => pure false)
        w.copyAway := rfl
  unfold chunk
  rw [Method.bind_congr yields, Method.bind_assoc]
  rfl

theorem tupleRow_alike {this object : TPgResult β} (p : Pointer β) (v n : Nat) (nfields : object.nfields = this.nfields)
    (fieldMap : object.fieldMap = this.fieldMap) (mapped : this.fieldMap.isSome = true) :
    (tupleRow object p v n : Except (Exit ε) (Row α)) = tupleRow this p v n := by
  unfold tupleRow
  rw [TPgResult.mapped_of_map p.toPGresult mapped, TPgResult.mapped_of_map p.toPGresult (fieldMap ▸ mapped)]
  dsimp only
  rw [nfields, fieldMap]

/-- A clear comes with a row. -/
theorem row_of_cleared {δ ρ : Type} {block : Block ε} {call rest : Nat} {rows : List (Except δ ρ)}
    (cleared : fate block call rows = .cleared rest) : ∃ row, .ok row ∈ rows := by
  cases rows with
  | nil => cases cleared
  | cons row rows =>
    cases row with
    | error e => cases cleared
    | ok row => exact ⟨row, List.mem_cons_self⟩

/-- Whether an object makes tuples is the same for all its rows. -/
theorem tupleRow_ok {this : TPgResult β} {p : Pointer β} {v n m : Nat} {row : Row α}
    (made : (tupleRow this p v n : Except (Exit ε) (Row α)) = .ok row) :
    ∃ row', (tupleRow this p v m : Except (Exit ε) (Row α)) = .ok row' := by
  unfold tupleRow at made ⊢
  dsimp only at made ⊢
  split at made
  · cases made
  · rename_i sound
    exact ⟨_, if_neg sound⟩

/-- The tuples of a copy go on behind the `clear`, which does not reach the copy. -/
theorem tuple_breached {start w : World α β} (block : Block ε) {this : TPgResult β} {p : Pointer β} {v rest : Nat}
    (closed : Store.Closed Φ) (cleared : Cleared Φ (Service.tuples start this p v : Service α β ε) w) (copy : v ≠ 0)
    (makes : ∃ n row, (tupleRow this p v n : Except (Exit ε) (Row α)) = .ok row)
    (below : rest < p.ntuples) (more : 0 < rest) :
    Breached (forTuples block v (pure p.ntuples) (pgresultTuple v) (rest + 1) (p.ntuples - rest) w).2 := by
  have inside : p.ntuples - rest < p.ntuples := Nat.sub_lt (Nat.lt_trans more below) more
  have live : Live w v p := cleared.toSane.live closed (cleared.holds copy)
  have next := pgresultTuple_live (α := α) (ε := ε) live inside
  obtain ⟨n, row, made⟩ := makes
  obtain ⟨row', again⟩ := tupleRow_ok (m := p.ntuples - rest) made
  have fits : tupleRow (w.store.object v) p v (p.ntuples - rest) = .ok row' :=
    (cleared.fits copy _).trans again
  rw [fits] at next
  exact forTuples_breached (fun n => Breached.tuple v n) inside next cleared.now

theorem tuple_round {block : Block ε} {this : TPgResult β} {p : Pointer β} {frozen : Bool} {w : World α β}
    (closed : Store.Closed Φ) (current : Current Φ (tuple : Kind α β ε) this p frozen w) :
    Rounds Φ tuple block this p frozen (chunk (yieldTuple block) p.ntuples p.nfields) w
      (fate (block.unless frozen) w.handed.length ((tuple : Kind α β ε).rows this p)) := by
  have there : 0 ≠ w.store.objects := Nat.ne_of_lt (closed.self current.store)
  have copy := Store.object_copyAway_copy there
  have self := Store.object_copyAway_self there
  obtain ⟨nfields, fieldMap, mapped⟩ := current.alike
  have count : w.store.objects = p.id + 1 := current.copies rfl
  have serving : Serving Φ (Service.tuples w.copyAway this p w.store.objects : Service α β ε) w.copyAway := {
    toSane := current.toSane.copyAway closed
    frozen := rfl
    uncleared := current.uncleared
    objects := rfl
    arrived := rfl
    holds := (congrArg TPgResult.pgresult copy).trans current.holds
    autoclear := rfl
    fits := fun n => copy ▸ tupleRow_alike p _ n nfields fieldMap mapped
    base := fun _ => rfl }
  have ran := forTuples_run block closed (fun _ _ => rfl)
    (fun w' n serving inside => pgresultTuple_makes closed serving inside) p.ntuples 0 _ serving (Nat.zero_add _)
  have rows : (Service.tuples w.copyAway this p w.store.objects : Service α β ε).rows 0 p.ntuples =
      (tuple : Kind α β ε).rows this p := by
    rw [count]
    rfl
  have same : (Service.tuples w.copyAway this p w.store.objects : Service α β ε).frozen = frozen := current.frozen
  have enter := chunk_yieldTuple (ε := ε) block p.ntuples p.nfields w
  rw [rows, same, show w.copyAway.handed = w.handed from rfl] at ran
  cases fated : fate (block.unless frozen) w.handed.length ((tuple : Kind α β ε).rows this p) with
  | left =>
    rw [fated] at ran
    cases ran with
    | left e w' run settled handed => exact .left e w' (enter.trans (Method.bind_error run)) settled (rows ▸ handed)
  | passed =>
    rw [fated] at ran
    cases ran with
    | passed w' run serving' handed counted =>
      have base := (serving'.base there.symm).trans self
      refine .passed w' (enter.trans (Method.bind_ok run)) ?_ (serving'.arrived.trans current.arrived) (rows ▸ handed) counted
      refine ⟨serving'.toSane, serving'.frozen.trans current.frozen, serving'.uncleared, congrArg TPgResult.pgresult base,
        ⟨(congrArg TPgResult.nfields base).trans nfields, (congrArg TPgResult.fieldMap base).trans fieldMap, mapped⟩, ?_⟩
      intro _
      rw [serving'.objects, serving'.arrived]
      show w.store.objects + 1 = w.store.arrived + 1
      rw [count, current.arrived]
  | cleared rest =>
    rw [fated] at ran
    cases ran with
    | cleared _ w' run below cleared =>
      have map := (cleared.fieldMap there.symm).trans ((congrArg TPgResult.fieldMap self).trans fieldMap)
      cases rest with
      | zero =>
        refine .spent w' (enter.trans (Method.bind_ok (run.trans forTuples_end))) ?_ cleared.null
        exact ⟨cleared.toSane, cleared.now, cleared.unnamed, fun _ => map.symm ▸ mapped⟩
      | succ rest =>
        refine .breached rest rfl ?_
        obtain ⟨row, member⟩ := row_of_cleared fated
        obtain ⟨n, -, made⟩ := List.mem_map.1 member
        have late := tuple_breached block closed cleared there.symm ⟨n, row, count.symm ▸ made⟩ below (Nat.succ_pos rest)
        have early := (congrArg (fun out => Breached out.2) run).mpr late
        show Breached (chunk (yieldTuple block) p.ntuples p.nfields w).2
        rw [enter]
        exact Method.Preserves.behind early fun _ => .pure _

theorem tuple_correct (closed : Store.Closed Φ) : (tuple : Kind α β ε).Correct Φ where
  round := tuple_round closed
  blind _ alike := alike
  keeps := Breached.yieldTuple
  idle {block p w} spent holds none := by
    have there : 0 ≠ w.store.objects := Nat.ne_of_lt (closed.self spent.store)
    have self := Store.object_copyAway_self there
    refine ⟨w.copyAway, ?_, ?_, congrArg TPgResult.pgresult self⟩
    · rw [none]
      exact (chunk_yieldTuple block 0 p.nfields w).trans (Method.bind_ok forTuples_end)
    · exact ⟨spent.toSane.copyAway closed, spent.now, (congrArg TPgResult.nfields self).trans spent.unnamed,
        fun copies => congrArg TPgResult.fieldMap self ▸ spent.mapped copies⟩
  late {block p w} spent holds some' := by
    have there : 0 ≠ w.store.objects := Nat.ne_of_lt (closed.self spent.store)
    have copy := Store.object_copyAway_copy there
    have live := (spent.toSane.copyAway closed).live closed ((congrArg TPgResult.pgresult copy).trans holds)
    have next := pgresultTuple_live (α := α) (ε := ε) live (Nat.pos_of_ne_zero some')
    -- the names are gone with the `clear`, but not the field map
    have fails : (tupleRow (w.copyAway.store.object w.store.objects) p w.store.objects 0 : Except (Exit ε) (Row α)) =
        .error (.error .argumentError "negative array size (or size too big)") := by
      rw [show w.copyAway.store.object w.store.objects = w.store.object 0 from copy]
      unfold tupleRow
      rw [TPgResult.mapped_of_map p.toPGresult (spent.mapped rfl)]
      dsimp only
      rw [spent.unnamed, if_pos ⟨by omega, by omega⟩]
    rw [fails] at next
    refine .inr ⟨_, _, (chunk_yieldTuple block p.ntuples p.nfields w).trans
      (Method.bind_error (forTuples_error (Nat.pos_of_ne_zero some') next)), spent.now ▸ Option.some_ne_none _, ?_⟩
    rintro ⟨cls, -⟩
    cases cls

/-- `stream_each_tuple` gives the result its field map first. -/
theorem current_mapped (closed : Store.Closed Φ) {w : World α β} {p : Pointer β} (sane : Sane Φ w)
    (holds : (w.store.object 0).pgresult = some p) (uncleared : w.clearedAt = none) (arrived : w.store.arrived = p.id + 1)
    (objects : w.store.objects = p.id + 1) :
    Current Φ (tuple : Kind α β ε) ((w.store.object 0).mapped p.toPGresult) p w.frozen (w.write 0 (·.mapped p.toPGresult)) := by
  have here : (w.write 0 (·.mapped p.toPGresult)).store.object 0 = (w.store.object 0).mapped p.toPGresult :=
    Store.object_write_same _
  have mapped : ((w.store.object 0).mapped p.toPGresult).fieldMap.isSome = true := by
    unfold TPgResult.mapped
    split
    · rfl
    · rename_i some'
      rw [Option.isNone_iff_eq_none] at some'
      exact Option.isSome_iff_ne_none.2 some'
  exact {
    store := closed.write (f := (TPgResult.mapped · p.toPGresult)) sane.store fun this => this.mapped_kept p.toPGresult
    past := sane.past
    untouched := sane.untouched
    frozen := rfl
    uncleared := uncleared
    holds := here ▸ (TPgResult.mapped_kept _ p.toPGresult).1.trans holds
    alike := here ▸ ⟨rfl, rfl, mapped⟩
    arrived := arrived
    copies := fun _ => objects }

end Kind

end RubyPg.PgResult
