import RubyPg.Result.StreamRuns

/-!
# Iterating over a result that the block clears

When each of the six methods heeds that the block has cleared the result. `each` and `each_tuple` ask
the released `PGresult` for its number of rows, `each_row` and `stream_each_row` take a cleared result
for one of NULL fields, `stream_each_tuple` works on copies, and all streams go on with the next
`PGresult` when the clear came with the last row of one.
-/

namespace RubyPg.PgResult
set_option autoImplicit false

variable {α β ε : Type}

/-- The methods that hand the rows of a result to a block. -/
inductive Iteration where
  | each | eachRow | eachTuple | streamEach | streamEachRow | streamEachTuple
deriving DecidableEq, Repr

/-- The method, with what libpq delivers behind the result itself. -/
def Iteration.run (method : Iteration) (decode : Nat → Nat → β → Except ε α) (block : Block ε)
    (incoming : List (Delivery β ε)) : Iter α β ε Unit :=
  match method with
  | .each => pgresultEach decode block
  | .eachRow => pgresultEachRow decode block
  | .eachTuple => pgresultEachTuple block
  | .streamEach => pgresultStreamEach decode block incoming
  | .streamEachRow => pgresultStreamEachRow decode block incoming
  | .streamEachTuple => pgresultStreamEachTuple block incoming

/-- A `PG::Result` to iterate over; without a `PGresult` if it was cleared before. -/
structure Subject (β : Type) where
  pgresult : Option (PGresult β)
  autoclear : Bool := false
  frozen : Bool := false
  nfields : Int := -1
  fnames : List String := []
  fieldMap : Option (OrderedHash String Nat) := none
  resultSize : Nat := 0

namespace Subject

variable (self : Subject β)

def this : TPgResult β :=
  ⟨self.pgresult.map (⟨·, 0⟩), self.autoclear, self.nfields, self.fnames, self.fieldMap, self.resultSize⟩

/-- The result as the only object. -/
def world : World α β where
  store := ⟨Function.update (fun _ => {}) 0 self.this, 1, 1, [], self.resultSize⟩
  frozen := self.frozen
  handed := []
  clearedAt := none
  touched := []
  moments := []

end Subject

/-- What libpq delivers has no more rows: empty results, and then the empty one at the end. -/
def Quiet (nfields : Nat) : List (Delivery β ε) → Prop
  | [] => False
  | .failed _ :: _ => False
  | .result r :: incoming => r.ntuples = 0 ∧ (r.status.finished = true ∨ r.Streams nfields ∧ Quiet nfields incoming)

/-- The block may clear the result at the last row of a `PGresult` behind which there is none any more; and
also before, if the rows are read through the getter that checks the result. -/
def Kind.Heedful (k : Kind α β ε) (block : Block ε) (this : TPgResult β) (p : Pointer β) (incoming : List (Delivery β ε)) : Prop :=
  ∀ rest more, k.leftAtClear block p.nfields 0 this p incoming = some (rest, more) →
    if rest = 0 then Quiet p.nfields more else k.guarded = true

/-- When the method heeds that the block clears the result and stays, by the row at which it does. -/
def Iteration.Heedful (method : Iteration) (decode : Nat → Nat → β → Except ε α) (block : Block ε) (self : Subject β)
    (incoming : List (Delivery β ε)) : Prop :=
  match self.pgresult with
  | none => True
  | some r =>
    let p : Pointer β := ⟨r, 0⟩
    match method with
    | .each =>
      ∀ rest, fate (block.unless self.frozen) 0 ((Kind.hash decode).rows self.this p) = .cleared rest → self.autoclear = true
    | .eachRow => ∀ rest, fate (block.unless self.frozen) 0 ((Kind.array decode).rows self.this p) = .cleared rest → rest = 0
    | .eachTuple =>
      ∀ rest, fate (ε := ε) (block.unless self.frozen) 0
        ((List.range' 0 r.ntuples).map (tupleRow self.this p 0 : Nat → Except (Exit ε) (Row α))) = .cleared rest →
        self.autoclear = true
    | .streamEach => self.frozen = true ∨ (Kind.hash decode).Heedful block self.this p incoming
    | .streamEachRow => self.frozen = true ∨ (Kind.array decode).Heedful block self.this p incoming
    | .streamEachTuple => self.frozen = true ∨ (Kind.tuple : Kind α β ε).Heedful block (self.this.mapped r) p incoming

section Loops

variable {Φ : Store β → Prop} {sv : Service α β ε} {w w' : World α β} {block : Block ε} {make : Nat → Iter α β ε (Row α)}

theorem Sane.heeds {out : Except (Exit ε) Unit} (sane : Sane Φ w) (now : w.clearedAt = none ∨ w.clearedAt = some w.handed.length)
    (ends : w.clearedAt ≠ none → Ends out) : Heeds (out, w) where
  unread := sane.untouched
  unhanded n cleared := by
    rcases now with none | now
    · rw [none] at cleared
      cases cleared
    · rw [now] at cleared
      exact Option.some_inj.1 cleared
  ends := ends

/-- An iteration that is left early heeds. -/
theorem Settled.heeds {e : Exit ε} (settled : Settled Φ e w) : Heeds (.error e, w) := by
  refine settled.toSane.heeds (settled.uncleared.imp id And.left) fun cleared => ?_
  obtain ⟨-, how, rfl⟩ := settled.uncleared.resolve_left cleared
  trivial

theorem Over.heeds {out : Except (Exit ε) Unit × World α β} (ended : Over Φ out) : Heeds out := by
  refine ended.toSane.heeds (ended.uncleared.imp id And.left) fun cleared => ?_
  obtain ⟨-, how, eq⟩ := ended.uncleared.resolve_left cleared
  rw [eq]
  trivial

/-- A loop heeds if it does once the block has cleared the result. -/
theorem Ran.heeds_behind {loop : Nat → Nat → Iter α β ε Unit} {n left : Nat} {f : Fate} {heedful : Nat → Prop}
    (ran : Ran Φ sv block loop n left w f)
    (behind : ∀ rest w', rest < sv.pgresult.ntuples → Cleared Φ sv w' →
      (Heeds (loop (rest + 1) (sv.pgresult.ntuples - rest) w') ↔ heedful rest)) :
    Heeds (loop (left + 1) n w) ↔ ∀ rest, f = .cleared rest → heedful rest := by
  cases ran with
  | left e w' run settled handed =>
    rw [run]
    exact ⟨(fun _ rest impossible => nomatch impossible), fun _ => settled.heeds⟩
  | passed w' run serving' handed count =>
    rw [run]
    refine ⟨(fun _ rest impossible => nomatch impossible), fun _ => ?_⟩
    exact serving'.toSane.heeds (.inl serving'.uncleared) fun cleared => absurd serving'.uncleared cleared
  | cleared rest w' run below cleared =>
    rw [run, behind rest w' below cleared]
    constructor
    · rintro heedful _ ⟨⟩
      exact heedful
    · intro all
      exact all rest rfl

/-- A loop that asks libpq for the number of rows each time and gets the rows through the getter. -/
theorem guarded_heeds (closed : Store.Closed Φ) (object : sv.object = 0)
    (makes : ∀ w n, Serving Φ sv w → n < sv.pgresult.ntuples →
      ∃ w', make n w = (sv.row n, w') ∧ Serving Φ sv w' ∧ w'.handed = w.handed)
    (checks : ∀ w n, (w.store.object 0).pgresult = none → make n w = (.error (.error .pgError "result has been cleared"), w))
    (keeps : ∀ n, Method.Preserves Breached (make n)) (serving : Serving Φ sv w) :
    Heeds (forTuples block 0 (ask sv.pgresult (·.ntuples)) make (sv.pgresult.ntuples + 1) 0 w) ↔
      ∀ rest, fate (block.unless sv.frozen) w.handed.length (sv.rows 0 sv.pgresult.ntuples) = .cleared rest → sv.autoclear = true := by
  have ran := forTuples_run block closed (fun w serving => serving.count closed) makes sv.pgresult.ntuples 0 w serving
    (Nat.zero_add _)
  rw [object] at ran
  apply ran.heeds_behind
  intro rest w' below cleared
  cases lent : sv.autoclear with
  | true =>
    refine ⟨fun _ => rfl, fun _ => ?_⟩
    have live : sv.pgresult.id ∉ w'.store.released := by
      intro released
      rw [(cleared.released object).1 released] at lent
      cases lent
    have count : (ask sv.pgresult (·.ntuples) : Iter α β ε Nat) w' = (.ok sv.pgresult.ntuples, w') := ask_unreleased live
    unfold forTuples
    rw [Method.bind_ok count]
    by_cases inside : sv.pgresult.ntuples - rest < sv.pgresult.ntuples
    · rw [if_pos inside, Method.bind_error (checks w' _ cleared.null)]
      exact cleared.toSane.heeds (.inr cleared.now) fun _ => ⟨rfl, rfl⟩
    · rw [if_neg inside]
      exact cleared.toSane.heeds (.inr cleared.now) fun _ => trivial
  | false =>
    refine ⟨fun heeds => absurd heeds (Breached.not_heeds ?_), fun impossible => absurd impossible Bool.false_ne_true⟩
    have gone : sv.pgresult.id ∈ w'.store.released := (cleared.released object).2 lent
    unfold forTuples
    refine Method.Preserves.behind ?_ fun ntuples => ?_
    · unfold ask
      rw [Method.change_bind, if_pos gone]
      exact .inl (List.append_ne_nil_of_right_ne_nil _ (List.cons_ne_nil _ _))
    · split
      · exact .bind (keeps _) fun row => .bind (Breached.yield block 0 row) fun _ =>
          Breached.tuples (Breached.ask _ _) keeps rest _
      · exact .pure _

/-- A loop that knows the number of rows and takes the fields of a cleared result for NULL. -/
theorem unguarded_heeds {decode : Nat → Nat → β → Except ε α} {start : World α β} {p : Pointer β} (closed : Store.Closed Φ)
    (serving : Serving Φ (Service.arrays decode start p p.nfields) w) :
    Heeds (forTuples block 0 (pure p.ntuples) (rowArray decode 0 p.nfields) (p.ntuples + 1) 0 w) ↔
      ∀ rest, fate (block.unless start.frozen) w.handed.length ((Service.arrays decode start p p.nfields).rows 0 p.ntuples) =
        .cleared rest → rest = 0 := by
  have ran : Ran Φ (Service.arrays decode start p p.nfields) block
      (forTuples block 0 (pure p.ntuples) (rowArray decode 0 p.nfields)) 0 p.ntuples w _ :=
    forTuples_run block closed (fun _ _ => rfl) (fun w' n serving _ => rowArray_makes closed serving) p.ntuples 0 w serving
      (Nat.zero_add _)
  apply ran.heeds_behind
  intro rest w' below cleared
  cases rest with
  | zero =>
    refine ⟨fun _ => rfl, fun _ => ?_⟩
    show Heeds (forTuples block 0 (pure p.ntuples) (rowArray decode 0 p.nfields) 1 p.ntuples w')
    rw [forTuples_end]
    exact cleared.toSane.heeds (.inr cleared.now) fun _ => trivial
  | succ rest =>
    refine ⟨fun heeds => absurd heeds (Breached.not_heeds ?_), fun impossible => absurd impossible (Nat.succ_ne_zero rest)⟩
    exact forTuples_breached (Breached.array decode 0 p.nfields) (Nat.sub_lt (Nat.lt_trans (Nat.succ_pos rest) below) (Nat.succ_pos rest))
      (rowArray_null cleared.null p.nfields _) cleared.now

end Loops

section Streams

variable {Φ : Store β → Prop} {k : Kind α β ε} {w w' : World α β} {block : Block ε} {p : Pointer β} {nfields : Nat}
  {more : List (Delivery β ε)}

theorem not_heeds_of_raise {e : Exit ε} (cleared : w.clearedAt ≠ none) (other : ¬Ends (.error e)) :
    ¬Heeds ((.error e, w) : Except (Exit ε) Unit × World α β) := fun heeds => other (heeds.ends cleared)

/-- The next `PGresult` comes for a cleared result. -/
theorem Spent.next (spent : Spent Φ k w) (closed : Store.Closed Φ) (null : (w.store.object 0).pgresult = none) (r : PGresult β) :
    Spent Φ k (w.next r) ∧ ((w.next r).store.object 0).pgresult = some ⟨r, w.store.arrived⟩ := by
  have object : (w.next r).store.object 0 = { w.store.object 0 with pgresult := some ⟨r, w.store.arrived⟩ } :=
    Store.object_assign_same r
  refine ⟨{
    store := closed.assign r spent.store null
    past := fun s member => ?_
    untouched := spent.untouched
    now := spent.now
    unnamed := (congrArg TPgResult.nfields object).trans spent.unnamed
    mapped := fun copies => (congrArg TPgResult.fieldMap object) ▸ spent.mapped copies }, congrArg TPgResult.pgresult object⟩
  rcases List.mem_append.1 member with before | now
  · exact spent.past s before
  · exact List.mem_singleton.1 now ▸ spent.store

/-- A stream whose result was cleared heeds it if nothing but the end follows. -/
theorem Spent.run (spent : Spent Φ k w') (closed : Store.Closed Φ) (correct : k.Correct Φ)
    (null : (w'.store.object 0).pgresult = none) (round : streamRound (k.yielder block) nfields p w = (.ok true, w')) :
    Heeds (streamLoop (k.yielder block) nfields more p w) ↔ Quiet nfields more := by
  have late : ∀ {v : World α β}, v.clearedAt = some v.handed.length → v.clearedAt ≠ none :=
    fun now => now ▸ Option.some_ne_none _
  induction more generalizing p w w' with
  | nil =>
    rw [streamLoop_nil round]
    refine ⟨fun heeds => absurd heeds (not_heeds_of_raise (w := w'.moment) (late spent.now) ?_), False.elim⟩
    rintro ⟨cls, -⟩
    cases cls
  | cons delivery more ih =>
    cases delivery with
    | failed e =>
      rw [streamLoop_failed round]
      exact ⟨fun heeds => absurd heeds (not_heeds_of_raise (w := w'.moment) (late spent.now) id), False.elim⟩
    | result r =>
      rw [streamLoop_next round]
      obtain ⟨spent', holds⟩ := spent.next closed null r
      have live := spent'.toSane.live closed holds
      unfold Quiet
      by_cases streams : r.Streams nfields
      · obtain ⟨goes, same⟩ := streams
        subst same
        have enter := streamRound_goes (k.yielder block) live goes rfl
        by_cases empty : r.ntuples = 0
        · obtain ⟨w'', run, spent'', null'⟩ := correct.idle spent' holds empty
          refine (ih spent'' null' (enter.trans run)).trans ?_
          constructor
          · exact fun quiet => ⟨empty, .inr ⟨⟨goes, rfl⟩, quiet⟩⟩
          · rintro ⟨-, finished | ⟨-, quiet⟩⟩
            · exact absurd finished (ExecStatus.unfinished goes)
            · exact quiet
        · refine ⟨fun heeds => absurd heeds ?_, fun quiet => absurd quiet.1 empty⟩
          rcases correct.late spent' holds empty with breached | ⟨e, w'', run, cleared, other⟩
          · exact Breached.not_heeds (streamLoop_breached (correct.keeps block) (enter ▸ breached))
          · rw [streamLoop_error _ (enter.trans run)]
            exact not_heeds_of_raise cleared other
      · by_cases done : r.status.finished = true ∧ r.ntuples = 0
        · rw [streamLoop_done (streamRound_finished live done.1 done.2)]
          exact ⟨fun _ => ⟨done.2, .inl done.1⟩, fun _ => spent'.toSane.heeds (.inr spent'.now) fun _ => trivial⟩
        · refine ⟨fun heeds => absurd heeds ?_, ?_⟩
          · by_cases goes : r.status.goesOn = true
            · have changed : nfields ≠ r.nfields := fun same => streams ⟨goes, same.symm⟩
              obtain ⟨msg, raised⟩ := streamRound_changed live goes changed
              rw [streamLoop_error _ raised]
              refine not_heeds_of_raise (w := (w'.next r).pgresultClear 0) (late spent'.now) ?_
              rintro ⟨cls, -⟩
              cases cls
            · obtain ⟨cls, msg, other, raised⟩ := streamRound_raises live
                (Bool.eq_false_iff.2 goes) fun finished none => done ⟨finished, none⟩
              rw [streamLoop_error _ raised]
              exact not_heeds_of_raise (late spent'.now) fun ends => other ends.1
          · rintro ⟨empty, finished | ⟨streams', -⟩⟩
            · exact absurd ⟨finished, empty⟩ done
            · exact absurd streams' streams

/-- A stream from a `PGresult` on. -/
theorem stream_heeds {this : TPgResult β} {incoming : List (Delivery β ε)} (closed : Store.Closed Φ) (correct : k.Correct Φ)
    (current : Current Φ k this p false w) (first : w.handed = []) :
    Heeds (streamLoop (k.yielder block) p.nfields incoming p w) ↔ k.Heedful block this p incoming := by
  have ran := stream_run block p.nfields incoming closed correct current
  have base : k.leftAtClear (block.unless false) p.nfields w.handed.length this p incoming =
      k.leftAtClear block p.nfields 0 this p incoming := by
    rw [first]
    rfl
  rw [base] at ran
  unfold Kind.Heedful
  cases left : k.leftAtClear block p.nfields 0 this p incoming with
  | none =>
    rw [left] at ran
    cases ran with
    | ended ended handed => exact ⟨(fun _ _ _ impossible => nomatch impossible), fun _ => ended.heeds⟩
  | some at' =>
    obtain ⟨rest, more⟩ := at'
    rw [left] at ran
    have decided : (∀ rest' more', some (rest, more) = some (rest', more') →
        if rest' = 0 then Quiet p.nfields more' else k.guarded = true) ↔
          if rest = 0 then Quiet p.nfields more else k.guarded = true := by
      constructor
      · exact fun all => all rest more rfl
      · rintro now rest' more' same
        cases same
        exact now
    refine Iff.trans ?_ decided.symm
    cases ran with
    | spent _ p' w₀ w' run round spent null =>
      rw [run, if_pos rfl]
      exact spent.run closed correct null round
    | raised rest _ w' guarded run sane now =>
      rw [run, if_neg (Nat.succ_ne_zero rest)]
      exact ⟨fun _ => guarded, fun _ => sane.heeds (.inr now) fun _ => ⟨rfl, rfl⟩⟩
    | breached rest _ unguarded breached =>
      rw [if_neg (Nat.succ_ne_zero rest), unguarded]
      exact ⟨fun heeds => absurd heeds breached.not_heeds, fun impossible => nomatch impossible⟩

end Streams

section Start

variable (self : Subject β)

theorem Subject.unshared : (self.world : World α β).store.Unshared := by
  refine ⟨Custody.Sound.single (i := 0) (fun v id held => ?_) rfl, Nat.one_pos⟩
  by_cases zero : v = 0
  · subst zero
    refine ⟨rfl, ?_⟩
    cases holds : self.pgresult with
    | none => simp [Store.custody, world, this, holds] at held
    | some r =>
      have first : 0 = id := by simpa [Store.custody, world, this, holds] using held
      exact first ▸ Nat.one_pos
  · simp [Store.custody, world, zero] at held

theorem Subject.sane : Sane Store.Unshared (self.world : World α β) where
  store := self.unshared
  past _ member := nomatch member
  untouched := rfl

variable {self} {r : PGresult β}

theorem Subject.serving {sv : Service α β ε} (holds : self.pgresult = some r) (object : sv.object = 0)
    (pgresult : sv.pgresult = ⟨r, 0⟩) (frozen : sv.frozen = self.frozen) (autoclear : sv.autoclear = self.autoclear)
    (objects : sv.objects = 1) (arrived : sv.arrived = 1) (fits : sv.fit self.this) : Serving Store.Unshared sv self.world := {
  toSane := self.sane
  frozen := frozen.symm
  uncleared := rfl
  objects := objects.symm
  arrived := arrived.symm
  holds := by
    rw [object, pgresult]
    show self.pgresult.map _ = _
    rw [holds]
    rfl
  autoclear := by
    rw [object]
    exact autoclear.symm
  fits := by
    rw [object]
    exact fits
  base := fun other => absurd object other }

theorem Subject.live (holds : self.pgresult = some r) : Live (self.world : World α β) 0 ⟨r, 0⟩ where
  holds := by
    show self.pgresult.map _ = _
    rw [holds]
    rfl
  unreleased member := nomatch member

/-- An iteration that raises at once. -/
theorem Subject.heeds_start (e : Exit ε) : Heeds (.error e, (self.world : World α β)) :=
  self.sane.heeds (.inl rfl) fun cleared => absurd rfl cleared

/-- The result was cleared before. -/
theorem pgresultGet_cleared (gone : self.pgresult = none) :
    (pgresultGet 0 : Iter α β ε _) self.world = (.error (.error .pgError "result has been cleared"), self.world) := by
  apply pgresultGet_null
  show self.pgresult.map _ = _
  rw [gone]
  rfl

theorem streamAny_cleared (gone : self.pgresult = none) (yielder : Nat → Nat → Iter α β ε Bool) (incoming : List (Delivery β ε)) :
    Heeds (pgresultStreamAny yielder incoming self.world) := by
  unfold pgresultStreamAny
  rw [Method.read_bind]
  split
  · exact Subject.heeds_start _
  · show Heeds ((pgresultGet 0 >>= _) self.world)
    rw [Method.bind_error (pgresultGet_cleared gone)]
    exact Subject.heeds_start _

/-- `pgresult_stream_any` on a result that holds a `PGresult`. -/
theorem streamAny_heeds {k : Kind α β ε} {block : Block ε} {incoming : List (Delivery β ε)} {this : TPgResult β} {w : World α β}
    (correct : k.Correct Store.Unshared) (current : Current Store.Unshared k this ⟨r, 0⟩ self.frozen w) (first : w.handed = []) :
    Heeds (pgresultStreamAny (k.yielder block) incoming w) ↔ self.frozen = true ∨ k.Heedful block this ⟨r, 0⟩ incoming := by
  cases frozen : self.frozen with
  | true =>
    have raised : pgresultStreamAny (k.yielder block) incoming w =
        (.error (.error .frozenError "can't modify frozen PG::Result"), w) := by
      unfold pgresultStreamAny
      rw [Method.read_bind, current.frozen, frozen]
      rfl
    rw [raised]
    refine ⟨fun _ => .inl rfl, fun _ => ?_⟩
    exact current.toSane.heeds (.inl current.uncleared) fun cleared => absurd current.uncleared cleared
  | false =>
    have live := current.toSane.live Store.Unshared.closed current.holds
    have enter : pgresultStreamAny (k.yielder block) incoming w = streamLoop (k.yielder block) r.nfields incoming ⟨r, 0⟩ w := by
      unfold pgresultStreamAny
      rw [Method.read_bind, current.frozen, frozen]
      show (pgresultGet 0 >>= _) w = _
      rw [Method.bind_ok (pgresultGet_live live), Method.bind_ok (ask_unreleased live.unreleased)]
    rw [enter]
    refine (stream_heeds Store.Unshared.closed correct (frozen ▸ current) first).trans ?_
    exact ⟨.inr, fun either => either.resolve_left Bool.false_ne_true⟩

end Start

namespace Iteration

variable (decode : Nat → Nat → β → Except ε α) (block : Block ε) {self : Subject β} (incoming : List (Delivery β ε)) {r : PGresult β}

theorem each_heeds (holds : self.pgresult = some r) :
    Heeds (pgresultEach decode block self.world) ↔ each.Heedful decode block self incoming := by
  have live := Subject.live (α := α) holds
  have serving : Serving Store.Unshared (Service.hashes decode self.world self.this ⟨r, 0⟩) self.world :=
    Subject.serving holds rfl rfl rfl rfl rfl rfl fun _ => rfl
  unfold pgresultEach Heedful
  rw [Method.bind_ok (pgresultGet_live live), holds]
  exact guarded_heeds Store.Unshared.closed rfl (fun w n serving inside => pgresultAref_makes Store.Unshared.closed serving inside)
    (fun w n null => pgresultAref_null null n) (Breached.aref decode 0) serving

theorem eachRow_heeds (holds : self.pgresult = some r) :
    Heeds (pgresultEachRow decode block self.world) ↔ eachRow.Heedful decode block self incoming := by
  have live := Subject.live (α := α) holds
  have serving : Serving Store.Unshared (Service.arrays decode self.world ⟨r, 0⟩ r.nfields) self.world :=
    Subject.serving holds rfl rfl rfl rfl rfl rfl trivial
  unfold pgresultEachRow Heedful
  rw [Method.bind_ok (pgresultGet_live live), Method.bind_ok (ask_unreleased live.unreleased),
    Method.bind_ok (ask_unreleased live.unreleased), holds]
  exact unguarded_heeds Store.Unshared.closed serving

theorem eachTuple_heeds (holds : self.pgresult = some r) :
    Heeds ((pgresultEachTuple block : Iter α β ε Unit) self.world) ↔ eachTuple.Heedful decode block self incoming := by
  have live := Subject.live (α := α) holds
  have serving : Serving Store.Unshared (Service.tuples self.world self.this ⟨r, 0⟩ 0 : Service α β ε) self.world :=
    Subject.serving holds rfl rfl rfl rfl rfl rfl fun _ => rfl
  unfold pgresultEachTuple Heedful
  rw [Method.bind_ok (pgresultGet_live live), holds]
  exact guarded_heeds Store.Unshared.closed rfl (fun w n serving inside => pgresultTuple_makes Store.Unshared.closed serving inside)
    (fun w n null => pgresultTuple_null null n) (Breached.tuple 0) serving

theorem current_start (holds : self.pgresult = some r) {k : Kind α β ε} (alike : k.alike self.this self.this)
    : Current Store.Unshared k self.this ⟨r, 0⟩ self.frozen self.world where
  toSane := self.sane
  frozen := rfl
  uncleared := rfl
  holds := (Subject.live (α := α) holds).holds
  alike := alike
  arrived := rfl
  copies _ := rfl

/-- The iterations heed that the block clears the result exactly under this condition. -/
theorem heeds_iff (method : Iteration) (decode : Nat → Nat → β → Except ε α) (block : Block ε) (self : Subject β)
    (incoming : List (Delivery β ε)) :
    Heeds (method.run decode block incoming self.world) ↔ method.Heedful decode block self incoming := by
  cases holds : self.pgresult with
  | none =>
    have trivially : method.Heedful decode block self incoming := by
      unfold Heedful
      rw [holds]
      trivial
    refine ⟨fun _ => trivially, fun _ => ?_⟩
    have get := pgresultGet_cleared (α := α) (ε := ε) holds
    have raised : Heeds (.error (.error .pgError "result has been cleared"), (self.world : World α β)) :=
      Subject.heeds_start (ε := ε) _
    cases method with
    | each => exact (congrArg Heeds (Method.bind_error get)).mpr raised
    | eachRow => exact (congrArg Heeds (Method.bind_error get)).mpr raised
    | eachTuple => exact (congrArg Heeds (Method.bind_error get)).mpr raised
    | streamEach => exact streamAny_cleared holds _ incoming
    | streamEachRow => exact streamAny_cleared holds _ incoming
    | streamEachTuple =>
      have early : (ensureInitForTuple 0 : Iter α β ε Unit) self.world = _ := Method.bind_error get
      exact (congrArg Heeds (Method.bind_error early)).mpr raised
  | some r =>
    cases method with
    | each => exact each_heeds decode block incoming holds
    | eachRow => exact eachRow_heeds decode block incoming holds
    | eachTuple => exact eachTuple_heeds decode block incoming holds
    | streamEach =>
      have current := current_start holds (k := Kind.hash decode) fun _ _ => rfl
      refine (streamAny_heeds (Kind.hash_correct Store.Unshared.closed decode) current rfl).trans ?_
      unfold Heedful
      rw [holds]
    | streamEachRow =>
      have current := current_start holds (k := Kind.array decode) trivial
      refine (streamAny_heeds (Kind.array_correct Store.Unshared.closed decode) current rfl).trans ?_
      unfold Heedful
      rw [holds]
    | streamEachTuple =>
      have live := Subject.live (α := α) holds
      have enter : pgresultStreamEachTuple block incoming (self.world : World α β) =
          pgresultStreamAny (yieldTuple block) incoming ((self.world : World α β).write 0 (·.mapped r)) :=
        Method.bind_ok (ensureInitForTuple_live live)
      unfold Heedful
      rw [holds]
      show Heeds (pgresultStreamEachTuple block incoming (self.world : World α β)) ↔ _
      rw [enter]
      have current := Kind.current_mapped (ε := ε) Store.Unshared.closed self.sane live.holds rfl rfl rfl
      exact streamAny_heeds (Kind.tuple_correct Store.Unshared.closed) current rfl

/-- A result of two rows. -/
def twoRows : Subject Nat where
  pgresult := some {
    status := .tuplesOk, ntuples := 2, nfields := 1, fname := fun _ => "n", value := fun tuple _ => some tuple, size := 100 }

/-- A block that clears the result when it gets the first row. -/
def clearsFirst : Block Empty where
  clears call := call == 0

/-- `each` asks the released `PGresult` for its number of rows, and `each_row` hands out a row of NULLs. -/
theorem clearsFirst_breaches :
    (¬Heeds (each.run (fun _ _ n => .ok n) clearsFirst [] twoRows.world) ∧
      (each.run (fun _ _ n => .ok n) clearsFirst [] twoRows.world).2.touched = [0]) ∧
    (¬Heeds (eachRow.run (fun _ _ n => .ok n) clearsFirst [] twoRows.world) ∧
      (eachRow.run (fun _ _ n => .ok n) clearsFirst [] twoRows.world).2.handed = [.array [some 0], .array [none]]) := by
  have read : (each.run (fun _ _ n => .ok n) clearsFirst [] twoRows.world).2.touched = [0] := by decide
  have handed : (eachRow.run (fun _ _ n => .ok n) clearsFirst [] twoRows.world).2.handed = [.array [some 0], .array [none]] := by
    decide
  have cleared : (eachRow.run (fun _ _ n => .ok n) clearsFirst [] twoRows.world).2.clearedAt = some 1 := by decide
  refine ⟨⟨fun heeds => ?_, read⟩, ⟨fun heeds => ?_, handed⟩⟩
  · exact absurd (heeds.unread.symm.trans read) (List.cons_ne_nil _ _).symm
  · have count := heeds.unhanded 1 cleared
    rw [handed] at count
    cases count

end Iteration

end RubyPg.PgResult
