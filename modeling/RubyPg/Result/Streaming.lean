import RubyPg.Result.ClearedResult

/-!
# Streaming every row once

A stream yields the rows of the `PGresult`s in their order up to where it is left (`delivered_rows`); all the
while each `PGresult` is held by one object, and when the objects have been collected, each was released once
and the garbage collector was told of no memory that is left.
-/

namespace RubyPg.PgResult
set_option autoImplicit false

variable {α β ε : Type}

/-- The methods that stream rows. -/
inductive Streaming where
  | each | eachRow | eachTuple
deriving DecidableEq, Repr

def Streaming.iteration : Streaming → Iteration
  | each => .streamEach
  | eachRow => .streamEachRow
  | eachTuple => .streamEachTuple

/-- The `PGresult`s that a stream goes on with. -/
def streamed (nfields : Nat) (r : PGresult β) : List (Delivery β ε) → List (PGresult β)
  | .result r' :: incoming => if r.Streams nfields then r :: streamed nfields r' incoming else []
  | _ => if r.Streams nfields then [r] else []

/-- The rows of a `PGresult`, by its place in the stream. Its tuples are those of the copy made for it. -/
def Streaming.rowsOf (method : Streaming) (decode : Nat → Nat → β → Except ε α) (r : PGresult β) (i : Nat) :
    List (Except (Exit ε) (Row α)) :=
  (List.range' 0 r.ntuples).map fun n =>
    match method with
    | each => hashRow decode {} r n
    | eachRow => arrayRow decode r r.nfields n
    | eachTuple => .ok (.tuple (i + 1) n r.nfields (some i))

/-- All rows of a stream. -/
def Streaming.rows (method : Streaming) (decode : Nat → Nat → β → Except ε α) (first : PGresult β)
    (incoming : List (Delivery β ε)) : List (Except (Exit ε) (Row α)) :=
  ((streamed first.nfields first incoming).zipIdx).flatMap fun (r, i) => method.rowsOf decode r i

/-- A new `PG::Result`. -/
def World.start (first : PGresult β) : World α β where
  store := Store.empty.pgNewResult first
  frozen := false
  handed := []
  clearedAt := none
  touched := []
  moments := []

/-- What a stream yields, who holds the `PGresult`s, and what is left when all objects are collected. -/
structure Streamed (rows : List (Except (Exit ε) (Row α))) (block : Block ε) (out : Except (Exit ε) Unit × World α β) :
    Prop where
  handed : out.2.handed = upToExit block 0 rows
  /-- A `PGresult` is released at most once, and until then one object holds it. -/
  owned : ∀ s ∈ out.2.moments ++ [out.2.store], s.released.Nodup ∧
    ∀ id < s.arrived, id ∉ s.released ↔ ∃! v, v < s.objects ∧ (s.object v).pgresult.map (·.id) = some id
  /-- In whatever order the objects are collected. -/
  collected : ∀ order, (∀ v, v ∈ order ↔ v < out.2.store.objects) →
    (out.2.store.collect order).released.Perm (List.range out.2.store.arrived) ∧ (out.2.store.collect order).usage = 0

section Custody

variable {s : Store β}

theorem Store.object_start (first : PGresult β) :
    (Store.empty.pgNewResult first).object 0 = { pgresult := some ⟨first, 0⟩, resultSize := first.size } := rfl

theorem Store.owned_start (first : PGresult β) : (Store.empty.pgNewResult first).Owned := by
  have other : ∀ v, v ≠ 0 → (Store.empty.pgNewResult first).object v = {} := fun v other => Function.update_of_ne other ..
  refine ⟨⟨Custody.Sound.single (i := 0) (fun v id held => ?_) rfl, Nat.one_pos⟩, fun id issued => .inr ⟨0, ?_⟩, ?_⟩
  · by_cases zero : v = 0
    · subst zero
      exact ⟨rfl, (Option.some_inj.1 held : 0 = id) ▸ Nat.one_pos⟩
    · simp [custody, other v zero] at held
  · exact congrArg some (Nat.lt_one_iff.1 issued).symm
  · refine ⟨?_, fun v none => ?_, fun v => ?_, fun v outside => ?_⟩
    · show (0 : Int) + first.size = ∑ v ∈ Finset.range 1, _
      rw [Finset.sum_range_one, object_start, zero_add]
    · by_cases zero : v = 0
      · subst zero
        cases none
      · rw [other v zero]
    · by_cases zero : v = 0
      · subst zero
        rfl
      · rw [other v zero]
    · rw [other v (Nat.ne_of_gt outside)]

theorem Store.Owned.holder (owned : s.Owned) {id : Nat} (arrived : id < s.arrived) :
    id ∉ s.released ↔ ∃! v, v < s.objects ∧ (s.object v).pgresult.map (·.id) = some id := by
  refine (owned.sound.owner owned.complete arrived).trans ?_
  have inside : ∀ v, (s.object v).pgresult.map (·.id) = some id → v < s.objects := by
    intro v held
    by_contra outside
    rw [owned.accounts.beyond v (Nat.le_of_not_lt outside)] at held
    cases held
  constructor
  · rintro ⟨v, held, sole⟩
    exact ⟨v, ⟨inside v held, held⟩, fun u both => sole u both.2⟩
  · rintro ⟨v, ⟨-, held⟩, sole⟩
    exact ⟨v, held, fun u held' => sole u ⟨inside u held', held'⟩⟩

/-- What was collected holds nothing. -/
theorem Store.null_collect {garbage : List Nat} {v : Nat} (member : v ∈ garbage) :
    ((s.collect garbage).object v).pgresult = none := by
  induction garbage generalizing s with
  | nil => cases member
  | cons u garbage ih =>
    by_cases later : v ∈ garbage
    · exact ih (s := s.pgresultClear u) later
    · have now : v = u := (List.mem_cons.1 member).resolve_right later
      subst now
      refine (congrArg TPgResult.pgresult (object_collect (s := s.pgresultClear v) later)).trans ?_
      exact congrArg TPgResult.pgresult (object_clear_same _)

/-- When all objects are collected, every `PGresult` was released and all memory was given back. -/
theorem Store.Owned.all_collected (owned : s.Owned) {order : List Nat} (all : ∀ v, v ∈ order ↔ v < s.objects) :
    (s.collect order).released.Perm (List.range s.arrived) ∧ (s.collect order).usage = 0 := by
  have after : (s.collect order).Owned := Store.Owned.closed.collect owned fun v member => (all v).1 member
  have null : ∀ v, ((s.collect order).object v).pgresult = none := by
    intro v
    by_cases inside : v < s.objects
    · exact null_collect ((all v).2 inside)
    · apply after.accounts.beyond v
      rw [objects_collect]
      exact Nat.le_of_not_lt inside
  constructor
  · have released := after.sound.all_released after.complete fun v => holds_null (null v)
    rwa [show (s.collect order).custody.issued = s.arrived from arrived_collect] at released
  · refine after.accounts.total.trans (Finset.sum_eq_zero fun v _ => ?_)
    rw [after.accounts.idle v (null v)]
    rfl

end Custody

section Rows

variable {k : Kind α β ε} {block : Block ε}

/-- The rows that a stream delivers, `PGresult` by `PGresult`. -/
theorem Kind.delivered_streamed (fits : TPgResult β → Prop) {nfields : Nat} {rowsOf : PGresult β → Nat → List (Except (Exit ε) (Row α))}
    (made : ∀ this (p : Pointer β), fits this → p.nfields = nfields → k.rows this p = rowsOf p.toPGresult p.id)
    (next : ∀ this, fits this → fits (k.next this)) (incoming : List (Delivery β ε)) {this : TPgResult β} (fit : fits this)
    (p : Pointer β) : k.delivered nfields this p incoming =
      ((streamed nfields p.toPGresult incoming).zipIdx p.id).flatMap fun (r, i) => rowsOf r i := by
  have served : ∀ this (p : Pointer β), fits this → k.served nfields this p =
      ((if p.Streams nfields then [p.toPGresult] else []).zipIdx p.id).flatMap fun (r, i) => rowsOf r i := by
    intro this p fit
    unfold Kind.served
    split
    · rename_i streams
      rw [made this p fit streams.2]
      exact (List.append_nil _).symm
    · rfl
  induction incoming generalizing this p with
  | nil => exact served this p fit
  | cons delivery incoming ih =>
    cases delivery with
    | failed e => exact served this p fit
    | result r =>
      by_cases streams : p.Streams nfields
      · have later := ih (next this fit) ⟨r, p.id + 1⟩
        unfold delivered streamed
        rw [if_pos streams, if_pos streams, List.zipIdx_cons, List.flatMap_cons, served this p fit, if_pos streams, later]
        exact congrArg (· ++ _) (List.append_nil _)
      · rw [delivered_stops streams]
        unfold streamed
        rw [if_neg streams]
        rfl

/-- A block that never clears the result. -/
theorem fate_unclearing {δ ρ : Type} {rows : List (Except δ ρ)} {call rest : Nat} (never : ∀ call, block.clears call = false) :
    fate block call rows ≠ .cleared rest := by
  induction rows generalizing call with
  | nil => exact fun impossible => by cases impossible
  | cons row rows ih =>
    cases row with
    | error e => exact fun impossible => by cases impossible
    | ok row =>
      unfold fate
      rw [never call]
      split
      · exact fun impossible => by cases impossible
      · exact ih

theorem Kind.leftAtClear_unclearing (never : ∀ call, block.clears call = false) {nfields call : Nat} {this : TPgResult β}
    {p : Pointer β} {incoming : List (Delivery β ε)} : k.leftAtClear block nfields call this p incoming = none := by
  have here : ∀ {call : Nat} {this : TPgResult β} {p : Pointer β} {incoming : List (Delivery β ε)},
      (fate block call (k.served nfields this p)).atClear incoming = none := by
    intro call this p incoming
    cases fated : fate block call (k.served nfields this p) with
    | left => rfl
    | passed => rfl
    | cleared rest => exact absurd fated (fate_unclearing never)
  induction incoming generalizing call this p with
  | nil => exact here
  | cons delivery incoming ih =>
    cases delivery with
    | failed e => exact here
    | result r =>
      unfold leftAtClear
      split
      · exact ih
      · exact here

/-- A stream of a block that never clears the result. -/
theorem streamAny_streamed {this : TPgResult β} {w : World α β} {first : PGresult β} {incoming : List (Delivery β ε)}
    {rows : List (Except (Exit ε) (Row α))} (correct : k.Correct Store.Owned) (never : ∀ call, block.clears call = false)
    (current : Current Store.Owned k this ⟨first, 0⟩ false w) (start : w.handed = [])
    (delivered : k.delivered first.nfields this ⟨first, 0⟩ incoming = rows) :
    Streamed rows block (pgresultStreamAny (k.yielder block) incoming w) := by
  have live := current.toSane.live Store.Owned.closed current.holds
  have enter : pgresultStreamAny (k.yielder block) incoming w =
      streamLoop (k.yielder block) first.nfields incoming ⟨first, 0⟩ w := by
    unfold pgresultStreamAny
    rw [Method.read_bind, current.frozen]
    show (pgresultGet 0 >>= _) w = _
    rw [Method.bind_ok (pgresultGet_live live), Method.bind_ok (ask_unreleased live.unreleased)]
  have ran := stream_run block first.nfields incoming Store.Owned.closed correct current
  have left : k.leftAtClear (block.unless false) first.nfields w.handed.length this ⟨first, 0⟩ incoming = none :=
    Kind.leftAtClear_unclearing never
  rw [left] at ran
  rw [enter]
  cases ran with
  | ended ended handed =>
    rw [delivered, start] at handed
    refine ⟨handed, fun s member => ?_, fun order all => ended.store.all_collected all⟩
    have owned : s.Owned := by
      rcases List.mem_append.1 member with before | now
      · exact ended.past s before
      · exact List.mem_singleton.1 now ▸ ended.store
    exact ⟨owned.sound.once, fun id arrived => owned.holder arrived⟩

end Rows

namespace Streaming

variable {block : Block ε} (decode : Nat → Nat → β → Except ε α) (first : PGresult β) (incoming : List (Delivery β ε))

theorem sane_start : Sane Store.Owned (World.start first : World α β) where
  store := Store.owned_start first
  past _ member := nomatch member
  untouched := rfl

theorem current_start {k : Kind α β ε} (alike : k.alike {} ((World.start first : World α β).store.object 0)) :
    Current Store.Owned k {} ⟨first, 0⟩ false (World.start first) where
  toSane := sane_start first
  frozen := rfl
  uncleared := rfl
  holds := rfl
  alike := alike
  arrived := rfl
  copies _ := rfl

/-- A stream yields the rows of what libpq delivers, each once and in order, up to where it is left; each `PGresult` has
one owner until it is released once; nothing is left when the objects are collected. -/
theorem yields_once (method : Streaming) (never : ∀ call, block.clears call = false) :
    Streamed (method.rows decode first incoming) block (method.iteration.run decode block incoming (World.start first)) := by
  have closed := Store.Owned.closed (β := β)
  cases method with
  | each =>
    refine streamAny_streamed (Kind.hash_correct closed decode) never (current_start first fun _ _ => rfl) rfl ?_
    apply Kind.delivered_streamed (fun this => this = {}) ?_ (fun _ _ => rfl) incoming rfl
    rintro _ p rfl -
    rfl
  | eachRow =>
    refine streamAny_streamed (Kind.array_correct closed decode) never (current_start first trivial) rfl ?_
    apply Kind.delivered_streamed (fun _ => True) ?_ (fun _ _ => trivial) incoming trivial
    intro _ p _ _
    rfl
  | eachTuple =>
    have sane : Sane Store.Owned (World.start first : World α β) := sane_start first
    have live : Live (World.start first : World α β) 0 ⟨first, 0⟩ := ⟨rfl, List.not_mem_nil⟩
    have current := Kind.current_mapped (ε := ε) closed sane live.holds rfl rfl rfl
    have enter : pgresultStreamEachTuple block incoming (World.start first : World α β) =
        pgresultStreamAny (yieldTuple block) incoming ((World.start first : World α β).write 0 (·.mapped first)) :=
      Method.bind_ok (ensureInitForTuple_live live)
    show Streamed _ block (pgresultStreamEachTuple block incoming (World.start first : World α β))
    rw [enter]
    refine streamAny_streamed (Kind.tuple_correct closed) never current rfl ?_
    apply Kind.delivered_streamed (fun this => this.fieldMap.isSome = true ∧ this.nfields = first.nfields) ?_
      (fun _ fits => fits) incoming ⟨rfl, rfl⟩
    rintro this p ⟨mapped, count⟩ same
    refine List.map_congr_left fun n _ => ?_
    show tupleRow this p (p.id + 1) n = .ok (.tuple (p.id + 1) n p.nfields (some p.id))
    unfold tupleRow
    rw [TPgResult.mapped_of_map p.toPGresult mapped]
    dsimp only
    rw [count, same]
    exact if_neg fun negative => absurd negative.2 (Int.not_lt.2 (Int.natCast_nonneg _))

/-- A `PGresult` of a stream with one row. -/
def oneRow (n : Nat) : PGresult Nat where
  status := .singleTuple
  ntuples := 1
  nfields := 1
  fname _ := "n"
  value _ _ := some n
  size := 100

/-- The block breaks at the second row, and the tuples of the first one are collected then. -/
def breaksSecond : Block Empty where
  collects call _ := call == 1
  leaves call := if call = 1 then some .broke else none

theorem yields_once_oneRow : Streamed [.ok (.tuple 1 0 1 (some 0)), .ok (.tuple 2 0 1 (some 1)), .ok (.tuple 3 0 1 (some 2))]
    breaksSecond (Streaming.eachTuple.iteration.run (fun _ _ n => .ok n) breaksSecond [.result (oneRow 1), .result (oneRow 2)]
      (World.start (oneRow 0) : World Nat Nat)) :=
  yields_once (fun _ _ n => .ok n) (oneRow 0) [.result (oneRow 1), .result (oneRow 2)] .eachTuple fun _ => rfl

end Streaming

end RubyPg.PgResult
