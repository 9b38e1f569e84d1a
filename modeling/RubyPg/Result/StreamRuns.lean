import RubyPg.Result.Kinds

/-!
# Streaming until the result is cleared

`streamLoop` from `PGresult` to `PGresult`: until the stream is over or the block clears the result
(`stream_run`), and from there on (`Spent.run`).
-/

namespace RubyPg.PgResult
set_option autoImplicit false

variable {α β ε : Type}

/-- A `PGresult` whose rows a stream of so many fields yields. -/
def PGresult.Streams (r : PGresult β) (nfields : Nat) : Prop := r.status.goesOn = true ∧ r.nfields = nfields

instance (r : PGresult β) (nfields : Nat) : Decidable (r.Streams nfields) := inferInstanceAs (Decidable (_ ∧ _))

/-- What is left when the block clears the result at a row of the `PGresult` at hand. -/
def Fate.atClear {δ : Type} (f : Fate) (incoming : List δ) : Option (Nat × List δ) :=
  match f with
  | .cleared rest => some (rest, incoming)
  | _ => none

namespace Kind

variable (k : Kind α β ε)

/-- The rows of a `PGresult` if the stream goes on with it. -/
def served (nfields : Nat) (this : TPgResult β) (p : Pointer β) : List (Except (Exit ε) (Row α)) :=
  if p.Streams nfields then k.rows this p else []

/-- The rows that libpq delivers from a `PGresult` on. -/
def delivered (nfields : Nat) (this : TPgResult β) (p : Pointer β) : List (Delivery β ε) → List (Except (Exit ε) (Row α))
  | [] => k.served nfields this p
  | .failed _ :: _ => k.served nfields this p
  | .result r :: incoming =>
    k.served nfields this p ++
      if p.Streams nfields then delivered nfields (k.next this) ⟨r, p.id + 1⟩ incoming else []

/-- How many rows of the `PGresult` are left, and what of libpq, when the block clears the result and
stays. -/
def leftAtClear (block : Block ε) (nfields call : Nat) (this : TPgResult β) (p : Pointer β) :
    List (Delivery β ε) → Option (Nat × List (Delivery β ε))
  | [] => (fate block call (k.served nfields this p)).atClear []
  | .failed e :: incoming => (fate block call (k.served nfields this p)).atClear (.failed e :: incoming)
  | .result r :: incoming =>
    if fate block call (k.served nfields this p) = .passed ∧ p.Streams nfields then
      leftAtClear block nfields (call + p.ntuples) (k.next this) ⟨r, p.id + 1⟩ incoming
    else (fate block call (k.served nfields this p)).atClear (.result r :: incoming)

variable {k}

theorem delivered_eq (nfields : Nat) (this : TPgResult β) (p : Pointer β) (incoming : List (Delivery β ε)) :
    ∃ more, k.delivered nfields this p incoming = k.served nfields this p ++ more := by
  cases incoming with
  | nil => exact ⟨[], (List.append_nil _).symm⟩
  | cons delivery incoming =>
    cases delivery with
    | failed e => exact ⟨[], (List.append_nil _).symm⟩
    | result r => exact ⟨_, rfl⟩

theorem delivered_stops {nfields : Nat} {this : TPgResult β} {p : Pointer β} (stops : ¬p.Streams nfields)
    (incoming : List (Delivery β ε)) : k.delivered nfields this p incoming = [] := by
  have served : k.served nfields this p = [] := if_neg stops
  cases incoming with
  | nil => exact served
  | cons delivery incoming =>
    cases delivery with
    | failed e => exact served
    | result r =>
      unfold delivered
      rw [served, if_neg stops]
      rfl

/-- The rows of the `PGresult` at hand decide. -/
theorem leftAtClear_eq {block : Block ε} {nfields call : Nat} {this : TPgResult β} {p : Pointer β}
    (decided : fate block call (k.served nfields this p) = .passed → ¬p.Streams nfields) (incoming : List (Delivery β ε)) :
    k.leftAtClear block nfields call this p incoming = (fate block call (k.served nfields this p)).atClear incoming := by
  cases incoming with
  | nil => rfl
  | cons delivery incoming =>
    cases delivery with
    | failed e => rfl
    | result r => exact if_neg fun ⟨passed, streams⟩ => decided passed streams

end Kind

/-- An iteration that is over; if the block had cleared the result, it left in the same call. -/
structure Over (Φ : Store β → Prop) (out : Except (Exit ε) Unit × World α β) : Prop extends Sane Φ out.2 where
  uncleared : out.2.clearedAt = none ∨
    out.2.clearedAt = some out.2.handed.length ∧ ∃ how, out.1 = .error (.block how)

section Exits

variable {δ ρ : Type} {block : Block ε} {frozen : Bool}

theorem upToExit_left {call : Nat} {rows : List (Except δ ρ)} (left : fate (block.unless frozen) call rows = .left)
    (more : List (Except δ ρ)) : upToExit block call (rows ++ more) = upToExit block call rows := by
  induction rows generalizing call with
  | nil => cases left
  | cons row rows ih =>
    cases row with
    | error e => rfl
    | ok row =>
      unfold fate at left
      show row :: (if (block.leaves call).isSome then [] else upToExit block (call + 1) (rows ++ more)) =
        row :: if (block.leaves call).isSome then [] else upToExit block (call + 1) rows
      by_cases leaves : (block.leaves call).isSome = true
      · rw [if_pos leaves, if_pos leaves]
      · rw [if_neg (c := ((block.unless frozen).leaves call).isSome = true) leaves] at left
        split at left
        · cases left
        · rw [if_neg leaves, if_neg leaves, ih left]

theorem upToExit_passed {call : Nat} {rows : List (Except δ ρ)} (passed : fate (block.unless frozen) call rows = .passed)
    (more : List (Except δ ρ)) :
    upToExit block call (rows ++ more) = upToExit block call rows ++ upToExit block (call + rows.length) more := by
  induction rows generalizing call with
  | nil => rfl
  | cons row rows ih =>
    cases row with
    | error e => cases passed
    | ok row =>
      unfold fate at passed
      show row :: (if (block.leaves call).isSome then [] else upToExit block (call + 1) (rows ++ more)) =
        (row :: if (block.leaves call).isSome then [] else upToExit block (call + 1) rows) ++ _
      by_cases leaves : (block.leaves call).isSome = true
      · rw [if_pos (c := ((block.unless frozen).leaves call).isSome = true) leaves] at passed
        cases passed
      · rw [if_neg (c := ((block.unless frozen).leaves call).isSome = true) leaves] at passed
        split at passed
        · cases passed
        · rw [if_neg leaves, if_neg leaves, ih passed, List.length_cons, Nat.add_right_comm]
          rfl

end Exits

section Run

variable {Φ : Store β → Prop} {k : Kind α β ε} {block : Block ε} {frozen : Bool} {this : TPgResult β} {p : Pointer β}
  {w w' : World α β} {nfields : Nat} {incoming : List (Delivery β ε)}

theorem streamLoop_breached {yielder : Nat → Nat → Iter α β ε Bool}
    (yields : ∀ ntuples nfields, Method.Preserves Breached (yielder ntuples nfields))
    (breached : Breached (streamRound yielder nfields p w).2) :
    Breached (streamLoop yielder nfields incoming p w).2 := by
  have moment : Method.Preserves Breached (Method.change World.moment : Iter α β ε Unit) :=
    .change fun _ breached => breached
  cases incoming with
  | nil =>
    refine Method.Preserves.behind breached fun more => ?_
    split
    · exact .bind moment fun _ => .raise _
    · exact .pure _
  | cons delivery incoming =>
    cases delivery with
    | failed e =>
      refine Method.Preserves.behind breached fun more => ?_
      split
      · exact .bind moment fun _ => .raise _
      · exact .pure _
    | result r =>
      refine Method.Preserves.behind breached fun more => ?_
      split
      · refine .bind moment fun _ => .bind (.bind .read fun _ => .bind ?_ fun _ => .pure _) fun p => ?_
        · exact .change fun _ breached => breached
        · exact Breached.streamLoop yields nfields incoming p
      · exact .pure _

/-- How a stream goes on from a `PGresult`. -/
inductive StreamRan (Φ : Store β → Prop) (k : Kind α β ε) (block : Block ε) (nfields : Nat) (this : TPgResult β)
    (p : Pointer β) (incoming : List (Delivery β ε)) (w : World α β) : Option (Nat × List (Delivery β ε)) → Prop where
  | ended (ended : Over Φ (streamLoop (k.yielder block) nfields incoming p w))
      (handed : (streamLoop (k.yielder block) nfields incoming p w).2.handed =
        w.handed ++ upToExit block w.handed.length (k.delivered nfields this p incoming)) :
      StreamRan Φ k block nfields this p incoming w none
  | spent (more : List (Delivery β ε)) (p' : Pointer β) (w₀ w' : World α β)
      (run : streamLoop (k.yielder block) nfields incoming p w = streamLoop (k.yielder block) nfields more p' w₀)
      (round : streamRound (k.yielder block) nfields p' w₀ = (.ok true, w')) (spent : Spent Φ k w')
      (null : (w'.store.object 0).pgresult = none) : StreamRan Φ k block nfields this p incoming w (some (0, more))
  | raised (rest : Nat) (more : List (Delivery β ε)) (w' : World α β) (guarded : k.guarded = true)
      (run : streamLoop (k.yielder block) nfields incoming p w = (.error (.error .pgError "result has been cleared"), w'))
      (sane : Sane Φ w') (now : w'.clearedAt = some w'.handed.length) :
      StreamRan Φ k block nfields this p incoming w (some (rest + 1, more))
  | breached (rest : Nat) (more : List (Delivery β ε)) (unguarded : k.guarded = false)
      (breached : Breached (streamLoop (k.yielder block) nfields incoming p w).2) :
      StreamRan Φ k block nfields this p incoming w (some (rest + 1, more))

/-- The stream ends with a `PGresult` it does not go on with. -/
theorem Current.stop (current : Current Φ k this p frozen w) (closed : Store.Closed Φ) (stops : ¬p.Streams nfields) :
    Over Φ (streamLoop (k.yielder block) nfields incoming p w) ∧
      (streamLoop (k.yielder block) nfields incoming p w).2.handed = w.handed := by
  have live := current.toSane.live closed current.holds
  by_cases goes : p.status.goesOn = true
  · have changed : nfields ≠ p.nfields := fun same => stops ⟨goes, same.symm⟩
    obtain ⟨msg, run⟩ := streamRound_changed live goes changed
    rw [streamLoop_error _ run]
    exact ⟨⟨current.toSane.clear closed, .inl current.uncleared⟩, rfl⟩
  · have known : p.status.goesOn = false := Bool.eq_false_iff.2 goes
    by_cases done : p.status.finished = true ∧ p.ntuples = 0
    · rw [streamLoop_done (streamRound_finished live done.1 done.2)]
      exact ⟨⟨current.toSane, .inl current.uncleared⟩, rfl⟩
    · obtain ⟨cls, msg, -, run⟩ := streamRound_raises live known
        fun finished none => done ⟨finished, none⟩
      rw [streamLoop_error _ run]
      exact ⟨⟨current.toSane, .inl current.uncleared⟩, rfl⟩

/-- The next `PGresult` comes. -/
theorem Paused.next (paused : Paused Φ k this frozen w) (closed : Store.Closed Φ) (correct : k.Correct Φ) (r : PGresult β) :
    Current Φ k this ⟨r, w.store.arrived⟩ frozen (w.next r) := by
  have object : (w.next r).store.object 0 = { w.store.object 0 with pgresult := some ⟨r, w.store.arrived⟩ } :=
    Store.object_assign_same r
  refine {
    store := closed.assign r paused.store paused.null
    past := fun s member => ?_
    untouched := paused.untouched
    frozen := paused.frozen
    uncleared := paused.uncleared
    holds := congrArg TPgResult.pgresult object
    alike := object.symm ▸ correct.blind _ paused.alike
    arrived := rfl
    copies := paused.copies }
  rcases List.mem_append.1 member with before | now
  · exact paused.past s before
  · exact List.mem_singleton.1 now ▸ paused.store

theorem Paused.moment (paused : Paused Φ k this frozen w) : Sane Φ w.moment where
  store := paused.store
  past s member := by
    rcases List.mem_append.1 member with before | now
    · exact paused.past s before
    · exact List.mem_singleton.1 now ▸ paused.store
  untouched := paused.untouched

/-- The rows of a `PGresult` that decide how the stream goes on. -/
theorem Current.decided (current : Current Φ k this p frozen w) (closed : Store.Closed Φ) (correct : k.Correct Φ)
    (streams : p.Streams nfields) {f : Fate} (fated : fate (block.unless frozen) w.handed.length (k.rows this p) = f)
    (decided : f ≠ .passed) : StreamRan Φ k block nfields this p incoming w
      (k.leftAtClear (block.unless frozen) nfields w.handed.length this p incoming) := by
  obtain ⟨goes, same⟩ := streams
  subst same
  have served : k.served p.nfields this p = k.rows this p := if_pos ⟨goes, rfl⟩
  have round := streamRound_goes (k.yielder block) (current.toSane.live closed current.holds) goes rfl
  have rounds := @correct.round block this p frozen w current
  rw [Kind.leftAtClear_eq fun passed => absurd (fated.symm.trans (served ▸ passed)) decided, served, fated]
  rw [fated] at rounds
  cases rounds with
  | left e w' run settled handed =>
    have ended := streamLoop_error incoming (round.trans run)
    obtain ⟨more, delivered⟩ := k.delivered_eq p.nfields this p incoming
    refine .ended ?_ ?_
    · rw [ended]
      exact ⟨settled.toSane, settled.uncleared.imp id fun ⟨now, how, eq⟩ => ⟨now, how, congrArg _ eq⟩⟩
    · rw [ended, delivered, served, upToExit_left fated]
      exact handed
  | passed => exact absurd rfl decided
  | spent w' run spent null => exact .spent _ p w w' rfl (round.trans run) spent null
  | raised rest w' guarded run sane now => exact .raised rest _ w' guarded (streamLoop_error _ (round.trans run)) sane now
  | breached rest unguarded breached =>
    exact .breached rest _ unguarded (streamLoop_breached (correct.keeps block) (round ▸ breached))

/-- The stream waits for the next `PGresult` in vain. -/
theorem Paused.ended {out : Except (Exit ε) Unit} (paused : Paused Φ k this frozen w) : Over Φ (out, w.moment) :=
  ⟨paused.moment, .inl paused.uncleared⟩

/-- The rows of a `PGresult` that all pass. -/
theorem Current.passed (current : Current Φ k this p frozen w) (closed : Store.Closed Φ) (correct : k.Correct Φ)
    (streams : p.Streams nfields) (fated : fate (block.unless frozen) w.handed.length (k.rows this p) = .passed) :
    ∃ w', streamRound (k.yielder block) nfields p w = (.ok true, w') ∧ Paused Φ k (k.next this) frozen w' ∧
      w'.store.arrived = p.id + 1 ∧ w'.handed = w.handed ++ upToExit block w.handed.length (k.rows this p) ∧
      w'.handed.length = w.handed.length + p.ntuples := by
  obtain ⟨goes, same⟩ := streams
  subst same
  have round := streamRound_goes (k.yielder block) (current.toSane.live closed current.holds) goes rfl
  have rounds := @correct.round block this p frozen w current
  rw [fated] at rounds
  cases rounds with
  | passed w' run paused arrived handed count => exact ⟨w', round.trans run, paused, arrived, handed, count⟩

/-- The stream ends in front of the `PGresult` at hand. -/
theorem Current.stopped (current : Current Φ k this p frozen w) (closed : Store.Closed Φ) (stops : ¬p.Streams nfields) :
    StreamRan Φ k block nfields this p incoming w
      (k.leftAtClear (block.unless frozen) nfields w.handed.length this p incoming) := by
  have served : k.served nfields this p = [] := if_neg stops
  obtain ⟨ended, handed⟩ := current.stop closed stops
  rw [Kind.leftAtClear_eq fun _ => stops, served]
  refine .ended ended ?_
  rw [handed, Kind.delivered_stops stops]
  exact (List.append_nil _).symm

/-- The stream ends with the `PGresult` at hand. -/
theorem Current.last (current : Current Φ k this p frozen w) (closed : Store.Closed Φ) (correct : k.Correct Φ)
    (delivered : k.delivered nfields this p incoming = k.served nfields this p)
    (left : k.leftAtClear (block.unless frozen) nfields w.handed.length this p incoming =
      (fate (block.unless frozen) w.handed.length (k.served nfields this p)).atClear incoming)
    (ends : ∀ w', streamRound (k.yielder block) nfields p w = (.ok true, w') →
      ∃ out, streamLoop (k.yielder block) nfields incoming p w = (out, w'.moment)) :
    StreamRan Φ k block nfields this p incoming w
      (k.leftAtClear (block.unless frozen) nfields w.handed.length this p incoming) := by
  by_cases streams : p.Streams nfields
  · have served : k.served nfields this p = k.rows this p := if_pos streams
    by_cases fated : fate (block.unless frozen) w.handed.length (k.rows this p) = .passed
    · obtain ⟨w', run, paused, -, handed, -⟩ := current.passed closed correct streams fated
      obtain ⟨out, end'⟩ := ends w' run
      rw [left, served, fated]
      refine .ended ?_ ?_
      · rw [end']
        exact paused.ended
      · rw [end', delivered, served]
        exact handed
    · exact current.decided closed correct streams rfl fated
  · exact current.stopped closed streams

/-- One `PGresult` more in front. -/
theorem StreamRan.behind {this' : TPgResult β} {p' : Pointer β} {more : List (Delivery β ε)} {left : Option (Nat × List (Delivery β ε))}
    (later : StreamRan Φ k block nfields this' p' more w' left)
    (run : streamLoop (k.yielder block) nfields incoming p w = streamLoop (k.yielder block) nfields more p' w')
    (handed : w'.handed ++ upToExit block w'.handed.length (k.delivered nfields this' p' more) =
      w.handed ++ upToExit block w.handed.length (k.delivered nfields this p incoming)) :
    StreamRan Φ k block nfields this p incoming w left := by
  cases later with
  | ended ended handed' =>
    refine .ended ?_ ?_
    · rw [run]
      exact ended
    · rw [run, handed', handed]
  | spent more p' w₀ w' run' round spent null => exact .spent more p' w₀ w' (run.trans run') round spent null
  | raised rest more w' guarded run' sane now => exact .raised rest more w' guarded (run.trans run') sane now
  | breached rest more unguarded breached => exact .breached rest more unguarded (run ▸ breached)

variable (block nfields incoming) in
theorem stream_run (closed : Store.Closed Φ) (correct : k.Correct Φ) (current : Current Φ k this p frozen w) :
    StreamRan Φ k block nfields this p incoming w
      (k.leftAtClear (block.unless frozen) nfields w.handed.length this p incoming) := by
  induction incoming generalizing this p w with
  | nil => exact current.last closed correct rfl rfl fun w' run => ⟨_, streamLoop_nil run⟩
  | cons delivery incoming ih =>
    cases delivery with
    | failed e => exact current.last closed correct rfl rfl fun w' run => ⟨_, streamLoop_failed run⟩
    | result r =>
      by_cases streams : p.Streams nfields
      · have served : k.served nfields this p = k.rows this p := if_pos streams
        by_cases fated : fate (block.unless frozen) w.handed.length (k.rows this p) = .passed
        · obtain ⟨w', round, paused, arrived, handed, count⟩ := current.passed closed correct streams fated
          have later := ih (paused.next closed correct r)
          have left : k.leftAtClear (block.unless frozen) nfields w.handed.length this p (.result r :: incoming) =
              k.leftAtClear (block.unless frozen) nfields (w.handed.length + p.ntuples) (k.next this) ⟨r, p.id + 1⟩ incoming :=
            if_pos ⟨served.symm ▸ fated, streams⟩
          have size : (k.rows this p).length = p.ntuples := by simp [Kind.rows]
          rw [show (w'.next r).handed = w'.handed from rfl, count, arrived] at later
          rw [left]
          refine later.behind ((streamLoop_next round).trans (by rw [arrived])) ?_
          have delivered : k.delivered nfields this p (.result r :: incoming) =
              k.rows this p ++ k.delivered nfields (k.next this) ⟨r, p.id + 1⟩ incoming := by
            unfold Kind.delivered
            rw [served, if_pos streams]
            cases incoming with
            | nil => rfl
            | cons delivery incoming => cases delivery <;> rfl
          rw [delivered, upToExit_passed fated, size, show (w'.next r).handed = w'.handed from rfl, count, handed,
            List.append_assoc]
        · exact current.decided closed correct streams rfl fated
      · exact current.stopped closed streams

end Run

end RubyPg.PgResult
