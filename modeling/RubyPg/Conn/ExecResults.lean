import RubyPg.Conn.Exec

/-!
# What becomes of the results of a connection

Every `PGresult` that libpq hands out is cleared or gets into the hands of a `PG::Result`, except the one in
`prev` where an exception leaves `pgconn_async_get_last_result`: that one is lost. `Accounts` is the custody of
the results inside the calls, `results_accounted` what it comes to over a program.
-/

namespace RubyPg.Exec
set_option autoImplicit false
open Conn Method

/-- The custody of the results while `prev` holds `held`: nothing is released twice or while it is held, and
what is neither released nor held is among `lost`. -/
structure Accounts (held : Option Nat) (lost : List Nat) (s : Session) : Prop where
  sound : s.pgresults.Sound
  complete : s.pgresults.CompleteBut lost
  cur : s.pgresults.holds .cur = none
  prev : s.pgresults.holds .prev = held
  fresh : ∀ n, s.objects ≤ n → s.pgresults.holds (.object n) = none

/-- What does not touch the results keeps their custody. -/
theorem keepsResults : Closed fun _ => Keeps fun s : Session => (s.pgresults, s.objects) where
  pure := .pure
  raise _ := .raise _
  bind := .bind
  read _ := rfl
  ioWait _ := rfl
  setStages _ _ := rfl
  closeSocket _ := rfl

namespace Accounts

variable {held : Option Nat} {lost : List Nat} {s s' : Session} {fuel : Nat}

theorem of_eq (accounts : Accounts held lost s) (same : (s'.pgresults, s'.objects) = (s.pgresults, s.objects)) :
    Accounts held lost s' := by
  obtain ⟨results, objects⟩ := Prod.mk.inj same
  constructor
  · exact results ▸ accounts.sound
  · exact results ▸ accounts.complete
  · exact results ▸ accounts.cur
  · exact results ▸ accounts.prev
  · exact results ▸ objects ▸ accounts.fresh

theorem keeps {α : Type} {m : ExecM α} (kept : Keeps (fun s : Session => (s.pgresults, s.objects)) m)
    (accounts : Accounts held lost s) : Accounts held lost (m s).2 := accounts.of_eq (kept s)

/-- `discard_results` clears what it reads at once. -/
theorem clear (accounts : Accounts held lost s) (stages : List Stage) :
    Accounts held lost { s.setStages stages with pgresults := (s.pgresults.issue .cur).release .cur } where
  sound := accounts.sound.issue.release
  complete := (accounts.complete.issue accounts.cur).release
  cur := by simp [Custody.release]
  prev := by simpa [Custody.release, Custody.issue] using accounts.prev
  fresh n unused := by simpa [Custody.release, Custody.issue] using accounts.fresh n unused

/-- `get_last_result` clears what it had and keeps what it reads. -/
theorem keep (accounts : Accounts held lost s) (stages : List Stage) :
    Accounts (some s.pgresults.issued) lost
      { s.setStages stages with pgresults := ((s.pgresults.issue .cur).release .prev).hand .cur .prev } where
  sound := accounts.sound.issue.release.hand (by decide)
  complete := (accounts.complete.issue accounts.cur).release.hand (by simp [Custody.release]) (by decide)
  cur := by simp [Custody.hand]
  prev := by simp [Custody.hand, Custody.release, Custody.issue]
  fresh n unused := by simpa [Custody.hand, Custody.release, Custody.issue] using accounts.fresh n unused

/-- The exception lets go of `prev`. -/
theorem unwind (accounts : Accounts held lost s) :
    Accounts none (held.toList ++ lost) { s with pgresults := s.pgresults.drop .prev } where
  sound := accounts.sound.drop
  complete := accounts.prev ▸ accounts.complete.drop
  cur := by simpa [Custody.drop] using accounts.cur
  prev := by simp [Custody.drop]
  fresh n unused := by simpa [Custody.drop] using accounts.fresh n unused

/-- A new `PG::Result` takes what `prev` holds. -/
theorem newResult (accounts : Accounts held lost s) : Accounts none lost ((newResult .prev : ExecM Unit) s).2 where
  sound := accounts.sound.hand (by simp)
  complete := accounts.complete.hand (accounts.fresh _ (Nat.le_refl _)) (by simp)
  cur := by simpa [Exec.newResult, Custody.hand] using accounts.cur
  prev := by simp [Exec.newResult, Custody.hand]
  fresh n unused := by
    have later : s.objects + 1 ≤ n := unused
    have other : n ≠ s.objects := by omega
    simpa [Exec.newResult, Custody.hand, other] using accounts.fresh n (by omega)

/-- A new `PG::Result` takes what `get_result` has read. -/
theorem handOut (accounts : Accounts none lost s) (stages : List Stage) : Accounts none lost
    ((Exec.newResult .cur : ExecM Unit) { s.setStages stages with pgresults := s.pgresults.issue .cur }).2 where
  sound := accounts.sound.issue.hand (by simp)
  complete := (accounts.complete.issue accounts.cur).hand (by simpa [Custody.issue] using accounts.fresh _ (Nat.le_refl _)) (by simp)
  cur := by simp [Exec.newResult, Custody.hand]
  prev := by simpa [Exec.newResult, Custody.hand, Custody.issue] using accounts.prev
  fresh n unused := by
    have later : s.objects + 1 ≤ n := unused
    have other : n ≠ s.objects := by omega
    simpa [Exec.newResult, Custody.hand, Custody.issue, other] using accounts.fresh n (by omega)

/-- A `PG::Result` is cleared. -/
theorem clearObject (accounts : Accounts none lost s) (object : Nat) :
    Accounts none lost ((pqClear (.object object) : ExecM Unit) s).2 where
  sound := accounts.sound.release
  complete := accounts.complete.release
  cur := by simpa [pqClear, Custody.release] using accounts.cur
  prev := by simpa [pqClear, Custody.release] using accounts.prev
  fresh n unused := by
    by_cases same : n = object
    · subst same
      simp [pqClear, Custody.release]
    · simpa [pqClear, Custody.release, same] using accounts.fresh n unused

end Accounts

/-- The outcome of a call that was ended early. -/
def endedEarly {α : Type} : Except Exn α → Bool
  | .ok _ => false
  | .error (.badResult _) => false
  | .error _ => true

theorem endedEarly_error {α : Type} {e : Exn} (isEarly : e.Early) : endedEarly (.error e : Except Exn α) = true := by
  cases e with
  | badResult r => exact isEarly.elim
  | struck => rfl
  | connectionBad => rfl
  | unableToSend => rfl
  | pgError => rfl
  | hangs => rfl

section Interruptions

variable (server : Server) (fuel : Nat)

/-- The call comes to `get_last_result`, and is ended early. -/
def cutShort (s : Session) : Call → Bool
  | .exec => endedEarly (exec server fuel s).1
  | .getLastResult => endedEarly (getLastResult fuel s).1
  | _ => false

/-- How many calls of a program are ended early and come to `get_last_result`. -/
def interruptions : Session → List Call → Nat
  | _, [] => 0
  | s, call :: rest => (cutShort server fuel s call).toNat + interruptions (step server fuel s call) rest

end Interruptions

section Calls

variable {server : Server} {held : Option Nat} {lost : List Nat} {s s' : Session} {fuel : Nat}

theorem discardLoop_accounts : Preserves (Accounts none lost) (discardLoop fuel) := by
  have failing : Preserves (Accounts none lost) discardError :=
    .bind (fun s accounts => accounts.keeps keepsResults.closeSocket) fun _ => .pure _
  induction fuel with
  | zero => exact .raise _
  | succ fuel ih =>
    refine .bind .read fun s => .bind (fun s accounts => accounts.keeps (keepsResults.discardWait _)) fun ready => ?_
    split_ifs
    · intro s accounts
      cases found : pqGetResult s.conn.stages with
      | mk status stages =>
        cases status with
        | none =>
          rw [bind_ok (getCur_none found)]
          exact accounts.of_eq rfl
        | some status =>
          rw [bind_ok (getCur_some found)]
          dsimp only
          rw [pqClear, change_bind]
          refine Preserves.behind ((accounts.clear stages).keeps (keepsResults.endCopy status)) fun ended => ?_
          split_ifs
          · exact ih
          · exact failing
    · exact failing

theorem discardResults_accounts : Preserves (Accounts none lost) (discardResults fuel) := by
  refine .bind .read fun s => ?_
  split
  · exact .pure _
  · exact .pure _
  · exact .pure _
  · split_ifs
    · exact .raise _
    · exact discardLoop_accounts

theorem sendQuery_accounts : Preserves (Accounts held lost) (sendQuery server) := by
  refine .bind (fun s accounts => ?_) fun _ s accounts => accounts.keeps keepsResults.waitForFlush
  unfold pqSendQuery
  split
  · exact accounts
  · exact accounts.of_eq rfl

/-- The loop of `get_last_result` has in `prev` what it is going to return, or what it leaves behind. -/
theorem getLastLoop_accounts {prev : Option PgResult} (accounts : Accounts held lost s) (empty : prev = none → held = none) :
    ∃ held', Accounts held' lost (getLastLoop fuel prev s).2 ∧ ((getLastLoop fuel prev s).1 = .ok none → held' = none) := by
  induction fuel generalizing s prev held with
  | zero => exact ⟨held, accounts, fun returned => by cases returned⟩
  | succ fuel ih =>
    rw [getLastLoop, read_bind]
    have waiting := accounts.keeps (keepsResults.waitReadable s.conn.stages)
    cases waited : waitReadable s.conn.stages s with
    | mk result s₁ =>
      rw [waited] at waiting
      cases result with
      | error e =>
        rw [bind_error waited]
        exact ⟨held, waiting, fun returned => by cases returned⟩
      | ok u =>
        rw [bind_ok waited]
        cases found : pqGetResult s₁.conn.stages with
        | mk status stages =>
          cases status with
          | none =>
            rw [bind_ok (getCur_none found)]
            refine ⟨held, waiting.of_eq rfl, fun returned => empty ?_⟩
            cases returned
            rfl
          | some status =>
            rw [bind_ok (getCur_some found)]
            dsimp only
            rw [keepCur, change_bind]
            have kept := waiting.keep stages
            split_ifs
            · exact ⟨_, kept, fun returned => by cases returned⟩
            · exact ih kept fun none => by cases none

/-- `get_last_result` loses a result at most where it is ended early. -/
theorem getLastResult_accounts (accounts : Accounts none lost s) :
    ∃ lost', Accounts none lost' (getLastResult fuel s).2 ∧ lost'.length ≤ lost.length + 1 ∧
      (lost' = lost ∨ ∃ e, (getLastResult fuel s).1 = .error e ∧ e.Early) := by
  obtain ⟨held, looped, empty⟩ := @getLastLoop_accounts none lost s fuel none accounts fun _ => rfl
  unfold getLastResult
  cases loop : getLastLoop fuel none s with
  | mk result s₁ =>
    rw [loop] at looped empty
    cases result with
    | error e =>
      have unwound : unwinding (getLastLoop fuel none) s = (.error e, { s₁ with pgresults := s₁.pgresults.drop .prev }) := by
        rw [unwinding, loop]
      rw [bind_error unwound]
      refine ⟨_, looped.unwind, ?_, .inr ⟨e, rfl, early.getLastLoop none s e s₁ loop⟩⟩
      cases held <;> simp
    | ok r =>
      have unwound : unwinding (getLastLoop fuel none) s = (.ok r, s₁) := by rw [unwinding, loop]
      rw [bind_ok unwound]
      cases r with
      | none =>
        obtain rfl := empty rfl
        exact ⟨lost, looped, Nat.le_succ _, .inl rfl⟩
      | some r =>
        refine ⟨lost, ?_, Nat.le_succ _, .inl rfl⟩
        refine Preserves.behind looped.newResult fun _ => .bind ?_ fun _ => .pure _
        unfold resultCheck
        split
        · exact .raise _
        · exact .pure _

theorem exec_accounts (accounts : Accounts none lost s) :
    ∃ lost', Accounts none lost' (exec server fuel s).2 ∧ lost'.length ≤ lost.length + 1 ∧
      (lost' = lost ∨ ∃ e, (exec server fuel s).1 = .error e ∧ e.Early) := by
  unfold exec
  have discards := @discardResults_accounts lost fuel s accounts
  cases discarded : discardResults fuel s with
  | mk how s₁ =>
    rw [discarded] at discards
    cases how with
    | error e =>
      rw [bind_error discarded]
      exact ⟨lost, discards, Nat.le_succ _, .inl rfl⟩
    | ok how =>
      rw [bind_ok discarded]
      have sends := @sendQuery_accounts server none lost s₁ discards
      cases sent : sendQuery server s₁ with
      | mk result s₂ =>
        rw [sent] at sends
        cases result with
        | error e =>
          rw [bind_error sent]
          exact ⟨lost, sends, Nat.le_succ _, .inl rfl⟩
        | ok u =>
          rw [bind_ok sent]
          exact getLastResult_accounts sends

theorem getResult_accounts : Preserves (Accounts none lost) getResult := by
  refine .bind .read fun s => .bind (fun s accounts => accounts.keeps (keepsResults.waitReadable _)) fun _ s accounts => ?_
  cases found : pqGetResult s.conn.stages with
  | mk status stages =>
    cases status with
    | none =>
      rw [bind_ok (getCur_none found)]
      exact accounts.of_eq rfl
    | some status =>
      rw [bind_ok (getCur_some found)]
      exact Preserves.behind (accounts.handOut stages) fun _ => .pure _

/-- A call loses at most one result, and only where it is cut short. -/
theorem perform_accounts (accounts : Accounts none lost s) (call : Call) :
    ∃ lost', Accounts none lost' (call.perform server fuel s).2 ∧
      lost'.length ≤ lost.length + (cutShort server fuel s call).toNat := by
  have keeps : ∀ {m : ExecM Unit}, Preserves (Accounts none lost) m →
      ∃ lost', Accounts none lost' (m s).2 ∧ lost'.length ≤ lost.length := fun kept => ⟨lost, kept s accounts, Nat.le_refl _⟩
  have reads : ∀ {α : Type} {m : ExecM α},
      (∃ lost', Accounts none lost' (m s).2 ∧ lost'.length ≤ lost.length + 1 ∧
        (lost' = lost ∨ ∃ e, (m s).1 = .error e ∧ e.Early)) →
      ∃ lost', Accounts none lost' ((m >>= fun _ => pure ()) s).2 ∧ lost'.length ≤ lost.length + (endedEarly (m s).1).toNat := by
    rintro α m ⟨lost', accounts', one, same | ⟨e, raised, isEarly⟩⟩
    · subst same
      exact ⟨lost', by rw [bind_pure_state]; exact accounts', Nat.le_add_right _ _⟩
    · rw [raised, endedEarly_error isEarly]
      exact ⟨lost', by rw [bind_pure_state]; exact accounts', one⟩
  cases call with
  | exec => exact reads (exec_accounts accounts)
  | getLastResult => exact reads (getLastResult_accounts accounts)
  | sendQuery => exact keeps sendQuery_accounts
  | getResult => exact keeps (.bind getResult_accounts fun _ => .pure _)
  | discardResults => exact keeps (.bind discardResults_accounts fun _ => .pure _)
  | putCopyEnd => exact keeps fun s accounts => accounts.keeps keepsResults.putCopyEnd
  | getCopyData => exact keeps (.bind (fun s accounts => accounts.keeps keepsResults.getCopyData) fun _ => .pure _)
  | clear object => exact keeps fun s accounts => accounts.clearObject object

theorem run_accounts (accounts : Accounts none lost s) (calls : List Call) :
    ∃ lost', Accounts none lost' (History.run (step server fuel) s calls) ∧
      lost'.length ≤ lost.length + interruptions server fuel s calls := by
  induction calls generalizing s lost with
  | nil => exact ⟨lost, accounts, Nat.le_refl _⟩
  | cons call rest ih =>
    obtain ⟨lost₁, accounts₁, here⟩ := @perform_accounts server lost s fuel accounts call
    obtain ⟨lost₂, accounts₂, later⟩ := ih accounts₁
    refine ⟨lost₂, accounts₂, later.trans ?_⟩
    rw [interruptions, ← Nat.add_assoc]
    exact Nat.add_le_add_right here _

end Calls

/-- **What becomes of the results.** Over every program, server and placing of exceptions, no `PGresult` is
cleared twice or while a `PG::Result` has it, and no two have the same one. Each that libpq handed out is
cleared or in the hands of a `PG::Result`, but for at most one for every `exec` or `get_last_result` that was
ended early. -/
theorem results_accounted (server : Server) (fuel : Nat) (conn : Pq) (flushData : Bool) (strikes : List Bool) (calls : List Call) :
    let start : Session := { conn, flushData, strikes }
    let s := History.run (step server fuel) start calls
    s.pgresults.Sound ∧
      (∀ holder id, s.pgresults.holds holder = some id → ∃ n < s.objects, holder = .object n) ∧
      ∃ lost, lost.length ≤ interruptions server fuel start calls ∧ s.pgresults.CompleteBut lost := by
  intro start s
  have begins : Accounts none [] start := by
    have empty : ∀ k id, start.pgresults.holds k = some id → k = Holder.cur ∧ id < start.pgresults.issued := by
      intro k id held
      cases held
    exact ⟨.single empty rfl, fun id issued => absurd issued (Nat.not_lt_zero _), rfl, rfl, fun _ _ => rfl⟩
  obtain ⟨lost, accounts, few⟩ := @run_accounts server [] start fuel begins calls
  refine ⟨accounts.sound, fun holder id held => ?_, lost, ?_, accounts.complete⟩
  · cases holder with
    | cur => rw [accounts.cur] at held; cases held
    | prev => rw [accounts.prev] at held; cases held
    | object n =>
      by_cases made : n < s.objects
      · exact ⟨n, made, rfl⟩
      · rw [accounts.fresh n (Nat.le_of_not_lt made)] at held
        cases held
  · simpa using few

/-- An exception strikes behind the first of two results: nobody has it, and nobody clears it. -/
example :
    let server : Server := { answer _ := [.result ⟨.tuplesOk, rfl⟩, .wait .input, .result ⟨.tuplesOk, rfl⟩], xactStatus _ := .idle }
    let s := step server 9 { strikes := [false, true] } .exec
    s.pgresults.issued = 1 ∧ s.pgresults.released = [] ∧ s.pgresults.holds .prev = none ∧ s.objects = 0 := by
  decide

end RubyPg.Exec
