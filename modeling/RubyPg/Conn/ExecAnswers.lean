import RubyPg.Conn.Exec

/-!
# An `exec` answers its own command

Whatever stands on the connection, what an `exec` that is not ended early returns or raises is the final result
of its own command (`exec_tells`). Over any program, and however often exceptions strike in its calls, the
connection stays fit for the next `exec` as long as the server neither breaks it nor goes into COPY_BOTH.
-/

namespace RubyPg.Exec
set_option autoImplicit false
open Conn Method

/-- No stage loses the connection or stalls `discard_results`. -/
def Tame (stages : List Stage) : Prop := ∀ stage ∈ stages, ¬stage.Loses ∧ ¬stage.Stalls

/-- The status of the result that a stage has for `PQgetResult`. -/
def status? : Stage → Option ResultStatus
  | .wait _ => none
  | .result status => some status.1
  | .copyIn _ => some .copyIn
  | .copyOut _ => some .copyOut
  | .copyBoth _ => some .copyBoth

/-- The result that an answer ends with: its first COPY, which then goes on, or else its last result. -/
def Final (stages : List Stage) (r : PgResult) : Prop :=
  ∃ front stage rest, stages = front ++ stage :: rest ∧ status? stage = some r.status ∧
    (∀ t ∈ front, ∀ status, status? t = some status → status.isCopy = false) ∧
    (r.status.isCopy = true ∧ r.behind = stage :: rest ∨
      r.status.isCopy = false ∧ r.behind = rest ∧ ∀ t ∈ rest, status? t = none)

/-- What is left of an answer behind its final result. -/
def PgResult.left (r : PgResult) : List Stage := if r.status.isCopy then r.behind else []

/-- The outcome of `exec` tells about `command`: its final result, as a value or where it is bad as an
exception, or `nil` where it has none. The connection is left idle or in the COPY of that result. -/
def Tells (stages : List Stage) (command : Nat) (conn : Pq) : Except Exn (Option PgResult) → Prop
  | .ok none => (∀ t ∈ stages, status? t = none) ∧ conn.stages = []
  | .ok (some r) => r.command = command ∧ Final stages r ∧ bad r.status = false ∧ conn.stages = r.left
  | .error (.badResult r) => r.command = command ∧ Final stages r ∧ bad r.status = true ∧ conn.stages = r.left
  | .error _ => False

theorem Final.behind_front {front stages : List Stage} {r : PgResult} (final : Final stages r)
    (plain : ∀ t ∈ front, ∀ status, status? t = some status → status.isCopy = false) : Final (front ++ stages) r := by
  obtain ⟨before, stage, rest, split, found, plain', ends⟩ := final
  refine ⟨front ++ before, stage, rest, by rw [split, List.append_assoc], found, fun t member => ?_, ends⟩
  rcases List.mem_append.1 member with first | later
  · exact plain t first
  · exact plain' t later

section Reading

variable {s s' : Session} {fuel : Nat}

theorem waitReadable_ready {stage : Stage} {rest : List Stage} (ready : ∀ round, stage ≠ .wait round) :
    waitReadable (stage :: rest) s = (.ok (), s) := by
  cases stage with
  | wait round => exact absurd rfl (ready round)
  | result status => rfl
  | copyIn flushes => rfl
  | copyOut items => rfl
  | copyBoth items => rfl

/-- `wait_socket_readable` returns behind the rounds in front of the next result. -/
theorem waitReadable_ok {stages : List Stage} (here : s.conn.stages = stages) (returned : waitReadable stages s = (.ok (), s')) :
    ∃ front, stages = front ++ s'.conn.stages ∧ (∀ t ∈ front, status? t = none) ∧ s'.sent = s.sent ∧
      ∀ round rest, s'.conn.stages ≠ .wait round :: rest := by
  have nothing : ∀ t ∈ ([] : List Stage), status? t = none := fun _ member => (List.not_mem_nil member).elim
  induction stages generalizing s with
  | nil =>
    cases returned
    exact ⟨[], by rw [here]; rfl, nothing, rfl, by simp [here]⟩
  | cons stage rest ih =>
    by_cases waiting : ∃ round, stage = .wait round
    · obtain ⟨round, rfl⟩ := waiting
      obtain ⟨_, s₁, waited, returned⟩ := of_bind returned
      have sent₁ : s₁.sent = s.sent := by rw [← show (ioWait s).2 = s₁ from congrArg Prod.snd waited]; rfl
      by_cases lost : round = .lost
      · rw [if_pos lost] at returned
        cases returned
      · rw [if_neg lost, setStages_bind] at returned
        obtain ⟨front, split, silent, sent, first⟩ := ih rfl returned
        refine ⟨.wait round :: front, by rw [split]; rfl, fun t member => ?_, sent.trans sent₁, first⟩
        rcases List.mem_cons.1 member with rfl | member
        · rfl
        · exact silent t member
    · have ready : ∀ round, stage ≠ .wait round := fun round same => waiting ⟨round, same⟩
      rw [waitReadable_ready ready] at returned
      cases returned
      refine ⟨[], by rw [here]; rfl, nothing, rfl, fun round rest same => ?_⟩
      rw [here] at same
      exact ready round (List.cons.inj same).1

/-- What `PQgetResult` answers when it need not wait. -/
theorem pqGetResult_ready {stage : Stage} {rest : List Stage} (ready : ∀ round, stage ≠ .wait round) :
    ∃ status behind, pqGetResult (stage :: rest) = (some status, behind) ∧ status? stage = some status ∧
      behind = if status.isCopy then stage :: rest else rest := by
  cases stage with
  | wait round => exact absurd rfl (ready round)
  | result status => exact ⟨status.1, rest, rfl, rfl, by simp [status.2]⟩
  | copyIn flushes => exact ⟨_, _, rfl, rfl, rfl⟩
  | copyOut items => exact ⟨_, _, rfl, rfl, rfl⟩
  | copyBoth items => exact ⟨_, _, rfl, rfl, rfl⟩

/-- The loop of `get_last_result` returns the final result of what is to come, or what it had. -/
theorem getLastLoop_final {prev r : Option PgResult} (returned : getLastLoop fuel prev s = (.ok r, s')) :
    (r = prev ∧ (∀ t ∈ s.conn.stages, status? t = none) ∧ s'.conn.stages = []) ∨
      ∃ cur, r = some cur ∧ cur.command = s.sent ∧ Final s.conn.stages cur ∧ s'.conn.stages = cur.left := by
  induction fuel generalizing s prev with
  | zero => cases returned
  | succ fuel ih =>
    rw [getLastLoop, read_bind] at returned
    obtain ⟨_, s₁, waited, returned⟩ := of_bind returned
    obtain ⟨front, split, silent, sent, first⟩ := waitReadable_ok rfl waited
    rw [← sent, split]
    cases stages : s₁.conn.stages with
    | nil =>
      have null : pqGetResult s₁.conn.stages = (none, []) := by rw [stages]; rfl
      rw [bind_ok (getCur_none null)] at returned
      cases returned
      exact .inl ⟨rfl, by simpa using silent, rfl⟩
    | cons stage rest =>
      rw [stages] at first
      obtain ⟨status, behind, found, known, after⟩ := @pqGetResult_ready stage rest fun round same => first round rest (by rw [same])
      have plain : ∀ t ∈ front, ∀ status, status? t = some status → status.isCopy = false := by
        intro t member status some
        rw [silent t member] at some
        cases some
      rw [← stages] at found
      rw [bind_ok (getCur_some found)] at returned
      dsimp only at returned
      by_cases copy : status.isCopy = true
      · rw [keepCur, change_bind, if_pos copy] at returned
        cases returned
        rw [if_pos copy] at after
        refine .inr ⟨_, rfl, rfl, Final.behind_front ⟨[], stage, rest, rfl, known, ?_, .inl ⟨copy, after⟩⟩ plain, ?_⟩
        · exact fun t member => (List.not_mem_nil member).elim
        · exact (if_pos copy).symm
      · rw [keepCur, change_bind, if_neg copy] at returned
        rw [if_neg copy] at after
        subst after
        have single : ∀ t ∈ [stage], ∀ status, status? t = some status → status.isCopy = false := by
          intro t member status' some
          rw [List.mem_singleton.1 member, known] at some
          cases some
          simpa using copy
        rcases ih returned with ⟨same, last, left⟩ | ⟨cur, same, command, final, left⟩
        · have ordinary : status.isCopy = false := by simpa using copy
          refine .inr ⟨_, same, rfl, Final.behind_front ⟨[], stage, behind, rfl, known, ?_, .inr ⟨ordinary, rfl, last⟩⟩ plain, ?_⟩
          · exact fun t member => (List.not_mem_nil member).elim
          · exact left.trans (if_neg copy).symm
        · exact .inr ⟨cur, same, command, (final.behind_front single).behind_front plain, left⟩

/-- `get_last_result` tells about what is to come, unless the wait raises. -/
theorem getLastResult_tells {outcome : Except Exn (Option PgResult)} (ran : getLastResult fuel s = (outcome, s')) :
    Tells s.conn.stages s.sent s'.conn outcome ∨
      ∃ e, outcome = .error e ∧ ∃ s₁, getLastLoop fuel none s = (.error e, s₁) := by
  cases loop : getLastLoop fuel none s with
  | mk result s₁ =>
    unfold getLastResult at ran
    cases result with
    | error e =>
      have unwound : unwinding (getLastLoop fuel none) s = (.error e, { s₁ with pgresults := s₁.pgresults.drop .prev }) := by
        rw [unwinding, loop]
      rw [bind_error unwound] at ran
      cases ran
      exact .inr ⟨e, rfl, s₁, rfl⟩
    | ok r =>
      have unwound : unwinding (getLastLoop fuel none) s = (.ok r, s₁) := by rw [unwinding, loop]
      rw [bind_ok unwound] at ran
      rcases getLastLoop_final loop with ⟨rfl, silent, idle⟩ | ⟨cur, rfl, command, final, left⟩
      · cases ran
        exact .inl ⟨silent, idle⟩
      · dsimp only at ran
        rw [newResult, change_bind, resultCheck] at ran
        by_cases isBad : bad cur.status = true
        · rw [if_pos isBad] at ran
          cases ran
          exact .inl ⟨command, final, isBad, left⟩
        · rw [if_neg isBad] at ran
          cases ran
          exact .inl ⟨command, final, by simpa using isBad, left⟩

end Reading

section Telling

variable {server : Server} {s s' : Session} {fuel : Nat}

/-- A command that could be sent is alone on the connection. -/
theorem sendQuery_ok (returned : sendQuery server s = (.ok (), s')) :
    s'.conn.stages = server.stages (s.sent + 1) ∧ s'.sent = s.sent + 1 := by
  obtain ⟨_, s₁, sent, flushed⟩ := of_bind returned
  have sends : s₁.conn.stages = server.stages (s.sent + 1) ∧ s₁.sent = s.sent + 1 := by
    unfold pqSendQuery at sent
    split at sent
    · cases sent
    · cases sent
      exact ⟨rfl, rfl⟩
  rw [waitForFlush, read_bind] at flushed
  split at flushed
  · have same : s' = (ioWait s₁).2 := (congrArg Prod.snd flushed).symm
    rw [same]
    exact sends
  · cases flushed
    exact sends

theorem sendQuery_early : Raises Exn.Early (sendQuery server) := by
  refine .bind (fun s e s' raised => ?_) fun _ => early.waitForFlush
  unfold pqSendQuery at raised
  split at raised
  · cases raised
    trivial
  · cases raised

/-- **Whatever is left on the connection**, an `exec` that is not ended early tells about its own command. -/
theorem exec_tells {outcome : Except Exn (Option PgResult)} (ran : exec server fuel s = (outcome, s')) :
    Tells (server.stages (s.sent + 1)) (s.sent + 1) s'.conn outcome ∨ ∃ e, outcome = .error e ∧ e.Early := by
  unfold exec at ran
  cases discarded : discardResults fuel s with
  | mk how s₁ =>
    cases how with
    | error e =>
      rw [bind_error discarded] at ran
      cases ran
      exact .inr ⟨e, rfl, early.discardResults _ e _ discarded⟩
    | ok how =>
      have sent₁ : s₁.sent = s.sent := by
        have kept : (discardResults fuel s).2.sent = s.sent := keepsSent.discardResults s
        rw [discarded] at kept
        exact kept
      rw [bind_ok discarded] at ran
      cases sent : sendQuery server s₁ with
      | mk result s₂ =>
        cases result with
        | error e =>
          rw [bind_error sent] at ran
          cases ran
          exact .inr ⟨e, rfl, sendQuery_early _ e _ sent⟩
        | ok u =>
          obtain ⟨stages, command⟩ := sendQuery_ok sent
          rw [bind_ok sent] at ran
          rw [← sent₁, ← stages, ← command]
          rcases getLastResult_tells ran with tells | ⟨e, rfl, s₃, raised⟩
          · exact .inl tells
          · exact .inr ⟨e, rfl, early.getLastLoop none s₂ e s₃ raised⟩

end Telling

/-! ### Servers that keep the connection -/

section Tame

variable {stages rest : List Stage} {stage : Stage}

theorem Tame.head (tame : Tame (stage :: rest)) : ¬stage.Loses ∧ ¬stage.Stalls := tame stage List.mem_cons_self

theorem Tame.tail (tame : Tame (stage :: rest)) : Tame rest := fun s member => tame s (List.mem_cons_of_mem _ member)

theorem Tame.cons (calm : ¬stage.Loses ∧ ¬stage.Stalls) (tame : Tame rest) : Tame (stage :: rest) := by
  intro s member
  rcases List.mem_cons.1 member with rfl | later
  · exact calm
  · exact tame s later

theorem Tame.of_append {front : List Stage} (tame : Tame (front ++ rest)) : Tame rest :=
  fun s member => tame s (List.mem_append_right _ member)

theorem Tame.nil : Tame [] := fun _ member => (List.not_mem_nil member).elim

theorem Tame.answered {server : Server} {command : Nat} (tame : Tame (server.answer command)) : Tame (server.stages command) := by
  intro s member
  rcases List.mem_append.1 member with answer | ready
  · exact tame s answer
  · rw [List.mem_singleton.1 ready]
    simp [Stage.Loses, Stage.Stalls]

/-- `PQgetResult` leaves what it has not read. -/
theorem Tame.pqGetResult (tame : Tame stages) : Tame (pqGetResult stages).2 := by
  induction stages with
  | nil => exact tame
  | cons stage rest ih =>
    cases stage with
    | wait round => exact ih tame.tail
    | result status => exact tame.tail
    | copyIn flushes => exact tame
    | copyOut items => exact tame
    | copyBoth items => exact tame

theorem Tame.pqPutCopyEnd (tame : Tame stages) : Tame (pqPutCopyEnd stages).2 := by
  unfold Conn.pqPutCopyEnd
  split
  · exact tame.tail
  · exact tame
  · exact tame

/-- Rows and waits of a COPY_OUT can be taken off. -/
theorem Tame.copyOut {item : CopyItem} {items : List CopyItem} (tame : Tame (.copyOut (item :: items) :: rest)) :
    Tame (.copyOut items :: rest) := by
  refine .cons ⟨fun loses => tame.head.1 ?_, id⟩ tame.tail
  rcases loses with lost | broken
  · exact .inl (List.mem_cons_of_mem _ lost)
  · exact .inr (List.mem_cons_of_mem _ broken)

theorem Tame.pqGetCopyData (tame : Tame stages) : Tame (pqGetCopyData stages).2 := by
  unfold Conn.pqGetCopyData
  split
  · exact tame.tail
  · exact tame.copyOut
  · exact tame
  · exact tame
  · exact absurd (.inr List.mem_cons_self) tame.head.1
  · exact tame

theorem Tame.pqConsumeInput (tame : Tame stages) : ∃ after, pqConsumeInput stages = some after ∧ Tame after := by
  unfold Conn.pqConsumeInput
  split
  · exact ⟨_, rfl, tame.copyOut⟩
  · exact absurd (.inl List.mem_cons_self) tame.head.1
  · exact ⟨_, rfl, tame⟩

theorem Tame.flushCopyEnd {after : List Stage} (tame : Tame stages) (flushed : flushCopyEnd stages = some after) :
    Tame after := by
  unfold Exec.flushCopyEnd at flushed
  split at flushed
  · cases flushed
    exact .cons ⟨id, fun failed => tame.head.2 (List.mem_cons_of_mem _ failed)⟩ tame.tail
  · cases flushed

/-- The loop of `discard_results` reads tame stages to their end. -/
theorem discardLoop_tame {conn : Pq} {fuel : Nat} (tame : Tame stages) (enough : (stages.map Stage.rounds).sum + 1 ≤ fuel) :
    Conn.discardLoop conn fuel stages = some (.true, { conn with stages := [] }) := by
  induction stages generalizing fuel with
  | nil =>
    obtain ⟨fuel, rfl⟩ : ∃ n, fuel = n + 1 := ⟨fuel - 1, by omega⟩
    rfl
  | cons stage rest ih =>
    rw [List.map_cons, List.sum_cons] at enough
    obtain ⟨fuel, rfl⟩ : ∃ n, fuel = n + 1 := ⟨fuel - 1, by omega⟩
    cases stage with
    | wait round =>
      rw [discardLoop_wait tame.head.1]
      exact ih tame.tail (by simp only [Stage.rounds] at enough; omega)
    | result status =>
      rw [discardLoop_result]
      exact ih tame.tail (by simp only [Stage.rounds] at enough; omega)
    | copyIn flushes =>
      simp only [Stage.rounds] at enough
      rw [discardLoop_copyIn, endCopyIn_sent tame.head.2, if_pos (by omega)]
      exact ih tame.tail (by omega)
    | copyOut items =>
      simp only [Stage.rounds] at enough
      rw [discardLoop_copyOut, drainCopyOut_rows tame.head.1, if_pos (by omega)]
      exact ih tame.tail (by omega)
    | copyBoth items => exact absurd trivial tame.head.2

end Tame

/-- The connection stands, and nothing on it loses it or stalls. -/
structure Session.Healthy (s : Session) : Prop where
  connected : s.conn.closed = false
  tame : Tame s.conn.stages

/-- A step leaves the connection healthy and returns only what `ok` allows. -/
structure Stays {α : Type} (ok : α → Prop) (ran : Except Exn α × Session) : Prop where
  healthy : ran.2.Healthy
  allowed : ∀ a, ran.1 = .ok a → ok a

namespace Stays

variable {α β : Type} {ok : α → Prop} {s : Session}

theorem pure {a : α} (healthy : s.Healthy) (allowed : ok a) : Stays ok ((Pure.pure a : ExecM α) s) where
  healthy := healthy
  allowed b same := by
    cases same
    exact allowed

theorem raise {e : Exn} (healthy : s.Healthy) : Stays ok ((Method.raise e : ExecM α) s) where
  healthy := healthy
  allowed b same := by cases same

theorem bind {m : ExecM β} {k : β → ExecM α} {first : β → Prop} (here : Stays first (m s))
    (later : ∀ b s', first b → s'.Healthy → Stays ok (k b s')) : Stays ok ((m >>= k) s) := by
  obtain ⟨healthy, allowed⟩ := here
  cases ran : m s with
  | mk result s' =>
    rw [ran] at healthy allowed
    cases result with
    | ok b =>
      rw [bind_ok ran]
      exact later b s' (allowed b rfl) healthy
    | error e =>
      rw [bind_error ran]
      exact raise healthy

theorem setStages {stages : List Stage} (healthy : s.Healthy) (tame : Tame stages) :
    Stays (fun _ => True) (setStages stages s) := ⟨⟨healthy.connected, tame⟩, fun _ _ => trivial⟩

theorem ioWait (healthy : s.Healthy) : Stays (fun _ => True) (ioWait s) :=
  ⟨⟨healthy.connected, healthy.tame⟩, fun _ _ => trivial⟩

theorem getCur (healthy : s.Healthy) : Stays (fun _ => True) (getCur s) := by
  have tame := healthy.tame.pqGetResult
  unfold Exec.getCur
  split
  · rename_i found
    rw [found] at tame
    exact ⟨⟨healthy.connected, tame⟩, fun _ _ => trivial⟩
  · rename_i found
    rw [found] at tame
    exact ⟨⟨healthy.connected, tame⟩, fun _ _ => trivial⟩

/-- What becomes of the results is no matter of the connection. -/
theorem custody {f : Session → Session} (healthy : s.Healthy) (same : (f s).conn = s.conn) :
    Stays (fun _ => True) ((change f : ExecM Unit) s) :=
  ⟨⟨by rw [change_apply, same]; exact healthy.connected, by rw [change_apply, same]; exact healthy.tame⟩, fun _ _ => trivial⟩

theorem discardWait {stages : List Stage} (healthy : s.Healthy) (tame : Tame stages) :
    Stays (fun b => b = true) (discardWait stages s) := by
  induction stages generalizing s with
  | nil => exact pure healthy rfl
  | cons stage rest ih =>
    cases stage with
    | wait round =>
      refine bind (ioWait healthy) fun _ s₁ _ healthy₁ => ?_
      rw [if_neg (show round ≠ .lost from tame.head.1)]
      exact bind (setStages healthy₁ tame.tail) fun _ s₂ _ healthy₂ => ih healthy₂ tame.tail
    | result status => exact pure healthy rfl
    | copyIn flushes => exact pure healthy rfl
    | copyOut items => exact pure healthy rfl
    | copyBoth items => exact pure healthy rfl

theorem asyncFlush (healthy : s.Healthy) : Stays (fun _ => True) (asyncFlush s) := by
  refine bind (ioWait healthy) fun _ s₁ _ healthy₁ => ?_
  rw [read_bind]
  cases flushed : flushCopyEnd s₁.conn.stages with
  | none => exact raise healthy₁
  | some after => exact setStages healthy₁ (healthy₁.tame.flushCopyEnd flushed)

variable {fuel : Nat}

theorem endCopyIn (healthy : s.Healthy) : Stays (fun _ => True) (endCopyIn fuel s) := by
  induction fuel generalizing s with
  | zero => exact raise healthy
  | succ fuel ih =>
    rw [Exec.endCopyIn, read_bind]
    dsimp only
    by_cases blocks : (pqPutCopyEnd s.conn.stages).1 = 0
    · rw [if_pos blocks]
      exact bind (asyncFlush healthy) fun _ s₁ _ healthy₁ => ih healthy₁
    · rw [if_neg blocks]
      exact bind (setStages healthy healthy.tame.pqPutCopyEnd) fun _ s₁ _ healthy₁ => pure healthy₁ trivial

theorem drainCopyOut (healthy : s.Healthy) : Stays (fun b => b = true) (drainCopyOut fuel s) := by
  induction fuel generalizing s with
  | zero => exact raise healthy
  | succ fuel ih =>
    rw [Exec.drainCopyOut, read_bind]
    have tame := healthy.tame.pqGetCopyData
    generalize pqGetCopyData s.conn.stages = data at tame ⊢
    obtain ⟨st, after⟩ := data
    dsimp only at tame ⊢
    split_ifs
    · refine bind (ioWait healthy) fun _ s₁ _ healthy₁ => ?_
      obtain ⟨arrived, consumed, tame⟩ := tame.pqConsumeInput
      simp only [consumed]
      exact bind (setStages healthy₁ tame) fun _ s₂ _ healthy₂ => ih healthy₂
    · exact bind (setStages healthy tame) fun _ s₁ _ healthy₁ => ih healthy₁
    · exact bind (setStages healthy tame) fun _ s₁ _ healthy₁ => pure healthy₁ rfl

theorem endCopy {status : ResultStatus} (healthy : s.Healthy) : Stays (fun b => b = true) (endCopy fuel status s) := by
  unfold Exec.endCopy
  split_ifs
  · exact bind (endCopyIn healthy) fun _ s₁ _ healthy₁ => pure healthy₁ rfl
  · exact drainCopyOut healthy
  · exact pure healthy rfl

theorem discardLoop (healthy : s.Healthy) : Stays (fun _ => True) (discardLoop fuel s) := by
  induction fuel generalizing s with
  | zero => exact raise healthy
  | succ fuel ih =>
    rw [Exec.discardLoop, read_bind]
    refine bind (discardWait healthy healthy.tame) fun ready s₁ isReady healthy₁ => ?_
    rw [if_pos isReady]
    refine bind (getCur healthy₁) fun cur s₂ _ healthy₂ => ?_
    cases cur with
    | none => exact pure healthy₂ trivial
    | some cur =>
      refine bind (custody healthy₂ rfl) fun _ s₃ _ healthy₃ => ?_
      refine bind (endCopy healthy₃) fun ended s₄ hasEnded healthy₄ => ?_
      rw [if_pos hasEnded]
      exact ih healthy₄

theorem discardResults (healthy : s.Healthy) : Stays (fun _ => True) (discardResults fuel s) := by
  rw [Exec.discardResults, read_bind, healthy.connected]
  cases pqTransactionStatus s.conn with
  | idle => exact pure healthy trivial
  | inTrans => exact pure healthy trivial
  | inError => exact pure healthy trivial
  | active => exact discardLoop healthy
  | unknown => exact discardLoop healthy

theorem waitForFlush (healthy : s.Healthy) : Stays (fun _ => True) (waitForFlush s) := by
  rw [Exec.waitForFlush, read_bind]
  split
  · exact ioWait healthy
  · exact pure healthy trivial

theorem sendQuery {server : Server} (tame : ∀ command, Tame (server.answer command)) (healthy : s.Healthy) :
    Stays (fun _ => True) (sendQuery server s) := by
  have sent : Stays (fun _ => True) (pqSendQuery server s) := by
    unfold pqSendQuery
    split
    · exact raise healthy
    · exact ⟨⟨healthy.connected, (tame _).answered⟩, fun _ _ => trivial⟩
  exact bind sent fun _ s₁ _ healthy₁ => waitForFlush healthy₁

theorem waitReadable {stages : List Stage} (healthy : s.Healthy) (tame : Tame stages) :
    Stays (fun _ => True) (waitReadable stages s) := by
  induction stages generalizing s with
  | nil => exact pure healthy trivial
  | cons stage rest ih =>
    cases stage with
    | wait round =>
      refine bind (ioWait healthy) fun _ s₁ _ healthy₁ => ?_
      rw [if_neg (show round ≠ .lost from tame.head.1)]
      exact bind (setStages healthy₁ tame.tail) fun _ s₂ _ healthy₂ => ih healthy₂ tame.tail
    | result status => exact pure healthy trivial
    | copyIn flushes => exact pure healthy trivial
    | copyOut items => exact pure healthy trivial
    | copyBoth items => exact pure healthy trivial

theorem getLastLoop {prev : Option PgResult} (healthy : s.Healthy) : Stays (fun _ => True) (getLastLoop fuel prev s) := by
  induction fuel generalizing s prev with
  | zero => exact raise healthy
  | succ fuel ih =>
    rw [Exec.getLastLoop, read_bind]
    refine bind (waitReadable healthy healthy.tame) fun _ s₁ _ healthy₁ => ?_
    refine bind (getCur healthy₁) fun cur s₂ _ healthy₂ => ?_
    cases cur with
    | none => exact pure healthy₂ trivial
    | some cur =>
      refine bind (custody healthy₂ rfl) fun _ s₃ _ healthy₃ => ?_
      split
      · exact pure healthy₃ trivial
      · exact ih healthy₃

theorem unwinding {α : Type} {m : ExecM α} (stays : Stays (fun _ => True) (m s)) : Stays (fun _ => True) (unwinding m s) := by
  unfold Exec.unwinding
  cases ran : m s with
  | mk result s' =>
    rw [ran] at stays
    cases result with
    | ok a => exact ⟨stays.healthy, fun _ _ => trivial⟩
    | error e => exact ⟨⟨stays.healthy.connected, stays.healthy.tame⟩, fun _ _ => trivial⟩

theorem getLastResult (healthy : s.Healthy) : Stays (fun _ => True) (getLastResult fuel s) := by
  refine bind (unwinding (getLastLoop healthy)) fun r s₁ _ healthy₁ => ?_
  cases r with
  | none => exact pure healthy₁ trivial
  | some r =>
    refine bind (custody healthy₁ rfl) fun _ s₂ _ healthy₂ => ?_
    have checked : Stays (fun _ => True) (resultCheck r s₂) := by
      unfold resultCheck
      split
      · exact raise healthy₂
      · exact pure healthy₂ trivial
    exact bind checked fun _ s₃ _ healthy₃ => pure healthy₃ trivial

theorem getResult (healthy : s.Healthy) : Stays (fun _ => True) (getResult s) := by
  rw [Exec.getResult, read_bind]
  refine bind (waitReadable healthy healthy.tame) fun _ s₁ _ healthy₁ => ?_
  refine bind (getCur healthy₁) fun cur s₂ _ healthy₂ => ?_
  cases cur with
  | none => exact pure healthy₂ trivial
  | some cur => exact bind (custody healthy₂ rfl) fun _ s₃ _ healthy₃ => pure healthy₃ trivial

theorem putCopyEnd (healthy : s.Healthy) : Stays (fun _ => True) (putCopyEnd fuel s) := by
  refine bind (endCopyIn healthy) fun st s₁ _ healthy₁ => ?_
  split
  · exact raise healthy₁
  · exact waitForFlush healthy₁

theorem getCopyData (healthy : s.Healthy) : Stays (fun _ => True) (getCopyData fuel s) := by
  induction fuel generalizing s with
  | zero => exact raise healthy
  | succ fuel ih =>
    rw [Exec.getCopyData, read_bind]
    have tame := healthy.tame.pqGetCopyData
    generalize pqGetCopyData s.conn.stages = data at tame ⊢
    obtain ⟨st, after⟩ := data
    dsimp only at tame ⊢
    split_ifs
    · refine bind (ioWait healthy) fun _ s₁ _ healthy₁ => ?_
      obtain ⟨arrived, consumed, tame⟩ := tame.pqConsumeInput
      simp only [consumed]
      exact bind (setStages healthy₁ tame) fun _ s₂ _ healthy₂ => ih healthy₂
    · exact bind (setStages healthy tame) fun _ s₁ _ healthy₁ => raise healthy₁
    · exact bind (setStages healthy tame) fun _ s₁ _ healthy₁ => pure healthy₁ trivial

theorem perform {server : Server} (tame : ∀ command, Tame (server.answer command)) (healthy : s.Healthy) (call : Call) :
    (call.perform server fuel s).2.Healthy := by
  have valueless : ∀ {α : Type} {m : ExecM α}, Stays (fun _ => True) (m s) → ((m >>= fun _ => Pure.pure ()) s).2.Healthy := by
    intro α m stays
    rw [bind_pure_state]
    exact stays.healthy
  cases call with
  | exec =>
    refine valueless (bind (discardResults healthy) fun _ s₁ _ healthy₁ => ?_)
    exact bind (sendQuery tame healthy₁) fun _ s₂ _ healthy₂ => getLastResult healthy₂
  | sendQuery => exact (sendQuery tame healthy).healthy
  | getResult => exact valueless (getResult healthy)
  | getLastResult => exact valueless (getLastResult healthy)
  | discardResults => exact valueless (discardResults healthy)
  | putCopyEnd => exact (putCopyEnd healthy).healthy
  | getCopyData => exact valueless (getCopyData healthy)
  | clear object => exact ⟨healthy.connected, healthy.tame⟩

end Stays

/-! ### Calls that nothing strikes -/

section Quiet

variable {server : Server} {s s' : Session} {fuel : Nat}

/-- Nothing is left behind a `discard_results` that nothing strikes. -/
theorem discardResults_quiet (healthy : s.Healthy) (quiet : s.Quiet)
    (enough : (s.conn.stages.map Stage.rounds).sum + 1 ≤ fuel) :
    ∃ how s', discardResults fuel s = (.ok how, s') ∧ s'.conn.stages = [] ∧ s'.conn.closed = false ∧ s.Onward s' := by
  have looped : ∃ how s', discardLoop fuel s = (.ok how, s') ∧ s'.conn.stages = [] ∧ s'.conn.closed = false ∧ s.Onward s' := by
    have same : s.conn = { s.conn with stages := s.conn.stages } := rfl
    obtain ⟨s', ran, ended, onward⟩ := discardLoop_refines same quiet (by decide) (discardLoop_tame healthy.tame enough)
    exact ⟨_, s', ran, by rw [ended], by rw [ended]; exact healthy.connected, onward⟩
  rw [discardResults, read_bind, healthy.connected]
  by_cases idle : s.conn.stages = []
  · have early : ∃ how s', (pure .nil : ExecM Discarded) s = (.ok how, s') ∧ s'.conn.stages = [] ∧
        s'.conn.closed = false ∧ s.Onward s' := ⟨_, s, rfl, idle, healthy.connected, .refl quiet⟩
    cases pqTransactionStatus s.conn with
    | idle => exact early
    | inTrans => exact early
    | inError => exact early
    | active => exact looped
    | unknown => exact looped
  · have active : pqTransactionStatus s.conn = .active := by
      unfold pqTransactionStatus
      rw [if_neg (by simpa using idle)]
    rw [active]
    exact looped

theorem sendQuery_quiet (idle : s.conn.stages = []) (connected : s.conn.closed = false) (quiet : s.Quiet) :
    ∃ s', sendQuery server s = (.ok (), s') ∧ s'.Quiet := by
  have sent : pqSendQuery server s = (.ok (), (pqSendQuery server s).2) := by
    unfold pqSendQuery
    rw [idle, connected]
    rfl
  have quiet₁ : (pqSendQuery server s).2.Quiet := by
    unfold pqSendQuery
    rw [idle, connected]
    exact quiet
  rw [sendQuery, bind_ok sent, waitForFlush, read_bind]
  split
  · obtain ⟨s₂, waited, -, onward⟩ := ioWait_quiet quiet₁
    exact ⟨s₂, waited, onward.quiet⟩
  · exact ⟨_, rfl, quiet₁⟩

theorem waitReadable_quiet {stages : List Stage} (tame : Tame stages) (quiet : s.Quiet) :
    ∃ s', waitReadable stages s = (.ok (), s') ∧ s.Onward s' := by
  induction stages generalizing s with
  | nil => exact ⟨s, rfl, .refl quiet⟩
  | cons stage rest ih =>
    by_cases waiting : ∃ round, stage = .wait round
    · obtain ⟨round, rfl⟩ := waiting
      obtain ⟨s₁, waited, -, onward₁⟩ := ioWait_quiet quiet
      have onward : s.Onward (s₁.setStages rest) := onward₁.trans (.of_eq onward₁.quiet rfl rfl)
      obtain ⟨s₂, later, onward₂⟩ := ih tame.tail onward.quiet
      refine ⟨s₂, ?_, onward.trans onward₂⟩
      rw [waitReadable, bind_ok waited, if_neg (show round ≠ .lost from tame.head.1), setStages_bind]
      exact later
    · exact ⟨s, waitReadable_ready fun round same => waiting ⟨round, same⟩, .refl quiet⟩

/-- The loop of `get_last_result` reads a stage in every round. -/
theorem getLastLoop_quiet {prev : Option PgResult} (tame : Tame s.conn.stages) (quiet : s.Quiet)
    (enough : s.conn.stages.length < fuel) : ∃ r s', getLastLoop fuel prev s = (.ok r, s') := by
  induction fuel generalizing s prev with
  | zero => exact absurd enough (Nat.not_lt_zero _)
  | succ fuel ih =>
    obtain ⟨s₁, waited, onward₁⟩ := waitReadable_quiet tame quiet
    obtain ⟨front, split, -, -, first⟩ := waitReadable_ok rfl waited
    rw [getLastLoop, read_bind, bind_ok waited]
    rw [split] at tame enough
    cases stages : s₁.conn.stages with
    | nil =>
      have null : pqGetResult s₁.conn.stages = (none, []) := by rw [stages]; rfl
      rw [bind_ok (getCur_none null)]
      exact ⟨prev, _, rfl⟩
    | cons stage rest =>
      rw [stages] at first tame enough
      obtain ⟨status, behind, found, -, after⟩ := @pqGetResult_ready stage rest fun round same => first round rest (by rw [same])
      rw [← stages] at found
      rw [bind_ok (getCur_some found)]
      dsimp only
      rw [keepCur, change_bind]
      by_cases copy : status.isCopy = true
      · rw [if_pos copy]
        exact ⟨_, _, rfl⟩
      · rw [if_neg copy] at after ⊢
        subst after
        apply ih
        · exact tame.of_append.tail
        · exact onward₁.quiet
        · simp only [List.length_append, List.length_cons] at enough
          show behind.length < fuel
          omega

/-- An `exec` that nothing strikes is not ended early. -/
theorem exec_quiet (tame : Tame (server.answer (s.sent + 1))) (healthy : s.Healthy) (quiet : s.Quiet) :
    ∃ enough, ∀ fuel ≥ enough, ∀ e, (exec server fuel s).1 = .error e → ¬e.Early := by
  refine ⟨(s.conn.stages.map Stage.rounds).sum + 1 + (server.stages (s.sent + 1)).length + 1, fun fuel enough e raised isEarly => ?_⟩
  have rounds : (s.conn.stages.map Stage.rounds).sum + 1 ≤ fuel := by omega
  obtain ⟨how, s₁, discarded, idle, connected, onward⟩ := discardResults_quiet healthy quiet rounds
  obtain ⟨s₂, sent, quiet₂⟩ := @sendQuery_quiet server s₁ idle connected onward.quiet
  obtain ⟨stages, -⟩ := sendQuery_ok sent
  rw [onward.sent] at stages
  have tame₂ : Tame s₂.conn.stages := stages ▸ tame.answered
  have short : s₂.conn.stages.length < fuel := by
    rw [stages]
    omega
  obtain ⟨r, s₃, read⟩ := @getLastLoop_quiet s₂ fuel none tame₂ quiet₂ short
  rw [exec, bind_ok discarded, bind_ok sent] at raised
  cases ran : getLastResult fuel s₂ with
  | mk outcome s₄ =>
    rw [ran] at raised
    rcases getLastResult_tells ran with tells | ⟨e', -, s₅, failed⟩
    · cases raised
      cases e with
      | badResult r => exact isEarly
      | struck => exact tells
      | connectionBad => exact tells
      | unableToSend => exact tells
      | pgError => exact tells
      | hangs => exact tells
    · rw [failed] at read
      cases read

end Quiet

/-- **An `exec` answers its own command.** Behind any calls on any server, whatever exceptions struck in them and
whatever they left on the connection, an `exec` that gets to a result gets to the final result of its own command.
As long as the server neither breaks the connection nor stalls it, an `exec` that nothing strikes gets there. -/
theorem exec_answers_own_command (server : Server) (fuel : Nat) (start : Session) (calls : List Call) :
    let s := History.run (step server fuel) start calls
    let tells fuel := Tells (server.stages (s.sent + 1)) (s.sent + 1) (exec server fuel s).2.conn (exec server fuel s).1
    (∀ fuel, tells fuel ∨ ∃ e, (exec server fuel s).1 = .error e ∧ e.Early) ∧
      (start.Healthy → (∀ command, Tame (server.answer command)) → s.Quiet → ∃ enough, ∀ fuel ≥ enough, tells fuel) := by
  intro s tells
  have telling : ∀ fuel, tells fuel ∨ ∃ e, (exec server fuel s).1 = .error e ∧ e.Early := fun fuel => exec_tells rfl
  refine ⟨telling, fun healthy tame quiet => ?_⟩
  have kept : ∀ s call, s.Healthy → (step server fuel s call).Healthy := fun s call healthy => Stays.perform tame healthy call
  have stays : s.Healthy := History.run_keeps kept healthy calls
  obtain ⟨enough, gets⟩ := exec_quiet (tame _) stays quiet
  refine ⟨enough, fun fuel large => (telling fuel).resolve_right ?_⟩
  rintro ⟨e, raised, isEarly⟩
  exact gets fuel large e raised isEarly

/-- Every command has one result with rows, for which the client waits once. -/
def oneResult : Server where
  answer _ := [.wait .input, .result ⟨.tuplesOk, rfl⟩]
  xactStatus _ := .idle

theorem oneResult_tame (command : Nat) : Tame (oneResult.answer command) := by
  simp [oneResult, Tame, Stage.Loses, Stage.Stalls]

/-- An exception strikes while the first `exec` waits for its result; the second one answers its own command. -/
theorem exec_answers_own_command_struck :
    let s := History.run (step oneResult 9) { strikes := [false, true] } [.exec]
    s.conn.stages ≠ [] ∧ ∃ enough, ∀ fuel ≥ enough,
      Tells (oneResult.stages 2) 2 (exec oneResult fuel s).2.conn (exec oneResult fuel s).1 :=
  ⟨by decide, (exec_answers_own_command oneResult 9 { strikes := [false, true] } [.exec]).2
    ⟨rfl, Tame.nil⟩ oneResult_tame fun strike member => by cases member⟩

end RubyPg.Exec
