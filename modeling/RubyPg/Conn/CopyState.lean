import Mathlib.Tactic.ByContra
import RubyPg.Conn.CopyData

/-!
# When `copy_data` ends the COPY

For each branch of the `begin .. end` ladder, when it leaves the COPY open
(`copyInRescue_open`, `copyInElse_open`, `copyOutRescue_open`, `copyOutElse_open`). What the `else` branch
raises is not rescued, a block that is left by `break` only gets the `ensure`, the clean-up of the `rescue`
branch ends where `put_copy_end` refuses the text of the exception, and another COPY of the same command may
follow the one that was ended.
-/

namespace RubyPg.Conn
set_option autoImplicit false
open Ascii Method

/-- The method has come to its end or been left, and the connection is in COPY_IN or COPY_OUT. -/
def EndsOpen {α : Type} (run : Except Exit α × Frame) : Prop := run.1 ≠ .error .never ∧ run.2.conn.pq.link.Open

/-- A COPY_IN or a COPY_OUT. -/
def Stage.Copies : Stage → Prop
  | .copyIn _ | .copyOut _ => True
  | _ => False

/-- A stage that `get_last_result` gets past. -/
def Stage.Passes : Stage → Prop
  | .wait round => round ≠ .lost
  | .result _ => True
  | _ => False

/-- `get_last_result` comes to another COPY. -/
def FurtherCopy (stages : List Stage) : Prop :=
  ∃ front stage rest, stages = front ++ stage :: rest ∧ stage.Copies ∧ ∀ s ∈ front, s.Passes

theorem link_open (pq : Pq) : pq.link.Open ↔ ∃ stage rest, pq.stages = stage :: rest ∧ stage.Copies := by
  unfold Pq.link
  cases pq.stages with
  | nil => cases pq.closed <;> simp [Link.Open]
  | cons stage rest => cases stage <;> simp [Link.Open, Stage.Copies]

theorem link_lose (pq : Pq) : ¬pq.lose.link.Open := by
  simp [Pq.lose, Pq.link, Link.Open]

theorem not_furtherCopy_nil : ¬FurtherCopy [] := by
  rintro ⟨front, stage, rest, split, -⟩
  simp at split

theorem furtherCopy_cons {stage : Stage} {rest : List Stage} :
    FurtherCopy (stage :: rest) ↔ stage.Copies ∨ (stage.Passes ∧ FurtherCopy rest) := by
  constructor
  · rintro ⟨front, stage', rest', split, copies, passes⟩
    cases front with
    | nil =>
      cases split
      exact Or.inl copies
    | cons s front =>
      obtain ⟨rfl, rfl⟩ := List.cons.inj split
      exact Or.inr ⟨passes _ List.mem_cons_self, front, stage', rest', rfl, copies,
        fun s member => passes s (List.mem_cons_of_mem _ member)⟩
  · rintro (copies | ⟨passed, front, stage', rest', rfl, copies, passes⟩)
    · exact ⟨[], stage, rest, rfl, copies, fun s member => by cases member⟩
    · refine ⟨stage :: front, stage', rest', rfl, copies, fun s member => ?_⟩
      rcases List.mem_cons.1 member with rfl | member
      · exact passed
      · exact passes s member

/-- What `get_last_result` leaves: nothing of a connection that it loses, else nothing or the COPY that it has
come to. -/
theorem lastResult_spec (last : Option ResultStatus) (stages : List Stage) :
    match lastResult last stages with
    | none => ¬FurtherCopy stages ∧ ¬Jams stages
    | some (last', left) => (left = [] ∨ ∃ status, last' = some status ∧ status.isCopy = true) ∧
        (FurtherCopy stages ↔ ∃ stage rest, left = stage :: rest ∧ stage.Copies) ∧ (Jams stages ↔ Jams left) := by
  induction stages generalizing last with
  | nil => exact ⟨Or.inl rfl, by simp [not_furtherCopy_nil], Iff.rfl⟩
  | cons stage rest ih =>
    cases stage with
    | wait round =>
      cases round with
      | lost => simp [lastResult, furtherCopy_cons, Stage.Copies, Stage.Passes]
      | input => simpa [lastResult, furtherCopy_cons, Stage.Copies, Stage.Passes] using ih last
      | writable => simpa [lastResult, furtherCopy_cons, Stage.Copies, Stage.Passes] using ih last
    | result status => simpa [lastResult, furtherCopy_cons, Stage.Copies, Stage.Passes] using ih (some status.1)
    | copyIn flushes => exact ⟨Or.inr ⟨_, rfl, rfl⟩, by simp [furtherCopy_cons, Stage.Copies], Iff.rfl⟩
    | copyOut items => exact ⟨Or.inr ⟨_, rfl, rfl⟩, by simp [furtherCopy_cons, Stage.Copies], Iff.rfl⟩
    | copyBoth items =>
      exact ⟨Or.inr ⟨_, rfl, rfl⟩, by simp [furtherCopy_cons, Stage.Copies, Stage.Passes], Iff.rfl⟩

@[simp] theorem withPq_pq (s : Frame) (pq : Pq) : (s.withPq pq).conn.pq = pq := rfl

section Steps

variable {w : World} {s s' : Frame} {α : Type}

@[simp] theorem setPq_bind (pq : Pq) (f : Unit → CopyM α) : (setPq pq >>= f) s = f () (s.withPq pq) := rfl

@[simp] theorem setStages_bind (stages : List Stage) (f : Unit → CopyM α) :
    (setStages stages >>= f) s = f () (s.withPq { s.conn.pq with stages }) := rfl

@[simp] theorem attempt_ok (a : α) : (attempt (.ok a) : CopyM α) s = (.ok a, s) := rfl

@[simp] theorem attempt_error (e : Exn) : (attempt (.error e) : CopyM α) s = (.error (.raised e), s) := rfl

/-- Behind an exception the state decides. -/
@[simp] theorem endsOpen_raised (e : Exn) : EndsOpen ((.error (.raised e), s) : Except Exit α × Frame) ↔ s.conn.pq.link.Open := by
  simp [EndsOpen]

@[simp] theorem endsOpen_ok (a : α) : EndsOpen ((.ok a, s) : Except Exit α × Frame) ↔ s.conn.pq.link.Open := by
  simp [EndsOpen]

@[simp] theorem not_endsOpen_never : ¬EndsOpen ((.error .never, s) : Except Exit α × Frame) := by
  simp [EndsOpen]

@[simp] theorem endsOpen_left : EndsOpen ((.error .left, s) : Except Exit α × Frame) ↔ s.conn.pq.link.Open := by
  simp [EndsOpen]

/-- What every early end of a branch does: discard the results and raise. -/
theorem discard_raise (e : Exn) :
    EndsOpen ((discardResults w >>= fun _ => (raiseExn e : CopyM α)) s) ↔ Jams s.conn.pq.stages := by
  rw [← discardResults_open]
  cases run : pgconnDiscardResults s.conn.pq.rounds s.conn.pq with
  | none =>
    have unended : discardResults w s = (.error .never, s) := by
      unfold discardResults
      rw [read_bind, run]
      rfl
    rw [bind_error unended]
    simp
  | some answer =>
    obtain ⟨how, after⟩ := answer
    by_cases raised : how = .raised
    · have failed : discardResults w s = (.error (.raised w.pgError), s.withPq after) := by
        unfold discardResults
        rw [read_bind, run]
        simp only [setPq_bind, raised, if_true]
        rfl
      rw [bind_error failed]
      simp
    · have returned : discardResults w s = (.ok (), s.withPq after) := by
        unfold discardResults
        rw [read_bind, run]
        simp only [setPq_bind, raised, if_false]
        rfl
      rw [bind_ok returned]
      exact (endsOpen_raised e).trans (by simp)

/-- The text of the exception cannot be handed to `put_copy_end`. -/
def BadText (w : World) (err : Exn) : Prop := ∃ e, (errmsg w err >>= pgCstrEnc w) = .error e

/-- An exception that passes `rescue PG::Error` by. -/
def Escapes (r : Except Exn Unit) : Prop := ∃ e, r = .error e ∧ e.pgError = false

/-- The clean-up of a COPY_IN leaves a COPY open. It ends before `discard_results`, with the COPY as it was, over
a bad text or an exception that is no `PG::Error`; or `discard_results` comes to a COPY_IN that it
cannot end. -/
def RescueOpen (w : World) (err : Exn) (pq : Pq) : Prop :=
  (BadText w err ∧ pq.link.Open) ∨
  (¬BadText w err ∧ Escapes (pq.putCopyEnd w).1 ∧ (pq.putCopyEnd w).2.link.Open) ∨
  (¬BadText w err ∧ ¬Escapes (pq.putCopyEnd w).1 ∧ Jams (pq.putCopyEnd w).2.stages)

/-- `pg_cstr_enc` raises no `PG::Error`. -/
theorem pgCstrEnc_error {str : Bytes} {e : Exn} (raised : pgCstrEnc w str = .error e) : e.pgError = false := by
  unfold pgCstrEnc at raised
  split at raised
  · cases raised
    rfl
  · exact w.transcode_raises str e raised

/-- `put_copy_end` with a text that it takes. -/
theorem putCopyFail_ok {text b : Bytes} (encoded : pgCstrEnc w text = .ok b) : putCopyFail w text s = putCopyEnd w s := by
  unfold putCopyFail
  rw [encoded]
  rfl

theorem putCopyFail_error {text : Bytes} {e : Exn} (refused : pgCstrEnc w text = .error e) :
    putCopyFail w text s = (.error (.raised e), s) := by
  unfold putCopyFail
  rw [refused]
  rfl

/-- `put_copy_end`, from what libpq answers. -/
theorem putCopyEnd_apply {result : Except Exn Unit} {pq : Pq} (answer : s.conn.pq.putCopyEnd w = (result, pq)) :
    putCopyEnd w s = (result.mapError Exit.raised, s.withPq pq) := by
  have ended : putCopyEnd w s =
      ((s.conn.pq.putCopyEnd w).1.mapError Exit.raised, s.withPq (s.conn.pq.putCopyEnd w).2) := rfl
  rw [ended, answer]

/-- Cleaning up. -/
theorem copyInRescue_open (err : Exn) : EndsOpen (copyInRescue w err s) ↔ RescueOpen w err s.conn.pq := by
  unfold copyInRescue RescueOpen BadText
  cases made : errmsg w err with
  | error e =>
    have bad : (Except.error e >>= pgCstrEnc w) = .error e := rfl
    rw [bind_error (attempt_error e), bad]
    simp
  | ok text =>
    have good : (Except.ok text >>= pgCstrEnc w) = pgCstrEnc w text := rfl
    rw [bind_ok (attempt_ok text), good]
    cases encoded : pgCstrEnc w text with
    | error e =>
      rw [bind_error (rescueIf_passed (putCopyFail_error encoded) (pgCstrEnc_error encoded))]
      simp
    | ok b =>
      simp only [reduceCtorEq, exists_false, not_false_eq_true, true_and, false_and, false_or]
      cases answer : s.conn.pq.putCopyEnd w with
      | mk result pq =>
        have ended := (putCopyFail_ok encoded).trans (putCopyEnd_apply answer)
        cases result with
        | ok _ =>
          rw [bind_ok (rescueIf_ok ended), discard_raise]
          simp [Escapes]
        | error e =>
          cases pgError : e.pgError with
          | true =>
            have rescued : rescueIf (putCopyFail w text) Exit.isPgError (fun _ => pure ()) s = (.ok (), s.withPq pq) :=
              rescueIf_rescued ended pgError
            rw [bind_ok rescued, discard_raise]
            simp [Escapes, pgError]
          | false =>
            rw [bind_error (rescueIf_passed ended pgError)]
            simp [Escapes, pgError]

/-- What `get_last_result` leaves open is another COPY. -/
theorem getLastResult_open : EndsOpen (getLastResult w s) ↔ FurtherCopy s.conn.pq.stages := by
  have spec := lastResult_spec none s.conn.pq.stages
  unfold getLastResult
  rw [read_bind]
  cases read : lastResult none s.conn.pq.stages with
  | none =>
    rw [read] at spec
    simp only [setPq_bind]
    refine (endsOpen_raised _).trans ?_
    simp [spec.1, link_closeSocketIo]
  | some answer =>
    obtain ⟨last, left⟩ := answer
    rw [read] at spec
    obtain ⟨-, further, -⟩ := spec
    simp only [setStages_bind]
    rw [further]
    split
    · exact (endsOpen_raised _).trans (link_open _)
    · exact (endsOpen_ok _).trans (link_open _)

theorem endsOpen_bind_pure {β : Type} {m : CopyM α} (f : α → β) : EndsOpen ((m >>= fun a => pure (f a)) s) ↔ EndsOpen (m s) := by
  cases run : m s with
  | mk result s' =>
    cases result with
    | ok a =>
      rw [bind_ok run]
      simp
    | error e =>
      rw [bind_error run]
      simp [EndsOpen]

/-- The end of a COPY_IN behind the block leaves a COPY open: `put_copy_end` raises with the COPY as it was, or
another COPY follows. -/
def EndOpen (w : World) (pq : Pq) : Prop :=
  (pq.link.Open ∧ (pq.link ≠ .copyIn ∨ ∃ e, w.putEnd = .refused e)) ∨
  (pq.link = .copyIn ∧ w.putEnd = .ended ∧ FurtherCopy pq.stages.tail)

theorem putCopyEnd_cases (w : World) (pq : Pq) :
    (∃ e pq', pq.putCopyEnd w = (.error e, pq') ∧ (pq'.link.Open ↔ EndOpen w pq)) ∨
      (∃ pq', pq.putCopyEnd w = (.ok (), pq') ∧ (FurtherCopy pq'.stages ↔ EndOpen w pq)) := by
  unfold Pq.putCopyEnd EndOpen
  cases stages : pq.stages with
  | nil => exact Or.inl ⟨_, _, rfl, by cases closed : pq.closed <;> simp [Pq.link, stages, closed, Link.Open]⟩
  | cons stage rest =>
    cases stage with
    | wait round => exact Or.inl ⟨_, _, rfl, by simp [Pq.link, stages, Link.Open]⟩
    | result status => exact Or.inl ⟨_, _, rfl, by simp [Pq.link, stages, Link.Open]⟩
    | copyOut items => exact Or.inl ⟨_, _, rfl, by simp [Pq.link, stages, Link.Open]⟩
    | copyBoth items => exact Or.inl ⟨_, _, rfl, by simp [Pq.link, stages, Link.Open]⟩
    | copyIn flushes =>
      cases w.putEnd with
      | ended =>
        refine Or.inr ⟨_, rfl, ?_⟩
        simp [Pq.link, stages, Link.Open, furtherCopy_cons, Stage.Copies, Stage.Passes]
      | unflushed e => exact Or.inl ⟨_, _, rfl, by simp [Pq.link, stages, Link.Open]⟩
      | refused e => exact Or.inl ⟨_, _, rfl, by simp [Pq.link, stages, Link.Open]⟩
      | lost e => exact Or.inl ⟨_, _, rfl, by simp [Pq.link, Pq.lose, stages, Link.Open]⟩

/-- The trailer of a binary COPY, where one is due, is encoded by the encoder set before the call and sent. -/
def TrailerSent (w : World) (coder oldCoder : Option RowCoder) (pq : Pq) : Prop :=
  coder.isSome = true → w.binary = true →
    (∃ b, encodeRow oldCoder copyTrailer = .ok b) ∧ pq.link = .copyIn ∧ w.putTrailer = .sent

/-- The trailer is not sent and the connection stays as it is: the encoder set before the call raises,
there is no COPY_IN any more, or the call is refused. -/
def TrailerFails (w : World) (coder oldCoder : Option RowCoder) (pq : Pq) : Prop :=
  coder.isSome = true ∧ w.binary = true ∧
    ((∃ e, encodeRow oldCoder copyTrailer = .error e) ∨ pq.link ≠ .copyIn ∨ ∃ e, w.putTrailer = .refused e)

/-- The normal end of a COPY_IN leaves a COPY open. -/
def InElseOpen (w : World) (coder oldCoder : Option RowCoder) (pq : Pq) : Prop :=
  (TrailerFails w coder oldCoder pq ∧ pq.link.Open) ∨ (TrailerSent w coder oldCoder pq ∧ EndOpen w pq)

theorem copyInElse_raised {coder : Option RowCoder} {e : Exn} (raised : finishCopyIn w coder s = (.error (.raised e), s')) :
    EndsOpen (copyInElse w coder s) ↔ s'.conn.pq.link.Open := by
  unfold copyInElse
  cases pgError : e.pgError with
  | true =>
    rw [bind_error (rescueIf_rescued raised pgError)]
    simp [Exit.lostCopyState]
  | false =>
    rw [bind_error (rescueIf_passed raised pgError)]
    simp

theorem copyInElse_ended {coder : Option RowCoder} (ended : finishCopyIn w coder s = (.ok (), s')) :
    EndsOpen (copyInElse w coder s) ↔ FurtherCopy s'.conn.pq.stages := by
  unfold copyInElse
  rw [bind_ok (rescueIf_ok ended), endsOpen_bind_pure fun _ => (), getLastResult_open]

/-- The normal end, where it comes to `put_copy_end`. -/
theorem copyInElse_end {coder : Option RowCoder} (reached : finishCopyIn w coder s = putCopyEnd w s') :
    EndsOpen (copyInElse w coder s) ↔ EndOpen w s'.conn.pq := by
  rcases putCopyEnd_cases w s'.conn.pq with ⟨e, pq, answer, isOpen⟩ | ⟨pq, answer, further⟩
  · rw [copyInElse_raised (reached.trans (putCopyEnd_apply answer)), withPq_pq, isOpen]
  · rw [copyInElse_ended (reached.trans (putCopyEnd_apply answer)), withPq_pq, further]

@[simp] theorem restoreEncoder_pq (coder : Option RowCoder) : (restoreEncoder coder s).conn.pq = s.conn.pq := by
  cases coder <;> rfl

@[simp] theorem restoreDecoder_pq (coder : Option RowCoder) : (restoreDecoder coder s).conn.pq = s.conn.pq := by
  cases coder <;> rfl

/-- `put_copy_data` with what the encoder made of the String. -/
theorem putCopyData_ok {answer : PutAnswer} {buffer b : Bytes} {result : Except Exn Unit} {pq : Pq}
    (encoded : encodeRow s.conn.encoderForPutCopyData buffer = .ok b)
    (put : s.conn.pq.putCopyData w answer = (result, pq)) :
    putCopyData w answer buffer s = (result.mapError Exit.raised, s.withPq pq) := by
  unfold putCopyData
  rw [read_bind, encoded, bind_ok (attempt_ok b)]
  have called : onPq (Pq.putCopyData w answer) s =
      ((s.conn.pq.putCopyData w answer).1.mapError Exit.raised, s.withPq (s.conn.pq.putCopyData w answer).2) := rfl
  rw [called, put]

theorem putCopyData_error {answer : PutAnswer} {buffer : Bytes} {e : Exn}
    (raised : encodeRow s.conn.encoderForPutCopyData buffer = .error e) :
    putCopyData w answer buffer s = (.error (.raised e), s) := by
  unfold putCopyData
  rw [read_bind, raised, bind_error (attempt_error e)]

theorem link_copyIn {pq : Pq} : pq.link = .copyIn ↔ ∃ flushes rest, pq.stages = .copyIn flushes :: rest := by
  unfold Pq.link
  cases pq.stages with
  | nil => cases pq.closed <;> simp
  | cons stage rest => cases stage <;> simp

/-- `PQputCopyData` outside COPY_IN. -/
theorem put_uncopied {pq : Pq} (answer : PutAnswer) (uncopied : pq.link ≠ .copyIn) :
    pq.putCopyData w answer = (.error w.pgError, pq) := by
  unfold Pq.putCopyData
  cases stages : pq.stages with
  | nil => rfl
  | cons stage rest =>
    cases stage with
    | copyIn flushes => exact absurd (link_copyIn.2 ⟨flushes, rest, stages⟩) uncopied
    | wait round => rfl
    | result status => rfl
    | copyOut items => rfl
    | copyBoth items => rfl

theorem put_copying {pq : Pq} (answer : PutAnswer) (copying : pq.link = .copyIn) :
    pq.putCopyData w answer = match answer with
      | .sent => (.ok (), pq)
      | .refused e => (.error e, pq)
      | .lost e => (.error e, pq.lose) := by
  obtain ⟨flushes, rest, stages⟩ := link_copyIn.1 copying
  unfold Pq.putCopyData
  rw [stages]
  cases answer <;> rfl

/-- The normal end of a COPY_IN. -/
theorem copyInElse_open (coder : Option RowCoder) :
    EndsOpen (copyInElse w coder s) ↔ InElseOpen w coder s.oldCoder s.conn.pq := by
  by_cases due : coder.isSome = true ∧ w.binary = true
  · obtain ⟨given, binary⟩ := due
    have encoder : (restoreEncoder coder s).conn.encoderForPutCopyData = s.oldCoder := by simp [restoreEncoder, given]
    have finish : finishCopyIn w coder s =
        (putCopyData w w.putTrailer copyTrailer >>= fun _ => putCopyEnd w) (restoreEncoder coder s) := by
      unfold finishCopyIn
      rw [change_bind, if_pos ⟨given, binary⟩]
    cases encoded : encodeRow s.oldCoder copyTrailer with
    | error e =>
      have raised := finish.trans (bind_error (putCopyData_error (encoder ▸ encoded)))
      rw [copyInElse_raised raised]
      simp [InElseOpen, TrailerFails, TrailerSent, given, binary, encoded]
    | ok b =>
      by_cases copying : s.conn.pq.link = .copyIn
      · have put := put_copying (w := w) w.putTrailer ((restoreEncoder_pq coder).symm ▸ copying)
        cases answer : w.putTrailer with
        | sent =>
          rw [answer] at put finish
          have reached := finish.trans (bind_ok (putCopyData_ok (encoder ▸ encoded) put))
          rw [copyInElse_end reached]
          simp [InElseOpen, TrailerFails, TrailerSent, encoded, copying, answer]
        | refused e =>
          rw [answer] at put finish
          have raised := finish.trans (bind_error (putCopyData_ok (encoder ▸ encoded) put))
          rw [copyInElse_raised raised]
          simp [InElseOpen, TrailerFails, TrailerSent, given, binary, encoded, copying, answer]
        | lost e =>
          rw [answer] at put finish
          have raised := finish.trans (bind_error (putCopyData_ok (encoder ▸ encoded) put))
          rw [copyInElse_raised raised]
          simp [InElseOpen, TrailerFails, TrailerSent, given, binary, encoded, copying, answer, link_lose]
      · have put := put_uncopied (w := w) w.putTrailer ((restoreEncoder_pq coder).symm ▸ copying)
        have raised := finish.trans (bind_error (putCopyData_ok (encoder ▸ encoded) put))
        rw [copyInElse_raised raised]
        simp [InElseOpen, TrailerFails, TrailerSent, given, binary, encoded, copying]
  · have reached : finishCopyIn w coder s = putCopyEnd w (restoreEncoder coder s) := by
      unfold finishCopyIn
      rw [change_bind, if_neg due]
    rw [copyInElse_end reached, restoreEncoder_pq]
    have sent : TrailerSent w coder s.oldCoder s.conn.pq := fun given binary => absurd ⟨given, binary⟩ due
    have unfailing : ¬TrailerFails w coder s.oldCoder s.conn.pq := fun fails => due ⟨fails.1, fails.2.1⟩
    simp [InElseOpen, sent, unfailing]

/-- The clean-up of a COPY_OUT leaves a COPY open: `cancel` raises, or `discard_results` comes to a COPY_IN that it
cannot end. -/
def OutRescueOpen (w : World) (pq : Pq) : Prop :=
  match w.cancel pq.stages with
  | .error _ => pq.link.Open
  | .ok stages => Jams stages

theorem copyOutRescue_open (err : Exn) : EndsOpen (copyOutRescue w err s) ↔ OutRescueOpen w s.conn.pq := by
  unfold copyOutRescue OutRescueOpen
  cases answer : w.cancel s.conn.pq.stages with
  | error e =>
    have raised : cancel w s = (.error (.raised e), s) := by
      unfold cancel
      rw [read_bind, answer]
      rfl
    rw [bind_error raised]
    simp
  | ok stages =>
    have cancelled : cancel w s = (.ok (), s.withPq { s.conn.pq with stages }) := by
      unfold cancel
      rw [read_bind, answer]
      rfl
    rw [bind_ok cancelled, discard_raise, withPq_pq]

theorem bad_of_isCopy {status : ResultStatus} (copy : status.isCopy = true) : bad status = false := by
  cases status <;> first | rfl | cases copy

/-- The last result must be that of a finished command: what is left open is a COPY_IN that cannot be ended. -/
theorem checkLastResult_open : EndsOpen (checkLastResult w s) ↔ Jams s.conn.pq.stages := by
  have spec := lastResult_spec none s.conn.pq.stages
  unfold checkLastResult
  cases read : lastResult none s.conn.pq.stages with
  | none =>
    rw [read] at spec
    have raised : getLastResult w s = (.error (.raised w.pgError), s.withPq (closeSocketIo s.conn.pq)) := by
      unfold getLastResult
      rw [read_bind, read]
      rfl
    rw [bind_error raised]
    simp [spec.2, link_closeSocketIo]
  | some answer =>
    obtain ⟨last, left⟩ := answer
    rw [read] at spec
    obtain ⟨stops, -, jams⟩ := spec
    have got : getLastResult w s =
        (if last.any bad then .error (.raised w.pgError) else .ok last, s.withPq { s.conn.pq with stages := left }) := by
      unfold getLastResult
      rw [read_bind, read]
      simp only [setStages_bind]
      split <;> rfl
    rw [jams]
    by_cases isBad : last.any bad = true
    · have empty : left = [] := by
        refine stops.resolve_right ?_
        rintro ⟨status, rfl, copy⟩
        rw [Option.any_some, bad_of_isCopy copy] at isBad
        cases isBad
      rw [if_pos isBad] at got
      rw [bind_error got, empty]
      simp [not_jams_nil, link_nil]
    · rw [if_neg isBad] at got
      rw [bind_ok got]
      cases last with
      | none => exact discard_raise _
      | some status =>
        by_cases finished : status = .commandOk
        · subst finished
          have empty : left = [] := by
            refine stops.resolve_right ?_
            rintro ⟨status, same, copy⟩
            cases same
            cases copy
          rw [empty]
          refine (endsOpen_ok _).trans ?_
          simp [not_jams_nil, link_nil]
        · have other : ∀ s' : Frame, EndsOpen ((do discardResults w; raiseExn (notAllCopyDataRetrieved "Not all COPY data retrieved") : CopyM Unit) s') ↔ Jams s'.conn.pq.stages := fun s' => discard_raise _
          cases status <;> first | exact absurd rfl finished | exact other _

/-- The next message is a row, and reading it raises with the COPY as it was: libpq has no memory for it or the
decoder raises. -/
def RowFails (w : World) (decoder : Option RowCoder) (items : List CopyItem) : Prop :=
  items.find? (· != .wouldBlock) = some .row ∧
    (w.getCopyData = .refused ∨ ∃ data e, w.getCopyData = .row data ∧ decodeRow decoder data = .error e)

/-- The final read raises with the connection as it was: there is no COPY_OUT any more, or the row fails. -/
def ReadFails (w : World) (conn : CopyConn) : Prop :=
  ∀ items rest, conn.pq.stages = .copyOut items :: rest → RowFails w conn.decoderForGetCopyData items

/-- Reading in a COPY_OUT fails over the row, fails over the connection, or gets something. -/
theorem readCopyOut_cases {items : List CopyItem} {rest : List Stage} (copying : s.conn.pq.stages = .copyOut items :: rest) :
    (∃ e s', readCopyOut w rest items s = (.error (.raised e), s') ∧
      ((RowFails w s.conn.decoderForGetCopyData items ∧ s'.conn.pq.link.Open) ∨
        (¬RowFails w s.conn.decoderForGetCopyData items ∧ ¬s'.conn.pq.link.Open ∧ ¬Jams (.copyOut items :: rest)))) ∨
    (∃ more s', readCopyOut w rest items s = (.ok more, s') ∧ ¬RowFails w s.conn.decoderForGetCopyData items ∧
      (Jams s'.conn.pq.stages ↔ Jams (.copyOut items :: rest))) := by
  induction items generalizing s with
  | nil => exact Or.inr ⟨false, _, rfl, by simp [RowFails], by simp⟩
  | cons item items ih =>
    cases item with
    | wouldBlock =>
      have later := @ih (s.withPq { s.conn.pq with stages := .copyOut items :: rest }) rfl
      have fails : RowFails w s.conn.decoderForGetCopyData (.wouldBlock :: items) ↔
          RowFails w s.conn.decoderForGetCopyData items := by simp [RowFails]
      have jams : Jams (.copyOut (.wouldBlock :: items) :: rest) ↔ Jams (.copyOut items :: rest) := by simp
      rw [fails, jams]
      exact later
    | row =>
      cases answer : w.getCopyData with
      | refused =>
        refine Or.inl ⟨w.pgError, s, by simp only [readCopyOut, answer]; rfl, Or.inl ⟨by simp [RowFails, answer], ?_⟩⟩
        exact (link_open _).2 ⟨_, _, copying, trivial⟩
      | row data =>
        have jams : Jams (.copyOut items :: rest) ↔ Jams (.copyOut (.row :: items) :: rest) := by simp
        have run : readCopyOut w rest (.row :: items) s =
            attempt (decodeRow s.conn.decoderForGetCopyData data) (s.withPq { s.conn.pq with stages := .copyOut items :: rest }) := by
          simp only [readCopyOut, answer]
          rfl
        rw [run]
        cases decoded : decodeRow s.conn.decoderForGetCopyData data with
        | error e =>
          refine Or.inl ⟨e, _, rfl, Or.inl ⟨by simp [RowFails, answer, decoded], ?_⟩⟩
          exact (link_open _).2 ⟨_, _, rfl, trivial⟩
        | ok more => exact Or.inr ⟨more, _, rfl, by simp [RowFails, answer, decoded], jams⟩
    | lost =>
      exact Or.inl ⟨_, _, rfl, Or.inr ⟨by simp [RowFails], link_closeSocketIo s.conn.pq, by simp⟩⟩
    | broken => exact Or.inl ⟨_, _, rfl, Or.inr ⟨by simp [RowFails], link_lose s.conn.pq, by simp⟩⟩

/-- The final read of a binary COPY is due and fails. -/
def FinalReadFails (w : World) (coder : Option RowCoder) (conn : CopyConn) : Prop :=
  coder.isSome = true ∧ w.binary = true ∧ ReadFails w conn

/-- The normal end of a COPY_OUT leaves a COPY open: the final read fails in one, or `discard_results` comes to a
COPY_IN that it cannot end. -/
def OutElseOpen (w : World) (coder : Option RowCoder) (conn : CopyConn) : Prop :=
  (FinalReadFails w coder conn ∧ conn.pq.link.Open) ∨ (¬FinalReadFails w coder conn ∧ Jams conn.pq.stages)

/-- The final read, and what follows where it does not raise. -/
theorem finalRead_open :
    EndsOpen ((finalRead w >>= fun _ => checkLastResult w) s) ↔
      (ReadFails w s.conn ∧ s.conn.pq.link.Open) ∨ (¬ReadFails w s.conn ∧ Jams s.conn.pq.stages) := by
  by_cases copying : ∃ items rest, s.conn.pq.stages = .copyOut items :: rest
  · obtain ⟨items, rest, copying⟩ := copying
    have isOpen : s.conn.pq.link.Open := (link_open _).2 ⟨_, _, copying, trivial⟩
    have fails : ReadFails w s.conn ↔ RowFails w s.conn.decoderForGetCopyData items := by
      constructor
      · exact fun fails => fails items rest copying
      · intro fails items' rest' copying'
        rw [copying] at copying'
        cases copying'
        exact fails
    have got : getCopyData w s = readCopyOut w rest items s := by
      unfold getCopyData
      rw [read_bind, copying]
    rw [fails, copying]
    rcases @readCopyOut_cases w s items rest copying with ⟨e, s', run, how⟩ | ⟨more, s', run, unfailing, jams⟩
    · have raised : finalRead w s = (.error (.raised e), s') := bind_error (got.trans run)
      rw [bind_error raised, endsOpen_raised]
      rcases how with ⟨fails, stays⟩ | ⟨unfailing, closed, flows⟩
      · simp [fails, stays, isOpen]
      · simp [unfailing, closed, flows]
    · rw [← jams]
      cases more with
      | false =>
        have returned : finalRead w s = (.ok (), s') := bind_ok (got.trans run)
        rw [bind_ok returned, checkLastResult_open]
        simp [unfailing]
      | true =>
        have discards : finalRead w s = (discardResults w >>= fun _ =>
            (raiseExn (notAllCopyDataRetrieved "Not all binary COPY data retrieved") : CopyM Unit)) s' :=
          bind_ok (got.trans run)
        rw [bind_congr discards, bind_assoc]
        exact (discard_raise _).trans (by simp [unfailing])
  · have raised : finalRead w s = (.error (.raised w.pgError), s) := by
      refine bind_error ?_
      unfold getCopyData
      rw [read_bind]
      cases stages : s.conn.pq.stages with
      | nil => rfl
      | cons stage rest =>
        cases stage with
        | copyOut items => exact absurd ⟨items, rest, stages⟩ copying
        | wait round => rfl
        | result status => rfl
        | copyIn flushes => rfl
        | copyBoth items => rfl
    have fails : ReadFails w s.conn := fun items rest stages => absurd ⟨items, rest, stages⟩ copying
    rw [bind_error raised]
    simp [fails]

/-- The normal end of a COPY_OUT. -/
theorem copyOutElse_open (coder : Option RowCoder) : EndsOpen (copyOutElse w coder s) ↔ OutElseOpen w coder s.conn := by
  unfold copyOutElse OutElseOpen FinalReadFails
  by_cases due : coder.isSome = true ∧ w.binary = true
  · rw [if_pos due, finalRead_open]
    simp [due]
  · rw [if_neg due]
    refine (checkLastResult_open).trans ?_
    have undue : ¬(coder.isSome = true ∧ w.binary = true ∧ ReadFails w s.conn) := fun fails => due ⟨fails.1, fails.2.1⟩
    simp [undue]

/-- The header of a binary COPY, where one is due, is encoded and sent. -/
def HeaderSent (w : World) (coder encoder : Option RowCoder) : Prop :=
  coder.isSome = true → w.binary = true → (∃ b, encodeRow encoder copyHeader = .ok b) ∧ w.putHeader = .sent

theorem headerSent_iff {coder encoder : Option RowCoder} : HeaderSent w coder encoder ↔
    ¬(coder.isSome = true ∧ w.binary = true ∧
      ((∃ e, encodeRow encoder copyHeader = .error e) ∨ w.putHeader ≠ .sent)) := by
  unfold HeaderSent
  cases encodeRow encoder copyHeader <;> simp

/-- The header of a binary COPY fails with `err` and the connection stays as it is. -/
def HeaderFails (w : World) (coder encoder : Option RowCoder) (err : Exn) : Prop :=
  coder.isSome = true ∧ w.binary = true ∧
    (encodeRow encoder copyHeader = .error err ∨
      (∃ b, encodeRow encoder copyHeader = .ok b) ∧ w.putHeader = .refused err)

/-- The frame in which the block of a COPY_IN runs. -/
def Frame.duringIn (coder : Option RowCoder) (s : Frame) : Frame :=
  match coder with
  | none => s
  | some coder => ⟨{ s.conn with encoderForPutCopyData := some coder }, s.conn.encoderForPutCopyData⟩

/-- The frame in which the block of a COPY_OUT runs. -/
def Frame.duringOut (coder : Option RowCoder) (s : Frame) : Frame :=
  match coder with
  | none => s
  | some coder => ⟨{ s.conn with decoderForGetCopyData := some coder }, s.conn.decoderForGetCopyData⟩

/-- Behind the header the body runs the block. -/
theorem copyInBody_sent {coder : Option RowCoder} (copying : s.conn.pq.link = .copyIn)
    (sent : HeaderSent w coder s.conn.encoderForPutCopyData) :
    copyInBody w coder s = yieldBlock w (s.duringIn coder) := by
  unfold copyInBody
  by_cases header : coder.isSome = true ∧ w.binary = true
  · obtain ⟨⟨b, encoded⟩, answer⟩ := sent header.1 header.2
    have put := put_copying (w := w) w.putHeader copying
    rw [answer] at put
    have returned : putCopyData w w.putHeader copyHeader s = (.ok (), s) := by
      rw [answer]
      exact putCopyData_ok encoded put
    rw [if_pos header, bind_ok returned]
    cases coder <;> rfl
  · rw [if_neg header]
    cases coder <;> rfl

/-- A header that fails ends the body: the connection stays as it is, or it is broken. -/
theorem copyInBody_unsent {coder : Option RowCoder} (copying : s.conn.pq.link = .copyIn)
    (unsent : ¬HeaderSent w coder s.conn.encoderForPutCopyData) :
    ∃ err pq, copyInBody w coder s = (.error (.raised err), s.withPq pq) ∧
      ((pq = s.conn.pq ∧ HeaderFails w coder s.conn.encoderForPutCopyData err) ∨
        (pq = s.conn.pq.lose ∧ ∀ e, ¬HeaderFails w coder s.conn.encoderForPutCopyData e)) := by
  unfold HeaderSent at unsent
  push Not at unsent
  obtain ⟨given, binary, failed⟩ := unsent
  unfold copyInBody
  rw [if_pos ⟨given, binary⟩]
  cases encoded : encodeRow s.conn.encoderForPutCopyData copyHeader with
  | error e => exact ⟨e, _, bind_error (putCopyData_error encoded), Or.inl ⟨rfl, given, binary, Or.inl encoded⟩⟩
  | ok b =>
    have put := put_copying (w := w) w.putHeader copying
    cases answer : w.putHeader with
    | sent => exact absurd answer (failed ⟨b, encoded⟩)
    | refused e =>
      rw [answer] at put
      exact ⟨e, _, bind_error (putCopyData_ok encoded put), Or.inl ⟨rfl, given, binary, Or.inr ⟨⟨b, encoded⟩, answer⟩⟩⟩
    | lost e =>
      rw [answer] at put
      exact ⟨e, _, bind_error (putCopyData_ok encoded put), Or.inr ⟨rfl, by simp [HeaderFails, encoded, answer]⟩⟩

theorem copyOutBody_apply (coder : Option RowCoder) : copyOutBody w coder s = yieldBlock w (s.duringOut coder) := by
  cases coder <;> rfl

/-- A broken connection has no COPY left for the clean-up to leave open. -/
theorem not_rescueOpen_lose (err : Exn) (pq : Pq) : ¬RescueOpen w err pq.lose := by
  have answer : pq.lose.putCopyEnd w = (.error w.pgError, pq.lose) := rfl
  have flows : ¬Jams pq.lose.stages := by simp [Pq.lose, not_jams_nil]
  unfold RescueOpen
  rw [answer]
  simp [link_lose, flows]

end Steps

/-- The connection and the stages of its command when the body of a branch starts. -/
def CopyConn.started (conn : CopyConn) (stages : List Stage) : Frame := Frame.withPq { conn } { conn.pq with stages }

/-- What a method makes of the way in which the block ends. -/
def blockResult : Option Exit → Except Exit Unit
  | none => .ok ()
  | some exit => .error exit

/-- How the block leaves a COPY open, from its exit and the connection behind it: by the clean-up behind an
exception, by a `break`, or by the normal end. -/
def BlockOpen (rescueOpen : Exn → Pq → Prop) (elseOpen : CopyConn → Prop) (answer : Option Exit × CopyConn) : Prop :=
  match answer.1 with
  | none => elseOpen answer.2
  | some (.raised err) => rescueOpen err answer.2.pq
  | some .left => answer.2.pq.link.Open
  | some .never => False

/-- When a COPY_IN leaves a COPY open: by the clean-up behind a header that fails, or by the block. -/
def InLeftOpen (w : World) (coder : Option RowCoder) (conn : CopyConn) (stages : List Stage) : Prop :=
  (∃ err, HeaderFails w coder conn.encoderForPutCopyData err ∧ RescueOpen w err { conn.pq with stages }) ∨
  (HeaderSent w coder conn.encoderForPutCopyData ∧
    BlockOpen (RescueOpen w) (fun conn' => InElseOpen w coder conn.encoderForPutCopyData conn'.pq)
      (w.block ((conn.started stages).duringIn coder).conn))

/-- When a COPY_OUT leaves a COPY open. -/
def OutLeftOpen (w : World) (coder : Option RowCoder) (conn : CopyConn) (stages : List Stage) : Prop :=
  BlockOpen (fun _ => OutRescueOpen w) (OutElseOpen w coder) (w.block ((conn.started stages).duringOut coder).conn)

/-- The inputs for which `copy_data` leaves a COPY open. -/
def LeftOpen (w : World) (coder : Option RowCoder) (conn : CopyConn) : Prop :=
  match w.exec with
  | .copyIn flushes rest => InLeftOpen w coder conn (.copyIn flushes :: rest)
  | .copyOut items rest => OutLeftOpen w coder conn (.copyOut items :: rest)
  | .copyBoth _ _ | .finished => False
  | .raised _ stages => ∃ stage rest, stages = stage :: rest ∧ stage.Copies

section Ladder

variable {w : World} {s s' : Frame} {coder : Option RowCoder}

@[simp] theorem endsOpen_restoreEncoder (result : Except Exit Unit) :
    EndsOpen (result, restoreEncoder coder s) ↔ EndsOpen (result, s) := by
  simp [EndsOpen]

@[simp] theorem endsOpen_restoreDecoder (result : Except Exit Unit) :
    EndsOpen (result, restoreDecoder coder s) ↔ EndsOpen (result, s) := by
  simp [EndsOpen]

/-- The COPY_IN branch behind its body. -/
theorem copyInBranch_behind {exit : Option Exit} (body : copyInBody w coder s = (blockResult exit, s')) :
    EndsOpen (copyInBranch w coder s) ↔
      BlockOpen (RescueOpen w) (fun conn => InElseOpen w coder s'.oldCoder conn.pq) (exit, s'.conn) := by
  unfold copyInBranch
  rcases exit with _ | exit
  · rw [protect_ok body, endsOpen_restoreEncoder]
    exact copyInElse_open coder
  · cases exit with
    | raised err =>
      have rescued : (Exit.raised err).exception = some err := rfl
      rw [protect_rescued body rescued, endsOpen_restoreEncoder]
      exact copyInRescue_open err
    | left =>
      rw [protect_passed body rfl, endsOpen_restoreEncoder]
      exact endsOpen_left
    | never =>
      rw [protect_passed body rfl, endsOpen_restoreEncoder]
      exact iff_false_intro not_endsOpen_never

/-- The COPY_OUT branch behind its body. -/
theorem copyOutBranch_behind {exit : Option Exit} (body : copyOutBody w coder s = (blockResult exit, s')) :
    EndsOpen (copyOutBranch w coder s) ↔ BlockOpen (fun _ => OutRescueOpen w) (OutElseOpen w coder) (exit, s'.conn) := by
  unfold copyOutBranch
  rcases exit with _ | exit
  · rw [protect_ok body, endsOpen_restoreDecoder]
    exact copyOutElse_open coder
  · cases exit with
    | raised err =>
      have rescued : (Exit.raised err).exception = some err := rfl
      rw [protect_rescued body rescued, endsOpen_restoreDecoder]
      exact copyOutRescue_open err
    | left =>
      rw [protect_passed body rfl, endsOpen_restoreDecoder]
      exact endsOpen_left
    | never =>
      rw [protect_passed body rfl, endsOpen_restoreDecoder]
      exact iff_false_intro not_endsOpen_never

theorem yieldBlock_apply {exit : Option Exit} {conn : CopyConn} (answer : w.block s.conn = (exit, conn)) :
    yieldBlock w s = (blockResult exit, { s with conn }) := by
  unfold yieldBlock
  rw [answer]
  cases exit <;> rfl

end Ladder

theorem headerFails_unsent {w : World} {coder encoder : Option RowCoder} {err : Exn}
    (fails : HeaderFails w coder encoder err) : ¬HeaderSent w coder encoder := by
  obtain ⟨given, binary, how⟩ := fails
  intro sent
  obtain ⟨⟨b, encoded⟩, answer⟩ := sent given binary
  rcases how with raises | ⟨-, refused⟩
  · rw [encoded] at raises
    cases raises
  · rw [answer] at refused
    cases refused

theorem headerFails_unique {w : World} {coder encoder : Option RowCoder} {err err' : Exn}
    (fails : HeaderFails w coder encoder err) (fails' : HeaderFails w coder encoder err') : err' = err := by
  obtain ⟨-, -, how⟩ := fails
  obtain ⟨-, -, how'⟩ := fails'
  rcases how with raises | ⟨⟨b, encoded⟩, refused⟩ <;> rcases how' with raises' | ⟨⟨b', encoded'⟩, refused'⟩
  · rw [raises] at raises'
    exact (Except.error.inj raises').symm
  · rw [raises] at encoded'
    cases encoded'
  · rw [encoded] at raises'
    cases raises'
  · rw [refused] at refused'
    exact (PutAnswer.refused.inj refused').symm

/-- Without a coder there is no trailer, and with one the old encoder sends it. -/
theorem inElseOpen_during (w : World) (coder : Option RowCoder) (conn : CopyConn) (stages : List Stage) (pq : Pq) :
    InElseOpen w coder ((conn.started stages).duringIn coder).oldCoder pq ↔
      InElseOpen w coder conn.encoderForPutCopyData pq := by
  cases coder with
  | none => simp [InElseOpen, TrailerFails, TrailerSent]
  | some coder => rfl

/-- The COPY_IN branch. -/
theorem copyInBranch_open (w : World) (coder : Option RowCoder) (conn : CopyConn) (flushes : List Flush)
    (rest : List Stage) : EndsOpen (copyInBranch w coder (conn.started (.copyIn flushes :: rest))) ↔
      InLeftOpen w coder conn (.copyIn flushes :: rest) := by
  have copying : (conn.started (.copyIn flushes :: rest)).conn.pq.link = .copyIn := rfl
  by_cases sent : HeaderSent w coder conn.encoderForPutCopyData
  · have unfailing : ∀ err, ¬HeaderFails w coder conn.encoderForPutCopyData err :=
      fun _ fails => headerFails_unsent fails sent
    have body := copyInBody_sent copying sent
    cases answer : w.block ((conn.started (.copyIn flushes :: rest)).duringIn coder).conn with
    | mk exit after =>
      have same := inElseOpen_during w coder conn (.copyIn flushes :: rest)
      rw [copyInBranch_behind (body.trans (yieldBlock_apply answer))]
      simp [InLeftOpen, answer, unfailing, sent, same]
  · obtain ⟨err, pq, body, how⟩ := copyInBody_unsent copying sent
    have behind := @copyInBranch_behind w _ _ coder (some (.raised err)) body
    rw [behind]
    rcases how with ⟨rfl, fails⟩ | ⟨rfl, unfailing⟩
    · constructor
      · exact fun isOpen => Or.inl ⟨err, fails, isOpen⟩
      · rintro (⟨err', fails', isOpen⟩ | ⟨sent', -⟩)
        · exact headerFails_unique fails fails' ▸ isOpen
        · exact absurd sent' sent
    · constructor
      · exact fun isOpen => absurd isOpen (not_rescueOpen_lose err _)
      · rintro (⟨err', fails, -⟩ | ⟨sent', -⟩)
        · exact absurd fails (unfailing err')
        · exact absurd sent' sent

/-- The COPY_OUT branch. -/
theorem copyOutBranch_open (w : World) (coder : Option RowCoder) (conn : CopyConn) (stages : List Stage) :
    EndsOpen (copyOutBranch w coder (conn.started stages)) ↔ OutLeftOpen w coder conn stages := by
  have body := @copyOutBody_apply w (conn.started stages) coder
  cases answer : w.block ((conn.started stages).duringOut coder).conn with
  | mk exit after =>
    rw [copyOutBranch_behind (body.trans (yieldBlock_apply answer)), OutLeftOpen, answer]

/-- A world in which every call succeeds and the block does nothing. -/
def World.sample (exec : Executed) : World where
  sql := []
  exec
  binary := false
  block conn := (none, conn)
  putHeader := .sent
  putTrailer := .sent
  putEnd := .ended
  getCopyData := .refused
  cancel := .ok
  message err := .ok err.message
  transcode := .ok
  transcode_raises := by
    intro str e raised
    cases raised
  errorMessage := []

/-- `COPY t FROM STDIN; COPY t FROM STDIN` with an empty block is left in the second COPY. -/
example : EndsOpen (copyData (World.sample (.copyIn [] [.result ⟨.commandOk, rfl⟩, .wait .input, .copyIn []])) none
    { conn := ⟨{ stages := [] }, none, none⟩ }) := by
  have further : FurtherCopy [.result ⟨.commandOk, rfl⟩, .wait .input, .copyIn []] := by
    simp [furtherCopy_cons, Stage.Copies, Stage.Passes]
  have behind : InElseOpen (World.sample .finished) none none { stages := .copyIn [] :: _ } :=
    Or.inr ⟨fun given => (by cases given), Or.inr ⟨rfl, rfl, further⟩⟩
  exact (copyInBranch_open _ none _ [] _).2 (Or.inr ⟨fun given => (by cases given), behind⟩)

/-- A message with a NUL is bad. -/
theorem badText_of_nul {w : World} {err : Exn} {message : Bytes} (made : w.message err = .ok message)
    (found : nul ∈ message) : BadText w err := by
  have text : errmsg w err = .ok (err.name ++ " while copy data: ".toUTF8.toList ++ message) := by
    unfold errmsg
    rw [made]
    rfl
  refine ⟨argumentError "string contains null byte".toUTF8.toList, ?_⟩
  rw [text]
  exact if_pos (List.mem_append_right _ found)

end RubyPg.Conn
