import RubyPg.Conn.CopyState

/-!
# What `copy_data` does to the coder attributes

Every step but the two assignments leaves the attributes and the saved coder alone (`Keeps`), so the
attributes behind a branch are read off the frame behind its body. They come back unless the
header of a binary COPY_IN fails, when `old_coder` is not assigned yet.
-/

namespace RubyPg.Conn
set_option autoImplicit false
open Ascii Method

/-- The attributes of the connection that `copy_data` is to leave alone. -/
def CopyConn.coders (conn : CopyConn) : Option RowCoder × Option RowCoder :=
  (conn.encoderForPutCopyData, conn.decoderForGetCopyData)

/-- What the clean-up of both branches leaves alone: the attributes and the saved coder. -/
def Frame.coders (s : Frame) : (Option RowCoder × Option RowCoder) × Option RowCoder := (s.conn.coders, s.oldCoder)

/-- What setting an encoder leaves alone. -/
def Frame.saved (s : Frame) : Option RowCoder × Option RowCoder := (s.conn.decoderForGetCopyData, s.oldCoder)

theorem saved_of_coders {α : Type} {m : CopyM α} (keeps : Keeps Frame.coders m) : Keeps Frame.saved m :=
  keeps.part fun c => (c.1.2, c.2)

section Coders

variable (w : World)

theorem keeps_setPq (pq : Pq) : Keeps Frame.coders (setPq pq) := .change fun _ => rfl

theorem keeps_setStages (stages : List Stage) : Keeps Frame.coders (setStages stages) := .change fun _ => rfl

theorem keeps_raiseExn {α : Type} (e : Exn) : Keeps Frame.coders (raiseExn e : CopyM α) := .raise _

theorem keeps_attempt {α : Type} (r : Except Exn α) : Keeps Frame.coders (attempt r) := .ofExcept _

theorem keeps_onPq {α : Type} (call : Pq → Except Exn α × Pq) : Keeps Frame.coders (onPq call) :=
  .read_bind fun _ => .bind (keeps_setPq _) fun _ => keeps_attempt _

theorem keeps_putCopyData (answer : PutAnswer) (buffer : Bytes) :
    Keeps Frame.coders (putCopyData w answer buffer) :=
  .read_bind fun _ => .bind (keeps_attempt _) fun _ => keeps_onPq _

theorem keeps_putCopyEnd : Keeps Frame.coders (putCopyEnd w) := keeps_onPq _

theorem keeps_putCopyFail (text : Bytes) : Keeps Frame.coders (putCopyFail w text) :=
  .bind (keeps_attempt _) fun _ => keeps_putCopyEnd w

theorem keeps_discardResults : Keeps Frame.coders (discardResults w) := by
  refine .read_bind fun s => ?_
  cases pgconnDiscardResults s.conn.pq.rounds s.conn.pq with
  | none => exact .raise _
  | some answer =>
    refine .bind (keeps_setPq _) fun _ => ?_
    split
    · exact keeps_raiseExn _
    · exact .pure _

theorem keeps_getLastResult : Keeps Frame.coders (getLastResult w) := by
  refine .read_bind fun s => ?_
  cases lastResult none s.conn.pq.stages with
  | none => exact .bind (keeps_setPq _) fun _ => keeps_raiseExn _
  | some answer =>
    refine .bind (keeps_setStages _) fun _ => ?_
    split
    · exact keeps_raiseExn _
    · exact .pure _

theorem keeps_cancel : Keeps Frame.coders (cancel w) := by
  refine .read_bind fun s => ?_
  cases w.cancel s.conn.pq.stages with
  | error e => exact keeps_raiseExn _
  | ok stages => exact keeps_setStages _

theorem keeps_copyInRescue (err : Exn) : Keeps Frame.coders (copyInRescue w err) :=
  .bind (keeps_attempt _) fun _ => .bind (.rescueIf (keeps_putCopyFail w _) fun _ => .pure _) fun _ =>
    .bind (keeps_discardResults w) fun _ => keeps_raiseExn _

theorem keeps_copyOutRescue (err : Exn) : Keeps Frame.coders (copyOutRescue w err) :=
  .bind (keeps_cancel w) fun _ => .bind (keeps_discardResults w) fun _ => keeps_raiseExn _

theorem keeps_readCopyOut (rest : List Stage) (items : List CopyItem) : Keeps Frame.coders (readCopyOut w rest items) := by
  induction items with
  | nil => exact .bind (keeps_setStages _) fun _ => .pure _
  | cons item items ih =>
    cases item with
    | wouldBlock => exact .bind (keeps_setStages _) fun _ => ih
    | row =>
      unfold readCopyOut
      cases w.getCopyData with
      | refused => exact keeps_raiseExn _
      | row data => exact .bind (keeps_setStages _) fun _ => .read_bind fun _ => keeps_attempt _
    | lost => exact .read_bind fun _ => .bind (keeps_setPq _) fun _ => keeps_raiseExn _
    | broken => exact .read_bind fun _ => .bind (keeps_setPq _) fun _ => keeps_raiseExn _

theorem keeps_getCopyData : Keeps Frame.coders (getCopyData w) := by
  refine .read_bind fun s => ?_
  split
  · exact keeps_readCopyOut w _ _
  · exact keeps_raiseExn _

theorem keeps_checkLastResult : Keeps Frame.coders (checkLastResult w) := by
  refine .bind (keeps_getLastResult w) fun last => ?_
  split
  · exact .bind (keeps_discardResults w) fun _ => keeps_raiseExn _
  · exact .pure _
  · exact .bind (keeps_discardResults w) fun _ => keeps_raiseExn _

theorem keeps_finalRead : Keeps Frame.coders (finalRead w) := by
  refine .bind (keeps_getCopyData w) fun more => ?_
  split
  · exact .bind (keeps_discardResults w) fun _ => keeps_raiseExn _
  · exact .pure _

theorem keeps_copyOutElse (coder : Option RowCoder) : Keeps Frame.coders (copyOutElse w coder) := by
  unfold copyOutElse
  split
  · exact .bind (keeps_finalRead w) fun _ => keeps_checkLastResult w
  · exact keeps_checkLastResult w

/-- Sending the trailer and ending the COPY. -/
theorem keeps_finishCopyIn {γ : Type} {f : Frame → γ} (coder : Option RowCoder)
    (steps : ∀ m : CopyM Unit, Keeps Frame.coders m → Keeps f m) (restore : ∀ s, f (restoreEncoder coder s) = f s) :
    Keeps f (finishCopyIn w coder) := by
  refine .bind (.change restore) fun _ => ?_
  split
  · exact .bind (steps _ (keeps_putCopyData w _ _)) fun _ => steps _ (keeps_putCopyEnd w)
  · exact steps _ (keeps_putCopyEnd w)

theorem keeps_copyInElse (coder : Option RowCoder) : Keeps Frame.saved (copyInElse w coder) := by
  refine .bind (.rescueIf (keeps_finishCopyIn w coder (fun _ => saved_of_coders) ?_) fun _ => .raise _) fun _ =>
    .bind (saved_of_coders (keeps_getLastResult w)) fun _ => .pure _
  cases coder <;> intro s <;> rfl

/-- Without a coder the normal end leaves the encoder alone, too. -/
theorem keeps_copyInElse_none : Keeps Frame.coders (copyInElse w none) :=
  .bind (.rescueIf (keeps_finishCopyIn w none (fun _ => id) fun _ => rfl) fun _ => .raise _) fun _ =>
    .bind (keeps_getLastResult w) fun _ => .pure _

end Coders

/-- The header fails under an encoder set before, whose value is not saved yet. -/
def EncoderLost (w : World) (coder : Option RowCoder) (conn : CopyConn) : Prop :=
  (∃ flushes rest, w.exec = .copyIn flushes rest) ∧ coder.isSome = true ∧ w.binary = true ∧ conn.encoderForPutCopyData ≠ none ∧
    ((∃ e, encodeRow conn.encoderForPutCopyData copyHeader = .error e) ∨ w.putHeader ≠ .sent)

section Branches

variable {w : World} {coder : Option RowCoder} {s s' : Frame}

/-- The attributes behind the COPY_IN branch, from the frame behind its body. -/
theorem copyInBranch_coders {result : Except Exit Unit} (body : copyInBody w coder s = (result, s')) :
    (copyInBranch w coder s).2.conn.coders =
      (if coder.isSome then s'.oldCoder else s'.conn.encoderForPutCopyData, s'.conn.decoderForGetCopyData) := by
  unfold copyInBranch
  cases result with
  | error exit =>
    cases rescued : exit.exception with
    | none =>
      rw [protect_passed body rescued]
      cases coder <;> simp [restoreEncoder, CopyConn.coders]
    | some err =>
      have kept := keeps_copyInRescue w err s'
      rw [protect_rescued body rescued]
      simp only [Frame.coders, CopyConn.coders, Prod.mk.injEq] at kept
      cases coder <;> simp [restoreEncoder, CopyConn.coders, kept]
  | ok _ =>
    rw [protect_ok body]
    cases coder with
    | none =>
      have kept := keeps_copyInElse_none w s'
      simp only [Frame.coders, CopyConn.coders, Prod.mk.injEq] at kept
      simp [restoreEncoder, CopyConn.coders, kept]
    | some coder =>
      have kept := keeps_copyInElse w (some coder) s'
      simp only [Frame.saved, Prod.mk.injEq] at kept
      simp [restoreEncoder, CopyConn.coders, kept]

/-- The attributes behind the COPY_OUT branch, from the frame behind its body. -/
theorem copyOutBranch_coders {result : Except Exit Unit} (body : copyOutBody w coder s = (result, s')) :
    (copyOutBranch w coder s).2.conn.coders =
      (s'.conn.encoderForPutCopyData, if coder.isSome then s'.oldCoder else s'.conn.decoderForGetCopyData) := by
  unfold copyOutBranch
  cases result with
  | error exit =>
    cases rescued : exit.exception with
    | none =>
      rw [protect_passed body rescued]
      cases coder <;> simp [restoreDecoder, CopyConn.coders]
    | some err =>
      have kept := keeps_copyOutRescue w err s'
      rw [protect_rescued body rescued]
      simp only [Frame.coders, CopyConn.coders, Prod.mk.injEq] at kept
      cases coder <;> simp [restoreDecoder, CopyConn.coders, kept]
  | ok _ =>
    have kept := keeps_copyOutElse w coder s'
    rw [protect_ok body]
    simp only [Frame.coders, CopyConn.coders, Prod.mk.injEq] at kept
    cases coder <;> simp [restoreDecoder, CopyConn.coders, kept]

/-- The block leaves the frame alone but for the state of the connection. -/
theorem yieldBlock_coders (keeps : ∀ conn, (w.block conn).2.coders = conn.coders) :
    ∃ result after, yieldBlock w s = (result, after) ∧ after.coders = s.coders := by
  refine ⟨_, _, rfl, ?_⟩
  have kept := keeps s.conn
  cases answer : w.block s.conn with
  | mk result conn =>
    rw [answer] at kept
    cases result <;> simp only [Frame.coders, kept]

/-- The COPY_IN branch restores the attributes unless it loses an encoder over the header. -/
theorem copyInBranch_restores {conn : CopyConn} (keeps : ∀ c, (w.block c).2.coders = c.coders) (flushes : List Flush)
    (rest : List Stage) : (copyInBranch w coder (conn.started (.copyIn flushes :: rest))).2.conn.coders = conn.coders ↔
      (conn.encoderForPutCopyData = none ∨ HeaderSent w coder conn.encoderForPutCopyData) := by
  have copying : (conn.started (.copyIn flushes :: rest)).conn.pq.link = .copyIn := rfl
  by_cases sent : HeaderSent w coder conn.encoderForPutCopyData
  · obtain ⟨result, after, run, kept⟩ :=
      @yieldBlock_coders w ((conn.started (.copyIn flushes :: rest)).duringIn coder) keeps
    rw [copyInBranch_coders ((copyInBody_sent copying sent).trans run)]
    simp only [Frame.coders, CopyConn.coders, Prod.mk.injEq] at kept
    cases coder <;> simp [kept, sent, CopyConn.coders, Frame.duringIn, CopyConn.started, Frame.withPq]
  · obtain ⟨err, pq, body, -⟩ := copyInBody_unsent copying sent
    have given : coder.isSome = true := by
      by_contra none
      exact sent fun given => absurd given none
    have old : ((conn.started (.copyIn flushes :: rest)).withPq pq).oldCoder = none := rfl
    rw [copyInBranch_coders body, if_pos given]
    simp only [CopyConn.coders, old, sent, or_false, Prod.mk.injEq]
    exact ⟨fun same => same.1.symm, fun same => ⟨same.symm, rfl⟩⟩

/-- The COPY_OUT branch restores the attributes. -/
theorem copyOutBranch_restores {conn : CopyConn} (keeps : ∀ c, (w.block c).2.coders = c.coders) (stages : List Stage) :
    (copyOutBranch w coder (conn.started stages)).2.conn.coders = conn.coders := by
  obtain ⟨result, after, run, kept⟩ := @yieldBlock_coders w ((conn.started stages).duringOut coder) keeps
  rw [copyOutBranch_coders ((copyOutBody_apply coder).trans run)]
  simp only [Frame.coders, CopyConn.coders, Prod.mk.injEq] at kept
  cases coder <;> simp [kept, CopyConn.coders, Frame.duringOut, CopyConn.started, Frame.withPq]

end Branches

/-- **When `copy_data` leaves the coders alone.** With a block that does not assign them, both attributes
are what they were if and only if no encoder was lost over the header of a binary COPY_IN. -/
theorem copy_data_restores_coders_iff (w : World) (coder : Option RowCoder) (conn : CopyConn)
    (keeps : ∀ c, (w.block c).2.coders = c.coders) :
    (copyData w coder { conn }).2.conn.coders = conn.coders ↔ ¬EncoderLost w coder conn := by
  unfold copyData EncoderLost
  cases w.exec with
  | copyIn flushes rest =>
    have restored := @copyInBranch_restores w coder conn keeps flushes rest
    have started : (setStages (.copyIn flushes :: rest) >>= fun _ => copyInBranch w coder) { conn } =
        copyInBranch w coder (conn.started (.copyIn flushes :: rest)) := rfl
    have copies : ∃ flushes' rest', Executed.copyIn flushes rest = .copyIn flushes' rest' := ⟨flushes, rest, rfl⟩
    simp only [started, restored, headerSent_iff, copies, true_and]
    tauto
  | copyOut items rest =>
    have restored := @copyOutBranch_restores w coder conn keeps (.copyOut items :: rest)
    have started : (setStages (.copyOut items :: rest) >>= fun _ => copyOutBranch w coder) { conn } =
        copyOutBranch w coder (conn.started (.copyOut items :: rest)) := rfl
    simp [started, restored]
  | copyBoth items rest => simp [raiseExn, CopyConn.coders, Frame.withPq]
  | finished => simp [raiseExn, CopyConn.coders, Frame.withPq]
  | raised e stages => simp [raiseExn, CopyConn.coders, Frame.withPq]

/-- A text COPY_IN with a coder and another encoder set before. -/
theorem copy_data_restores_coders_text :
    (copyData (World.sample (.copyIn [] [.result ⟨.commandOk, rfl⟩])) (some ⟨.ok, fun _ => .ok true⟩)
        { conn := ⟨{ stages := [] }, some ⟨fun _ => .error ⟨false, [], []⟩, fun _ => .ok true⟩, none⟩ }).2.conn.coders =
      (some ⟨fun _ => .error ⟨false, [], []⟩, fun _ => .ok true⟩, none) := by
  apply (copy_data_restores_coders_iff _ _ ⟨{ stages := [] }, _, _⟩ fun _ => rfl).2
  rintro ⟨-, -, binary, -⟩
  cases binary

/-- With a coder, a binary COPY_IN and an old encoder that refuses Strings, the old encoder is gone. -/
theorem copy_data_loses_encoder :
    ¬(copyData { World.sample (.copyIn [] [.result ⟨.commandOk, rfl⟩]) with binary := true }
          (some ⟨.ok, fun _ => .ok true⟩)
        { conn := ⟨{ stages := [] }, some ⟨fun _ => .error ⟨false, [], []⟩, fun _ => .ok true⟩, none⟩ }).2.conn.coders =
      CopyConn.coders
        ⟨{ stages := [] }, some ⟨fun _ => .error ⟨false, [], []⟩, fun _ => .ok true⟩, none⟩ := by
  intro restored
  rcases (copyInBranch_restores (fun _ => rfl) [] _).1 restored with unset | sent
  · cases unset
  · obtain ⟨⟨b, encoded⟩, -⟩ := sent rfl rfl
    cases encoded

end RubyPg.Conn
