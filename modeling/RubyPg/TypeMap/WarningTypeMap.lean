import RubyPg.TypeMap.ChainRuns

/-!
# Warnings of `PG::BasicTypeMapForResults`

Its default type map is a `WarningTypeMap`: it warns about every type it is asked for, notes the type in
`@already_warned` and goes on to its own default type map. Copies that `fit_to_result` makes share the notes. A
frozen one takes no notes.
-/

namespace RubyPg.TypeMaps
set_option autoImplicit false
open Method ByOid History

variable {γ : Type}

/-- Every warning was noted, every note was a warning, and no `WarningTypeMap` is frozen. -/
structure World.Tidy (w : World γ) : Prop where
  once : w.warnings.Nodup
  known : ∀ h x, x ∈ w.alreadyWarned h ↔ (h, x) ∈ w.warnings
  free : ∀ (d : Ref) (h : Nat), TypeMap.inRuby d true (some h) ∉ w.maps

/-- The call freezes no `WarningTypeMap`. -/
def LeavesWarning (w : World γ) : Op γ → Prop
  | .freeze self => ∀ (d : Ref) (frozen : Bool) (h : Nat), w.maps[self]? ≠ some (.inRuby d frozen (some h))
  | _ => True

section Warnings

variable {w w' : World γ} {t : Ref}

theorem unfrozen {tm : TypeMap γ} (free : tm.frozen = false) (d : Ref) (h : Nat) : .inRuby d true (some h) ≠ tm := by
  rintro rfl
  cases free

theorem tidy_allocate {tm : TypeMap γ} (free : ∀ (d : Ref) (h : Nat), .inRuby d true (some h) ≠ tm) :
    Preserves World.Tidy (allocate tm) := by
  intro w tidy
  refine ⟨tidy.once, tidy.known, fun d h member => ?_⟩
  rcases List.mem_append.1 member with old | new
  · exact tidy.free d h old
  · exact free d h (List.mem_singleton.1 new)

theorem World.Tidy.set (tidy : w.Tidy) {tm : TypeMap γ} (free : ∀ (d : Ref) (h : Nat), .inRuby d true (some h) ≠ tm)
    (t : Ref) (oidToCoder : Nat → Fin 2 → Oid → Option γ) : World.Tidy { w with maps := w.maps.set t tm, oidToCoder } := by
  refine ⟨tidy.once, tidy.known, fun d h member => ?_⟩
  rcases List.mem_or_eq_of_mem_set member with old | new
  · exact tidy.free d h old
  · exact free d h new

theorem tidy_onOid {α : Type} (t : Ref) (m : Method Stop (Tmbo γ Ref) α) : Preserves World.Tidy (onOid t m) := by
  intro w tidy
  unfold onOid
  split
  · exact tidy.set (fun _ _ other => by cases other) t _
  · exact tidy

theorem tidy_warnUndefined (tidy : w.Tidy) (h : Nat) (format : Int) (oid : Oid) :
    (warnUndefined false h format oid w).2.Tidy := by
  rw [warnUndefined, change_apply]
  by_cases noted : (format, oid) ∈ w.alreadyWarned h
  · rw [if_pos noted]
    exact tidy
  · rw [if_neg noted]
    have fresh : (h, format, oid) ∉ w.warnings := fun warned => noted ((tidy.known h (format, oid)).2 warned)
    refine ⟨?_, fun h' x => ?_, tidy.free⟩
    · rw [List.nodup_append]
      refine ⟨tidy.once, List.pairwise_singleton _ _, fun old member new only => ?_⟩
      cases List.mem_singleton.1 only
      exact ne_of_mem_of_not_mem member fresh
    · show x ∈ Function.update w.alreadyWarned h ((format, oid) :: w.alreadyWarned h) h' ↔
        (h', x) ∈ w.warnings ++ [(h, format, oid)]
      rw [List.mem_append, List.mem_singleton, Prod.mk.injEq, ← tidy.known h' x]
      by_cases same : h' = h
      · subst same
        rw [Function.update_self, List.mem_cons, or_comm]
        simp
      · rw [Function.update_of_ne same]
        simp [same]

theorem tidy_fitTo (result : Option PgResult) (t : Ref) : Preserves World.Tidy (fitTo result t : Call γ Ref) := fun w =>
  preserves_fitToResult (fun t m _ => tidy_onOid t m) (fun _ free => tidy_allocate (unfrozen free)) result w.maps.length t w

theorem tidy_valueBy (t : Ref) (r : PgResult) (tuple field : Nat) :
    Preserves World.Tidy (valueBy t r tuple field : Call γ (Answer γ)) := by
  refine fun w => preserves_typecastResultValue (fun t m _ => tidy_onOid t m) ?_ r tuple field w.maps.length t w
  intro w' u d frozen h here tidy format oid
  cases frozen with
  | true => exact absurd (List.mem_of_getElem? here) (tidy.free d h)
  | false => exact tidy_warnUndefined tidy h format oid

theorem tidy_writeResult (i : Nat) (result : TPgResult) : Preserves World.Tidy (writeResult i result : Call γ Unit) :=
  .change fun _ tidy => ⟨tidy.once, tidy.known, tidy.free⟩

theorem preserves_streaming {P : World γ → Prop} (k : Nat) : Preserves P (streaming k : Call γ Stream) := by
  intro w holds
  unfold streaming
  split
  · split <;> exact holds
  · exact holds

theorem tidy_writeStream (k : Nat) (stream : Stream) : Preserves World.Tidy (writeStream k stream : Call γ Unit) :=
  .change fun _ tidy => ⟨tidy.once, tidy.known, tidy.free⟩

theorem tidy_pgresultStreamStart (i : Nat) : Preserves World.Tidy (pgresultStreamStart i : Call γ Unit) := by
  refine .bind (preserves_held i) fun result => ?_
  cases result.pgresult with
  | none => exact .raise _
  | some current =>
    refine .bind (preserves_streamStatus _ _) fun goes => ?_
    split
    · exact .change fun _ tidy => ⟨tidy.once, tidy.known, tidy.free⟩
    · exact .pure _

theorem tidy_pgresultStreamNext (k : Nat) (next : PgResult) (status : PgResult.ExecStatus) :
    Preserves World.Tidy (pgresultStreamNext k next status : Call γ Unit) := by
  refine .bind (preserves_streaming k) fun stream => .bind (preserves_held _) fun result => ?_
  refine .bind (tidy_writeResult _ _) fun _ => .bind (tidy_writeStream k _) fun _ => ?_
  refine .bind (preserves_streamStatus _ _) fun goes => ?_
  split
  · split
    · exact .bind (tidy_writeResult _ _) fun _ => .raise _
    · exact tidy_writeStream k _
  · exact .pure _

theorem tidy_yieldTuple (k : Nat) : Preserves World.Tidy (yieldTuple k : Call γ Unit) :=
  .bind (preserves_streaming k) fun _ => .bind (preserves_held _) fun _ =>
    .change fun _ tidy => ⟨tidy.once, tidy.known, tidy.free⟩

theorem tidy_pgresultGetvalue (i : Nat) (tupNum fieldNum : Int) :
    Preserves World.Tidy (pgresultGetvalue i tupNum fieldNum : Call γ (Answer γ)) := by
  refine .bind (preserves_held i) fun result => ?_
  cases result.pgresult with
  | none => exact .raise _
  | some current =>
    dsimp only
    split
    · exact .raise _
    · split
      · exact .raise _
      · exact tidy_valueBy _ _ _ _

theorem tidy_pgTypemapDefaultTypeMapSet (self d : Ref) :
    Preserves World.Tidy (pgTypemapDefaultTypeMapSet self d : Call γ Unit) := by
  refine .bind (preserves_this self) fun tm => ?_
  split
  · exact .raise _
  · rename_i free
    have unfrozen' : (tm.setDefault d).frozen = false := by
      rw [← Bool.eq_false_iff.2 free]
      cases tm <;> rfl
    exact .change fun w tidy => tidy.set (unfrozen unfrozen') self w.oidToCoder

theorem tidy_objFreeze (tidy : w.Tidy) {self : Ref}
    (leaves : ∀ (d : Ref) (frozen : Bool) (h : Nat), w.maps[self]? ≠ some (.inRuby d frozen (some h))) :
    (objFreeze self w).2.Tidy := by
  unfold objFreeze
  cases here : w.maps[self]? with
  | none =>
    have lost : this self w = (.error (.stop .undefined), w) := by rw [this, here]
    rw [bind_error lost]
    exact tidy
  | some tm =>
    rw [this_bind here]
    refine tidy.set (fun d h same => ?_) self w.oidToCoder
    cases tm with
    | inRuby default frozen alreadyWarned =>
      cases same
      exact leaves d frozen h here
    | unsuitable className => cases same
    | allStrings => cases same
    | byColumn tm frozen => cases same
    | byOid own hashes => cases same

theorem step_tidy (w : World γ) (op : Op γ) (tidy : w.Tidy) (leaves : LeavesWarning w op) : (step w op).Tidy := by
  have from_keeps {α : Type} {m : Call γ α} {a : Option (Answer γ)} (keeps : Preserves World.Tidy m) :
      ((m >>= fun _ => pure a) w).2.Tidy := Preserves.bind keeps (fun _ => .pure _) w tidy
  cases op with
  | newUnsuitable className => exact from_keeps (tidy_allocate (unfrozen rfl))
  | newAllStrings => exact from_keeps (tidy_allocate fun _ _ other => by cases other)
  | newByColumn convs => exact from_keeps (tidy_allocate (unfrozen rfl))
  | newByOid => exact from_keeps (tidy_allocate (unfrozen rfl))
  | newInRuby warning => exact from_keeps (tidy_allocate (unfrozen rfl))
  | setDefault self d => exact from_keeps (tidy_pgTypemapDefaultTypeMapSet self d)
  | addCoder self coder oid format => exact from_keeps (tidy_onOid self _)
  | rmCoder self format oid => exact from_keeps (tidy_onOid self _)
  | setMaxRows self value => exact from_keeps (tidy_onOid self _)
  | buildColumnMap self i =>
    refine from_keeps (.bind (preserves_held i) fun _ => .bind (preserves_pgresultGet _) fun _ => ?_)
    exact .bind (tidy_onOid self _) fun _ => .bind (tidy_allocate (unfrozen rfl)) fun _ => .pure _
  | freeze self =>
    rw [step, Op.exec, bind_pure_state (objFreeze self) fun _ => none]
    exact tidy_objFreeze tidy leaves
  | newResult r status t =>
    exact from_keeps (.bind (tidy_fitTo (some r) t) fun _ => .change fun _ tidy => ⟨tidy.once, tidy.known, tidy.free⟩)
  | clear i => exact from_keeps (.bind (preserves_held i) fun _ => tidy_writeResult i _)
  | setTypeMap i t =>
    exact from_keeps (.bind (preserves_held i) fun _ => .bind (tidy_fitTo _ t) fun _ => tidy_writeResult i _)
  | streamStart i => exact from_keeps (tidy_pgresultStreamStart i)
  | streamNext k next status => exact from_keeps (tidy_pgresultStreamNext k next status)
  | streamLeave k => exact from_keeps (.bind (preserves_streaming k) fun _ => tidy_writeStream k _)
  | yieldTuple k => exact from_keeps (tidy_yieldTuple k)
  | getvalue i tupNum fieldNum =>
    exact Preserves.bind (tidy_pgresultGetvalue i tupNum fieldNum) (fun _ => .pure _) w tidy

theorem start_tidy : (World.start : World γ).Tidy := by
  refine ⟨List.nodup_nil, fun h x => by simp [World.start], fun d h member => ?_⟩
  cases List.mem_singleton.1 member

/-! Whatever comes out as a string has passed the whole chain, and the `WarningTypeMap`s in it. -/

theorem warnings_kept (x : Nat × Int × Oid) (t : Ref) (r : PgResult) (tuple field fuel : Nat) :
    Preserves (fun w : World γ => x ∈ w.warnings) (typecastResultValue r tuple field fuel t) := by
  refine preserves_typecastResultValue (fun t m _ w member => ?_) (fun w t d frozen h _ member format oid => ?_) r tuple field
    fuel t
  · unfold onOid
    split <;> exact member
  · rw [warnUndefined, change_apply]
    split
    · exact member
    · exact List.mem_append_left _ member

theorem warnUndefined_warned (tidy : w.Tidy) (frozen : Bool) (h : Nat) (format : Int) (oid : Oid) :
    (h, format, oid) ∈ (warnUndefined frozen h format oid w).2.warnings := by
  rw [warnUndefined, change_apply]
  split
  · rename_i noted
    exact (tidy.known h (format, oid)).1 noted
  · exact List.mem_append_right _ (List.mem_singleton_self _)

theorem warnUndefined_maps (w : World γ) (frozen : Bool) (h : Nat) (format : Int) (oid : Oid) :
    (warnUndefined frozen h format oid w).2.maps = w.maps := by
  rw [warnUndefined, change_apply]
  split <;> rfl

theorem onOid_ruby {α : Type} {u d : Ref} {frozen : Bool} {alreadyWarned : Option Nat} (t : Ref)
    (m : Method Stop (Tmbo γ Ref) α) :
    Preserves (fun w : World γ => w.maps[u]? = some (.inRuby d frozen alreadyWarned)) (onOid t m) := by
  intro w here
  unfold onOid
  split
  · rename_i own hashes there
    have other : t ≠ u := by
      rintro rfl
      cases here.symm.trans there
    exact (List.getElem?_set_ne other).trans here
  · exact here

theorem typecastResultValue_warned {r : PgResult} {tuple field fuel nfields : Nat} {ts : List Ref} {answer : Answer γ}
    (tidy : w.Tidy) (chain : w.Chain nfields t ts) (run : typecastResultValue r tuple field fuel t w = (.ok answer, w'))
    (undecoded : answer = .string ∨ answer = .bytea) {u d : Ref} (passed : u ∈ ts) {frozen : Bool} {h : Nat}
    (warning : w.maps[u]? = some (.inRuby d frozen (some h))) : (h, r.fformat field, r.ftype field) ∈ w'.warnings := by
  induction ts generalizing w t fuel with
  | nil => cases passed
  | cons first us ih =>
    cases fuel with
    | zero => cases run
    | succ fuel =>
      obtain ⟨tm, here, head⟩ := chain.head
      rw [typecastResultValue, this_bind here] at run
      obtain rfl : t = first := by cases chain.linked <;> rfl
      have later (other : ∀ default frozen h, tm ≠ .inRuby default frozen (some h)) : u ∈ us := by
        refine (List.mem_cons.1 passed).resolve_left fun same => ?_
        subst same
        cases here.symm.trans warning
        exact other d frozen h rfl
      cases head with
      | strings =>
        cases later fun _ _ _ other => by cases other
      | @column tm frozen' _ columns rest =>
        have passed' := later fun _ _ _ other => by cases other
        dsimp only at run
        rw [pgTmbcTypecast] at run
        split at run
        · cases run
        · rw [pgTmbcResultValue] at run
          split at run
          · cases run
            rcases undecoded with other | other <;> cases other
          · cases found : tm.convs.getD field none with
            | some conv =>
              rw [found] at run
              cases run
              rcases undecoded with other | other <;> cases other
            | none =>
              rw [found] at run
              exact ih tidy rest run passed' warning
      | @oid own hashes _ rest =>
        have passed' := later fun _ _ _ other => by cases other
        obtain ⟨cast, w₁, looked, run⟩ := of_bind run
        cases cast with
        | null =>
          cases run
          rcases undecoded with other | other <;> cases other
        | coder conv =>
          cases run
          rcases undecoded with other | other <;> cases other
        | default d' =>
          have tidy' := tidy_onOid t (pgTmboResultValue r tuple field) w tidy
          have beyond := beyond_onOid (keepsDefault_resultValue r tuple field) w t w (.refl w)
          have warning' := onOid_ruby t (pgTmboResultValue r tuple field) w warning
          rw [looked] at tidy' beyond warning'
          cases onOid_default here looked
          exact ih tidy' (beyond.longer.chain rest) run passed' warning'
      | @ruby default frozen' alreadyWarned _ rest =>
        cases alreadyWarned with
        | none => exact ih tidy rest run (later fun _ _ _ other => by cases other) warning
        | some h' =>
          obtain ⟨_, w₁, warned, value⟩ := of_bind run
          change typecastResultValue r tuple field fuel default w₁ = _ at value
          cases frozen' with
          | true => exact absurd (List.mem_of_getElem? here) (tidy.free default h')
          | false =>
            have tidy' := tidy_warnUndefined tidy h' (r.fformat field) (r.ftype field)
            have beyond := beyond_warnUndefined w false h' (r.fformat field) (r.ftype field) w (.refl w)
            have noted := warnUndefined_warned tidy false h' (r.fformat field) (r.ftype field)
            have maps := warnUndefined_maps w false h' (r.fformat field) (r.ftype field)
            rw [warned] at tidy' beyond noted maps
            rcases List.mem_cons.1 passed with rfl | behind
            · cases here.symm.trans warning
              have kept := warnings_kept _ d r tuple field fuel w₁ noted
              rwa [value] at kept
            · rw [← maps] at warning
              exact ih tidy' (beyond.longer.chain rest) value behind warning

/-- **Every type without a decoder is warned about once.** In every program that freezes no `WarningTypeMap`, no
warning is ever repeated; and behind a `getvalue` that returned a plain string, every `WarningTypeMap` that the
result's chain passes has warned about the type of the field. -/
theorem warns_once (ops : List (Op γ)) (leaves : EveryStep step LeavesWarning World.start ops) :
    let w := run step World.start ops
    w.warnings.Nodup ∧ ∀ i tupNum fieldNum answer w', (Op.getvalue i tupNum fieldNum).exec w = (.ok (some answer), w') →
      answer = .string ∨ answer = .bytea → ∀ r status typemap, w.results[i]? = some ⟨some (r, status), typemap⟩ →
        ∀ ts, w.Chain r.nfields typemap ts → ∀ u ∈ ts, ∀ d frozen h, w.maps[u]? = some (.inRuby d frozen (some h)) →
          (h, r.fformat fieldNum.toNat, r.ftype fieldNum.toNat) ∈ w'.warnings := by
  intro w
  have tidy : w.Tidy := leaves.run step_tidy start_tidy
  refine ⟨tidy.once, ?_⟩
  intro i tupNum fieldNum answer w' got undecoded r status typemap here ts chain u passed d frozen h warning
  obtain ⟨value, w₁, got, rest⟩ := of_bind got
  cases rest
  unfold pgresultGetvalue at got
  rw [held_some here] at got
  dsimp only at got
  split at got
  · cases got
  · split at got
    · cases got
    · exact typecastResultValue_warned tidy chain got undecoded passed warning

/-- A `PG::BasicTypeMapForResults` without coders, and two columns of the same type. -/
def unknownTypes : List (Op Nat) :=
  [.newByOid, .newInRuby true, .setDefault 1 2, .newResult twoTexts .tuplesOk 1, .getvalue 0 0 0, .getvalue 0 0 1]

theorem warns_once_unknown_types :
    let w := run step World.start unknownTypes
    w.warnings.Nodup ∧ ∀ i tupNum fieldNum answer w', (Op.getvalue i tupNum fieldNum).exec w = (.ok (some answer), w') →
      answer = .string ∨ answer = .bytea → ∀ r status typemap, w.results[i]? = some ⟨some (r, status), typemap⟩ →
        ∀ ts, w.Chain r.nfields typemap ts → ∀ u ∈ ts, ∀ d frozen h, w.maps[u]? = some (.inRuby d frozen (some h)) →
          (h, r.fformat fieldNum.toNat, r.ftype fieldNum.toNat) ∈ w'.warnings :=
  warns_once unknownTypes ⟨trivial, trivial, trivial, trivial, trivial, trivial, trivial⟩

example : (run step World.start unknownTypes).warnings = [(2, 0, 25)] := rfl

end Warnings

end RubyPg.TypeMaps
