import RubyPg.TypeMap.ByOid

/-!
# Copies of a `PG::TypeMapByOid`

Where the default type map fits to a result by another object, `pg_tmbo_fit_to_result` copies the
`t_tmbo`. The copies share the two hashes but have caches of their own, and a change of the hashes
reaches only the cache of the object that makes it. A step of the family leaves every cache
current exactly if no other one has an answer for the key that changes (`step_current_iff`).
-/

namespace RubyPg.ByOid
set_option autoImplicit false
open Method

variable {γ τ : Type}

/-- A type map and its copies, with the hashes they share. -/
structure Family (γ τ : Type) where
  oidToCoder : Fin 2 → Oid → Option γ
  objects : List (Own γ τ)

/-- One object of a family. -/
def Family.this (s : Family γ τ) (own : Own γ τ) : Tmbo γ τ := { own with oidToCoder := s.oidToCoder }

/-- A method of the object `i`, which may write to the shared hashes. -/
def Family.on {α : Type} (i : Nat) (m : Method Stop (Tmbo γ τ) α) : Method Stop (Family γ τ) α := fun s =>
  match s.objects[i]? with
  | none => (.error .undefined, s)
  | some own =>
    let (result, this) := m (s.this own)
    (result, ⟨this.oidToCoder, s.objects.set i this.toOwn⟩)

/-- The type map alone. -/
def Family.new (this : Tmbo γ τ) : Family γ τ := ⟨this.oidToCoder, [this.toOwn]⟩

/-- Every lookup on every object answers what the shared hashes hold. -/
def Family.Current (s : Family γ τ) : Prop :=
  ∀ own ∈ s.objects, ∀ format oid, (pgTmboLookupOid format oid (s.this own)).1 = .ok (s.oidToCoder format oid)

/-- The hash entry that a call on an object changes, if it gets so far. -/
def Op.writes (own : Own γ τ) : Op γ τ → Option (Fin 2 × Oid × Option γ)
  | .addCoder coder oid format =>
    if own.frozen then none else (formatIndex format).map fun form => (form, oid, some coder)
  | .rmCoder format oid =>
    match num2int format with
    | .error _ => none
    | .ok iFormat =>
      if own.frozen then none
      else (formatIndex iFormat).bind fun form => (keyOf oid).map fun key => (form, key, none)
  | _ => none

/-- No other object has an answer in its cache for the entry that changes, unless it is the new one. -/
def Undisturbed (s : Family γ τ) (i : Nat) (op : Op γ τ) : Prop :=
  ∀ own, s.objects[i]? = some own → ∀ form oid coder, op.writes own = some (form, oid, coder) →
    ∀ j other, j ≠ i → s.objects[j]? = some other →
      ∀ stale, (other.cacheRow form).Answers (place γ) oid stale → stale = coder

section Steps

variable [DecidableEq τ] (env : Env τ)

/-- A call on the object `i`; a copy that `fit_to_result` makes joins the family. -/
def step (s : Family γ τ) (i : Nat) (op : Op γ τ) : Family γ τ :=
  match op with
  | .fitToResult result =>
    match s.on i (pgTmboFitToResult env.fitDefault env.allStrings result) with
    | (.ok (.copy tm), s) => { s with objects := s.objects ++ [tm] }
    | (_, s) => s
  | op => (s.on i (op.exec env)).2

/-- `P` holds in every state of a run. -/
def Always (P : Family γ τ → Prop) : Family γ τ → List (Nat × Op γ τ) → Prop
  | s, [] => P s
  | s, (i, op) :: rest => P s ∧ Always P (step env s i op) rest

/-- `P` holds of every call of a run, in the state before it. -/
def EveryStep (P : Family γ τ → Nat → Op γ τ → Prop) : Family γ τ → List (Nat × Op γ τ) → Prop
  | _, [] => True
  | s, (i, op) :: rest => P s i op ∧ EveryStep P (step env s i op) rest

end Steps

/-- Current families are those with coherent caches. -/
theorem Family.current_iff {s : Family γ τ} :
    s.Current ↔ ∀ (j : Nat) own, s.objects[j]? = some own → (s.this own).Coherent := by
  constructor
  · intro current j own here format
    apply SlotCache.coherent_iff_fetch.2
    intro oid
    have answer := current own (List.mem_of_getElem? here) format oid
    rw [pgTmboLookupOid_eq] at answer
    exact Except.ok.inj answer
  · intro coherent own member format oid
    obtain ⟨j, here⟩ := List.mem_iff_getElem?.1 member
    obtain ⟨this', looked, -⟩ := pgTmboLookupOid_spec (coherent j own here) format oid
    rw [looked]
    rfl

section Writes

/-- The hashes are `table`. -/
abbrev Holds (table : Fin 2 → Oid → Option γ) (this : Tmbo γ τ) : Prop := this.oidToCoder = table

theorem holds_lookup (table : Fin 2 → Oid → Option γ) (format : Fin 2) (oid : Oid) :
    Preserves (Holds table) (pgTmboLookupOid format oid : Method Stop (Tmbo γ τ) _) := by
  intro this holds
  rw [pgTmboLookupOid_eq]
  exact holds

/-- The hashes after a change of one entry. -/
def written (table : Fin 2 → Oid → Option γ) : Option (Fin 2 × Oid × Option γ) → Fin 2 → Oid → Option γ
  | none => table
  | some (form, oid, coder) => Function.update table form (Function.update (table form) oid coder)

theorem addCoder_writes (coder : γ) (oid : Oid) (format : Int) (this : Tmbo γ τ) :
    (pgTmboAddCoder coder oid format this).2.oidToCoder =
      written this.oidToCoder (Op.writes this.toOwn (.addCoder coder oid format : Op γ τ)) := by
  rw [Op.writes]
  unfold pgTmboAddCoder
  cases frozen : this.frozen with
  | true =>
    rw [bind_error (checkFrozen_frozen frozen)]
    rfl
  | false =>
    rw [bind_ok (checkFrozen_free frozen)]
    cases formatIndex format with
    | none => rfl
    | some form => rfl

theorem rmCoder_writes (format oid : Int) (this : Tmbo γ τ) :
    (pgTmboRmCoder format oid this).2.oidToCoder =
      written this.oidToCoder (Op.writes this.toOwn (.rmCoder format oid : Op γ τ)) := by
  rw [Op.writes]
  unfold pgTmboRmCoder
  cases num2int format with
  | error stop => rfl
  | ok iFormat =>
    dsimp only
    rw [bind_ok (ofExcept_apply _ _)]
    cases frozen : this.frozen with
    | true =>
      rw [bind_error (checkFrozen_frozen frozen)]
      rfl
    | false =>
      rw [bind_ok (checkFrozen_free frozen)]
      cases formatIndex iFormat with
      | none => rfl
      | some form =>
        cases known : keyOf oid with
        | none =>
          cases num2uint oid with
          | error stop => rfl
          | ok slot => rfl
        | some key =>
          rw [num2uint_of_key known]
          rfl

/-- What a call does to the hashes. -/
theorem Op.exec_writes [DecidableEq τ] (env : Env τ) (op : Op γ τ) (this : Tmbo γ τ) :
    (op.exec env this).2.oidToCoder = written this.oidToCoder (op.writes this.toOwn) := by
  cases op with
  | addCoder coder oid format => exact addCoder_writes coder oid format this
  | rmCoder format oid =>
    rw [← rmCoder_writes]
    exact congrArg Tmbo.oidToCoder (bind_pure_state _ _ _)
  | resultValue result tuple field =>
    exact Preserves.bind (preserves_resultValue (holds_lookup _) result tuple field) (fun _ => .pure _) this rfl
  | buildColumnMap result =>
    exact Preserves.bind (preserves_build (holds_lookup _) _ result) (fun _ => .pure _) this rfl
  | fitToResult result =>
    exact Preserves.bind (preserves_fit (holds_lookup _) _ _ result) (fun _ => .pure _) this rfl
  | setMaxRows value =>
    have kept : Preserves (Holds this.oidToCoder) (Op.exec env (.setMaxRows value : Op γ τ)) :=
      .bind (preserves_checkFrozen _) fun _ => .change fun _ holds => holds
    exact kept this rfl
  | setDefault tm =>
    have kept : Preserves (Holds this.oidToCoder) (Op.exec env (.setDefault tm : Op γ τ)) :=
      .bind (preserves_checkFrozen _) fun _ => .change fun _ holds => holds
    exact kept this rfl
  | freeze => rfl

/-- What the others of a family make of a change of the hashes. -/
theorem Tmbo.Coherent.written_iff {this : Tmbo γ τ} (coherent : this.Coherent)
    (change : Option (Fin 2 × Oid × Option γ)) :
    Tmbo.Coherent { this with oidToCoder := written this.oidToCoder change } ↔
      ∀ form oid coder, change = some (form, oid, coder) →
        ∀ stale, (this.cacheRow form).Answers (place γ) oid stale → stale = coder := by
  cases change with
  | none =>
    constructor
    · intro _ form oid coder absent
      cases absent
    · intro _
      exact coherent
  | some entry =>
    obtain ⟨form, oid, coder⟩ := entry
    have row := (coherent form).update_iff oid coder
    constructor
    · intro after form' oid' coder' same
      obtain ⟨rfl, rfl, rfl⟩ : form = form' ∧ oid = oid' ∧ coder = coder' := by simpa using same
      apply row.1
      simpa only [written, Function.update_self] using after form
    · intro current
      have fits := coherent.row form (row.2 (current form oid coder rfl))
      rwa [Tmbo.setRow, Function.update_eq_self] at fits

end Writes

section Steps

variable {s : Family γ τ} {i : Nat} {own : Own γ τ}

theorem on_some {α : Type} (here : s.objects[i]? = some own) (m : Method Stop (Tmbo γ τ) α) :
    s.on i m = ((m (s.this own)).1, ⟨(m (s.this own)).2.oidToCoder, s.objects.set i (m (s.this own)).2.toOwn⟩) := by
  unfold Family.on
  rw [here]

theorem on_none {α : Type} (absent : s.objects[i]? = none) (m : Method Stop (Tmbo γ τ) α) :
    s.on i m = (.error .undefined, s) := by
  unfold Family.on
  rw [absent]

variable [DecidableEq τ] {env : Env τ}

/-- A copy has the cache of the original. -/
theorem fit_copy {fitDefault : τ → PgResult → Outcome τ} {allStrings : τ} {result : PgResult} {this : Tmbo γ τ}
    {tm : Own γ τ} (copied : (pgTmboFitToResult fitDefault allStrings result this).1 = .ok (.copy tm)) :
    tm.cacheRow = this.cacheRow := by
  unfold pgTmboFitToResult at copied
  rw [read_bind] at copied
  cases fits : fitDefault this.defaultTypemap result with
  | error stop =>
    rw [fits, bind_error (ofExcept_apply _ _)] at copied
    cases copied
  | ok sub =>
    rw [fits, bind_ok (ofExcept_apply _ _)] at copied
    split at copied
    · split at copied
      · cases copied
      · cases copied
        rfl
    · cases built : pgTmboBuildTypeMapForResult2 allStrings result this with
      | mk answer this' =>
        cases answer with
        | error stop =>
          rw [bind_error built] at copied
          cases copied
        | ok colmap =>
          rw [bind_ok built] at copied
          cases copied

/-- A step of a family: the call on the object, and perhaps a copy of it. -/
theorem step_objects (here : s.objects[i]? = some own) (op : Op γ τ) :
    ∃ copies, step env s i op = ⟨written s.oidToCoder (op.writes own),
        s.objects.set i (op.exec env (s.this own)).2.toOwn ++ copies⟩ ∧
      ∀ tm ∈ copies, tm.cacheRow = own.cacheRow ∧ op.writes own = none := by
  have hashes := op.exec_writes env (s.this own)
  by_cases fits : ∃ result, op = .fitToResult result
  · obtain ⟨result, rfl⟩ := fits
    have state : (Op.exec env (.fitToResult result : Op γ τ) (s.this own)).2 =
        (pgTmboFitToResult env.fitDefault env.allStrings result (s.this own)).2 := bind_pure_state _ _ _
    rw [state] at hashes ⊢
    unfold step
    dsimp only
    rw [on_some here, hashes]
    cases answer : (pgTmboFitToResult env.fitDefault env.allStrings result (s.this own)).1 with
    | error stop => exact ⟨[], by simp [Family.this], by simp⟩
    | ok fitted =>
      cases fitted with
      | self => exact ⟨[], by simp [Family.this], by simp⟩
      | column tm => exact ⟨[], by simp [Family.this], by simp⟩
      | copy tm =>
        refine ⟨[tm], rfl, fun other member => ?_⟩
        rw [List.mem_singleton] at member
        subst member
        exact ⟨fit_copy answer, rfl⟩
  · have called : step env s i op = (s.on i (op.exec env)).2 := by
      cases op with
      | fitToResult result => exact absurd ⟨result, rfl⟩ fits
      | _ => rfl
    refine ⟨[], ?_, by simp⟩
    rw [called, on_some here, hashes, List.append_nil]
    rfl

/-- A step that keeps every lookup current is one that disturbs no other cache. -/
theorem step_current_iff (current : s.Current) (op : Op γ τ) :
    (step env s i op).Current ↔ Undisturbed s i op := by
  rw [Family.current_iff] at current ⊢
  cases here : s.objects[i]? with
  | none =>
    have nothing : step env s i op = s := by
      cases op with
      | fitToResult result =>
        unfold step
        dsimp only
        rw [on_none here]
      | _ => exact congrArg Prod.snd (on_none here _)
    rw [nothing]
    constructor
    · intro _ own there
      rw [here] at there
      cases there
    · intro _
      exact current
  | some own =>
    obtain ⟨copies, stepped, copied⟩ := @step_objects γ τ s i own _ env here op
    have changed := fun {j : Nat} {other : Own γ τ} (there : s.objects[j]? = some other) =>
      (current j other there).written_iff (op.writes own)
    rw [stepped]
    constructor
    · intro after own' here' form oid coder writes j other different there
      obtain rfl : own = own' := Option.some.inj (here.symm.trans here')
      refine (changed there).1 ?_ form oid coder writes
      apply after j other
      have inside : j < s.objects.length := (List.getElem?_eq_some_iff.1 there).1
      rw [List.getElem?_append_left (by rwa [List.length_set]), List.getElem?_set_ne (Ne.symm different)]
      exact there
    · intro undisturbed j other there
      have itself := op.keeps env (s.this own) (current i own here)
      have hashes := op.exec_writes env (s.this own)
      by_cases inside : j < s.objects.length
      · rw [List.getElem?_append_left (by rwa [List.length_set])] at there
        by_cases same : j = i
        · subst same
          rw [List.getElem?_set_self inside] at there
          obtain rfl := Option.some.inj there
          intro format
          have row := itself format
          rwa [hashes] at row
        · rw [List.getElem?_set_ne (Ne.symm same)] at there
          exact (changed there).2 fun form oid coder writes => undisturbed own here form oid coder writes j other same there
      · rw [List.getElem?_append_right (by rw [List.length_set]; omega)] at there
        obtain ⟨row, quiet⟩ := copied other (List.mem_of_getElem? there)
        intro format
        have original := current i own here format
        simpa only [Family.this, row, quiet, written] using original

/-- The lookups stay current in a run as long as no call disturbs another cache. -/
theorem always_current_iff (current : s.Current) (calls : List (Nat × Op γ τ)) :
    Always env Family.Current s calls ↔ EveryStep env Undisturbed s calls := by
  induction calls generalizing s with
  | nil =>
    constructor
    · intro _
      trivial
    · intro _
      exact current
  | cons call rest ih =>
    obtain ⟨i, op⟩ := call
    constructor
    · rintro ⟨-, later⟩
      have next : (step env s i op).Current := by
        cases rest with
        | nil => exact later
        | cons call rest => exact later.1
      exact ⟨(step_current_iff current op).1 next, (ih next).1 later⟩
    · rintro ⟨undisturbed, later⟩
      exact ⟨current, (ih ((step_current_iff current op).2 undisturbed)).2 later⟩

end Steps

theorem current_new {this : Tmbo γ τ} (coherent : this.Coherent) : (Family.new this).Current := by
  apply Family.current_iff.2
  intro j own here
  have alone : own ∈ [this.toOwn] := List.mem_of_getElem? here
  rw [List.mem_singleton] at alone
  subst alone
  exact coherent

/-- **Copies stay coherent**: in every run of calls on a type map and on the copies that are made of
it, all lookups answer what the shared hashes hold, exactly if no call changes an entry for which
the cache of another object has an older answer. -/
theorem oid_copies_coherent_iff [DecidableEq τ] (env : Env τ) (calls : List (Nat × Op γ τ)) :
    Always env Family.Current (Family.new (pgTmboSAllocate env.allStrings)) calls ↔
      EveryStep env Undisturbed (Family.new (pgTmboSAllocate env.allStrings)) calls :=
  always_current_iff (current_new (pgTmboSAllocate_coherent env.allStrings)) calls

/-- Default type maps that fit to every result by a new object. -/
def freshDefaults : Env Nat := ⟨0, fun tm _ => .ok (tm + 1)⟩

/-- A copy is made while coder 7 is registered for the type 25, and then the coder is removed from
the original: the copy still answers with it. -/
theorem oid_copies_stale :
    let calls : List (Nat × Op Nat Nat) :=
      [(0, .addCoder 7 25 0), (0, .fitToResult ⟨1, 1, fun _ => 0, fun _ => 25, fun _ _ => false⟩), (0, .rmCoder 0 25)]
    let s := calls.foldl (fun s call => step freshDefaults s call.1 call.2) (Family.new (pgTmboSAllocate 0))
    (∃ copy, s.objects[1]? = some copy ∧ (pgTmboLookupOid 0 25 (s.this copy)).1 = .ok (some 7)) ∧
      s.oidToCoder 0 25 = none ∧ ¬Always freshDefaults Family.Current (Family.new (pgTmboSAllocate 0)) calls := by
  intro calls s
  have stale : ∃ copy, s.objects[1]? = some copy ∧ (pgTmboLookupOid 0 25 (s.this copy)).1 = .ok (some 7) :=
    ⟨_, rfl, rfl⟩
  have gone : s.oidToCoder 0 25 = none := rfl
  refine ⟨stale, gone, ?_⟩
  rintro ⟨-, -, -, current⟩
  obtain ⟨copy, there, answer⟩ := stale
  have promised : (pgTmboLookupOid 0 25 (s.this copy)).1 = .ok (s.oidToCoder 0 25) :=
    current copy (List.mem_of_getElem? there) 0 25
  rw [gone, answer] at promised
  cases promised

end RubyPg.ByOid
