import RubyPg.Value
import RubyPg.Lib.Method
import Mathlib.Logic.Function.Basic

/-!
# `PG::TypeMapByMriType`

`ext/pg_type_map_by_mri_type.c`. Of each type three things are kept: the object that was assigned, the coder behind it,
and what is to be asked for a coder. An assignment stores the object first, and a Symbol is looked up behind that. If
there is no such method, the object is the Symbol and what is asked is still the former one (`assigned_missing`).
-/

namespace RubyPg.ByMriType
set_option autoImplicit false
open Method

/-- `FOR_EACH_MRI_TYPE`. -/
inductive MriType where
  | tFixnum | tTrue | tFalse | tFloat | tBignum | tComplex | tRational | tArray | tString | tSymbol
  | tObject | tClass | tModule | tRegexp | tHash | tStruct | tFile | tData
deriving DecidableEq, Repr

/-- `#type`. -/
def MriType.name : MriType → String
  | tFixnum => "T_FIXNUM"
  | tTrue => "T_TRUE"
  | tFalse => "T_FALSE"
  | tFloat => "T_FLOAT"
  | tBignum => "T_BIGNUM"
  | tComplex => "T_COMPLEX"
  | tRational => "T_RATIONAL"
  | tArray => "T_ARRAY"
  | tString => "T_STRING"
  | tSymbol => "T_SYMBOL"
  | tObject => "T_OBJECT"
  | tClass => "T_CLASS"
  | tModule => "T_MODULE"
  | tRegexp => "T_REGEXP"
  | tHash => "T_HASH"
  | tStruct => "T_STRUCT"
  | tFile => "T_FILE"
  | tData => "T_DATA"

def MriType.all : List MriType :=
  [tFixnum, tTrue, tFalse, tFloat, tBignum, tComplex, tRational, tArray, tString, tSymbol, tObject,
    tClass, tModule, tRegexp, tHash, tStruct, tFile, tData]

/-- The branch that `strcmp` takes. -/
def MriType.ofName (pMriType : Bytes) : Option MriType :=
  all.find? fun type => type.name.toUTF8.toList == pMriType

/-- An object that is assigned. -/
inductive Obj (γ ρ : Type) where
  | nil
  | coder (obj : γ)
  | symbol (name : String)
  | other (obj : ρ)
deriving DecidableEq, Repr

/-- What is asked for a coder: nothing, the method of the type map with this name, or an object. -/
inductive Ask (ρ δ : Type) where
  | nil
  | method (name : String) (definition : δ)
  | object (obj : ρ)
deriving DecidableEq, Repr

/-- The variables of one type. -/
structure Converter (γ ρ δ : Type) where
  coder : Option γ
  ask : Ask ρ δ
  coderObj : Obj γ ρ

/-- `t_tmbmt`. -/
abbrev Tmbmt (γ ρ δ : Type) := MriType → Converter γ ρ δ

/-- What Ruby says of the name of a type and of the methods of the type map, at the time of an assignment. -/
structure Ruby (κ δ : Type) where
  /-- `StringValue`: a String, or what `to_str` gives. -/
  stringValue : κ → Outcome Bytes
  inspect : κ → String
  /-- `rb_obj_method`, which raises NameError where there is no method. -/
  objMethod : String → Outcome δ

/-- What was returned for a value. -/
inductive Returned (γ : Type) where
  | coder (obj : γ)
  | other (className : String)

variable {κ γ ρ δ ν : Type}

/-- `StringValueCStr`. -/
def stringValueCStr (ruby : Ruby κ δ) (mriType : κ) : Outcome Bytes := do
  let s ← ruby.stringValue mriType
  if Ascii.nul ∈ s then rbRaise .argumentError "string contains null byte" else pure s

/-- `pg_tmbmt_s_allocate`. -/
def pgTmbmtSAllocate : Tmbmt γ ρ δ := fun _ => ⟨none, .nil, .nil⟩

/-- Assign to variables of a type. -/
def assign (type : MriType) (f : Converter γ ρ δ → Converter γ ρ δ) : Method Stop (Tmbmt γ ρ δ) Unit :=
  change fun this => Function.update this type (f (this type))

/-- `COMPARE_AND_ASSIGN`, for the type that compares. -/
def assignCoder (ruby : Ruby κ δ) (type : MriType) (coder : Obj γ ρ) : Method Stop (Tmbmt γ ρ δ) Unit := do
  assign type fun c => { c with coderObj := coder }
  match coder with
  | .nil => assign type fun c => { c with coder := none, ask := .nil }
  | .coder obj => assign type fun c => { c with coder := some obj, ask := .nil }
  | .symbol name => do
    assign type fun c => { c with coder := none }
    let definition ← ofExcept (ruby.objMethod name)
    assign type fun c => { c with ask := .method name definition }
  | .other obj => assign type fun c => { c with coder := none, ask := .object obj }

/-- `pg_tmbmt_aset`. -/
def pgTmbmtAset (ruby : Ruby κ δ) (mriType : κ) (coder : Obj γ ρ) : Method Stop (Tmbmt γ ρ δ) Unit := do
  let pMriType ← ofExcept (stringValueCStr ruby mriType)
  match MriType.ofName pMriType with
  | some type => assignCoder ruby type coder
  | none => raise (.exn .argumentError s!"unknown mri_type {ruby.inspect mriType}")

/-- `pg_tmbmt_aref`. -/
def pgTmbmtAref (ruby : Ruby κ δ) (mriType : κ) (this : Tmbmt γ ρ δ) : Outcome (Obj γ ρ) := do
  let pMriType ← stringValueCStr ruby mriType
  match MriType.ofName pMriType with
  | some type => pure (this type).coderObj
  | none => rbRaise .argumentError s!"unknown mri_type {ruby.inspect mriType}"

/-- The call, and the check of what it returned. -/
def asked (call : Ask ρ δ → ν → Outcome (Returned γ)) (ask : Ask ρ δ) (paramValue : ν) : Outcome (Option γ) := do
  match ← call ask paramValue with
  | .coder obj => pure (some obj)
  | .other className => rbRaise .typeError s!"wrong argument type {className} (expected PG::Coder)"

/-- `pg_tmbmt_typecast_query_param` for a value of this type, up to the call of the default type map, which is `none`. -/
def pgTmbmtTypecastQueryParam (call : Ask ρ δ → ν → Outcome (Returned γ)) (this : Tmbmt γ ρ δ) (type : Option MriType)
    (paramValue : ν) : Outcome (Option γ) :=
  let pCoder := type.elim none fun type => (this type).coder
  let askForCoder := type.elim .nil fun type => (this type).ask
  match askForCoder with
  | .nil => pure pCoder
  | .method name definition => asked call (.method name definition) paramValue
  | .object obj => asked call (.object obj) paramValue

/-- A type is found by its name. -/
theorem MriType.ofName_name (type : MriType) : MriType.ofName type.name.toUTF8.toList = some type := by
  have found : ∀ type ∈ MriType.all, MriType.ofName type.name.toUTF8.toList = some type := by decide +kernel
  apply found
  cases type <;> simp [MriType.all]

section Agreement

/-- The callable that is kept for an object. -/
inductive StandsFor : Ask ρ δ → Obj γ ρ → Prop
  | nil : StandsFor .nil .nil
  | coder (obj : γ) : StandsFor .nil (.coder obj)
  | symbol (name : String) (definition : δ) : StandsFor (.method name definition) (.symbol name)
  | other (obj : ρ) : StandsFor (.object obj) (.other obj)

/-- The three variables of a type agree. -/
structure Converter.InStep (c : Converter γ ρ δ) : Prop where
  coder : ∀ obj, c.coder = some obj ↔ c.coderObj = .coder obj
  ask : StandsFor c.ask c.coderObj

/-- The encoder that an object stands for. -/
def Shows (call : Ask ρ δ → ν → Outcome (Returned γ)) (paramValue : ν) : Obj γ ρ → Outcome (Option γ) → Prop
  | .nil, chosen => chosen = pure none
  | .coder obj, chosen => chosen = pure (some obj)
  | .symbol name, chosen => ∃ definition, chosen = asked call (.method name definition) paramValue
  | .other obj, chosen => chosen = asked call (.object obj) paramValue

/-- For every type the variables agree, and a value gets the encoder that the type map shows. -/
def Agrees (ν : Type) (this : Tmbmt γ ρ δ) : Prop :=
  ∀ type, (this type).InStep ∧ ∀ (call : Ask ρ δ → ν → Outcome (Returned γ)) (paramValue : ν),
    Shows call paramValue (this type).coderObj (pgTmbmtTypecastQueryParam call this (some type) paramValue)

variable {this : Tmbmt γ ρ δ} {type : MriType}

/-- Where they agree, the encoder is the one that is shown. -/
theorem Converter.InStep.shows (inStep : (this type).InStep) (call : Ask ρ δ → ν → Outcome (Returned γ)) (paramValue : ν) :
    Shows call paramValue (this type).coderObj (pgTmbmtTypecastQueryParam call this (some type) paramValue) := by
  obtain ⟨coder, ask⟩ := inStep
  unfold pgTmbmtTypecastQueryParam
  dsimp only [Option.elim_some]
  generalize (this type).coder = pCoder at coder
  generalize (this type).ask = askForCoder at ask
  generalize (this type).coderObj = coderObj at coder ask
  cases ask with
  | nil =>
    cases pCoder with
    | none => rfl
    | some obj => exact absurd ((coder obj).1 rfl) (by simp)
  | coder obj =>
    rw [(coder obj).2 rfl]
    rfl
  | symbol name definition => exact ⟨definition, rfl⟩
  | other obj => rfl

theorem agrees_iff : Agrees ν this ↔ ∀ type, (this type).InStep :=
  ⟨fun agrees type => (agrees type).1, fun inStep type => ⟨inStep type, (inStep type).shows⟩⟩

/-- A new type map. -/
theorem allocate_agrees : Agrees ν (pgTmbmtSAllocate : Tmbmt γ ρ δ) := by
  apply agrees_iff.2
  intro type
  exact ⟨fun obj => by simp [pgTmbmtSAllocate], .nil⟩

end Agreement

section Assignment

variable {ruby : Ruby κ δ} {this : Tmbmt γ ρ δ} {type : MriType}

/-- The variables of the type behind an assignment. -/
def assigned (ruby : Ruby κ δ) (c : Converter γ ρ δ) : Obj γ ρ → Converter γ ρ δ
  | .nil => ⟨none, .nil, .nil⟩
  | .coder obj => ⟨some obj, .nil, .coder obj⟩
  | .symbol name =>
    match ruby.objMethod name with
    | .ok definition => ⟨none, .method name definition, .symbol name⟩
    | .error _ => ⟨none, c.ask, .symbol name⟩
  | .other obj => ⟨none, .object obj, .other obj⟩

theorem assigned_found {name : String} {definition : δ} (found : ruby.objMethod name = .ok definition) (c : Converter γ ρ δ) :
    assigned ruby c (.symbol name) = ⟨none, .method name definition, .symbol name⟩ := by
  simp only [assigned, found]

/-- Where the method is missing, what is asked is kept. -/
theorem assigned_missing {name : String} {stop : Stop} (missing : ruby.objMethod name = .error stop) (c : Converter γ ρ δ) :
    assigned ruby c (.symbol name) = ⟨none, c.ask, .symbol name⟩ := by
  simp only [assigned, missing]

/-- Only this type is assigned to. -/
theorem assignCoder_state (ruby : Ruby κ δ) (type : MriType) (coder : Obj γ ρ) (this : Tmbmt γ ρ δ) :
    (assignCoder ruby type coder this).2 = Function.update this type (assigned ruby (this type) coder) := by
  cases coder with
  | nil => simp [assignCoder, assign, assigned]
  | coder obj => simp [assignCoder, assign, assigned]
  | other obj => simp [assignCoder, assign, assigned]
  | symbol name =>
    cases found : ruby.objMethod name with
    | ok definition => simp [assignCoder, assign, assigned_found found, found]
    | error stop => simp [assignCoder, assign, assigned_missing found, found]

/-- What the type map shows of a type. -/
theorem pgTmbmtAref_eq {mriType : κ} (string : stringValueCStr ruby mriType = .ok type.name.toUTF8.toList)
    (this : Tmbmt γ ρ δ) : pgTmbmtAref ruby mriType this = .ok (this type).coderObj := by
  unfold pgTmbmtAref
  rw [string]
  show (match MriType.ofName type.name.toUTF8.toList with
    | some type => Except.ok (this type).coderObj
    | none => rbRaise .argumentError s!"unknown mri_type {ruby.inspect mriType}") = _
  rw [MriType.ofName_name]

/-- The type that is assigned to, if there is one of this name. -/
def typeNamed (ruby : Ruby κ δ) (mriType : κ) : Option MriType :=
  (stringValueCStr ruby mriType).toOption.bind MriType.ofName

/-- An assignment ends in an error before it has stored anything, or assigns to the type of that name. -/
theorem pgTmbmtAset_state (ruby : Ruby κ δ) (mriType : κ) (coder : Obj γ ρ) (this : Tmbmt γ ρ δ) :
    (pgTmbmtAset ruby mriType coder this).2 =
      (typeNamed ruby mriType).elim this fun type => Function.update this type (assigned ruby (this type) coder) := by
  unfold pgTmbmtAset typeNamed
  cases stringValueCStr ruby mriType with
  | error stop => rfl
  | ok pMriType =>
    simp only [ofExcept_ok_bind, Except.toOption, Option.bind_some]
    cases MriType.ofName pMriType with
    | none => rfl
    | some type => exact assignCoder_state ruby type coder this

/-- A Symbol whose method is missing. -/
def Unresolved (ruby : Ruby κ δ) (coder : Obj γ ρ) (name : String) : Prop :=
  coder = .symbol name ∧ ∃ stop, ruby.objMethod name = .error stop

/-- The variables of a type agree behind an assignment, too, unless the method of a new Symbol is missing. -/
theorem assigned_inStep_iff (ruby : Ruby κ δ) {c : Converter γ ρ δ} (inStep : c.InStep) (coder : Obj γ ρ) :
    (assigned ruby c coder).InStep ↔ ∀ name, Unresolved ruby coder name → c.coderObj = .symbol name := by
  have free : (∀ name, coder ≠ .symbol name) → ∀ name, Unresolved ruby coder name → c.coderObj = .symbol name :=
    fun other name unresolved => absurd unresolved.1 (other name)
  cases coder with
  | nil => exact iff_of_true ⟨fun obj => by simp [assigned], .nil⟩ (free (by simp))
  | coder obj =>
    refine iff_of_true ⟨fun obj' => ?_, .coder obj⟩ (free (by simp))
    simp [assigned]
  | other obj => exact iff_of_true ⟨fun obj' => by simp [assigned], .other obj⟩ (free (by simp))
  | symbol name =>
    cases found : ruby.objMethod name with
    | ok definition =>
      rw [assigned_found found]
      refine iff_of_true ⟨fun obj => by simp, .symbol name definition⟩ ?_
      rintro name' ⟨⟨⟩, stop, missing⟩
      rw [found] at missing
      cases missing
    | error stop =>
      rw [assigned_missing found]
      constructor
      · rintro ⟨-, ask⟩ name' ⟨⟨⟩, -⟩
        have former := inStep.ask
        dsimp only at ask
        generalize c.ask = kept at ask former
        cases ask with
        | symbol name definition =>
          generalize c.coderObj = coderObj at former
          cases former
          rfl
      · intro same
        have former := inStep.ask
        rw [same name ⟨rfl, stop, found⟩] at former
        exact ⟨fun obj => by simp, former⟩

end Assignment

section Run

/-- An assignment, and what Ruby says at its time. -/
structure Assignment (κ γ ρ δ : Type) where
  ruby : Ruby κ δ
  mriType : κ
  coder : Obj γ ρ

/-- The type map behind an assignment, which may have raised. -/
def Assignment.after (step : Assignment κ γ ρ δ) (this : Tmbmt γ ρ δ) : Tmbmt γ ρ δ :=
  (pgTmbmtAset step.ruby step.mriType step.coder this).2

/-- `P` holds of every state of a run. -/
def Reached (P : Tmbmt γ ρ δ → Prop) : Tmbmt γ ρ δ → List (Assignment κ γ ρ δ) → Prop
  | this, [] => P this
  | this, step :: steps => P this ∧ Reached P (step.after this) steps

/-- Where the method of a Symbol is missing, the Symbol was assigned already. -/
def Assignment.Resolves (step : Assignment κ γ ρ δ) (this : Tmbmt γ ρ δ) : Prop :=
  ∀ type name, typeNamed step.ruby step.mriType = some type → Unresolved step.ruby step.coder name →
    (this type).coderObj = .symbol name

/-- `Q` holds of every assignment of a run and the state before it. -/
def Throughout (Q : Assignment κ γ ρ δ → Tmbmt γ ρ δ → Prop) : Tmbmt γ ρ δ → List (Assignment κ γ ρ δ) → Prop
  | _, [] => True
  | this, step :: steps => Q step this ∧ Throughout Q (step.after this) steps

variable {this : Tmbmt γ ρ δ}

/-- One assignment keeps the views in step iff it resolves. -/
theorem after_agrees_iff (agrees : Agrees ν this) (step : Assignment κ γ ρ δ) :
    Agrees ν (step.after this) ↔ step.Resolves this := by
  have inStep := agrees_iff.1 agrees
  rw [agrees_iff, Assignment.after, pgTmbmtAset_state]
  unfold Assignment.Resolves
  cases typeNamed step.ruby step.mriType with
  | none => exact iff_of_true inStep (fun _ _ named => by cases named)
  | some type =>
    have here := assigned_inStep_iff step.ruby (inStep type) step.coder
    constructor
    · rintro all _ name ⟨⟩ unresolved
      have new := all type
      rw [Option.elim_some, Function.update_self] at new
      exact here.1 new name unresolved
    · intro resolves type'
      rw [Option.elim_some]
      by_cases same : type' = type
      · subst same
        rw [Function.update_self]
        exact here.2 fun name unresolved => resolves type' name rfl unresolved
      · rw [Function.update_of_ne same]
        exact inStep type'

/-- From a state in step all reached ones are iff every assignment resolves. -/
theorem reached_agrees_iff (agrees : Agrees ν this) (steps : List (Assignment κ γ ρ δ)) :
    Reached (Agrees ν) this steps ↔ Throughout Assignment.Resolves this steps := by
  induction steps generalizing this with
  | nil => exact iff_of_true agrees trivial
  | cons step steps ih =>
    have start : ∀ {this' : Tmbmt γ ρ δ}, Reached (Agrees ν) this' steps → Agrees ν this' := by
      intro this' reached
      cases steps with
      | nil => exact reached
      | cons step' steps' => exact reached.1
    constructor
    · rintro ⟨-, later⟩
      have next := start later
      exact ⟨(after_agrees_iff agrees step).1 next, (ih next).1 later⟩
    · rintro ⟨resolves, later⟩
      have next := (after_agrees_iff agrees step).2 resolves
      exact ⟨agrees, (ih next).2 later⟩

end Run

/-- **The three views stay in step** in a run from a new type map, whatever raises, iff every assignment of a Symbol whose
method is missing is to a type that shows this Symbol already. -/
theorem views_in_step_iff (ν : Type) (steps : List (Assignment κ γ ρ δ)) :
    Reached (Agrees ν) pgTmbmtSAllocate steps ↔ Throughout Assignment.Resolves pgTmbmtSAllocate steps :=
  reached_agrees_iff allocate_agrees steps

/-- No method is there. -/
def bareRuby : Ruby Bytes Unit where
  stringValue s := pure s
  inspect _ := ""
  objMethod name := rbRaise .nameError s!"undefined method '{name}' for class 'PG::TypeMapByMriType'"

/-- A Proc is assigned, and then a Symbol without a method, which raises. The type map shows the Symbol, and asks the
Proc. -/
theorem symbol_shown_proc_asked :
    let proc : Assignment Bytes Unit Unit Unit := ⟨bareRuby, "T_STRING".toUTF8.toList, .other ()⟩
    let symbol : Assignment Bytes Unit Unit Unit := ⟨bareRuby, "T_STRING".toUTF8.toList, .symbol "missing"⟩
    let this := symbol.after (proc.after pgTmbmtSAllocate)
    (this .tString).coderObj = .symbol "missing" ∧ (this .tString).ask = .object () ∧ ¬Agrees Unit this := by
  intro proc symbol this
  have shown : (this .tString).coderObj = .symbol "missing" := by decide +kernel
  have kept : (this .tString).ask = .object () := by decide +kernel
  refine ⟨shown, kept, ?_⟩
  intro agrees
  have ask := (agrees .tString).1.ask
  rw [shown, kept] at ask
  cases ask

end RubyPg.ByMriType
