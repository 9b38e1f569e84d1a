import RubyPg.Lib.Linked
import RubyPg.TypeMap.ByClass
import RubyPg.TypeMap.ByMriType
import RubyPg.TypeMap.ByOid

/-!
# Encoders of query parameters

The other half of the type maps: `fit_to_query` and `typecast_query_param`, which choose the encoder of a
parameter for `exec_params`, for the row encoders and for `query_param_encoders`. A type map that has no
encoder asks its default type map. `pg_tmbc_typecast_query_param` reads its columns without a bound; it relies
on `fit_to_query`, which looks at every column map of the chain once, in front of all parameters.
-/

namespace RubyPg.QueryMaps
set_option autoImplicit false
open Method

/-- A `PG::TypeMap` object. -/
abbrev Ref := Nat

/-- What the `typecast_query_param` of a `PG::TypeMapInRuby` answers. `super` is the inherited method. -/
inductive Reply (γ : Type) where
  | super
  | nil
  | coder (obj : γ)
  | other (className : String)
  | raised (stop : Stop)

/-- `t_typemap` and the structs that extend it, as far as they encode parameters. -/
inductive TypeMap (κ γ ρ δ ν : Type) where
  /-- `PG::TypeMap` itself and `PG::TypeMapByOid`. -/
  | unsuitable (className : String)
  | allStrings
  | byColumn (this : ByOid.Tmbc γ Ref)
  | byClass (this : ByClass.Tmbk κ γ ρ Ref)
  | byMriType (this : ByMriType.Tmbmt γ ρ δ) (defaultTypemap : Ref)
  | inRuby (defaultTypemap : Ref) (typecast : ν → Nat → Reply γ)

/-- Why a call does not return. -/
inductive Raised where
  | stop (stop : Stop)
  | notImplementedError (msg : String)

/-- The classes and types of the values, and what the Symbols, Procs and Methods answer that type maps call for them. -/
structure Env (κ γ ρ δ ν : Type) where
  hierarchy : ByClass.Hierarchy κ
  objClass : ν → κ
  mriType : ν → Option ByMriType.MriType
  send : String → ν → Outcome (ByClass.Obj γ)
  call : ρ → ν → Outcome (ByClass.Obj γ)
  ask : ByMriType.Ask ρ δ → ν → Outcome (ByMriType.Returned γ)

variable {κ γ ρ δ ν : Type}

/-- Calls into Ruby that leave the type maps alone. -/
def Env.ruby (env : Env κ γ ρ δ ν) : ByClass.Ruby κ γ ρ Ref ν where
  send name paramValue := ofExcept (env.send name paramValue)
  call p paramValue := ofExcept (env.call p paramValue)

/-- The objects. -/
abbrev World (κ γ ρ δ ν : Type) := List (TypeMap κ γ ρ δ ν)

abbrev Call (κ γ ρ δ ν α : Type) : Type := Method Raised (World κ γ ρ δ ν) α

/-- `RTYPEDDATA_DATA`. -/
def this (self : Ref) : Call κ γ ρ δ ν (TypeMap κ γ ρ δ ν) := fun w =>
  match w[self]? with
  | some tm => (.ok tm, w)
  | none => (.error (.stop .undefined), w)

def ofOutcome {α : Type} (outcome : Outcome α) : Call κ γ ρ δ ν α := ofExcept (outcome.mapError .stop)

section Fit

variable (nParams : Nat) (fitDefault : Ref → Call κ γ ρ δ ν Unit)

/-- `pg_typemap_fit_to_query`. -/
def pgTypemapFitToQuery (className : String) : Call κ γ ρ δ ν Unit :=
  raise (.notImplementedError s!"type map {className} is not suitable to map query params")

/-- `pg_tmbc_fit_to_query`. -/
def pgTmbcFitToQuery (this : ByOid.Tmbc γ Ref) : Call κ γ ρ δ ν Unit :=
  if this.convs.length ≠ nParams then
    let columns := this.convs.length
    raise (.stop (.exn .argumentError
      s!"number of result fields ({nParams}) does not match number of mapped columns ({columns})"))
  else fitDefault this.defaultTypemap

end Fit

/-- `funcs.fit_to_query` for an array of so many parameters. It returns the type map it is called on. -/
def fitToQuery (nParams : Nat) : Nat → Ref → Call κ γ ρ δ ν Unit
  | 0, _ => raise (.stop .fuel)
  | fuel + 1, self => do
    match ← this self with
    | .unsuitable className => pgTypemapFitToQuery className
    | .allStrings => pure ()
    | .byColumn tm => pgTmbcFitToQuery nParams (fitToQuery nParams fuel) tm
    | .byClass tm => fitToQuery nParams fuel tm.defaultTypemap
    | .byMriType _ default => fitToQuery nParams fuel default
    | .inRuby default _ => fitToQuery nParams fuel default

section Typecast

variable [DecidableEq κ] (env : Env κ γ ρ δ ν) (typecastDefault : Ref → Call κ γ ρ δ ν (Option γ)) (paramValue : ν) (field : Nat)

/-- `pg_tmbc_typecast_query_param`, which reads `convs[field]` without looking at the number of columns. -/
def pgTmbcTypecast (this : ByOid.Tmbc γ Ref) : Call κ γ ρ δ ν (Option γ) :=
  match this.convs[field]? with
  | none => raise (.stop .undefined)
  | some (some obj) => pure (some obj)
  | some none => typecastDefault this.defaultTypemap

/-- `pg_tmbk_typecast_query_param` on the object, with its cache. -/
def pgTmbkTypecast (self : Ref) (this : ByClass.Tmbk κ γ ρ Ref) : Call κ γ ρ δ ν (Option γ) := do
  let (choice, this) := ByClass.pgTmbkTypecastQueryParam env.hierarchy env.objClass env.ruby paramValue this
  change fun w => w.set self (.byClass this)
  match ← ofOutcome choice with
  | .coder obj => pure (some obj)
  | .default tm => typecastDefault tm

/-- `pg_tmbmt_typecast_query_param`. -/
def pgTmbmtTypecast (this : ByMriType.Tmbmt γ ρ δ) (defaultTypemap : Ref) : Call κ γ ρ δ ν (Option γ) := do
  match ← ofOutcome (ByMriType.pgTmbmtTypecastQueryParam env.ask this (env.mriType paramValue) paramValue) with
  | some obj => pure (some obj)
  | none => typecastDefault defaultTypemap

/-- `pg_tmir_query_param`, and `pg_tmir_typecast_query_param` as `super`. -/
def pgTmirQueryParam (defaultTypemap : Ref) (typecast : ν → Nat → Reply γ) : Call κ γ ρ δ ν (Option γ) :=
  match typecast paramValue field with
  | .super => typecastDefault defaultTypemap
  | .nil => pure none
  | .coder obj => pure (some obj)
  | .other className => raise (.stop (.exn .typeError
      s!"wrong return type from typecast_query_param: {className} expected nil or kind of PG::Coder"))
  | .raised stop => raise (.stop stop)

/-- `funcs.typecast_query_param`; without an encoder the parameter is sent as its `to_s`. -/
def typecastQueryParam (paramValue : ν) (field : Nat) : Nat → Ref → Call κ γ ρ δ ν (Option γ)
  | 0, _ => raise (.stop .fuel)
  | fuel + 1, self => do
    match ← this self with
    | .unsuitable _ => raise (.notImplementedError "type map is not suitable to map query params")
    | .allStrings => pure none
    | .byColumn tm => pgTmbcTypecast (typecastQueryParam paramValue field fuel) field tm
    | .byClass tm => pgTmbkTypecast env (typecastQueryParam paramValue field fuel) paramValue self tm
    | .byMriType tm default => pgTmbmtTypecast env (typecastQueryParam paramValue field fuel) paramValue tm default
    | .inRuby default typecast =>
      pgTmirQueryParam (typecastQueryParam paramValue field fuel) paramValue field default typecast

/-- The loop over the parameters from one on. -/
def encodersFrom (fuel : Nat) (self : Ref) : Nat → List ν → Call κ γ ρ δ ν (List (Option γ))
  | _, [] => pure []
  | i, paramValue :: params => do
    let conv ← typecastQueryParam env paramValue i fuel self
    let convs ← encodersFrom fuel self (i + 1) params
    pure (conv :: convs)

/-- `pg_typemap_query_param_encoders`. -/
def queryParamEncoders (fuel : Nat) (self : Ref) (params : List ν) : Call κ γ ρ δ ν (List (Option γ)) := do
  fitToQuery params.length fuel self
  encodersFrom env fuel self 0 params

end Typecast

/-! ### Chains -/

def TypeMap.default : TypeMap κ γ ρ δ ν → Option Ref
  | .unsuitable _ | .allStrings => none
  | .byColumn tm => some tm.defaultTypemap
  | .byClass tm => some tm.defaultTypemap
  | .byMriType _ default | .inRuby default _ => some default

/-- What `fit_to_query` looks at in every type map. -/
def TypeMap.Accepts (nParams : Nat) : TypeMap κ γ ρ δ ν → Prop
  | .unsuitable _ => False
  | .byColumn tm => tm.convs.length = nParams
  | _ => True

def next (w : World κ γ ρ δ ν) (t : Ref) : Option Ref := w[t]?.bind TypeMap.default

/-- The type maps from `t` on encode so many parameters. -/
structure Chain (w : World κ γ ρ δ ν) (nParams : Nat) (t : Ref) (ts : List Ref) : Prop where
  linked : Linked (next w) t ts
  accepts : ∀ u ∈ ts, ∃ tm, w[u]? = some tm ∧ tm.Accepts nParams

def Fits (w : World κ γ ρ δ ν) (nParams : Nat) (t : Ref) : Prop := ∃ ts, Chain w nParams t ts

/-- What a type map has for a parameter: an encoder or the `to_s`, or nothing. -/
inductive Pick (γ : Type) where
  | encoder (conv : Option γ)
  | nothing

def Pick.ofOption : Option γ → Pick γ
  | some obj => .encoder (some obj)
  | none => .nothing

section Picks

variable (env : Env κ γ ρ δ ν) (paramValue : ν) (field : Nat)

/-- What an entry of a `PG::TypeMapByClass` stands for. -/
def evaluated : Option (ByClass.Entry γ ρ) → Outcome (Option γ)
  | none => pure none
  | some (.coder obj) => pure (some obj)
  | some (.symbol name) => env.send name paramValue >>= ByClass.retrieved
  | some (.proc p) => env.call p paramValue >>= ByClass.retrieved

variable [DecidableEq κ]

def TypeMap.pick : TypeMap κ γ ρ δ ν → Outcome (Pick γ)
  | .unsuitable _ | .allStrings => pure (.encoder none)
  | .byColumn tm => pure (.ofOption (tm.convs.getD field none))
  | .byClass tm => do
    let found ← evaluated env paramValue (ByClass.fullLookup env.hierarchy tm.klassToCoder (env.objClass paramValue))
    pure (.ofOption found)
  | .byMriType tm _ => do
    let found ← ByMriType.pgTmbmtTypecastQueryParam env.ask tm (env.mriType paramValue) paramValue
    pure (.ofOption found)
  | .inRuby _ typecast =>
    match typecast paramValue field with
    | .super => pure .nothing
    | .nil => pure (.encoder none)
    | .coder obj => pure (.encoder (some obj))
    | .other className =>
      rbRaise .typeError s!"wrong return type from typecast_query_param: {className} expected nil or kind of PG::Coder"
    | .raised stop => .error stop

/-- The encoder of a parameter: the one of the first type map that has any. -/
def firstPick (w : World κ γ ρ δ ν) : List Ref → Outcome (Option γ)
  | [] => pure none
  | t :: ts =>
    match w[t]? with
    | none => pure none
    | some tm => do
      match ← tm.pick env paramValue field with
      | .encoder conv => pure conv
      | .nothing => firstPick w ts

end Picks

section Chains

variable {w : World κ γ ρ δ ν} {nParams : Nat} {t d : Ref} {ts ds : List Ref} {tm : TypeMap κ γ ρ δ ν}

theorem next_at (here : w[t]? = some tm) : next w t = tm.default := by rw [next, here, Option.bind_some]

theorem Chain.lt {u : Ref} (chain : Chain w nParams t ts) (member : u ∈ ts) : u < w.length := by
  obtain ⟨tm, here, -⟩ := chain.accepts u member
  exact (List.getElem?_eq_some_iff.1 here).1

theorem Chain.length_le (chain : Chain w nParams t ts) : ts.length ≤ w.length :=
  chain.linked.length_le fun _ member => chain.lt member

theorem Chain.last (here : w[t]? = some tm) (ends : tm.default = none) (accepts : tm.Accepts nParams) : Chain w nParams t [t] where
  linked := .last (by rw [next_at here, ends])
  accepts u member := by
    cases List.mem_singleton.1 member
    exact ⟨tm, here, accepts⟩

theorem Chain.cons (here : w[t]? = some tm) (default : tm.default = some d) (accepts : tm.Accepts nParams)
    (rest : Chain w nParams d ds) : Chain w nParams t (t :: ds) where
  linked := .link (by rw [next_at here, default]) rest.linked
  accepts u member := by
    rcases List.mem_cons.1 member with rfl | later
    · exact ⟨tm, here, accepts⟩
    · exact rest.accepts u later

/-- A chain begins with its type map, and goes on at the default type map if it has any. -/
theorem Chain.uncons (chain : Chain w nParams t ts) : ∃ tm, w[t]? = some tm ∧ tm.Accepts nParams ∧
    ((tm.default = none ∧ ts = [t]) ∨ ∃ d ds, tm.default = some d ∧ ts = t :: ds ∧ Chain w nParams d ds) := by
  obtain ⟨linked, accepts⟩ := chain
  obtain ⟨tm, here, accepted⟩ := accepts t linked.head_mem
  refine ⟨tm, here, accepted, ?_⟩
  cases linked with
  | last stop =>
    rw [next_at here] at stop
    exact .inl ⟨stop, rfl⟩
  | @link _ d ds link rest =>
    rw [next_at here] at link
    exact .inr ⟨d, ds, link, rfl, rest, fun u member => accepts u (List.mem_cons_of_mem _ member)⟩

end Chains

/-! ### `fit_to_query` -/

section Fitting

variable {w : World κ γ ρ δ ν} {nParams fuel : Nat} {t : Ref} {ts : List Ref}

theorem this_bind {α : Type} {tm : TypeMap κ γ ρ δ ν} (here : w[t]? = some tm) (f : TypeMap κ γ ρ δ ν → Call κ γ ρ δ ν α) :
    (this t >>= f) w = f tm w := by
  apply bind_ok
  rw [this, here]

theorem this_none {α : Type} (missing : w[t]? = none) (f : TypeMap κ γ ρ δ ν → Call κ γ ρ δ ν α) :
    (this t >>= f) w = (.error (.stop .undefined), w) := by
  apply bind_error
  rw [this, missing]

/-- `fit_to_query` of a type map is its own check, then that of the default type map. -/
theorem fitToQuery_succ {tm : TypeMap κ γ ρ δ ν} (here : w[t]? = some tm) :
    (¬tm.Accepts nParams ∧ ∃ e, fitToQuery nParams (fuel + 1) t w = (.error e, w)) ∨
      tm.Accepts nParams ∧ fitToQuery nParams (fuel + 1) t w =
        match tm.default with
        | none => (.ok (), w)
        | some d => fitToQuery nParams fuel d w := by
  rw [fitToQuery, this_bind here]
  cases tm with
  | unsuitable className => exact .inl ⟨id, _, rfl⟩
  | allStrings => exact .inr ⟨trivial, rfl⟩
  | byColumn tm =>
    dsimp only
    unfold pgTmbcFitToQuery
    by_cases same : tm.convs.length = nParams
    · exact .inr ⟨same, congrFun (if_neg (not_not.2 same)) w⟩
    · exact .inl ⟨same, _, congrFun (if_pos same) w⟩
  | byClass tm => exact .inr ⟨trivial, rfl⟩
  | byMriType tm default => exact .inr ⟨trivial, rfl⟩
  | inRuby default typecast => exact .inr ⟨trivial, rfl⟩

/-- `fit_to_query` returns along a chain. -/
theorem fitToQuery_chain (chain : Chain w nParams t ts) (enough : ts.length ≤ fuel) :
    fitToQuery nParams fuel t w = (.ok (), w) := by
  induction fuel generalizing t ts with
  | zero =>
    have empty := List.length_eq_zero_iff.1 (Nat.le_zero.1 enough)
    have first := chain.linked.head_mem
    rw [empty] at first
    cases first
  | succ fuel ih =>
    obtain ⟨tm, here, accepts, ends⟩ := chain.uncons
    obtain ⟨refuses, -⟩ | ⟨-, fits⟩ := @fitToQuery_succ κ γ ρ δ ν w nParams fuel t tm here
    · exact absurd accepts refuses
    · rw [fits]
      obtain ⟨last, rfl⟩ | ⟨d, ds, default, rfl, rest⟩ := ends
      · rw [last]
      · rw [default]
        exact ih rest (Nat.le_of_succ_le_succ enough)

/-- What `fit_to_query` does not raise for is a chain. It changes nothing. -/
theorem fitToQuery_fits : (fitToQuery nParams fuel t w).2 = w ∧ ((fitToQuery nParams fuel t w).1 = .ok () → Fits w nParams t) := by
  induction fuel generalizing t with
  | zero => exact ⟨rfl, fun returned => by cases returned⟩
  | succ fuel ih =>
    cases here : w[t]? with
    | none =>
      rw [fitToQuery, this_none here]
      exact ⟨rfl, fun returned => by cases returned⟩
    | some tm =>
      obtain ⟨-, e, raises⟩ | ⟨accepts, fits⟩ := @fitToQuery_succ κ γ ρ δ ν w nParams fuel t tm here
      · rw [raises]
        exact ⟨rfl, fun returned => by cases returned⟩
      · rw [fits]
        cases default : tm.default with
        | none => exact ⟨rfl, fun _ => ⟨_, .last here default accepts⟩⟩
        | some d =>
          refine ⟨ih.1, fun returned => ?_⟩
          obtain ⟨ds, rest⟩ := ih.2 returned
          exact ⟨_, .cons here default accepts rest⟩

end Fitting

/-! ### `typecast_query_param` -/

/-- A type map without its cache. -/
def TypeMap.uncached : TypeMap κ γ ρ δ ν → TypeMap κ γ ρ δ ν
  | .byClass tm => .byClass { tm with cacheRow := fun _ => (none, none) }
  | tm => tm

/-- The same objects with other caches. -/
def SameBut (w w' : World κ γ ρ δ ν) : Prop := w'.map TypeMap.uncached = w.map TypeMap.uncached

section Same

variable {w w' w'' : World κ γ ρ δ ν} {nParams : Nat} {t : Ref} {ts : List Ref} {tm : TypeMap κ γ ρ δ ν}

theorem SameBut.trans (first : SameBut w w') (second : SameBut w' w'') : SameBut w w'' := Eq.trans second first

theorem SameBut.at (same : SameBut w w') (t : Ref) : w'[t]?.map TypeMap.uncached = w[t]?.map TypeMap.uncached := by
  rw [← List.getElem?_map, ← List.getElem?_map, same]

theorem SameBut.found (same : SameBut w w') (here : w[t]? = some tm) : ∃ tm', w'[t]? = some tm' ∧ tm'.uncached = tm.uncached := by
  have found := same.at t
  rw [here, Option.map_some, Option.map_eq_some_iff] at found
  exact found

theorem TypeMap.default_uncached (tm : TypeMap κ γ ρ δ ν) : tm.uncached.default = tm.default := by cases tm <;> rfl

theorem TypeMap.accepts_uncached (tm : TypeMap κ γ ρ δ ν) : tm.uncached.Accepts nParams ↔ tm.Accepts nParams := by
  cases tm <;> exact Iff.rfl

theorem TypeMap.pick_uncached [DecidableEq κ] (env : Env κ γ ρ δ ν) (paramValue : ν) (field : Nat) (tm : TypeMap κ γ ρ δ ν) :
    tm.uncached.pick env paramValue field = tm.pick env paramValue field := by
  cases tm <;> rfl

theorem SameBut.chain (same : SameBut w w') (chain : Chain w nParams t ts) : Chain w' nParams t ts where
  linked := by
    refine chain.linked.congr fun u member => ?_
    obtain ⟨tm, here, -⟩ := chain.accepts u member
    obtain ⟨tm', here', uncached⟩ := same.found here
    rw [next_at here, next_at here', ← tm'.default_uncached, uncached, tm.default_uncached]
  accepts u member := by
    obtain ⟨tm, here, accepts⟩ := chain.accepts u member
    obtain ⟨tm', here', uncached⟩ := same.found here
    refine ⟨tm', here', ?_⟩
    rw [← tm'.accepts_uncached, uncached, tm.accepts_uncached]
    exact accepts

/-- The caches have no say in the choice of an encoder. -/
theorem SameBut.firstPick [DecidableEq κ] {env : Env κ γ ρ δ ν} {paramValue : ν} {field : Nat} (same : SameBut w w')
    (known : ∀ u ∈ ts, u < w.length) : firstPick env paramValue field w' ts = firstPick env paramValue field w ts := by
  induction ts with
  | nil => rfl
  | cons t ts ih =>
    have here := List.getElem?_eq_getElem (known t List.mem_cons_self)
    obtain ⟨tm', here', uncached⟩ := same.found here
    rw [QueryMaps.firstPick, QueryMaps.firstPick, here, here']
    dsimp only
    rw [← tm'.pick_uncached, uncached, TypeMap.pick_uncached, ih fun u member => known u (List.mem_cons_of_mem _ member)]

theorem sameBut_set {tm' : TypeMap κ γ ρ δ ν} (here : w[t]? = some tm) (uncached : tm'.uncached = tm.uncached) :
    SameBut w (w.set t tm') := by
  unfold SameBut
  rw [List.map_set, uncached]
  apply List.ext_getElem?
  intro u
  by_cases same : t = u
  · subst same
    have inside := (List.getElem?_eq_some_iff.1 here).1
    rw [List.getElem?_set_self (by rwa [List.length_map]), List.getElem?_map, here, Option.map_some]
  · rw [List.getElem?_set_ne same]

end Same

section Typecast

variable [DecidableEq κ] {env : Env κ γ ρ δ ν} {w w' : World κ γ ρ δ ν} {nParams fuel field : Nat} {paramValue : ν} {t : Ref}
  {ts : List Ref}

/-- Every hit in a cache is the coder that the full lookup finds. -/
def Coherent (env : Env κ γ ρ δ ν) (w : World κ γ ρ δ ν) : Prop :=
  ∀ (t : Ref) (tm : ByClass.Tmbk κ γ ρ Ref), w[t]? = some (.byClass tm) → tm.Coherent env.hierarchy

omit [DecidableEq κ] in
theorem evaluate_ruby (env : Env κ γ ρ δ ν) (paramValue : ν) (entry : Option (ByClass.Entry γ ρ)) (tm : ByClass.Tmbk κ γ ρ Ref) :
    ByClass.evaluate env.ruby paramValue entry tm = (evaluated env paramValue entry, tm) := by
  cases entry with
  | none => rfl
  | some entry =>
    cases entry with
    | coder obj => rfl
    | symbol name => exact ofExcept_bind (env.send name paramValue) ByClass.retrieved tm
    | proc p => exact ofExcept_bind (env.call p paramValue) ByClass.retrieved tm

/-- A `PG::TypeMapByClass` chooses by its hash, and keeps all but its cache. -/
theorem tmbk_choice {tm : ByClass.Tmbk κ γ ρ Ref} (coherent : tm.Coherent env.hierarchy) (paramValue : ν) :
    ∃ tm', ByClass.pgTmbkTypecastQueryParam env.hierarchy env.objClass env.ruby paramValue tm =
        ((do
          let found ← evaluated env paramValue (ByClass.fullLookup env.hierarchy tm.klassToCoder (env.objClass paramValue))
          pure (match found with | some obj => .coder obj | none => .default tm.defaultTypemap)), tm') ∧
      tm'.Coherent env.hierarchy ∧ (TypeMap.byClass tm' : TypeMap κ γ ρ δ ν).uncached = (TypeMap.byClass tm).uncached := by
  unfold ByClass.pgTmbkTypecastQueryParam
  obtain ⟨pCoder, tm', found, looked, coherent', same⟩ | asks :=
    ByClass.pgTmbkLookupKlass_spec coherent (env.objClass paramValue) paramValue
  · refine ⟨tm', ?_, coherent', by rw [same]; rfl⟩
    rw [bind_ok (looked env.ruby), found]
    cases pCoder with
    | none => rw [same]; rfl
    | some obj => rfl
  · refine ⟨tm, ?_, coherent, rfl⟩
    have asked := (asks env.ruby).trans (evaluate_ruby env paramValue _ tm)
    cases answered : evaluated env paramValue (ByClass.fullLookup env.hierarchy tm.klassToCoder (env.objClass paramValue)) with
    | error stop =>
      rw [answered] at asked
      exact bind_error asked
    | ok pCoder =>
      rw [answered] at asked
      rw [bind_ok asked]
      cases pCoder with
      | none => rfl
      | some obj => rfl

theorem coherent_set {tm' : ByClass.Tmbk κ γ ρ Ref} (coherent : Coherent env w) (coherent' : tm'.Coherent env.hierarchy) :
    Coherent env (w.set t (.byClass tm')) := by
  intro u other there
  by_cases same : t = u
  · subst same
    have inside := (List.getElem?_eq_some_iff.1 there).1
    rw [List.length_set] at inside
    rw [List.getElem?_set_self inside] at there
    cases there
    exact coherent'
  · rw [List.getElem?_set_ne same] at there
    exact coherent u other there

/-- A call answers as the first type map of the chain that has an encoder, and leaves all but the caches. -/
def Answers {α : Type} (env : Env κ γ ρ δ ν) (w : World κ γ ρ δ ν) (answer : Outcome α)
    (ran : Except Raised α × World κ γ ρ δ ν) : Prop :=
  ran.1 = answer.mapError .stop ∧ SameBut w ran.2 ∧ Coherent env ran.2

theorem Answers.behind {α : Type} {w₁ : World κ γ ρ δ ν} {answer : Outcome α} {ran : Except Raised α × World κ γ ρ δ ν}
    (same : SameBut w w₁) (answers : Answers env w₁ answer ran) : Answers env w answer ran :=
  ⟨answers.1, same.trans answers.2.1, answers.2.2⟩

/-! One type map of a chain, in front of its default type map. -/

/-- The encoder that is picked, or what comes behind. -/
def orDefault (picked : Outcome (Pick γ)) (default : Outcome (Option γ)) : Outcome (Option γ) := do
  match ← picked with
  | .encoder conv => pure conv
  | .nothing => default

omit [DecidableEq κ] in
theorem firstPick_cons {tm : TypeMap κ γ ρ δ ν} (here : w[t]? = some tm) :
    firstPick env paramValue field w (t :: ts) = orDefault (tm.pick env paramValue field) (firstPick env paramValue field w ts) := by
  rw [firstPick, here]
  rfl

section Links

variable {typecastDefault : Ref → Call κ γ ρ δ ν (Option γ)} {default : Outcome (Option γ)}

theorem tmbc_answers {tm : ByOid.Tmbc γ Ref} (coherent : Coherent env w) (bound : field < tm.convs.length)
    (later : Answers env w default (typecastDefault tm.defaultTypemap w)) :
    Answers env w (orDefault ((TypeMap.byColumn tm).pick env paramValue field) default)
      (pgTmbcTypecast typecastDefault field tm w) := by
  have reads := List.getElem?_eq_getElem bound
  rw [pgTmbcTypecast, reads, TypeMap.pick, List.getD_eq_getElem?_getD, reads, Option.getD_some]
  cases tm.convs[field] with
  | none => exact later
  | some obj => exact ⟨rfl, rfl, coherent⟩

/-- The default type map is asked behind the lookup, which may have filled the cache. -/
theorem tmbk_answers {tm : ByClass.Tmbk κ γ ρ Ref} (coherent : Coherent env w) (here : w[t]? = some (.byClass tm))
    (later : ∀ w', SameBut w w' → Coherent env w' → Answers env w default (typecastDefault tm.defaultTypemap w')) :
    Answers env w (orDefault ((TypeMap.byClass tm).pick env paramValue field) default)
      (pgTmbkTypecast env typecastDefault paramValue t tm w) := by
  obtain ⟨tm', chosen, coherent', uncached⟩ := tmbk_choice (coherent t tm here) paramValue
  have same : SameBut w (w.set t (.byClass tm')) := sameBut_set here uncached
  have kept : Coherent env (w.set t (.byClass tm')) := coherent_set coherent coherent'
  rw [pgTmbkTypecast, chosen, TypeMap.pick]
  cases evaluated env paramValue (ByClass.fullLookup env.hierarchy tm.klassToCoder (env.objClass paramValue)) with
  | error stop => exact ⟨rfl, same, kept⟩
  | ok found =>
    cases found with
    | none => exact later _ same kept
    | some obj => exact ⟨rfl, same, kept⟩

theorem tmbmt_answers {tm : ByMriType.Tmbmt γ ρ δ} {d : Ref} (coherent : Coherent env w)
    (later : Answers env w default (typecastDefault d w)) :
    Answers env w (orDefault ((TypeMap.byMriType tm d).pick env paramValue field) default)
      (pgTmbmtTypecast env typecastDefault paramValue tm d w) := by
  rw [pgTmbmtTypecast, TypeMap.pick]
  cases ByMriType.pgTmbmtTypecastQueryParam env.ask tm (env.mriType paramValue) paramValue with
  | error stop => exact ⟨rfl, rfl, coherent⟩
  | ok found =>
    cases found with
    | none => exact later
    | some obj => exact ⟨rfl, rfl, coherent⟩

theorem tmir_answers {typecast : ν → Nat → Reply γ} {d : Ref} (coherent : Coherent env w)
    (later : Answers env w default (typecastDefault d w)) :
    Answers env w (orDefault ((TypeMap.inRuby d typecast).pick env paramValue field) default)
      (pgTmirQueryParam typecastDefault paramValue field d typecast w) := by
  rw [pgTmirQueryParam, TypeMap.pick]
  cases typecast paramValue field with
  | super => exact later
  | nil => exact ⟨rfl, rfl, coherent⟩
  | coder obj => exact ⟨rfl, rfl, coherent⟩
  | other className => exact ⟨rfl, rfl, coherent⟩
  | raised stop => exact ⟨rfl, rfl, coherent⟩

end Links

/-- **One parameter.** Along a chain the column maps are read inside their columns, and the caches do not matter. -/
theorem typecastQueryParam_chain (coherent : Coherent env w) (chain : Chain w nParams t ts) (inside : field < nParams)
    (enough : ts.length ≤ fuel) :
    Answers env w (firstPick env paramValue field w ts) (typecastQueryParam env paramValue field fuel t w) := by
  induction fuel generalizing t ts w with
  | zero =>
    have empty := List.length_eq_zero_iff.1 (Nat.le_zero.1 enough)
    have first := chain.linked.head_mem
    rw [empty] at first
    cases first
  | succ fuel ih =>
    obtain ⟨tm, here, accepts, ends⟩ := chain.uncons
    rw [typecastQueryParam, this_bind here]
    obtain ⟨last, rfl⟩ | ⟨d, ds, default, rfl, rest⟩ := ends
    · rw [firstPick_cons here]
      cases tm with
      | unsuitable className => cases accepts
      | allStrings => exact ⟨rfl, rfl, coherent⟩
      | _ => cases last
    · have later : ∀ w', SameBut w w' → Coherent env w' →
          Answers env w (firstPick env paramValue field w ds) (typecastQueryParam env paramValue field fuel d w') := by
        intro w' same coherent'
        have answers := (ih coherent' (same.chain rest) (Nat.le_of_succ_le_succ enough)).behind same
        rwa [same.firstPick fun u member => rest.lt member] at answers
      have here' := later w rfl coherent
      rw [firstPick_cons here]
      cases tm with
      | unsuitable className => cases default
      | allStrings => cases default
      | byColumn tm =>
        cases default
        exact tmbc_answers coherent (accepts ▸ inside) here'
      | byClass tm =>
        cases default
        exact tmbk_answers coherent here later
      | byMriType tm default' =>
        cases default
        exact tmbmt_answers coherent here'
      | inRuby default' typecast =>
        cases default
        exact tmir_answers coherent here'

theorem encodersFrom_chain {params : List ν} {i : Nat} (coherent : Coherent env w) (chain : Chain w nParams t ts)
    (inside : i + params.length ≤ nParams) (enough : ts.length ≤ fuel) :
    Answers env w ((params.zipIdx i).mapM fun x => firstPick env x.1 x.2 w ts) (encodersFrom env fuel t i params w) := by
  induction params generalizing i w with
  | nil => exact ⟨rfl, rfl, coherent⟩
  | cons paramValue params ih =>
    rw [List.length_cons] at inside
    obtain ⟨value, same, coherent₁⟩ := @typecastQueryParam_chain κ γ ρ δ ν _ env w nParams fuel i paramValue t ts coherent chain
      (by omega) enough
    rw [encodersFrom, List.zipIdx_cons, List.mapM_cons]
    cases ran : typecastQueryParam env paramValue i fuel t w with
    | mk result w₁ =>
      rw [ran] at value same coherent₁
      cases answer : firstPick env paramValue i w ts with
      | error stop =>
        rw [answer] at value
        cases value
        rw [bind_error ran]
        exact ⟨rfl, same, coherent₁⟩
      | ok conv =>
        rw [answer] at value
        cases value
        rw [bind_ok ran]
        obtain ⟨values, same₂, coherent₂⟩ := @ih w₁ (i + 1) coherent₁ (same.chain chain) (by omega)
        have picks : (fun x : ν × Nat => firstPick env x.1 x.2 w₁ ts) = fun x => firstPick env x.1 x.2 w ts := by
          funext x
          exact same.firstPick fun u member => chain.lt member
        rw [picks] at values
        cases rest : encodersFrom env fuel t (i + 1) params w₁ with
        | mk result₂ w₂ =>
          rw [rest] at values same₂ coherent₂
          dsimp only at values same₂ coherent₂
          rw [bind_pure_at rest, values]
          refine ⟨?_, same.trans same₂, coherent₂⟩
          cases (params.zipIdx (i + 1)).mapM fun x => firstPick env x.1 x.2 w ts <;> rfl

end Typecast

/-- **A chain encodes by its first encoder.** `query_param_encoders` of a type map, with any coherent caches and as
much fuel as there are objects, returns or raises for every parameter what the first type map of its chain that has an
encoder for it says, where the chain ends at strings and every column map in it has as many columns as there are
parameters. Otherwise `fit_to_query` raises in front of all parameters. No column is read behind the end of its map. -/
theorem chain_encodes_by_first_encoder [DecidableEq κ] (env : Env κ γ ρ δ ν) (w : World κ γ ρ δ ν) (coherent : Coherent env w)
    (t : Ref) (params : List ν) (fuel : Nat) (enough : w.length ≤ fuel) :
    (¬Fits w params.length t → ∃ e, fitToQuery params.length fuel t w = (.error e, w) ∧
        queryParamEncoders env fuel t params w = (.error e, w)) ∧
      ∀ ts, Chain w params.length t ts →
        Answers env w (params.zipIdx.mapM fun x => firstPick env x.1 x.2 w ts) (queryParamEncoders env fuel t params w) := by
  constructor
  · intro unfit
    obtain ⟨same, fits⟩ := @fitToQuery_fits κ γ ρ δ ν w params.length fuel t
    cases ran : fitToQuery params.length fuel t w with
    | mk result w' =>
      rw [ran] at same fits
      subst same
      cases result with
      | ok u => exact absurd (fits rfl) unfit
      | error e =>
        refine ⟨e, rfl, ?_⟩
        rw [queryParamEncoders, bind_error ran]
  · intro ts chain
    have short := chain.length_le.trans enough
    rw [queryParamEncoders, bind_ok (fitToQuery_chain chain short)]
    exact encodersFrom_chain coherent chain (by omega) short

/-- Values that are their own class, without Symbols and Procs. -/
def plainEnv : Env Nat Nat Nat Nat Nat where
  hierarchy := ⟨fun _ => [], fun _ => []⟩
  objClass := id
  mriType _ := none
  send _ _ := .ok .nil
  call _ _ := .ok .nil
  ask _ _ := .error .undefined

/-- An encoder for the class 5. -/
def oneClass : ByClass.Tmbk Nat Nat Nat Ref where
  defaultTypemap := 0
  klassToCoder klass := if klass = 5 then some (.coder 9) else none
  cacheRow _ := (none, none)
  address _ := 0
  frozen := false

/-- One column has an encoder of its own, the other one that of the class. -/
def columnAndClass : World Nat Nat Nat Nat Nat := [.allStrings, .byColumn ⟨[some 7, none], 2⟩, .byClass oneClass]

theorem columnAndClass_coherent : Coherent plainEnv columnAndClass := by
  intro t tm here
  rcases t with _ | _ | _ | t
  · cases here
  · cases here
  · cases here
    exact ByClass.wiped_coherent oneClass
  · cases here

theorem columnAndClass_chain : Chain columnAndClass 2 1 [1, 2, 0] := by
  have strings : columnAndClass[0]? = some .allStrings := rfl
  have columns : columnAndClass[1]? = some (.byColumn ⟨[some 7, none], 2⟩) := rfl
  have classes : columnAndClass[2]? = some (.byClass oneClass) := rfl
  exact .cons columns rfl rfl (.cons classes rfl trivial (.last strings rfl trivial))

theorem chain_encodes_by_first_encoder_two_params :
    (queryParamEncoders plainEnv 3 1 [5, 5] columnAndClass).1 = .ok [some 7, some 9] :=
  ((chain_encodes_by_first_encoder plainEnv columnAndClass columnAndClass_coherent 1 [5, 5] 3 (by decide)).2
    [1, 2, 0] columnAndClass_chain).1

/-- Without `fit_to_query`, as `PG::TypeMapInRuby#typecast_query_param` calls it, a column behind the end is read. -/
example : (typecastQueryParam plainEnv 5 2 3 1 columnAndClass).1 = .error (.stop .undefined) := rfl

end RubyPg.QueryMaps
