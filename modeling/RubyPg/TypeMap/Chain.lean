import RubyPg.Lib.Linked
import RubyPg.Result.Streams
import RubyPg.TypeMap.ByOid

/-!
# Chains of type maps

Every type map that can cast values has a `default_type_map` for those it has no decoder for. The type maps
are objects in a heap, `PG::TypeMapAllStrings` the one at 0, and any two of them may share their default.
A result gets a type map by its `fit_to_result`, which may build new objects: a `PG::TypeMapByOid` for many
rows builds a `PG::TypeMapByColumn`, and where the default type map has built one, so do those in front.

`Fits` says when `fit_to_result` returns: the chain of defaults ends at strings, and every column map in it
has as many columns as the result. A value is cast by the first decoder of the chain (`Chain.cast`).
-/

namespace RubyPg.TypeMaps
set_option autoImplicit false
open Method ByOid

/-- A `PG::TypeMap` object. -/
abbrev Ref := Nat

/-- `t_typemap` and the structs that extend it, as far as they cast results. -/
inductive TypeMap (γ : Type) where
  /-- `PG::TypeMap` itself, `PG::TypeMapByClass` and `PG::TypeMapByMriType`. -/
  | unsuitable (className : String)
  | allStrings
  | byColumn (this : Tmbc γ Ref) (frozen : Bool)
  /-- A `t_tmbo`, and the object that its two hashes came with. -/
  | byOid (own : Own γ Ref) (hashes : Nat)
  /-- A `PG::TypeMapInRuby` without methods of its own, or a `WarningTypeMap` with the object that its
  `@already_warned` came with. -/
  | inRuby (defaultTypemap : Ref) (frozen : Bool) (alreadyWarned : Option Nat)

/-- `t_pg_result`. A cleared result has no `PGresult`. -/
structure TPgResult where
  pgresult : Option (PgResult × PgResult.ExecStatus)
  typemap : Ref

/-- A call of `pgresult_stream_any`: its result, and the number of columns that it began with. -/
structure Stream where
  result : Nat
  nfields : Nat
  running : Bool

/-- The objects, the warnings so far (by `@already_warned`, format and OID), and the streams. -/
structure World (γ : Type) where
  maps : List (TypeMap γ)
  oidToCoder : Nat → Fin 2 → Oid → Option γ
  alreadyWarned : Nat → List (Int × Oid)
  warnings : List (Nat × Int × Oid)
  results : List TPgResult
  streams : List Stream := []

/-- Why a call does not return. `check` is what `pg_result_check` raises. -/
inductive Raised where
  | stop (stop : Stop)
  | notImplementedError (msg : String)
  | result (cls : PgResult.ErrorClass) (msg : String)
  | check
deriving DecidableEq

/-- How a value is cast: not at all, by a coder, or by the functions for strings. -/
inductive Answer (γ : Type) where
  | null
  | coder (conv : γ)
  | string
  | bytea
deriving DecidableEq, Repr

/-- `pg_typemap_all_strings`. -/
abbrev pgTypemapAllStrings : Ref := 0

variable {γ : Type}

abbrev Call (γ α : Type) : Type := Method Raised (World γ) α

/-- `RTYPEDDATA_DATA`. -/
def this (self : Ref) : Call γ (TypeMap γ) := fun w =>
  match w.maps[self]? with
  | some tm => (.ok tm, w)
  | none => (.error (.stop .undefined), w)

/-- A new object. -/
def allocate (tm : TypeMap γ) : Call γ Ref := fun w => (.ok w.maps.length, { w with maps := w.maps ++ [tm] })

/-- A `t_tmbo` with its hashes. -/
def World.tmbo (w : World γ) (own : Own γ Ref) (hashes : Nat) : Tmbo γ Ref := { own with oidToCoder := w.oidToCoder hashes }

/-- The world with another state of a `t_tmbo` and its hashes. -/
def World.put (w : World γ) (self : Ref) (tm : Tmbo γ Ref) (hashes : Nat) : World γ :=
  { w with
    maps := w.maps.set self (.byOid tm.toOwn hashes)
    oidToCoder := Function.update w.oidToCoder hashes tm.oidToCoder }

/-- A method of a `PG::TypeMapByOid`. -/
def onOid {α : Type} (self : Ref) (m : Method Stop (Tmbo γ Ref) α) : Call γ α := fun w =>
  match w.maps[self]? with
  | some (.byOid own hashes) =>
    let (result, tm) := m (w.tmbo own hashes)
    (result.mapError .stop, w.put self tm hashes)
  | _ => (.error (.stop .undefined), w)

/-- `pgresult_get`. -/
def pgresultGet (result : Option PgResult) : Call γ PgResult :=
  match result with
  | none => raise (.result .pgError "result has been cleared")
  | some r => pure r

section Fit

variable (fitDefault : Ref → Call γ Ref) (self : Ref) (result : Option PgResult)

/-- `pg_typemap_fit_to_result`. -/
def pgTypemapFitToResult (className : String) : Call γ Ref :=
  raise (.notImplementedError s!"type map {className} is not suitable to map result values")

/-- `pg_tmas_fit_to_result`. -/
def pgTmasFitToResult : Call γ Ref := pure self

/-- `pg_tmbc_fit_to_result`. -/
def pgTmbcFitToResult (this : Tmbc γ Ref) : Call γ Ref := do
  let r ← pgresultGet result
  if this.convs.length ≠ r.nfields then
    let nfields := r.nfields
    let columns := this.convs.length
    raise (.stop (.exn .argumentError
      s!"number of result fields ({nfields}) does not match number of mapped columns ({columns})"))
  else do
    let subTypemap ← fitDefault this.defaultTypemap
    -- did the default type map return the same object?
    if subTypemap = this.defaultTypemap then pure self
    else allocate (.byColumn { this with defaultTypemap := subTypemap } false)

/-- `pg_tmbo_fit_to_result`. -/
def pgTmboFitToResult (this : Own γ Ref) (hashes : Nat) : Call γ Ref := do
  let r ← pgresultGet result
  let subTypemap ← fitDefault this.defaultTypemap
  if r.ntuples ≤ this.maxRowsForOnlineLookup then
    if subTypemap = this.defaultTypemap then pure self
    else allocate (.byOid { this with defaultTypemap := subTypemap, frozen := false } hashes)
  else do
    let colmap ← onOid self (pgTmboBuildTypeMapForResult2 pgTypemapAllStrings r)
    allocate (.byColumn { colmap with defaultTypemap := subTypemap } false)

/-- `pg_tmir_fit_to_result`, without a `fit_to_result` in Ruby. `rb_obj_dup` takes over the instance variables. -/
def pgTmirFitToResult (defaultTypemap : Ref) (alreadyWarned : Option Nat) : Call γ Ref := do
  let subTypemap ← fitDefault defaultTypemap
  if subTypemap ≠ defaultTypemap then allocate (.inRuby subTypemap false alreadyWarned)
  else pure self

end Fit

/-- `funcs.fit_to_result`. -/
def fitToResult (result : Option PgResult) : Nat → Ref → Call γ Ref
  | 0, _ => raise (.stop .fuel)
  | fuel + 1, self => do
    match ← this self with
    | .unsuitable className => pgTypemapFitToResult className
    | .allStrings => pgTmasFitToResult self
    | .byColumn tm _ => pgTmbcFitToResult (fitToResult result fuel) self result tm
    | .byOid own hashes => pgTmboFitToResult (fitToResult result fuel) self result own hashes
    | .inRuby default _ alreadyWarned => pgTmirFitToResult (fitToResult result fuel) self default alreadyWarned

/-- `WarningTypeMap#typecast_result_value` in front of its `super`. -/
def warnUndefined (frozen : Bool) (alreadyWarned : Nat) (format : Int) (oid : Oid) : Call γ Unit :=
  change fun w =>
    if (format, oid) ∈ w.alreadyWarned alreadyWarned then w
    else
      { w with
        warnings := w.warnings ++ [(alreadyWarned, format, oid)]
        alreadyWarned :=
          if frozen then w.alreadyWarned
          else Function.update w.alreadyWarned alreadyWarned ((format, oid) :: w.alreadyWarned alreadyWarned) }

section Value

variable (typecastDefault : Ref → Call γ (Answer γ)) (self : Ref) (result : PgResult) (tuple field : Nat)

/-- `pg_typemap_result_value`. -/
def pgTypemapResultValue : Call γ (Answer γ) :=
  raise (.notImplementedError "type map is not suitable to map result values")

/-- `pg_tmas_result_value`. -/
def pgTmasResultValue : Call γ (Answer γ) :=
  pure (if result.getisnull tuple field = true then .null else if result.fformat field = 0 then .string else .bytea)

/-- The decoder, or `typecast_result_value` of the default type map. -/
def ofCast : Cast γ Ref → Call γ (Answer γ)
  | .null => pure .null
  | .coder conv => pure (.coder conv)
  | .default tm => typecastDefault tm

/-- `pg_tmbc_result_value`, which reads `convs[field]` without looking at the number of columns. -/
def pgTmbcTypecast (this : Tmbc γ Ref) : Call γ (Answer γ) :=
  if ¬result.getisnull tuple field = true ∧ this.convs.length ≤ field then raise (.stop .undefined)
  else ofCast typecastDefault (pgTmbcResultValue this result tuple field)

/-- `pg_tmbo_result_value`. -/
def pgTmboTypecast : Call γ (Answer γ) := do
  let cast ← onOid self (pgTmboResultValue result tuple field)
  ofCast typecastDefault cast

/-- `pg_tmir_result_value` and `pg_tmir_typecast_result_value`. -/
def pgTmirTypecast (defaultTypemap : Ref) (frozen : Bool) (alreadyWarned : Option Nat) : Call γ (Answer γ) := do
  match alreadyWarned with
  | none => pure ()
  | some warned => warnUndefined frozen warned (result.fformat field) (result.ftype field)
  typecastDefault defaultTypemap

end Value

/-- `funcs.typecast_result_value`, up to the call of the decoder. -/
def typecastResultValue (result : PgResult) (tuple field : Nat) : Nat → Ref → Call γ (Answer γ)
  | 0, _ => raise (.stop .fuel)
  | fuel + 1, self => do
    match ← this self with
    | .unsuitable _ => pgTypemapResultValue
    | .allStrings => pgTmasResultValue result tuple field
    | .byColumn tm _ => pgTmbcTypecast (typecastResultValue result tuple field fuel) result tuple field tm
    | .byOid _ _ => pgTmboTypecast (typecastResultValue result tuple field fuel) self result tuple field
    | .inRuby default frozen alreadyWarned =>
      pgTmirTypecast (typecastResultValue result tuple field fuel) result field default frozen alreadyWarned

/-! ### Shapes -/

/-- What decides whether a type map fits. -/
inductive Shape where
  | unsuitable
  | strings
  | columns (n : Nat) (default : Ref)
  | passes (default : Ref)

def TypeMap.shape : TypeMap γ → Shape
  | .unsuitable _ => .unsuitable
  | .allStrings => .strings
  | .byColumn tm _ => .columns tm.convs.length tm.defaultTypemap
  | .byOid own _ => .passes own.defaultTypemap
  | .inRuby default _ _ => .passes default

def Shape.default : Shape → Option Ref
  | .unsuitable | .strings => none
  | .columns _ default | .passes default => some default

def Shape.Accepts (nfields : Nat) : Shape → Prop
  | .unsuitable => False
  | .columns n _ => n = nfields
  | .strings | .passes _ => True

def World.shape (w : World γ) (t : Ref) : Option Shape := (w.maps[t]?).map TypeMap.shape

/-- The default type map. -/
def World.next (w : World γ) (t : Ref) : Option Ref := (w.shape t).bind Shape.default

def World.Accepts (w : World γ) (nfields : Nat) (t : Ref) : Prop := ∃ s, w.shape t = some s ∧ s.Accepts nfields

/-- The type maps from `t` on cast results with so many fields. -/
structure World.Chain (w : World γ) (nfields : Nat) (t : Ref) (ts : List Ref) : Prop where
  linked : Linked w.next t ts
  accepts : ∀ u ∈ ts, w.Accepts nfields u

/-- The type map fits to results with so many fields. -/
def World.Fits (w : World γ) (nfields : Nat) (t : Ref) : Prop := ∃ ts, w.Chain nfields t ts

/-- The decoder that a type map has for a field. -/
def TypeMap.decoder (oidToCoder : Nat → Fin 2 → Oid → Option γ) (r : PgResult) (field : Nat) : TypeMap γ → Option γ
  | .byColumn tm _ => tm.convs.getD field none
  | .byOid _ hashes =>
    (formatIndex (r.fformat field)).bind fun format => oidToCoder hashes format (r.ftype field)
  | _ => none

def World.decoder (w : World γ) (r : PgResult) (field : Nat) (t : Ref) : Option γ :=
  (w.maps[t]?).bind (TypeMap.decoder w.oidToCoder r field)

/-- The cast of a value by the first decoder of a chain. -/
def World.cast (w : World γ) (r : PgResult) (tuple field : Nat) (ts : List Ref) : Answer γ :=
  if r.getisnull tuple field = true then .null
  else
    match ts.findSome? (w.decoder r field) with
    | some conv => .coder conv
    | none => if r.fformat field = 0 then .string else .bytea

section Chains

variable {w : World γ} {nfields : Nat} {t d : Ref} {ts ds : List Ref}

theorem World.decoder_at {tm : TypeMap γ} (here : w.maps[t]? = some tm) (r : PgResult) (field : Nat) :
    w.decoder r field t = tm.decoder w.oidToCoder r field := by
  rw [decoder, here, Option.bind_some]

theorem World.shape_at {tm : TypeMap γ} (here : w.maps[t]? = some tm) : w.shape t = some tm.shape := by
  rw [shape, here, Option.map_some]

theorem World.accepts_iff {s : Shape} (here : w.shape t = some s) : w.Accepts nfields t ↔ s.Accepts nfields := by
  constructor
  · rintro ⟨s', there, accepted⟩
    cases here.symm.trans there
    exact accepted
  · intro accepted
    exact ⟨s, here, accepted⟩

theorem World.Accepts.lt (accepts : w.Accepts nfields t) : t < w.maps.length := by
  obtain ⟨s, here, -⟩ := accepts
  obtain ⟨tm, there, -⟩ := Option.map_eq_some_iff.1 here
  exact (List.getElem?_eq_some_iff.1 there).1

theorem World.Chain.length_le (chain : w.Chain nfields t ts) : ts.length ≤ w.maps.length :=
  chain.linked.length_le fun u member => (chain.accepts u member).lt

theorem World.Chain.strings (here : w.shape t = some .strings) : w.Chain nfields t [t] where
  linked := .last (by rw [next, here]; rfl)
  accepts u member := by
    cases List.mem_singleton.1 member
    exact ⟨_, here, trivial⟩

theorem World.Chain.cons {s : Shape} (here : w.shape t = some s) (default : s.default = some d) (accepts : s.Accepts nfields)
    (rest : w.Chain nfields d ds) : w.Chain nfields t (t :: ds) where
  linked := .link (by rw [next, here]; exact default) rest.linked
  accepts u member := by
    rcases List.mem_cons.1 member with rfl | later
    · exact ⟨s, here, accepts⟩
    · exact rest.accepts u later

/-- A chain ends at strings, or goes on at the default type map. -/
inductive World.Chain.Head (w : World γ) (nfields : Nat) (t : Ref) : TypeMap γ → List Ref → Prop where
  | strings : Head w nfields t .allStrings [t]
  | column {tm : Tmbc γ Ref} {frozen : Bool} {ds : List Ref} (columns : tm.convs.length = nfields)
      (rest : w.Chain nfields tm.defaultTypemap ds) : Head w nfields t (.byColumn tm frozen) (t :: ds)
  | oid {own : Own γ Ref} {hashes : Nat} {ds : List Ref} (rest : w.Chain nfields own.defaultTypemap ds) :
      Head w nfields t (.byOid own hashes) (t :: ds)
  | ruby {default : Ref} {frozen : Bool} {alreadyWarned : Option Nat} {ds : List Ref}
      (rest : w.Chain nfields default ds) : Head w nfields t (.inRuby default frozen alreadyWarned) (t :: ds)

theorem World.Chain.head (chain : w.Chain nfields t ts) : ∃ tm, w.maps[t]? = some tm ∧ Head w nfields t tm ts := by
  obtain ⟨linked, accepts⟩ := chain
  obtain ⟨s, here, accepted⟩ := accepts t linked.head_mem
  obtain ⟨tm, there, rfl⟩ := Option.map_eq_some_iff.1 here
  refine ⟨tm, there, ?_⟩
  cases linked with
  | last stop =>
    rw [next, here] at stop
    cases tm with
    | allStrings => exact .strings
    | unsuitable className => cases accepted
    | byColumn tm frozen => cases stop
    | byOid own hashes => cases stop
    | inRuby default frozen alreadyWarned => cases stop
  | @link _ d ds link rest =>
    rw [next, here] at link
    have behind : w.Chain nfields d ds := ⟨rest, fun u member => accepts u (List.mem_cons_of_mem _ member)⟩
    cases tm with
    | allStrings => cases link
    | unsuitable className => cases link
    | byColumn tm frozen =>
      cases link
      exact .column accepted behind
    | byOid own hashes =>
      cases link
      exact .oid behind
    | inRuby default frozen alreadyWarned =>
      cases link
      exact .ruby behind

end Chains

/-! ### What calls leave -/

/-- No type map gets another default or other columns. -/
def Extends (w w' : World γ) : Prop := ∀ t s, w.shape t = some s → w'.shape t = some s

/-- A type map without its caches. -/
def TypeMap.uncached : TypeMap γ → TypeMap γ
  | .byOid own hashes => .byOid { own with cacheRow := fun _ _ => (0, none) } hashes
  | tm => tm

/-- New objects, and other caches. -/
structure Grows (w w' : World γ) : Prop where
  maps : ∀ (t : Ref) (tm : TypeMap γ), w.maps[t]? = some tm → ∃ tm' : TypeMap γ, w'.maps[t]? = some tm' ∧ tm'.uncached = tm.uncached
  oidToCoder : w'.oidToCoder = w.oidToCoder

/-- The caches agree with the hashes. -/
def World.Coherent (w : World γ) : Prop :=
  ∀ (t : Ref) (own : Own γ Ref) (hashes : Nat), w.maps[t]? = some (.byOid own hashes) → (w.tmbo own hashes).Coherent

theorem Grows.refl (w : World γ) : Grows w w := ⟨fun _ tm here => ⟨tm, here, rfl⟩, rfl⟩

theorem Grows.trans {w w' w'' : World γ} (first : Grows w w') (second : Grows w' w'') : Grows w w'' := by
  refine ⟨fun t tm here => ?_, second.oidToCoder.trans first.oidToCoder⟩
  obtain ⟨tm', here', same⟩ := first.maps t tm here
  obtain ⟨tm'', here'', same'⟩ := second.maps t tm' here'
  exact ⟨tm'', here'', same'.trans same⟩

theorem TypeMap.shape_uncached (tm : TypeMap γ) : tm.uncached.shape = tm.shape := by cases tm <;> rfl

theorem TypeMap.decoder_uncached (tm : TypeMap γ) (oidToCoder : Nat → Fin 2 → Oid → Option γ) (r : PgResult) (field : Nat) :
    tm.uncached.decoder oidToCoder r field = tm.decoder oidToCoder r field := by
  cases tm <;> rfl

section Growing

variable {w w' : World γ} {nfields : Nat} {t : Ref} {ts : List Ref} {r : PgResult} {tuple field : Nat}

theorem Extends.chain (longer : Extends w w') (chain : w.Chain nfields t ts) : w'.Chain nfields t ts where
  linked := by
    refine chain.linked.congr fun u member => ?_
    obtain ⟨s, here, -⟩ := chain.accepts u member
    rw [World.next, World.next, longer u s here, here]
  accepts u member := by
    obtain ⟨s, here, accepted⟩ := chain.accepts u member
    exact ⟨s, longer u s here, accepted⟩

theorem Extends.fits (longer : Extends w w') (fits : w.Fits nfields t) : w'.Fits nfields t := by
  obtain ⟨ts, chain⟩ := fits
  exact ⟨ts, longer.chain chain⟩

theorem Grows.extends (grows : Grows w w') : Extends w w' := by
  intro t s here
  obtain ⟨tm, there, rfl⟩ := Option.map_eq_some_iff.1 here
  obtain ⟨tm', there', same⟩ := grows.maps t tm there
  rw [World.shape, there', Option.map_some, ← tm'.shape_uncached, same, tm.shape_uncached]

theorem Grows.chain (grows : Grows w w') (chain : w.Chain nfields t ts) : w'.Chain nfields t ts := grows.extends.chain chain

theorem Grows.decoder (grows : Grows w w') (inside : t < w.maps.length) : w'.decoder r field t = w.decoder r field t := by
  have here := List.getElem?_eq_getElem inside
  obtain ⟨tm', here', same⟩ := grows.maps t _ here
  rw [World.decoder, World.decoder, here, here', grows.oidToCoder, Option.bind_some, Option.bind_some,
    ← tm'.decoder_uncached, same, TypeMap.decoder_uncached]

theorem findSome?_same {α β : Type} {f g : α → Option β} {l : List α} (same : ∀ a ∈ l, f a = g a) :
    l.findSome? f = l.findSome? g := by
  induction l with
  | nil => rfl
  | cons a l ih =>
    rw [List.findSome?_cons, List.findSome?_cons, same a List.mem_cons_self,
      ih fun b member => same b (List.mem_cons_of_mem _ member)]

theorem Grows.cast (grows : Grows w w') (chain : w.Chain nfields t ts) :
    w'.cast r tuple field ts = w.cast r tuple field ts := by
  rw [World.cast, World.cast,
    findSome?_same fun u member => @Grows.decoder γ w w' u r field grows (chain.accepts u member).lt]

end Growing

section Calls

variable {w : World γ} {nfields : Nat} {t : Ref} {ts : List Ref}

theorem this_bind {α : Type} {tm : TypeMap γ} (here : w.maps[t]? = some tm) (f : TypeMap γ → Call γ α) :
    (this t >>= f) w = f tm w := by
  apply bind_ok
  rw [this, here]

section Lookups

variable {own : Own γ Ref} {hashes : Nat} {tm : Tmbo γ Ref}

theorem oidToCoder_put (same : (w.tmbo own hashes).SameBut tm) : (w.put t tm hashes).oidToCoder = w.oidToCoder := by
  obtain ⟨cacheRow, rfl⟩ := same
  exact Function.update_eq_self _ _

theorem grows_put (here : w.maps[t]? = some (.byOid own hashes)) (same : (w.tmbo own hashes).SameBut tm) :
    Grows w (w.put t tm hashes) := by
  refine ⟨fun u other there => ?_, oidToCoder_put same⟩
  obtain ⟨cacheRow, rfl⟩ := same
  by_cases changed : u = t
  · subst changed
    rw [here] at there
    cases there
    exact ⟨_, List.getElem?_set_self (List.getElem?_eq_some_iff.1 here).1, rfl⟩
  · refine ⟨other, ?_, rfl⟩
    rw [World.put, List.getElem?_set_ne (Ne.symm changed), there]

theorem coherent_put (coherent : w.Coherent) (here : w.maps[t]? = some (.byOid own hashes))
    (same : (w.tmbo own hashes).SameBut tm) (coherent' : tm.Coherent) : (w.put t tm hashes).Coherent := by
  intro u own' hashes' there
  rw [World.tmbo, oidToCoder_put same]
  by_cases changed : u = t
  · subst changed
    rw [World.put, List.getElem?_set_self (List.getElem?_eq_some_iff.1 here).1] at there
    cases there
    obtain ⟨cacheRow, rfl⟩ := same
    exact coherent'
  · rw [World.put, List.getElem?_set_ne (Ne.symm changed)] at there
    exact coherent u own' hashes' there

theorem onOid_at {α : Type} (here : w.maps[t]? = some (.byOid own hashes)) {m : Method Stop (Tmbo γ Ref) α}
    {result : Outcome α} (run : m (w.tmbo own hashes) = (result, tm)) :
    onOid t m w = (result.mapError .stop, w.put t tm hashes) := by
  rw [onOid, here]
  dsimp only
  rw [run]

/-- Lookups leave the hashes alone and keep the caches in step. -/
theorem onOid_looks {α : Type} (coherent : w.Coherent) (here : w.maps[t]? = some (.byOid own hashes))
    {m : Method Stop (Tmbo γ Ref) α} {result : Outcome α} (run : m (w.tmbo own hashes) = (result, tm))
    (same : (w.tmbo own hashes).SameBut tm) (coherent' : tm.Coherent) :
    ∃ w', onOid t m w = (result.mapError .stop, w') ∧ Grows w w' ∧ w'.Coherent :=
  ⟨w.put t tm hashes, onOid_at here run, grows_put here same, coherent_put coherent here same coherent'⟩

end Lookups

theorem warnUndefined_grows (frozen : Bool) (alreadyWarned : Nat) (format : Int) (oid : Oid) (coherent : w.Coherent) :
    ∃ w', warnUndefined frozen alreadyWarned format oid w = (.ok (), w') ∧ Grows w w' ∧ w'.Coherent := by
  unfold warnUndefined
  rw [change_apply]
  split
  · exact ⟨w, rfl, .refl w, coherent⟩
  · exact ⟨_, rfl, ⟨fun _ tm here => ⟨tm, here, rfl⟩, rfl⟩, coherent⟩

theorem sameBut_lookup (tm : Tmbo γ Ref) (format : Fin 2) (oid : Oid) :
    Preserves tm.SameBut (pgTmboLookupOid format oid : Method Stop (Tmbo γ Ref) _) := by
  intro tm' same
  rw [pgTmboLookupOid_eq]
  exact same.trans ⟨_, rfl⟩

/-- The decoder of the first type map, or else the cast by those behind it. -/
theorem cast_cons (w : World γ) (r : PgResult) (tuple field : Nat) (t : Ref) (ds : List Ref) :
    w.cast r tuple field (t :: ds) =
      if r.getisnull tuple field = true then .null
      else
        match w.decoder r field t with
        | some conv => .coder conv
        | none => w.cast r tuple field ds := by
  unfold World.cast
  rw [List.findSome?_cons]
  cases w.decoder r field t <;> split <;> rfl

theorem cast_none {r : PgResult} {field : Nat} (none : w.decoder r field t = none) (tuple : Nat) (ds : List Ref) :
    w.cast r tuple field (t :: ds) = w.cast r tuple field ds := by
  rw [cast_cons, none, World.cast]
  split <;> rfl

/-- **A value is cast by the first decoder of the chain.** -/
theorem typecastResultValue_spec (coherent : w.Coherent) (chain : w.Chain nfields t ts) {r : PgResult} (tuple : Nat)
    {field : Nat} (inside : field < nfields) (supported : (formatIndex (r.fformat field)).isSome) {fuel : Nat}
    (enough : ts.length ≤ fuel) :
    ∃ w', typecastResultValue r tuple field fuel t w = (.ok (w.cast r tuple field ts), w') ∧ Grows w w' ∧ w'.Coherent := by
  induction ts generalizing w t fuel with
  | nil => cases chain.linked
  | cons u us ih =>
    cases fuel with
    | zero => cases enough
    | succ fuel =>
      have short : us.length ≤ fuel := Nat.le_of_succ_le_succ enough
      obtain ⟨tm, here, head⟩ := chain.head
      rw [typecastResultValue, this_bind here]
      cases head with
      | strings =>
        refine ⟨w, ?_, .refl w, coherent⟩
        simp [pgTmasResultValue, World.cast, w.decoder_at here, TypeMap.decoder]
      | @column tm frozen _ columns rest =>
        have decoder : w.decoder r field u = tm.convs.getD field none := w.decoder_at here r field
        dsimp only
        rw [cast_cons, decoder, pgTmbcTypecast, if_neg (by omega), pgTmbcResultValue]
        by_cases null : r.getisnull tuple field = true
        · rw [if_pos null, if_pos null]
          exact ⟨w, rfl, .refl w, coherent⟩
        · rw [if_neg null, if_neg null]
          cases tm.convs.getD field none with
          | some conv => exact ⟨w, rfl, .refl w, coherent⟩
          | none => exact ih coherent rest short
      | @oid own hashes _ rest =>
        have decoder : w.decoder r field u = held (w.tmbo own hashes) r field := w.decoder_at here r field
        have looked := coherent u own hashes here
        have value := @pgTmboResultValue_spec γ Ref (w.tmbo own hashes) r tuple field looked supported
        have same := preserves_resultValue (sameBut_lookup (w.tmbo own hashes)) r tuple field _ (.refl _)
        have coherent' := preserves_resultValue keeps_lookup r tuple field _ looked
        obtain ⟨w', run, grows, stays⟩ := onOid_looks coherent here (Prod.ext value rfl) same coherent'
        dsimp only
        rw [cast_cons, decoder, pgTmboTypecast, bind_ok run]
        by_cases null : r.getisnull tuple field = true
        · rw [if_pos null, if_pos null]
          exact ⟨w', rfl, grows, stays⟩
        · rw [if_neg null, if_neg null]
          cases held (w.tmbo own hashes) r field with
          | some conv => exact ⟨w', rfl, grows, stays⟩
          | none =>
            obtain ⟨w'', run', grows', stays'⟩ := ih stays (grows.chain rest) short
            refine ⟨w'', ?_, grows.trans grows', stays'⟩
            dsimp only
            rw [← grows.cast rest]
            exact run'
      | @ruby default frozen alreadyWarned _ rest =>
        have decoder : w.decoder r field u = none := w.decoder_at here r field
        rw [cast_none decoder]
        dsimp only
        cases alreadyWarned with
        | none => exact ih coherent rest short
        | some warned =>
          obtain ⟨w', run, grows, stays⟩ :=
            warnUndefined_grows frozen warned (r.fformat field) (r.ftype field) coherent
          obtain ⟨w'', run', grows', stays'⟩ := ih stays (grows.chain rest) short
          refine ⟨w'', ?_, grows.trans grows', stays'⟩
          rw [pgTmirTypecast]
          dsimp only
          rw [bind_ok run, ← grows.cast rest]
          exact run'

/-! ### Fitting -/

/-- The same columns, but perhaps other rows. -/
structure SameColumns (r r' : PgResult) : Prop where
  nfields : r'.nfields = r.nfields
  fformat : ∀ i < r.nfields, r'.fformat i = r.fformat i
  ftype : ∀ i < r.nfields, r'.ftype i = r.ftype i

/-- A type map that casts whatever has the columns of `r` like the chain `ts` did. -/
structure Fitted (w : World γ) (r : PgResult) (ts : List Ref) (t' : Ref) (w' : World γ) : Prop where
  grows : Grows w w'
  coherent : w'.Coherent
  alike : ∃ ts', w'.Chain r.nfields t' ts' ∧ ∀ r', SameColumns r r' → ∀ tuple, ∀ field < r.nfields,
    w'.cast r' tuple field ts' = w.cast r' tuple field ts

variable {r : PgResult} {w' : World γ}

/-- The world with a new object. -/
abbrev World.with (w : World γ) (tm : TypeMap γ) : World γ := { w with maps := w.maps ++ [tm] }

theorem grows_with (w : World γ) (tm : TypeMap γ) : Grows w (w.with tm) := by
  refine ⟨fun t other here => ⟨other, ?_, rfl⟩, rfl⟩
  rw [List.getElem?_append_left (List.getElem?_eq_some_iff.1 here).1, here]

theorem maps_with (w : World γ) (tm : TypeMap γ) : (w.with tm).maps[w.maps.length]? = some tm := List.getElem?_concat_length

theorem coherent_with (coherent : w.Coherent) {tm : TypeMap γ}
    (fresh : ∀ own hashes, tm = .byOid own hashes → (w.tmbo own hashes).Coherent) : (w.with tm).Coherent := by
  intro t own hashes here
  rcases Nat.lt_trichotomy t w.maps.length with old | new | beyond
  · rw [List.getElem?_append_left old] at here
    exact coherent t own hashes here
  · subst new
    rw [maps_with] at here
    exact fresh own hashes (Option.some.inj here)
  · rw [List.getElem?_eq_none (by rw [List.length_append, List.length_singleton]; omega)] at here
    cases here

/-- The default type map returned the same object, and so does the type map. -/
theorem Fitted.self (grows : Grows w w') (coherent : w'.Coherent) (chain : w.Chain r.nfields t ts) : Fitted w r ts t w' :=
  ⟨grows, coherent, ts, grows.chain chain, fun _ _ _ _ _ => grows.cast chain⟩

/-- A new object in front of what the default type map returned, with the decoders that `t` had. -/
theorem Fitted.front {ds : List Ref} {sub : Ref} {tm : TypeMap γ} (behind : Fitted w r ds sub w')
    (default : tm.shape.default = some sub) (accepts : tm.shape.Accepts r.nfields)
    (fresh : ∀ own hashes, tm = .byOid own hashes → (w'.tmbo own hashes).Coherent)
    (decoders : ∀ r', SameColumns r r' → ∀ field < r.nfields,
      (w'.with tm).decoder r' field w'.maps.length = w.decoder r' field t) :
    Fitted w r (t :: ds) w'.maps.length (w'.with tm) := by
  obtain ⟨grows, coherent, ds', chain, alike⟩ := behind
  have added := grows_with w' tm
  have here := (w'.with tm).shape_at (maps_with w' tm)
  refine ⟨grows.trans added, coherent_with coherent fresh, _, .cons here default accepts (added.chain chain), ?_⟩
  intro r' same tuple field inside
  rw [cast_cons, cast_cons, decoders r' same field inside, added.cast chain, alike r' same tuple field inside]

theorem Fitted.later {w'' : World γ} {sub : Ref} (fitted : Fitted w r ts sub w') (grows : Grows w' w'')
    (coherent : w''.Coherent) : Fitted w r ts sub w'' := by
  obtain ⟨ts', chain, alike⟩ := fitted.alike
  refine ⟨fitted.grows.trans grows, coherent, ts', grows.chain chain, fun r' same tuple field inside => ?_⟩
  rw [grows.cast chain, alike r' same tuple field inside]

theorem Grows.oid (grows : Grows w w') {own : Own γ Ref} {hashes : Nat} (here : w.maps[t]? = some (.byOid own hashes)) :
    ∃ own', w'.maps[t]? = some (.byOid own' hashes) := by
  obtain ⟨tm', here', same⟩ := grows.maps t _ here
  cases tm' with
  | byOid own' hashes' =>
    injection same with _ hashes
    subst hashes
    exact ⟨own', here'⟩
  | unsuitable => cases same
  | allStrings => cases same
  | byColumn => cases same
  | inRuby => cases same

theorem held_same {r' : PgResult} (same : SameColumns r r') {field : Nat} (inside : field < r.nfields) (tm : Tmbo γ Ref) :
    held tm r' field = held tm r field := by
  rw [held, held, same.fformat field inside, same.ftype field inside]

/-- **Fitting does not change how values are cast.** -/
theorem fitToResult_spec (coherent : w.Coherent) (chain : w.Chain r.nfields t ts)
    (supported : ∀ i < r.nfields, (formatIndex (r.fformat i)).isSome) {fuel : Nat} (enough : ts.length ≤ fuel) :
    ∃ t' w', fitToResult (some r) fuel t w = (.ok t', w') ∧ Fitted w r ts t' w' := by
  induction ts generalizing w t fuel with
  | nil => cases chain.linked
  | cons u us ih =>
    cases fuel with
    | zero => cases enough
    | succ fuel =>
      have short : us.length ≤ fuel := Nat.le_of_succ_le_succ enough
      obtain ⟨tm, here, head⟩ := chain.head
      rw [fitToResult, this_bind here]
      cases head with
      | strings => exact ⟨u, w, rfl, .self (.refl w) coherent chain⟩
      | @column tm frozen _ columns rest =>
        obtain ⟨sub, w', run, behind⟩ := ih coherent rest short
        dsimp only
        rw [pgTmbcFitToResult, pgresultGet]
        dsimp only
        rw [pure_bind_apply, if_neg (not_not_intro columns), bind_ok run]
        by_cases same : sub = tm.defaultTypemap
        · rw [if_pos same]
          exact ⟨u, w', rfl, .self behind.grows behind.coherent chain⟩
        · rw [if_neg same]
          refine ⟨_, _, rfl, behind.front rfl columns (fun _ _ other => by cases other) fun r' _ field _ => ?_⟩
          rw [World.decoder_at (maps_with w' _), w.decoder_at here]
          rfl
      | @oid own hashes _ rest =>
        obtain ⟨sub, w', run, behind⟩ := ih coherent rest short
        dsimp only
        rw [pgTmboFitToResult, pgresultGet, pure_bind_apply, bind_ok run]
        by_cases few : r.ntuples ≤ own.maxRowsForOnlineLookup
        · rw [if_pos few]
          by_cases same : sub = own.defaultTypemap
          · rw [if_pos same]
            exact ⟨u, w', rfl, .self behind.grows behind.coherent chain⟩
          · rw [if_neg same]
            refine ⟨_, _, rfl, behind.front rfl trivial ?_ fun r' _ field _ => ?_⟩
            · intro copy hashes' new
              cases new
              have before := coherent u own hashes here
              rwa [World.tmbo, behind.grows.oidToCoder]
            · rw [World.decoder_at (maps_with w' _), w.decoder_at here, ← behind.grows.oidToCoder]
              rfl
        · rw [if_neg few]
          obtain ⟨own', here'⟩ := behind.grows.oid here
          obtain ⟨tm', built, same, stays⟩ :=
            pgTmboBuild_spec (behind.coherent u own' hashes here') pgTypemapAllStrings supported
          obtain ⟨w'', looked, grows, coherent''⟩ := onOid_looks behind.coherent here' built same stays
          rw [bind_ok looked]
          refine ⟨_, _, rfl, (behind.later grows coherent'').front rfl ?_ (fun _ _ other => by cases other) ?_⟩
          · exact (List.length_map _).trans List.length_range
          · intro r' alike field inside
            rw [World.decoder_at (maps_with w'' _), w.decoder_at here, ← behind.grows.oidToCoder]
            exact (columns_getD inside).trans (held_same alike inside (w'.tmbo own' hashes)).symm
      | @ruby default frozen alreadyWarned _ rest =>
        obtain ⟨sub, w', run, behind⟩ := ih coherent rest short
        dsimp only
        rw [pgTmirFitToResult, bind_ok run]
        by_cases same : sub = default
        · rw [if_neg (not_not_intro same)]
          exact ⟨u, w', rfl, .self behind.grows behind.coherent chain⟩
        · rw [if_pos same]
          refine ⟨_, _, rfl, behind.front rfl trivial (fun _ _ other => by cases other) fun r' _ field _ => ?_⟩
          rw [World.decoder_at (maps_with w' _), w.decoder_at here]
          rfl

theorem this_ok {tm : TypeMap γ} (run : this t w = (.ok tm, w')) : w.maps[t]? = some tm ∧ w' = w := by
  unfold this at run
  split at run
  · cases run
    rename_i here
    exact ⟨here, rfl⟩
  · cases run

/-- What `fit_to_result` returns for fits. -/
theorem fitToResult_fits {fuel : Nat} {t' : Ref} (run : fitToResult (some r) fuel t w = (.ok t', w')) : w.Fits r.nfields t := by
  induction fuel generalizing w t t' w' with
  | zero => cases run
  | succ fuel ih =>
    rw [fitToResult] at run
    obtain ⟨tm, w₁, looked, run⟩ := of_bind run
    obtain ⟨here, rfl⟩ := this_ok looked
    have shape := w₁.shape_at here
    cases tm with
    | unsuitable className => cases run
    | allStrings => exact ⟨[t], .strings shape⟩
    | byColumn tm frozen =>
      obtain ⟨r₁, w₂, got, run⟩ := of_bind run
      cases got
      split at run
      · cases run
      · rename_i columns
        obtain ⟨sub, w₃, fits, -⟩ := of_bind run
        obtain ⟨ds, chain⟩ := ih fits
        exact ⟨_, .cons shape rfl (not_not.1 columns) chain⟩
    | byOid own hashes =>
      obtain ⟨r₁, w₂, got, run⟩ := of_bind run
      cases got
      obtain ⟨sub, w₃, fits, -⟩ := of_bind run
      obtain ⟨ds, chain⟩ := ih fits
      exact ⟨_, .cons shape rfl trivial chain⟩
    | inRuby default frozen alreadyWarned =>
      obtain ⟨sub, w₃, fits, -⟩ := of_bind run
      obtain ⟨ds, chain⟩ := ih fits
      exact ⟨_, .cons shape rfl trivial chain⟩

end Calls

/-- `fit_to_result` on a type map. No chain is longer than the heap. -/
def fitTo (result : Option PgResult) (t : Ref) : Call γ Ref := fun w => fitToResult result w.maps.length t w

/-- The cast of a value by a type map. -/
def valueBy (t : Ref) (r : PgResult) (tuple field : Nat) : Call γ (Answer γ) := fun w =>
  typecastResultValue r tuple field w.maps.length t w

/-- Values read one after the other: a result, and a row and a field of it. -/
def readAll (t : Ref) (reads : List (PgResult × Nat × Nat)) : Call γ (List (Answer γ)) :=
  reads.mapM fun x => valueBy t x.1 x.2.1 x.2.2

theorem readAll_spec {w : World γ} {nfields : Nat} {t : Ref} {ts : List Ref} (coherent : w.Coherent)
    (chain : w.Chain nfields t ts) {reads : List (PgResult × Nat × Nat)}
    (supported : ∀ x ∈ reads, x.2.2 < nfields ∧ (formatIndex (x.1.fformat x.2.2)).isSome) :
    (readAll t reads w).1 = .ok (reads.map fun x => w.cast x.1 x.2.1 x.2.2 ts) := by
  suffices ∃ w', readAll t reads w = (.ok (reads.map fun x => w.cast x.1 x.2.1 x.2.2 ts), w') by
    obtain ⟨w', run⟩ := this
    rw [run]
  induction reads generalizing w with
  | nil => exact ⟨w, rfl⟩
  | cons x reads ih =>
    obtain ⟨inside, format⟩ := supported x List.mem_cons_self
    obtain ⟨w', run, grows, coherent'⟩ := typecastResultValue_spec coherent chain x.2.1 inside format chain.length_le
    obtain ⟨w'', rest⟩ := ih coherent' (grows.chain chain) fun y member => supported y (List.mem_cons_of_mem _ member)
    refine ⟨w'', ?_⟩
    unfold readAll at rest ⊢
    rw [List.mapM_cons]
    refine (bind_ok run).trans ((bind_ok rest).trans ?_)
    rw [List.map_cons, pure_apply]
    simp only [grows.cast chain]

/-- **A chain of type maps casts by its first decoder.** `fit_to_result` returns if and only if the chain fits, and
the type map it returns then casts all values, of this result and of later ones with the same columns, as the
chain says: by the first type map with a decoder for the field, else as strings. -/
theorem chain_casts_by_first_decoder (w : World γ) (coherent : w.Coherent) (r : PgResult)
    (supported : ∀ i < r.nfields, r.fformat i = 0 ∨ r.fformat i = 1) (t : Ref) :
    (w.Fits r.nfields t ↔ ∃ t' w', fitTo (some r) t w = (.ok t', w')) ∧
      ∀ t' w', fitTo (some r) t w = (.ok t', w') →
        ∃ ts, w.Chain r.nfields t ts ∧ ∀ reads : List (PgResult × Nat × Nat),
          (∀ x ∈ reads, SameColumns r x.1 ∧ x.2.2 < r.nfields) →
            (readAll t' reads w').1 = .ok (reads.map fun x => w.cast x.1 x.2.1 x.2.2 ts) := by
  have known : ∀ i < r.nfields, (formatIndex (r.fformat i)).isSome := fun i below => isSome_formatIndex (supported i below)
  refine ⟨⟨fun fits => ?_, fun ⟨_, _, run⟩ => fitToResult_fits run⟩, fun t' w' run => ?_⟩
  · obtain ⟨ts, chain⟩ := fits
    obtain ⟨t', w', run, -⟩ := fitToResult_spec coherent chain known chain.length_le
    exact ⟨t', w', run⟩
  · obtain ⟨ts, chain⟩ := fitToResult_fits run
    obtain ⟨t'', w'', run', -, coherent', ts', chain', alike⟩ := fitToResult_spec coherent chain known chain.length_le
    cases run.symm.trans run'
    refine ⟨ts, chain, fun reads columns => ?_⟩
    have formats : ∀ x ∈ reads, x.2.2 < r.nfields ∧ (formatIndex (x.1.fformat x.2.2)).isSome := by
      intro x member
      obtain ⟨same, inside⟩ := columns x member
      refine ⟨inside, ?_⟩
      rw [same.fformat _ inside]
      exact known _ inside
    rw [readAll_spec coherent' chain' formats]
    refine congrArg Except.ok (List.map_congr_left fun x member => ?_)
    obtain ⟨same, inside⟩ := columns x member
    exact alike x.1 same x.2.1 x.2.2 inside

theorem tmbo_blank (w : World γ) (own : Own γ Ref) (hashes : Nat) (blank : own.cacheRow = fun _ _ => (0, none)) :
    (w.tmbo own hashes).Coherent := by
  intro format
  apply SlotCache.coherent_of_empty
  intro oid
  show (place γ).hit oid (own.cacheRow format _) = false
  rw [blank]
  exact hit_blank oid

/-- One column has a coder of its own, the other one the coder for OID 25 in text format. -/
def twoMaps : World Nat where
  maps := [.allStrings, .byColumn ⟨[some 7, none], 2⟩ false, .byOid ⟨0, 0, fun _ _ => (0, none), false⟩ 2]
  oidToCoder _ format oid := if format.val = 0 ∧ oid = 25 then some 9 else none
  alreadyWarned _ := []
  warnings := []
  results := []

theorem twoMaps_coherent : twoMaps.Coherent := by
  intro t own hashes here
  apply tmbo_blank
  rcases t with _ | _ | _ | t
  · cases here
  · cases here
  · cases here
    rfl
  · cases here

/-- A row of two texts. -/
def twoTexts : PgResult where
  ntuples := 1
  nfields := 2
  fformat _ := 0
  ftype _ := 25
  getisnull _ _ := false

theorem chain_casts_by_first_decoder_two_maps :
    (twoMaps.Fits 2 1 ↔ ∃ t' w', fitTo (some twoTexts) 1 twoMaps = (.ok t', w')) ∧
      ∀ t' w', fitTo (some twoTexts) 1 twoMaps = (.ok t', w') →
        ∃ ts, twoMaps.Chain 2 1 ts ∧ ∀ reads : List (PgResult × Nat × Nat),
          (∀ x ∈ reads, SameColumns twoTexts x.1 ∧ x.2.2 < 2) →
            (readAll t' reads w').1 = .ok (reads.map fun x => twoMaps.cast x.1 x.2.1 x.2.2 ts) :=
  chain_casts_by_first_decoder twoMaps twoMaps_coherent twoTexts (fun _ _ => .inl rfl) 1

end RubyPg.TypeMaps
