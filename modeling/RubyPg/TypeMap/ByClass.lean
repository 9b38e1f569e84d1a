import RubyPg.Value
import RubyPg.Lib.Method
import RubyPg.Lib.SlotCache

/-!
# `PG::TypeMapByClass`

`ext/pg_type_map_by_class.c`. The encoder of a value is looked up by its class in a hash, and else
by the ancestors of the class; in front there is a cache of 256 entries with 8 bits of the address
of the class as index. An entry of the hash is a coder, or a Symbol or a Proc, which are called
for every value and never get into the cache. An entry of the cache with `Qfalse` in place of a
class is an empty one.

The lookup skips the first of the ancestors, which it expects to be the class. With prepended
modules it is not: `prepends_agree_iff` says when this makes no difference.
-/

namespace RubyPg.ByClass
set_option autoImplicit false
open Method

/-- What is registered for a class: coders are any objects `γ`, and Procs any objects `ρ`. -/
inductive Entry (γ ρ : Type) where
  | coder (obj : γ)
  | symbol (name : String)
  | proc (obj : ρ)
deriving DecidableEq, Repr

/-- What a call into Ruby returns. -/
inductive Obj (γ : Type) where
  | nil
  | coder (obj : γ)
  | other (className : String)

/-- `t_tmbk`, with the contents of its hash and the addresses of the classes. -/
structure Tmbk (κ γ ρ τ : Type) where
  defaultTypemap : τ
  klassToCoder : κ → Option (Entry γ ρ)
  cacheRow : SlotCache UInt8 (Option κ) (Option γ)
  address : κ → UInt64
  frozen : Bool

/-- The modules in front of and behind every class in its list of ancestors. -/
structure Hierarchy (κ : Type) where
  prepended : κ → List κ
  inherited : κ → List κ

/-- `rb_mod_ancestors`. -/
def Hierarchy.ancestors {κ : Type} (h : Hierarchy κ) (klass : κ) : List κ :=
  h.prepended klass ++ klass :: h.inherited klass

/-- The encoder for a value, or else the default type map, which is asked next. -/
inductive Choice (γ τ : Type) where
  | coder (obj : γ)
  | default (tm : τ)
deriving DecidableEq, Repr

/-- The methods of the type map and the Procs that are called for a value. -/
structure Ruby (κ γ ρ τ ν : Type) where
  send : String → ν → Method Stop (Tmbk κ γ ρ τ) (Obj γ)
  call : ρ → ν → Method Stop (Tmbk κ γ ρ τ) (Obj γ)

variable {κ γ ρ τ ν : Type} [DecidableEq κ]

/-- `CACHE_LOOKUP`, and the test for the expected class. -/
def place (α : Type) (address : κ → UInt64) : Placement UInt8 (Option κ) α where
  slot klass := (klass.elim 0 address >>> 8).toUInt8
  hit klass ce := ce.1 == klass && klass.isSome
  key_of_hit hit := by
    simp only [Bool.and_eq_true, beq_iff_eq] at hit
    exact hit.1

/-- The type map with another cache entry. -/
def Tmbk.setEntry (this : Tmbk κ γ ρ τ) (slot : UInt8) (ce : Option κ × Option γ) : Tmbk κ γ ρ τ :=
  { this with cacheRow := Function.update this.cacheRow slot ce }

/-- The type map with an empty cache. -/
def Tmbk.wiped (this : Tmbk κ γ ρ τ) : Tmbk κ γ ρ τ := { this with cacheRow := fun _ => (none, none) }

/-- `pg_tmbk_s_allocate`. -/
def pgTmbkSAllocate (allStrings : τ) (address : κ → UInt64) : Tmbk κ γ ρ τ where
  defaultTypemap := allStrings
  klassToCoder _ := none
  cacheRow _ := (none, none)
  address := address
  frozen := false

/-- The full lookup: the class itself, and then its ancestors without the first one. -/
def fullLookup (h : Hierarchy κ) (klassToCoder : κ → Option (Entry γ ρ)) (klass : κ) : Option (Entry γ ρ) :=
  match klassToCoder klass with
  | some obj => some obj
  | none => (h.ancestors klass).tail.findSome? klassToCoder

/-- The check of what a Symbol or Proc returned. -/
def retrieved : Obj γ → Outcome (Option γ)
  | .nil => pure none
  | .coder obj => pure (some obj)
  | .other className => rbRaise .typeError s!"wrong argument type {className} (expected PG::Coder)"

/-- `pg_tmbk_lookup_klass`. -/
def pgTmbkLookupKlass (h : Hierarchy κ) (ruby : Ruby κ γ ρ τ ν) (klass : κ) (paramValue : ν) :
    Method Stop (Tmbk κ γ ρ τ) (Option γ) := do
  let this ← read
  let slot := (place (Option γ) this.address).slot (some klass)
  let ce := this.cacheRow slot
  if (place (Option γ) this.address).hit (some klass) ce = true then pure ce.2
  else
    match fullLookup h this.klassToCoder klass with
    | none => do
      change fun this => this.setEntry slot (some klass, none)
      pure none
    | some (.coder obj) => do
      change fun this => this.setEntry slot (some klass, some obj)
      pure (some obj)
    -- coders retrieved by ruby code are not cached
    | some (.symbol name) => do
      let obj ← ruby.send name paramValue
      ofExcept (retrieved obj)
    | some (.proc p) => do
      let obj ← ruby.call p paramValue
      ofExcept (retrieved obj)

/-- A coder, or else the default type map. -/
def orDefault (pCoder : Option γ) : Method Stop (Tmbk κ γ ρ τ) (Choice γ τ) := do
  match pCoder with
  | some obj => pure (.coder obj)
  | none => do
    let this ← read
    pure (.default this.defaultTypemap)

/-- `pg_tmbk_typecast_query_param`, up to the call of the default type map. -/
def pgTmbkTypecastQueryParam (h : Hierarchy κ) (objClass : ν → κ) (ruby : Ruby κ γ ρ τ ν) (paramValue : ν) :
    Method Stop (Tmbk κ γ ρ τ) (Choice γ τ) := do
  let pCoder ← pgTmbkLookupKlass h ruby (objClass paramValue) paramValue
  orDefault pCoder

/-- `rb_check_frozen`. -/
def checkFrozen : Method Stop (Tmbk κ γ ρ τ) Unit := do
  let this ← read
  if this.frozen then raise (.exn .frozenError "can't modify frozen PG::TypeMapByClass") else pure ()

/-- `pg_tmbk_aset`; `nil` is `none`. -/
def pgTmbkAset (klass : κ) (coder : Option (Entry γ ρ)) : Method Stop (Tmbk κ γ ρ τ) (Option (Entry γ ρ)) := do
  checkFrozen
  change fun this => { this with klassToCoder := Function.update this.klassToCoder klass coder }
  change Tmbk.wiped
  pure coder

/-- `pg_tmbk_compact`: the classes may have got other addresses. -/
def pgTmbkCompact (address : κ → UInt64) : Method Stop (Tmbk κ γ ρ τ) Unit := do
  change fun this => { this with address }
  change Tmbk.wiped

/-- What can happen to a type map. The calls that a Symbol or Proc makes during a lookup are events
of their own behind it: the lookup is done with the type map when it calls them. -/
inductive Event (κ γ ρ τ ν : Type) where
  | aset (klass : κ) (coder : Option (Entry γ ρ))
  | typecast (paramValue : ν) (returned : Outcome (Obj γ))
  | compact (address : κ → UInt64)
  | setDefault (tm : τ)
  | freeze

/-- Ruby code that returns or raises at once. -/
def Ruby.returning (returned : Outcome (Obj γ)) : Ruby κ γ ρ τ ν where
  send _ _ := ofExcept returned
  call _ _ := ofExcept returned

section Exec

variable (h : Hierarchy κ) (objClass : ν → κ)

/-- One event. The answers are left out. -/
def Event.exec : Event κ γ ρ τ ν → Method Stop (Tmbk κ γ ρ τ) Unit
  | .aset klass coder => do let _ ← pgTmbkAset klass coder
  | .typecast paramValue returned => do
    let _ ← pgTmbkTypecastQueryParam h objClass (.returning returned) paramValue
  | .compact address => pgTmbkCompact address
  | .setDefault tm => do
    checkFrozen
    change fun this => { this with defaultTypemap := tm }
  | .freeze => change fun this => { this with frozen := true }

/-- The type map after a history of events. -/
def runEvents (events : List (Event κ γ ρ τ ν)) (this : Tmbk κ γ ρ τ) : Tmbk κ γ ρ τ :=
  events.foldl (fun this event => (event.exec h objClass this).2) this

end Exec

/-- What an entry stands for: Symbols and Procs are evaluated for the value. -/
def evaluate (ruby : Ruby κ γ ρ τ ν) (paramValue : ν) : Option (Entry γ ρ) → Method Stop (Tmbk κ γ ρ τ) (Option γ)
  | none => pure none
  | some (.coder obj) => pure (some obj)
  | some (.symbol name) => do
    let obj ← ruby.send name paramValue
    ofExcept (retrieved obj)
  | some (.proc p) => do
    let obj ← ruby.call p paramValue
    ofExcept (retrieved obj)

/-- The encoder that an entry chooses for a value. -/
def chosenBy (ruby : Ruby κ γ ρ τ ν) (paramValue : ν) (entry : Option (Entry γ ρ)) :
    Method Stop (Tmbk κ γ ρ τ) (Choice γ τ) := do
  let pCoder ← evaluate ruby paramValue entry
  orDefault pCoder

/-- The entry for a kind of values: the one of the first ancestor that has any. -/
def kindOf (h : Hierarchy κ) (klassToCoder : κ → Option (Entry γ ρ)) (klass : κ) : Option (Entry γ ρ) :=
  (h.ancestors klass).findSome? klassToCoder

section Cache

variable {h : Hierarchy κ}

/-- The cache with its coders as entries of the hash. -/
def Tmbk.entries (this : Tmbk κ γ ρ τ) : SlotCache UInt8 (Option κ) (Option (Entry γ ρ)) := fun slot =>
  ((this.cacheRow slot).1, (this.cacheRow slot).2.map Entry.coder)

/-- Every hit is the coder that the full lookup finds. A class with a Symbol or Proc has no hits. -/
def Tmbk.Coherent (h : Hierarchy κ) (this : Tmbk κ γ ρ τ) : Prop :=
  SlotCache.Coherent (place (Option (Entry γ ρ)) this.address) (fun klass => klass.bind (fullLookup h this.klassToCoder))
    this.entries

/-- A hit is an entry for the class. -/
theorem hit_blank (address : κ → UInt64) (klass : Option κ) (coder : Option (Entry γ ρ)) :
    (place (Option (Entry γ ρ)) address).hit klass (none, coder) = false := by
  cases klass with
  | none => simp only [place, Option.isSome_none, Bool.and_false]
  | some klass => rfl

theorem wiped_coherent (this : Tmbk κ γ ρ τ) : this.wiped.Coherent h := by
  apply SlotCache.coherent_of_empty
  intro klass
  exact hit_blank _ _ _

theorem pgTmbkSAllocate_coherent (allStrings : τ) (address : κ → UInt64) :
    (pgTmbkSAllocate allStrings address : Tmbk κ γ ρ τ).Coherent h :=
  wiped_coherent (pgTmbkSAllocate allStrings address)

omit [DecidableEq κ] in
theorem entries_setEntry (this : Tmbk κ γ ρ τ) (slot : UInt8) (klass : Option κ) (pCoder : Option γ) :
    (this.setEntry slot (klass, pCoder)).entries = Function.update this.entries slot (klass, pCoder.map .coder) := by
  funext other
  by_cases here : other = slot
  · subst here
    simp only [Tmbk.entries, Tmbk.setEntry, Function.update_self]
  · simp only [Tmbk.entries, Tmbk.setEntry, Function.update_of_ne here]

/-- Storing what the full lookup found. -/
theorem Tmbk.Coherent.fill {this : Tmbk κ γ ρ τ} (coherent : this.Coherent h) {klass : κ} {pCoder : Option γ}
    (found : fullLookup h this.klassToCoder klass = pCoder.map .coder) :
    (this.setEntry ((place (Option γ) this.address).slot (some klass)) (some klass, pCoder)).Coherent h := by
  have filled := SlotCache.Coherent.fill coherent (some klass)
  unfold Tmbk.Coherent
  rw [entries_setEntry, ← found]
  exact filled

/-- **A lookup evaluates what the full lookup finds**, whatever the cache holds. Either it answers by
itself, or it goes into Ruby with the type map as it was. -/
theorem pgTmbkLookupKlass_spec {this : Tmbk κ γ ρ τ} (coherent : this.Coherent h) (klass : κ) (paramValue : ν) :
    (∃ pCoder this', fullLookup h this.klassToCoder klass = pCoder.map .coder ∧
        (∀ ruby, pgTmbkLookupKlass h ruby klass paramValue this = (.ok pCoder, this')) ∧ this'.Coherent h ∧
        this' = { this with cacheRow := this'.cacheRow }) ∨
      ∀ ruby, pgTmbkLookupKlass h ruby klass paramValue this =
        evaluate ruby paramValue (fullLookup h this.klassToCoder klass) this := by
  unfold pgTmbkLookupKlass
  simp only [read_bind]
  by_cases hit : (place (Option γ) this.address).hit (some klass)
      (this.cacheRow ((place (Option γ) this.address).slot (some klass))) = true
  · left
    simp only [if_pos hit]
    exact ⟨_, this, (coherent (some klass) hit).symm, fun _ => rfl, coherent, rfl⟩
  · simp only [if_neg hit]
    cases found : fullLookup h this.klassToCoder klass with
    | none =>
      left
      exact ⟨none, _, rfl, fun _ => rfl, coherent.fill found, rfl⟩
    | some entry =>
      cases entry with
      | coder obj =>
        left
        exact ⟨some obj, _, rfl, fun _ => rfl, coherent.fill found, rfl⟩
      | symbol name =>
        right
        intro ruby
        rfl
      | proc p =>
        right
        intro ruby
        rfl

/-- **The cache makes no difference** to the encoder that is chosen. -/
theorem pgTmbkTypecastQueryParam_spec (objClass : ν → κ) (ruby : Ruby κ γ ρ τ ν) {this : Tmbk κ γ ρ τ}
    (coherent : this.Coherent h) (paramValue : ν) :
    (pgTmbkTypecastQueryParam h objClass ruby paramValue this).1 =
      (chosenBy ruby paramValue (fullLookup h this.klassToCoder (objClass paramValue)) this).1 := by
  unfold pgTmbkTypecastQueryParam chosenBy
  obtain ⟨pCoder, this', found, looked, -, same⟩ | evaluated :=
    pgTmbkLookupKlass_spec coherent (objClass paramValue) paramValue
  · have static : evaluate ruby paramValue (pCoder.map .coder) this = (.ok pCoder, this) := by
      cases pCoder with
      | none => rfl
      | some obj => rfl
    rw [found, bind_ok (looked ruby), bind_ok static]
    cases pCoder with
    | none =>
      rw [same]
      rfl
    | some obj => rfl
  · rw [bind_congr (evaluated ruby)]

section Kept

variable {objClass : ν → κ}

omit [DecidableEq κ] in
theorem preserves_orDefault (P : Tmbk κ γ ρ τ → Prop) (pCoder : Option γ) : Preserves P (orDefault pCoder) := by
  unfold orDefault
  cases pCoder with
  | none => exact .bind .read fun _ => .pure _
  | some obj => exact .pure _

omit [DecidableEq κ] in
/-- What the calls into Ruby keep, an evaluation keeps. -/
theorem preserves_evaluate {P : Tmbk κ γ ρ τ → Prop} {ruby : Ruby κ γ ρ τ ν}
    (sends : ∀ name paramValue, Preserves P (ruby.send name paramValue))
    (calls : ∀ p paramValue, Preserves P (ruby.call p paramValue)) (paramValue : ν) (entry : Option (Entry γ ρ)) :
    Preserves P (evaluate ruby paramValue entry) := by
  cases entry with
  | none => exact .pure _
  | some entry =>
    cases entry with
    | coder obj => exact .pure _
    | symbol name => exact .bind (sends name paramValue) fun _ => .ofExcept _
    | proc p => exact .bind (calls p paramValue) fun _ => .ofExcept _

theorem keeps_checkFrozen : Preserves (Tmbk.Coherent h) (checkFrozen : Method Stop (Tmbk κ γ ρ τ) Unit) := by
  refine .bind .read fun this => ?_
  split
  · exact .raise _
  · exact .pure _

/-- Lookups keep the cache coherent. -/
theorem keeps_typecast (returned : Outcome (Obj γ)) (paramValue : ν) :
    Preserves (Tmbk.Coherent h)
      (pgTmbkTypecastQueryParam h objClass (.returning returned : Ruby κ γ ρ τ ν) paramValue) := by
  refine .bind ?_ (preserves_orDefault _)
  intro this coherent
  obtain ⟨pCoder, this', -, looked, coherent', -⟩ | evaluated :=
    pgTmbkLookupKlass_spec coherent (objClass paramValue) paramValue
  · rw [looked]
    exact coherent'
  · rw [evaluated]
    apply preserves_evaluate _ _ _ _ this coherent
    · intro _ _
      exact .ofExcept _
    · intro _ _
      exact .ofExcept _

theorem Event.keeps (event : Event κ γ ρ τ ν) : Preserves (Tmbk.Coherent h) (event.exec h objClass) := by
  cases event with
  | aset klass coder =>
    refine .bind (.bind keeps_checkFrozen fun _ => ?_) fun _ => .pure _
    intro this _
    exact wiped_coherent _
  | typecast paramValue returned => exact .bind (keeps_typecast returned paramValue) fun _ => .pure _
  | compact address =>
    intro this _
    exact wiped_coherent _
  | setDefault tm => exact .bind keeps_checkFrozen fun _ => .change fun _ coherent => coherent
  | freeze => exact .change fun _ coherent => coherent

/-- **In every history** the cache agrees with the hash. -/
theorem runEvents_coherent (events : List (Event κ γ ρ τ ν)) {this : Tmbk κ γ ρ τ} (coherent : this.Coherent h) :
    (runEvents h objClass events this).Coherent h := by
  induction events generalizing this with
  | nil => exact coherent
  | cons event events ih => exact ih (event.keeps this coherent)

/-- The type map can get into this state. -/
def Reached (h : Hierarchy κ) (objClass : ν → κ) (this : Tmbk κ γ ρ τ) : Prop :=
  ∃ allStrings address, ∃ events : List (Event κ γ ρ τ ν),
    this = runEvents h objClass events (pgTmbkSAllocate allStrings address)

theorem Reached.exec {this : Tmbk κ γ ρ τ} (reached : Reached h objClass this) (event : Event κ γ ρ τ ν) :
    Reached h objClass (event.exec h objClass this).2 := by
  obtain ⟨allStrings, address, events, rfl⟩ := reached
  refine ⟨allStrings, address, events ++ [event], ?_⟩
  rw [runEvents, runEvents, List.foldl_append]
  rfl

/-- **Nested calls are histories, too**: Symbols and Procs that only call methods of the type map may do
so in the midst of a lookup. -/
theorem reached_typecast {ruby : Ruby κ γ ρ τ ν}
    (sends : ∀ name paramValue, Preserves (Reached h objClass) (ruby.send name paramValue))
    (calls : ∀ p paramValue, Preserves (Reached h objClass) (ruby.call p paramValue)) (paramValue : ν) :
    Preserves (Reached h objClass) (pgTmbkTypecastQueryParam h objClass ruby paramValue) := by
  refine .bind ?_ (preserves_orDefault _)
  intro this reached
  have coherent : this.Coherent h := by
    obtain ⟨allStrings, address, events, rfl⟩ := reached
    exact runEvents_coherent events (pgTmbkSAllocate_coherent allStrings address)
  obtain ⟨pCoder, this', -, looked, -, -⟩ | evaluated :=
    pgTmbkLookupKlass_spec coherent (objClass paramValue) paramValue
  · have event := reached.exec (.typecast paramValue (.ok .nil))
    have alone : (Event.exec h objClass (.typecast paramValue (.ok .nil)) this).2 = this' := by
      show ((pgTmbkTypecastQueryParam h objClass (.returning (.ok .nil)) paramValue >>= fun _ => pure ()) this).2 = this'
      rw [bind_pure_state]
      unfold pgTmbkTypecastQueryParam
      rw [bind_ok (looked _)]
      cases pCoder with
      | none => rfl
      | some obj => rfl
    rw [looked, ← alone]
    exact event
  · rw [evaluated]
    exact preserves_evaluate sends calls _ _ this reached

end Kept

end Cache

section Prepends

variable {h : Hierarchy κ} {klassToCoder : κ → Option (Entry γ ρ)} {klass : κ}

/-- Skipping the first ancestor makes no difference: where a prepended module has an entry, the class
has the same one, or has none and the outermost module has none either, or else the next ancestor
that has an entry has the same one. -/
def PrependsAgree (h : Hierarchy κ) (klassToCoder : κ → Option (Entry γ ρ)) (klass : κ) : Prop :=
  ∀ obj, (h.prepended klass).findSome? klassToCoder = some obj →
    match klassToCoder klass with
    | some own => own = obj
    | none =>
      (h.prepended klass).head?.bind klassToCoder = none ∨
        ((h.prepended klass).tail ++ h.inherited klass).findSome? klassToCoder = some obj

omit [DecidableEq κ] in
theorem kindOf_eq : kindOf h klassToCoder klass =
    ((h.prepended klass).findSome? klassToCoder).or
      ((klassToCoder klass).or ((h.inherited klass).findSome? klassToCoder)) := by
  unfold kindOf Hierarchy.ancestors
  rw [List.findSome?_append, List.findSome?_cons]
  cases klassToCoder klass with
  | none => rfl
  | some own => rfl

omit [DecidableEq κ] in
theorem fullLookup_own {own : Entry γ ρ} (registered : klassToCoder klass = some own) :
    fullLookup h klassToCoder klass = some own := by
  unfold fullLookup
  rw [registered]

omit [DecidableEq κ] in
theorem fullLookup_inherited (unregistered : klassToCoder klass = none) :
    fullLookup h klassToCoder klass = ((h.prepended klass).tail ++ h.inherited klass).findSome? klassToCoder := by
  unfold fullLookup Hierarchy.ancestors
  rw [unregistered]
  dsimp only
  cases h.prepended klass with
  | nil => rfl
  | cons outermost rest =>
    rw [List.cons_append, List.tail_cons, List.tail_cons, List.findSome?_append, List.findSome?_append,
      List.findSome?_cons, unregistered]

omit [DecidableEq κ] in
/-- The first ancestor counts only if it has an entry. -/
theorem findSome?_tail {modules : List κ} (free : modules.head?.bind klassToCoder = none) :
    modules.tail.findSome? klassToCoder = modules.findSome? klassToCoder := by
  cases modules with
  | nil => rfl
  | cons outermost rest =>
    have missing : klassToCoder outermost = none := free
    rw [List.tail_cons, List.findSome?_cons, missing]

omit [DecidableEq κ] in
/-- **The full lookup finds the entry for the kind** exactly if the prepended modules agree. -/
theorem fullLookup_eq_kindOf_iff :
    fullLookup h klassToCoder klass = kindOf h klassToCoder klass ↔ PrependsAgree h klassToCoder klass := by
  unfold PrependsAgree
  rw [kindOf_eq]
  cases front : (h.prepended klass).findSome? klassToCoder with
  | none =>
    constructor
    · intro _ obj found
      cases found
    · intro _
      cases registered : klassToCoder klass with
      | some own => exact fullLookup_own registered
      | none =>
        have skipped : (h.prepended klass).tail.findSome? klassToCoder = none := by
          apply List.findSome?_eq_none_iff.2
          intro k member
          exact List.findSome?_eq_none_iff.1 front k (List.mem_of_mem_tail member)
        rw [fullLookup_inherited registered, List.findSome?_append, skipped, Option.none_or, Option.none_or]
  | some obj =>
    rw [Option.some_or]
    cases registered : klassToCoder klass with
    | some own =>
      rw [fullLookup_own registered]
      constructor
      · rintro found _ ⟨⟩
        exact Option.some.inj found
      · intro agree
        exact congrArg some (agree obj rfl)
    | none =>
      rw [fullLookup_inherited registered]
      constructor
      · rintro found _ ⟨⟩
        exact Or.inr found
      · intro agree
        rcases agree obj rfl with free | found
        · rw [List.findSome?_append, findSome?_tail free, front]
          rfl
        · exact found

end Prepends

/-- Ruby code that raises differently for one Symbol or Proc than for all others. -/
def telling [DecidableEq γ] [DecidableEq ρ] (entry : Option (Entry γ ρ)) : Ruby κ γ ρ τ ν where
  send name _ := if entry = some (.symbol name) then raise .undefined else raise .fuel
  call p _ := if entry = some (.proc p) then raise .undefined else raise .fuel

section Telling

variable [DecidableEq γ] [DecidableEq ρ] {this : Tmbk κ γ ρ τ} {paramValue : ν}

omit [DecidableEq κ] in
theorem telling_other {entry other : Option (Entry γ ρ)} (different : entry ≠ other) :
    (chosenBy (telling entry) paramValue other this).1 ≠ .error .undefined := by
  intro chosen
  cases other with
  | none => cases chosen
  | some other =>
    cases other with
    | coder obj => cases chosen
    | symbol name =>
      simp only [chosenBy, evaluate, telling, if_neg different] at chosen
      cases chosen
    | proc p =>
      simp only [chosenBy, evaluate, telling, if_neg different] at chosen
      cases chosen

omit [DecidableEq κ] in
/-- Entries that choose the same encoder whatever the Ruby code does are the same. -/
theorem eq_of_chosenBy {a b : Option (Entry γ ρ)}
    (same : ∀ ruby : Ruby κ γ ρ τ ν, (chosenBy ruby paramValue a this).1 = (chosenBy ruby paramValue b this).1) :
    a = b := by
  by_contra different
  have told := same (telling a)
  have other : (chosenBy (telling a) paramValue b this).1 ≠ .error .undefined := telling_other different
  have self : (chosenBy (telling b) paramValue a this).1 ≠ .error .undefined := telling_other (Ne.symm different)
  cases a with
  | none =>
    cases b with
    | none => exact different rfl
    | some entry =>
      cases entry with
      | coder obj => cases told
      | symbol name => cases told
      | proc p => cases told
  | some entry =>
    cases entry with
    | coder obj =>
      cases b with
      | none => cases told
      | some entry =>
        cases entry with
        | coder obj' =>
          cases told
          exact different rfl
        | symbol name => cases told
        | proc p => cases told
    | symbol name =>
      apply other
      rw [← told]
      simp only [chosenBy, evaluate, telling, if_pos]
      rfl
    | proc p =>
      apply other
      rw [← told]
      simp only [chosenBy, evaluate, telling, if_pos]
      rfl

end Telling

/-- **The choice by kind**: after every history of assignments and lookups, an encoder is chosen by
the entry for the kind of the value, evaluated anew, exactly if the prepended modules of its class
agree. -/
theorem choice_by_kind_iff (h : Hierarchy κ) (objClass : ν → κ) (allStrings : τ) (address : κ → UInt64)
    (events : List (Event κ γ ρ τ ν)) (paramValue : ν) :
    let this := runEvents h objClass events (pgTmbkSAllocate allStrings address)
    (∀ ruby : Ruby κ γ ρ τ ν, (pgTmbkTypecastQueryParam h objClass ruby paramValue this).1 =
        (chosenBy ruby paramValue (kindOf h this.klassToCoder (objClass paramValue)) this).1) ↔
      PrependsAgree h this.klassToCoder (objClass paramValue) := by
  classical
  intro this
  have coherent : this.Coherent h := runEvents_coherent events (pgTmbkSAllocate_coherent allStrings address)
  rw [← fullLookup_eq_kindOf_iff]
  constructor
  · intro chosen
    apply eq_of_chosenBy
    intro ruby
    rw [← pgTmbkTypecastQueryParam_spec objClass ruby coherent]
    exact chosen ruby
  · intro found ruby
    rw [pgTmbkTypecastQueryParam_spec objClass ruby coherent, found]

/-- Class 0 with the module 1 prepended. -/
def prependedModule : Hierarchy Nat where
  prepended klass := if klass = 0 then [1] else []
  inherited _ := []

/-- A coder that is registered for the prepended module is not found. -/
theorem prepended_module_overlooked :
    let this : Tmbk Nat Nat Nat Nat :=
      runEvents prependedModule (fun _ : Unit => 0) [.aset 1 (some (.coder 7))] (pgTmbkSAllocate 0 fun _ => 0)
    ∀ ruby : Ruby Nat Nat Nat Nat Unit,
      (pgTmbkTypecastQueryParam prependedModule (fun _ => 0) ruby () this).1 = .ok (.default 0) ∧
        (chosenBy ruby () (kindOf prependedModule this.klassToCoder 0) this).1 = .ok (.coder 7) := by
  intro this ruby
  constructor
  · rfl
  · rfl

end RubyPg.ByClass
