import RubyPg.Lib.Method
import RubyPg.Lib.OrderedHash

/-!
# `PG::BasicTypeMapForQueries`

The setter `encode_array_as=` of `lib/pg/basic_type_map_for_queries.rb` stores the new mode, clears the type map and
fills it entry by entry. Where a type has no encoder, `if_undefined` is called and may raise; then the setter ends with
the new mode and the entries in front of that one (`populate_run`). `all_or_nothing_iff` says when nothing has changed.
-/

namespace RubyPg.ForQueries
set_option autoImplicit false
open Method

/-- The name of a type, as a String or a Symbol. -/
inductive Name where
  | str (s : String)
  | sym (s : String)
deriving DecidableEq, Repr

/-- The characters of a name. -/
def Name.text : Name → String
  | str s | sym s => s

/-- A value for `encode_array_as`: a String or Symbol, or another object. -/
inductive PgType where
  | name (n : Name)
  | other (obj : Nat)
deriving DecidableEq, Repr

/-- `/\A_/`. -/
def PgType.underscored : PgType → Option Name
  | name n => if n.text.toList.head? = some '_' then some n else none
  | other _ => none

def PgType.array : PgType := name (.sym "array")
def PgType.json : PgType := name (.sym "json")
def PgType.record : PgType := name (.sym "record")

/-- The classes of the default table, and others. -/
inductive Klass where
  | trueClass | falseClass | integer | float | time | date | ipAddr | hash | array | binaryData | bigDecimal
  | other (klass : Nat)
deriving DecidableEq, Repr

/-- A `PG::Coder` and its OID. -/
structure Coder (γ : Type) where
  obj : γ
  oid : Nat
deriving DecidableEq, Repr

/-- What is stored for a class: a coder of the registry, a Symbol, or a new `PG::TextEncoder::JSON` or `Record`. -/
inductive Entry (γ : Type) where
  | coder (coder : Coder γ)
  | symbol (name : String)
  | json
  | record
deriving DecidableEq, Repr

/-- An encoder of the default table: format, name and the name for the OID, or a Symbol. -/
inductive Selector where
  | coder (format : Nat) (name : String) (oidName : Option String)
  | symbol (name : String)
deriving DecidableEq, Repr

/-- `DEFAULT_TYPE_MAP`. -/
def defaultTypeMap (hasBigdecimal : Bool) : List (Klass × Selector) :=
  [(.trueClass, .coder 0 "bool" (some "bool")),
   (.falseClass, .coder 0 "bool" (some "bool")),
   (.integer, .coder 0 "int8" none),
   (.float, .coder 0 "float8" none),
   (.time, .coder 0 "timestamptz" none),
   (.date, .coder 0 "date" none),
   (.ipAddr, .coder 0 "inet" none),
   (.hash, .coder 0 "json" none),
   (.array, .symbol "get_array_type"),
   (.binaryData, .coder 1 "bytea" none)] ++
  if hasBigdecimal then [(.bigDecimal, .coder 0 "numeric" none)] else []

/-- The exceptions: two of the class itself and those of the handler. -/
inductive Raised (ε : Type) where
  | argumentError (msg : String)
  | frozenError
  | handler (e : ε)
deriving DecidableEq, Repr

/-- What a type map is made for: the encoders of `@coder_maps`, `@if_undefined` with a state of its own, and Ruby's
`inspect`. -/
structure Setup (γ ε ω : Type) where
  coderByName : Nat → Name → Option (Coder γ)
  ifUndefined : Name → Option Nat → Method ε ω Unit
  hasBigdecimal : Bool
  inspect : PgType → String

/-- The instance variables, with the hash of the base class and the state of the handler. -/
structure TypeMap (γ ω : Type) where
  klassToCoder : OrderedHash Klass (Entry γ)
  encodeArrayAs : PgType
  textarrayEncoder : Option (Coder γ)
  frozen : Bool
  world : ω

section Code

variable {γ ε ω : Type} (setup : Setup γ ε ω)

/-- `rb_hash_aset` and `rb_hash_delete`. -/
def storeEntry (hash : OrderedHash Klass (Entry γ)) (klass : Klass) : Option (Entry γ) → OrderedHash Klass (Entry γ)
  | some coder => hash.aset klass coder
  | none => hash.filter fun entry => entry.1 ≠ klass

/-- `pg_tmbk_aset`. -/
def aset (klass : Klass) (coder : Option (Entry γ)) : Method (Raised ε) (TypeMap γ ω) Unit := do
  let this ← read
  if this.frozen then raise .frozenError
  else change fun this => { this with klassToCoder := storeEntry this.klassToCoder klass coder }

/-- `undefined`. -/
def undefined (name : Name) (format : Option Nat) : Method (Raised ε) (TypeMap γ ω) Unit := fun this =>
  match setup.ifUndefined name format this.world with
  | (.ok (), world) => (.ok (), { this with world })
  | (.error e, world) => (.error (.handler e), { this with world })

/-- One entry of `populate_encoder_list`. -/
def populateEntry (klass : Klass) : Selector → Method (Raised ε) (TypeMap γ ω) Unit
  | .coder format name oidName =>
    match setup.coderByName format (.str name) with
    | none => undefined setup (.str name) (some format)
    | some coder =>
      match oidName with
      | none => aset klass (some (.coder { coder with oid := 0 }))
      | some oidName =>
        match setup.coderByName format (.str oidName) with
        | some oidCoder => aset klass (some (.coder { coder with oid := oidCoder.oid }))
        | none => do
          undefined setup (.str oidName) (some format)
          aset klass (some (.coder coder))
  | .symbol selector => do
    let this ← read
    if this.encodeArrayAs = .array then aset klass (some (.symbol selector))
    else if this.encodeArrayAs = .json then aset klass (some .json)
    else if this.encodeArrayAs = .record then aset klass (some .record)
    else
      match this.encodeArrayAs.underscored with
      | none => raise (.argumentError s!"invalid pg_type {setup.inspect this.encodeArrayAs}")
      | some name =>
        match setup.coderByName 0 name with
        | some coder => aset klass (some (.coder coder))
        -- the variable `format` is nil here
        | none => undefined setup name none

/-- The loop of `populate_encoder_list`. -/
def populate : List (Klass × Selector) → Method (Raised ε) (TypeMap γ ω) Unit
  | [] => pure ()
  | (klass, selector) :: rest => do
    populateEntry setup klass selector
    populate rest

/-- The loop that clears the type map. -/
def clear : List Klass → Method (Raised ε) (TypeMap γ ω) Unit
  | [] => pure ()
  | kl :: rest => do
    aset kl none
    clear rest

/-- `init_encoders`. -/
def initEncoders : Method (Raised ε) (TypeMap γ ω) Unit := do
  let this ← read
  clear (this.klassToCoder.map Prod.fst)
  populate setup (defaultTypeMap setup.hasBigdecimal)
  change fun this => { this with textarrayEncoder := setup.coderByName 0 (.str "_text") }

/-- `new`. -/
def new (world : ω) : Except (Raised ε) Unit × TypeMap γ ω :=
  initEncoders setup ⟨[], .array, none, false, world⟩

/-- The values that are allowed. -/
def Valid (pgType : PgType) : Prop :=
  pgType = .array ∨ pgType = .json ∨ pgType = .record ∨ pgType.underscored.isSome = true

instance (pgType : PgType) : Decidable (Valid pgType) := inferInstanceAs (Decidable (_ ∨ _))

/-- `encode_array_as=`. -/
def setEncodeArrayAs (pgType : PgType) : Method (Raised ε) (TypeMap γ ω) Unit :=
  if Valid pgType then do
    let this ← read
    if this.frozen then raise .frozenError
    else do
      change fun this => { this with encodeArrayAs := pgType }
      initEncoders setup
  else raise (.argumentError s!"invalid pg_type {setup.inspect pgType}")

end Code

/-! ## What a run of the loop does -/

section Run

variable {γ ε ω : Type} (setup : Setup γ ε ω) (pgType : PgType)

/-- The type the handler is asked about for an entry. -/
def asks : Selector → Option (Name × Option Nat)
  | .coder format name oidName =>
    match setup.coderByName format (.str name) with
    | none => some (.str name, some format)
    | some _ =>
      match oidName with
      | none => none
      | some oidName => if (setup.coderByName format (.str oidName)).isNone then some (.str oidName, some format) else none
  | .symbol _ =>
    match pgType.underscored with
    | some name => if (setup.coderByName 0 name).isNone then some (name, none) else none
    | none => none

/-- What is stored for an entry, unless the handler raises. -/
def stores : Selector → Option (Entry γ)
  | .coder format name oidName =>
    (setup.coderByName format (.str name)).map fun coder =>
      match oidName with
      | none => .coder { coder with oid := 0 }
      | some oidName =>
        match setup.coderByName format (.str oidName) with
        | some oidCoder => .coder { coder with oid := oidCoder.oid }
        | none => .coder coder
  | .symbol selector =>
    if pgType = .array then some (.symbol selector)
    else if pgType = .json then some .json
    else if pgType = .record then some .record
    else (pgType.underscored.bind (setup.coderByName 0)).map .coder

/-- The call of the handler, if there is one. -/
def call : Option (Name × Option Nat) → Method ε ω Unit
  | none => pure ()
  | some (name, format) => setup.ifUndefined name format

/-- A hash with one more entry, if there is one. -/
def put (hash : OrderedHash Klass (Entry γ)) (klass : Klass) : Option (Entry γ) → OrderedHash Klass (Entry γ)
  | none => hash
  | some coder => hash.aset klass coder

/-- A type map behind the call of the handler: with an entry more, or with an exception. -/
def TypeMap.behind (this : TypeMap γ ω) (hash : OrderedHash Klass (Entry γ)) :
    Except ε Unit × ω → Except (Raised ε) Unit × TypeMap γ ω
  | (.ok (), world) => (.ok (), { this with klassToCoder := hash, world })
  | (.error e, world) => (.error (.handler e), { this with world })

variable {setup pgType} {this : TypeMap γ ω}

theorem aset_eq (writable : this.frozen = false) (klass : Klass) (coder : Option (Entry γ)) :
    aset klass coder this =
      ((.ok (), { this with klassToCoder := storeEntry this.klassToCoder klass coder }) : Except (Raised ε) Unit × TypeMap γ ω) := by
  simp [aset, writable]

theorem undefined_eq (name : Name) (format : Option Nat) :
    undefined setup name format this = this.behind this.klassToCoder (setup.ifUndefined name format this.world) := by
  unfold undefined
  cases run : setup.ifUndefined name format this.world with
  | mk result world =>
    cases result with
    | ok _ => rfl
    | error e => rfl

theorem undefined_aset (writable : this.frozen = false) (name : Name) (format : Option Nat) (klass : Klass) (coder : Entry γ) :
    (undefined setup name format >>= fun _ => aset klass (some coder)) this =
      this.behind (this.klassToCoder.aset klass coder) (setup.ifUndefined name format this.world) := by
  have asked : undefined setup name format this = this.behind this.klassToCoder _ := undefined_eq name format
  cases run : setup.ifUndefined name format this.world with
  | mk result world =>
    rw [run] at asked
    cases result with
    | ok _ =>
      refine (bind_ok asked).trans ?_
      exact @aset_eq γ ε ω { this with world } writable klass (some coder)
    | error e => exact bind_error asked

/-- One entry: the handler is called, and then the encoder is stored. -/
theorem populateEntry_eq (writable : this.frozen = false) (valid : Valid this.encodeArrayAs) (klass : Klass)
    (selector : Selector) : populateEntry setup klass selector this =
      this.behind (put this.klassToCoder klass (stores setup this.encodeArrayAs selector))
        (call setup (asks setup this.encodeArrayAs selector) this.world) := by
  cases selector with
  | coder format name oidName =>
    cases found : setup.coderByName format (.str name) with
    | none => simp [populateEntry, asks, stores, found, undefined_eq, call, put]
    | some coder =>
      cases oidName with
      | none => simp [populateEntry, asks, stores, found, aset_eq writable, call, put, storeEntry, TypeMap.behind]
      | some oidName =>
        cases oid : setup.coderByName format (.str oidName) with
        | some oidCoder =>
          simp [populateEntry, asks, stores, found, oid, aset_eq writable, call, put, storeEntry, TypeMap.behind]
        | none =>
          have both := @undefined_aset γ ε ω setup this writable (.str oidName) (some format) klass (.coder coder)
          simpa [populateEntry, asks, stores, found, oid, call, put] using both
  | symbol selector =>
    unfold populateEntry
    by_cases array : this.encodeArrayAs = .array
    · have other : PgType.array.underscored = none := by decide
      simp [asks, stores, array, other, aset_eq writable, call, put, storeEntry, TypeMap.behind]
    by_cases json : this.encodeArrayAs = .json
    · have other : PgType.json.underscored = none := by decide
      have apart : PgType.json ≠ .array := by decide
      simp [asks, stores, json, other, apart, aset_eq writable, call, put, storeEntry, TypeMap.behind]
    by_cases record : this.encodeArrayAs = .record
    · have other : PgType.record.underscored = none := by decide
      have apart : PgType.record ≠ .array ∧ PgType.record ≠ .json := by decide
      simp [asks, stores, record, other, apart, aset_eq writable, call, put, storeEntry, TypeMap.behind]
    · obtain ⟨name, named⟩ := Option.isSome_iff_exists.1 (((valid.resolve_left array).resolve_left json).resolve_left record)
      cases found : setup.coderByName 0 name with
      | some coder =>
        simp [asks, stores, array, json, record, named, found, aset_eq writable, call, put, storeEntry, TypeMap.behind]
      | none => simp [asks, stores, array, json, record, named, found, undefined_eq, call, put]

/-- The calls of the handler for some entries, in order. -/
def callAll (setup : Setup γ ε ω) (pgType : PgType) : List (Klass × Selector) → Method ε ω Unit
  | [] => pure ()
  | entry :: rest => do
    call setup (asks setup pgType entry.2)
    callAll setup pgType rest

/-- A hash with the encoders of some entries. -/
def putAll (setup : Setup γ ε ω) (pgType : PgType) (hash : OrderedHash Klass (Entry γ)) :
    List (Klass × Selector) → OrderedHash Klass (Entry γ)
  | [] => hash
  | entry :: rest => putAll setup pgType (put hash entry.1 (stores setup pgType entry.2)) rest

/-- The handler raises for an entry, and not for those in front of it. -/
def StopsAt (setup : Setup γ ε ω) (pgType : PgType) (world : ω) (front : List (Klass × Selector)) (stop : Klass × Selector)
    (e : ε) (world'' : ω) : Prop :=
  ∃ world', callAll setup pgType front world = (.ok (), world') ∧
    call setup (asks setup pgType stop.2) world' = (.error e, world'')

/-- How the loop ends. -/
inductive Populated (setup : Setup γ ε ω) (this : TypeMap γ ω) (entries : List (Klass × Selector)) :
    Except (Raised ε) Unit × TypeMap γ ω → Prop where
  | whole {world : ω} (returned : callAll setup this.encodeArrayAs entries this.world = (.ok (), world)) :
    Populated setup this entries
      (.ok (), { this with klassToCoder := putAll setup this.encodeArrayAs this.klassToCoder entries, world })
  | stopped {front rest : List (Klass × Selector)} {stop : Klass × Selector} {e : ε} {world : ω}
    (split : entries = front ++ stop :: rest) (stops : StopsAt setup this.encodeArrayAs this.world front stop e world) :
    Populated setup this entries
      (.error (.handler e), { this with klassToCoder := putAll setup this.encodeArrayAs this.klassToCoder front, world })

theorem populate_run (writable : this.frozen = false) (valid : Valid this.encodeArrayAs) (entries : List (Klass × Selector)) :
    Populated setup this entries (populate setup entries this) := by
  induction entries generalizing this with
  | nil => exact .whole rfl
  | cons entry rest ih =>
    have here := @populateEntry_eq γ ε ω setup this writable valid entry.1 entry.2
    cases run : call setup (asks setup this.encodeArrayAs entry.2) this.world with
    | mk result world =>
      rw [run] at here
      cases result with
      | error e =>
        have whole : populate setup (entry :: rest) this = (.error (.handler e), { this with world }) := bind_error here
        rw [whole]
        exact @Populated.stopped γ ε ω setup this (entry :: rest) [] rest entry e world rfl ⟨this.world, rfl, run⟩
      | ok _ =>
        let next : TypeMap γ ω :=
          { this with klassToCoder := put this.klassToCoder entry.1 (stores setup this.encodeArrayAs entry.2), world }
        have whole : populate setup (entry :: rest) this = populate setup rest next := bind_ok here
        have calls (entries : List (Klass × Selector)) : callAll setup this.encodeArrayAs (entry :: entries) this.world =
            callAll setup this.encodeArrayAs entries world := bind_ok run
        have later := @ih next writable valid
        rw [whole]
        generalize populate setup rest next = result at later
        cases later with
        | whole returned => exact .whole ((calls rest).trans returned)
        | stopped split stops =>
          rename_i front others stop e last
          obtain ⟨world', returned, raised⟩ := stops
          refine @Populated.stopped γ ε ω setup this (entry :: rest) (entry :: front) others stop e last ?_ ?_
          · rw [split]
            rfl
          · exact ⟨world', (calls front).trans returned, raised⟩

theorem clear_eq (writable : this.frozen = false) (keys : List Klass) :
    clear keys this = ((.ok (), { this with klassToCoder := this.klassToCoder.filter fun entry => entry.1 ∉ keys }) :
      Except (Raised ε) Unit × TypeMap γ ω) := by
  induction keys generalizing this with
  | nil =>
    have all : this.klassToCoder.filter (fun entry => entry.1 ∉ ([] : List Klass)) = this.klassToCoder := by simp
    rw [all]
    rfl
  | cons kl keys ih =>
    let next : TypeMap γ ω := { this with klassToCoder := storeEntry this.klassToCoder kl none }
    have first : aset kl none this = ((.ok (), next) : Except (Raised ε) Unit × TypeMap γ ω) := aset_eq writable kl none
    have both : next.klassToCoder.filter (fun entry => entry.1 ∉ keys) =
        this.klassToCoder.filter fun entry => entry.1 ∉ kl :: keys := by
      simp only [next, storeEntry, List.filter_filter]
      apply List.filter_congr
      intro entry _
      simp [Bool.and_comm]
    have later := @ih next writable
    rw [both] at later
    exact (bind_ok first).trans later

/-- The type map is cleared. -/
theorem clear_all (writable : this.frozen = false) :
    clear (this.klassToCoder.map Prod.fst) this = ((.ok (), { this with klassToCoder := [] }) :
      Except (Raised ε) Unit × TypeMap γ ω) := by
  have empty : this.klassToCoder.filter (fun entry => entry.1 ∉ this.klassToCoder.map Prod.fst) = [] := by
    apply List.filter_eq_nil_iff.2
    intro entry member
    have listed : entry.1 ∈ this.klassToCoder.map Prod.fst := List.mem_map_of_mem member
    simpa using listed
  rw [clear_eq writable, empty]

/-- How the setter ends. -/
inductive Assigned (setup : Setup γ ε ω) (this : TypeMap γ ω) (pgType : PgType) :
    Except (Raised ε) Unit × TypeMap γ ω → Prop where
  | refused {raised : Raised ε} (refused : ¬Valid pgType ∨ this.frozen = true) : Assigned setup this pgType (.error raised, this)
  | whole {this' : TypeMap γ ω} {world : ω}
    (returned : callAll setup pgType (defaultTypeMap setup.hasBigdecimal) this.world = (.ok (), world)) :
    Assigned setup this pgType (.ok (), this')
  | stopped {front rest : List (Klass × Selector)} {stop : Klass × Selector} {e : ε} {world : ω}
    (valid : Valid pgType) (writable : this.frozen = false)
    (split : defaultTypeMap setup.hasBigdecimal = front ++ stop :: rest) (stops : StopsAt setup pgType this.world front stop e world) :
    Assigned setup this pgType
      (.error (.handler e), { this with klassToCoder := putAll setup pgType [] front, encodeArrayAs := pgType, world })

theorem setEncodeArrayAs_run (this : TypeMap γ ω) (pgType : PgType) :
    Assigned setup this pgType (setEncodeArrayAs setup pgType this) := by
  unfold setEncodeArrayAs
  by_cases valid : Valid pgType
  · rw [if_pos valid, read_bind]
    by_cases frozen : this.frozen = true
    · rw [if_pos frozen]
      exact .refused (.inr frozen)
    · have writable : this.frozen = false := (Bool.not_eq_true _).mp frozen
      let empty : TypeMap γ ω := { this with klassToCoder := [], encodeArrayAs := pgType }
      have cleared := @clear_all γ ε ω { this with encodeArrayAs := pgType } writable
      have populated := @populate_run γ ε ω setup empty writable valid (defaultTypeMap setup.hasBigdecimal)
      rw [if_neg frozen, change_bind]
      unfold initEncoders
      rw [read_bind, bind_ok cleared]
      generalize run : populate setup (defaultTypeMap setup.hasBigdecimal) empty = result at populated
      cases populated with
      | whole returned =>
        rw [bind_ok run]
        exact .whole returned
      | stopped split stops =>
        rw [bind_error run]
        exact .stopped valid writable split stops
  · rw [if_neg valid]
    exact .refused (.inl valid)

/-- The handler raises for the whole table if it does for an entry. -/
theorem StopsAt.callAll {front : List (Klass × Selector)} {stop : Klass × Selector} {e : ε} {world world'' : ω}
    (stops : StopsAt setup pgType world front stop e world'') (rest : List (Klass × Selector)) :
    callAll setup pgType (front ++ stop :: rest) world = (.error e, world'') := by
  obtain ⟨world', returned, raised⟩ := stops
  induction front generalizing world with
  | nil =>
    cases returned
    exact bind_error raised
  | cons entry front ih =>
    obtain ⟨_, world₁, first, later⟩ := of_bind returned
    exact (bind_ok first).trans (ih later)

/-- There is one such entry. -/
theorem StopsAt.unique {front front' rest rest' : List (Klass × Selector)} {stop stop' : Klass × Selector} {e e' : ε}
    {world last last' : ω} (stops : StopsAt setup pgType world front stop e last)
    (stops' : StopsAt setup pgType world front' stop' e' last') (same : front ++ stop :: rest = front' ++ stop' :: rest') :
    front = front' := by
  have shorter : ∀ {more front front' : List (Klass × Selector)} {stop stop' : Klass × Selector} {e e' : ε} {last last' : ω},
      StopsAt setup pgType world front stop e last → StopsAt setup pgType world front' stop' e' last' →
      front' ≠ front ++ stop :: more := by
    rintro more front front' stop stop' e e' last last' stops ⟨world', returned, -⟩ rfl
    rw [stops.callAll more] at returned
    cases returned
  rcases List.append_eq_append_iff.1 same with ⟨more, longer, behind⟩ | ⟨more, longer, behind⟩
  · cases more with
    | nil => rw [longer, List.append_nil]
    | cons next more =>
      obtain ⟨rfl, -⟩ := List.cons.inj behind
      exact absurd longer (shorter stops stops')
  · cases more with
    | nil => rw [longer, List.append_nil]
    | cons next more =>
      obtain ⟨rfl, -⟩ := List.cons.inj behind
      exact absurd longer (shorter stops' stops)

/-- The encoder that a part of the table has for a class. -/
def tableEncoder (setup : Setup γ ε ω) (pgType : PgType) (entries : List (Klass × Selector)) (klass : Klass) : Option (Entry γ) :=
  (entries.find? fun entry => entry.1 = klass).bind fun entry => stores setup pgType entry.2

theorem aref_putAll {hash : OrderedHash Klass (Entry γ)} {entries : List (Klass × Selector)} (distinct : (entries.map Prod.fst).Nodup)
    (klass : Klass) : (putAll setup pgType hash entries).aref klass =
      (tableEncoder setup pgType entries klass).or (hash.aref klass) := by
  induction entries generalizing hash with
  | nil => rfl
  | cons entry rest ih =>
    obtain ⟨other, distinct⟩ := List.nodup_cons.1 distinct
    have step : putAll setup pgType hash (entry :: rest) =
        putAll setup pgType (put hash entry.1 (stores setup pgType entry.2)) rest := rfl
    rw [step, ih distinct]
    unfold tableEncoder
    by_cases here : entry.1 = klass
    · have absent : rest.find? (fun entry => entry.1 = klass) = none := by
        apply List.find?_eq_none.2
        intro next member same
        exact other (List.mem_map.2 ⟨next, member, (of_decide_eq_true same).trans here.symm⟩)
      rw [absent, List.find?_cons_of_pos (by simpa using here)]
      cases stored : stores setup pgType entry.2 with
      | none => simp [put, stored]
      | some coder => simp [put, stored, OrderedHash.aref_aset, here]
    · rw [List.find?_cons_of_neg (by simpa using here)]
      cases stores setup pgType entry.2 with
      | none => rfl
      | some coder => simp [put, OrderedHash.aref_aset, here]

theorem defaultTypeMap_distinct (hasBigdecimal : Bool) : ((defaultTypeMap hasBigdecimal).map Prod.fst).Nodup := by
  cases hasBigdecimal with
  | false => decide
  | true => decide

/-! ## All or nothing -/

/-- If the setter raises, the mode and the encoders are what they were. -/
def AllOrNothing (setup : Setup γ ε ω) (this : TypeMap γ ω) (pgType : PgType) : Prop :=
  ∀ raised this', setEncodeArrayAs setup pgType this = (.error raised, this') →
    this'.encodeArrayAs = this.encodeArrayAs ∧ ∀ klass, this'.klassToCoder.aref klass = this.klassToCoder.aref klass

/-- The value is not allowed, the type map is frozen, or wherever the handler raises for an entry of the table, the mode is
the value already and the encoders are those of the table in front of that entry. -/
def Unchanged (setup : Setup γ ε ω) (this : TypeMap γ ω) (pgType : PgType) : Prop :=
  ¬Valid pgType ∨ this.frozen = true ∨
    ∀ front stop rest e world, defaultTypeMap setup.hasBigdecimal = front ++ stop :: rest →
      StopsAt setup pgType this.world front stop e world →
        this.encodeArrayAs = pgType ∧ ∀ klass, this.klassToCoder.aref klass = tableEncoder setup pgType front klass

theorem allOrNothing_iff (setup : Setup γ ε ω) (this : TypeMap γ ω) (pgType : PgType) :
    AllOrNothing setup this pgType ↔ Unchanged setup this pgType := by
  have run : Assigned setup this pgType (setEncodeArrayAs setup pgType this) := setEncodeArrayAs_run this pgType
  unfold AllOrNothing
  generalize setEncodeArrayAs setup pgType this = result at run
  cases run with
  | refused refused =>
    apply iff_of_true
    · intro raised this' same
      cases same
      exact ⟨rfl, fun _ => rfl⟩
    · exact refused.elim .inl fun frozen => .inr (.inl frozen)
  | whole returned =>
    apply iff_of_true
    · intro raised this' same
      cases same
    · refine .inr (.inr fun front stop rest e world split stops => ?_)
      rw [split, stops.callAll rest] at returned
      cases returned
  | stopped valid writable split stops =>
    rename_i front rest stop e world
    have distinct : (front.map Prod.fst).Nodup := by
      have whole := defaultTypeMap_distinct setup.hasBigdecimal
      rw [split, List.map_append] at whole
      exact (List.nodup_append.1 whole).1
    have encoders (klass : Klass) : (putAll setup pgType [] front).aref klass = tableEncoder setup pgType front klass := by
      rw [aref_putAll distinct]
      exact Option.or_none
    constructor
    · intro kept
      obtain ⟨mode, same⟩ := kept _ _ rfl
      refine .inr (.inr fun front' stop' rest' e' world' split' stops' => ?_)
      obtain rfl := stops.unique stops' (split.symm.trans split')
      exact ⟨mode.symm, fun klass => (same klass).symm.trans (encoders klass)⟩
    · intro unchanged raised this' same
      cases same
      rcases unchanged with invalid | frozen | unchanged
      · exact absurd valid invalid
      · rw [writable] at frozen
        cases frozen
      · obtain ⟨mode, same⟩ := unchanged front stop rest e world split stops
        exact ⟨mode.symm, fun klass => (encoders klass).trans (same klass).symm⟩

/-- What a program can do with the type map. -/
inductive Op (γ : Type) where
  | encodeArrayAs (pgType : PgType)
  | aset (klass : Klass) (coder : Option (Entry γ))
  | freeze

/-- The type map behind an operation, which may have raised. -/
def after (setup : Setup γ ε ω) (this : TypeMap γ ω) : Op γ → TypeMap γ ω
  | .encodeArrayAs pgType => (setEncodeArrayAs setup pgType this).2
  | .aset klass coder => (aset klass coder this : Except (Raised ε) Unit × TypeMap γ ω).2
  | .freeze => { this with frozen := true }

/-- `P` holds wherever the setter is called in a run. -/
def Throughout (setup : Setup γ ε ω) (P : TypeMap γ ω → PgType → Prop) : TypeMap γ ω → List (Op γ) → Prop
  | _, [] => True
  | this, op :: ops => (∀ pgType, op = .encodeArrayAs pgType → P this pgType) ∧ Throughout setup P (after setup this op) ops

/-- **All or nothing** in every run iff every call is one that changes nothing or comes to its end. -/
theorem all_or_nothing_iff (setup : Setup γ ε ω) (this : TypeMap γ ω) (ops : List (Op γ)) :
    Throughout setup (AllOrNothing setup) this ops ↔ Throughout setup (Unchanged setup) this ops := by
  induction ops generalizing this with
  | nil => exact Iff.rfl
  | cons op ops ih =>
    have here : (∀ pgType, op = .encodeArrayAs pgType → AllOrNothing setup this pgType) ↔
        ∀ pgType, op = .encodeArrayAs pgType → Unchanged setup this pgType :=
      forall_congr' fun pgType => imp_congr_right fun _ => allOrNothing_iff setup this pgType
    exact and_congr here (ih (after setup this op))

end Run

/-- A catalogue without the type `_unknown`, and `UndefinedDefault`. -/
def bareSetup : Setup Unit Unit Unit where
  coderByName _ name := if name = .str "_unknown" then none else some ⟨(), 1⟩
  ifUndefined _ _ := raise ()
  hasBigdecimal := true
  inspect _ := "_unknown"

/-- `encode_array_as = "_unknown"` raises, and leaves that mode and no encoders for what stands behind Array. -/
theorem half_filled : ∃ this this', new bareSetup () = (.ok (), this) ∧
    setEncodeArrayAs bareSetup (.name (.str "_unknown")) this = (.error (.handler ()), this') ∧
    this.encodeArrayAs = .array ∧ this'.encodeArrayAs = .name (.str "_unknown") ∧
    this.klassToCoder.aref .binaryData = some (.coder ⟨(), 0⟩) ∧ this'.klassToCoder.aref .binaryData = none :=
  ⟨_, _, rfl, rfl, rfl, rfl, rfl, rfl⟩

end RubyPg.ForQueries
