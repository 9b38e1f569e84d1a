import RubyPg.Value
import RubyPg.Lib.Method
import RubyPg.Lib.SlotCache

/-!
# `PG::TypeMapByOid`

`ext/pg_type_map_by_oid.c`. The coders of a type map stand in two hashes, one for each format;
in front of each there is a cache of 256 entries, with the low 8 bits of the OID as index. An
entry with OID 0 and no coder is an empty one. A result is cast either by looking up every value
(`pg_tmbo_result_value`), or through a `PG::TypeMapByColumn` that is built beforehand.

Coders are any objects `γ`, and the default type maps any objects `τ`.
-/

namespace RubyPg.ByOid
set_option autoImplicit false
open Method

/-- `Oid`, an `unsigned int`. -/
abbrev Oid := UInt32

/-- What of a `t_tmbo` belongs to the object alone. -/
structure Own (γ τ : Type) where
  defaultTypemap : τ
  maxRowsForOnlineLookup : Int
  cacheRow : Fin 2 → SlotCache UInt8 Oid (Option γ)
  frozen : Bool

/-- `t_tmbo`, with the contents of its two hashes. -/
structure Tmbo (γ τ : Type) extends Own γ τ where
  oidToCoder : Fin 2 → Oid → Option γ

/-- `PGresult`, as far as it is read here. -/
structure PgResult where
  ntuples : Int
  nfields : Nat
  fformat : Nat → Int
  ftype : Nat → Oid
  getisnull : Nat → Nat → Bool

/-- `t_tmbc`. -/
structure Tmbc (γ τ : Type) where
  convs : List (Option γ)
  defaultTypemap : τ

/-- How a value of a result is cast: not at all, by a coder, or by the default type map. -/
inductive Cast (γ τ : Type) where
  | null
  | coder (conv : γ)
  | default (tm : τ)
deriving DecidableEq, Repr

/-- `0 <= format && format <= 1`, as index of the hashes and caches. -/
def formatIndex (format : Int) : Option (Fin 2) :=
  if format < 0 ∨ format > 1 then none else if format = 0 then some 0 else some 1

/-- `CACHE_LOOKUP`, and the test for a non-empty entry with the expected OID. -/
def place (γ : Type) : Placement UInt8 Oid (Option γ) where
  slot oid := oid.toUInt8
  hit oid ce := ce.1 == oid && (oid != 0 || ce.2.isSome)
  key_of_hit hit := by
    simp only [Bool.and_eq_true, beq_iff_eq] at hit
    exact hit.1

variable {γ τ : Type}

/-- The type map with another cache for a format. -/
def Tmbo.setRow (this : Tmbo γ τ) (format : Fin 2) (row : SlotCache UInt8 Oid (Option γ)) : Tmbo γ τ :=
  { this with cacheRow := Function.update this.cacheRow format row }

/-- The type map with another cache entry. -/
def Tmbo.setEntry (this : Tmbo γ τ) (format : Fin 2) (slot : UInt8) (ce : Oid × Option γ) : Tmbo γ τ :=
  this.setRow format (Function.update (this.cacheRow format) slot ce)

/-- The type map with another content of a hash. -/
def Tmbo.setCoder (this : Tmbo γ τ) (format : Fin 2) (oid : Oid) (coder : Option γ) : Tmbo γ τ :=
  { this with oidToCoder := Function.update this.oidToCoder format (Function.update (this.oidToCoder format) oid coder) }

/-- `pg_tmbo_s_allocate`: memory filled with zeros, and two empty hashes. -/
def pgTmboSAllocate (allStrings : τ) : Tmbo γ τ where
  defaultTypemap := allStrings
  maxRowsForOnlineLookup := 10
  cacheRow _ _ := (0, none)
  frozen := false
  oidToCoder _ _ := none

/-- `pg_tmbo_lookup_oid`. -/
def pgTmboLookupOid (format : Fin 2) (oid : Oid) : Method Stop (Tmbo γ τ) (Option γ) := do
  let this ← read
  let ce := this.cacheRow format ((place γ).slot oid)
  if (place γ).hit oid ce = true then pure ce.2
  else
    let conv := this.oidToCoder format oid
    change fun this => this.setEntry format ((place γ).slot oid) (oid, conv)
    pure conv

/-- The loop over the fields of `pg_tmbo_build_type_map_for_result2`. -/
def lookupFields (result : PgResult) : List Nat → Method Stop (Tmbo γ τ) (List (Option γ))
  | [] => pure []
  | i :: rest => do
    let format := result.fformat i
    match formatIndex format with
    | none =>
      let field := i + 1
      raise (.exn .argumentError s!"result field {field} has unsupported format code {format}")
    | some form => do
      let conv ← pgTmboLookupOid form (result.ftype i)
      let convs ← lookupFields result rest
      pure (conv :: convs)

/-- `pg_tmbo_build_type_map_for_result2`. -/
def pgTmboBuildTypeMapForResult2 (allStrings : τ) (result : PgResult) : Method Stop (Tmbo γ τ) (Tmbc γ τ) := do
  let convs ← lookupFields result (List.range result.nfields)
  pure ⟨convs, allStrings⟩

/-- A coder that was found, or else the default type map. -/
def castBy (conv : Option γ) (defaultTypemap : τ) : Cast γ τ :=
  match conv with
  | some coder => .coder coder
  | none => .default defaultTypemap

/-- `pg_tmbo_result_value`, up to the call of the decoder. -/
def pgTmboResultValue (result : PgResult) (tuple field : Nat) : Method Stop (Tmbo γ τ) (Cast γ τ) := do
  if result.getisnull tuple field = true then pure .null
  else
    let format := result.fformat field
    match formatIndex format with
    | none =>
      let field := field + 1
      raise (.exn .argumentError s!"result field {field} has unsupported format code {format}")
    | some form => do
      let conv ← pgTmboLookupOid form (result.ftype field)
      let this ← read
      pure (castBy conv this.defaultTypemap)

/-- `pg_tmbc_result_value`, up to the call of the decoder. -/
def pgTmbcResultValue (this : Tmbc γ τ) (result : PgResult) (tuple field : Nat) : Cast γ τ :=
  if result.getisnull tuple field = true then .null
  else castBy (this.convs.getD field none) this.defaultTypemap

/-- What `pg_tmbo_fit_to_result` returns. -/
inductive Fitted (γ τ : Type) where
  | self
  | copy (tm : Own γ τ)
  | column (tm : Tmbc γ τ)

/-- `pg_tmbo_fit_to_result`; `fitDefault` is `fit_to_result` of the default type map. -/
def pgTmboFitToResult [DecidableEq τ] (fitDefault : τ → PgResult → Outcome τ) (allStrings : τ) (result : PgResult) :
    Method Stop (Tmbo γ τ) (Fitted γ τ) := do
  let this ← read
  let subTypemap ← ofExcept (fitDefault this.defaultTypemap result)
  if result.ntuples ≤ this.maxRowsForOnlineLookup then
    -- did the default type map return the same object?
    if subTypemap = this.defaultTypemap then pure .self
    else pure (.copy { this.toOwn with defaultTypemap := subTypemap, frozen := false })
  else do
    let colmap ← pgTmboBuildTypeMapForResult2 allStrings result
    pure (.column { colmap with defaultTypemap := subTypemap })

/-- `rb_check_frozen`. -/
def checkFrozen : Method Stop (Tmbo γ τ) Unit := do
  let this ← read
  if this.frozen then raise (.exn .frozenError "can't modify frozen PG::TypeMapByOid") else pure ()

/-- `pg_tmbo_add_coder`, for a coder with this OID and format. -/
def pgTmboAddCoder (coder : γ) (oid : Oid) (format : Int) : Method Stop (Tmbo γ τ) Unit := do
  checkFrozen
  match formatIndex format with
  | none => raise (.exn .argumentError s!"invalid format code {format}")
  | some form => do
    change fun this => this.setEntry form ((place γ).slot oid) (oid, some coder)
    change fun this => this.setCoder form oid (some coder)

/-- `NUM2INT` of an Integer. -/
def num2int (i : Int) : Outcome Int :=
  if i < -(2 ^ 31) then rbRaise .rangeError s!"integer {i} too small to convert to 'int'"
  else if i ≥ 2 ^ 31 then rbRaise .rangeError s!"integer {i} too big to convert to 'int'"
  else pure i

/-- `NUM2UINT` of an Integer: negative ones are taken, too. -/
def num2uint (i : Int) : Outcome Oid :=
  if i < -(2 ^ 31) then rbRaise .rangeError s!"integer {i} too small to convert to 'unsigned int'"
  else if i ≥ 2 ^ 32 then rbRaise .rangeError s!"integer {i} too big to convert to 'unsigned int'"
  else pure (UInt32.ofInt i)

/-- The OID whose key in a hash an Integer is. -/
def keyOf (oid : Int) : Option Oid := if 0 ≤ oid ∧ oid < 2 ^ 32 then some (UInt32.ofInt oid) else none

/-- `pg_tmbo_rm_coder`. The hash is asked with the Integer itself. -/
def pgTmboRmCoder (format oid : Int) : Method Stop (Tmbo γ τ) (Option γ) := do
  let iFormat ← ofExcept (num2int format)
  checkFrozen
  match formatIndex iFormat with
  | none => raise (.exn .argumentError s!"invalid format code {iFormat}")
  | some form => do
    let slot ← ofExcept (num2uint oid)
    change fun this => this.setEntry form ((place γ).slot slot) (0, none)
    match keyOf oid with
    | none => pure none
    | some key => do
      let this ← read
      change fun this => this.setCoder form key none
      pure (this.oidToCoder form key)

/-- The methods of a type map. -/
inductive Op (γ τ : Type) where
  | addCoder (coder : γ) (oid : Oid) (format : Int)
  | rmCoder (format oid : Int)
  | resultValue (result : PgResult) (tuple field : Nat)
  | buildColumnMap (result : PgResult)
  | fitToResult (result : PgResult)
  | setMaxRows (value : Int)
  | setDefault (tm : τ)
  | freeze

/-- The objects around a type map: the type map for strings, and how default type maps fit. -/
structure Env (τ : Type) where
  allStrings : τ
  fitDefault : τ → PgResult → Outcome τ

section Exec

variable [DecidableEq τ] (env : Env τ)

/-- One call. The answers are left out. -/
def Op.exec : Op γ τ → Method Stop (Tmbo γ τ) Unit
  | .addCoder coder oid format => pgTmboAddCoder coder oid format
  | .rmCoder format oid => do let _ ← pgTmboRmCoder format oid
  | .resultValue result tuple field => do let _ ← pgTmboResultValue result tuple field
  | .buildColumnMap result => do let _ ← pgTmboBuildTypeMapForResult2 env.allStrings result
  | .fitToResult result => do let _ ← pgTmboFitToResult env.fitDefault env.allStrings result
  | .setMaxRows value => do
    checkFrozen
    change fun this => { this with maxRowsForOnlineLookup := value }
  | .setDefault tm => do
    checkFrozen
    change fun this => { this with defaultTypemap := tm }
  | .freeze => change fun this => { this with frozen := true }

/-- A history of calls on a type map, each of which may raise. -/
def runOps (ops : List (Op γ τ)) (this : Tmbo γ τ) : Tmbo γ τ :=
  ops.foldl (fun this op => (op.exec env this).2) this

end Exec

/-- Both caches agree with their hashes. -/
def Tmbo.Coherent (this : Tmbo γ τ) : Prop :=
  ∀ format, (this.cacheRow format).Coherent (place γ) (this.oidToCoder format)

/-- Only the caches differ. -/
def Tmbo.SameBut (this this' : Tmbo γ τ) : Prop := ∃ cacheRow, this' = { this with cacheRow }

theorem Tmbo.SameBut.refl (this : Tmbo γ τ) : this.SameBut this := ⟨this.cacheRow, rfl⟩

theorem Tmbo.SameBut.trans {this this' this'' : Tmbo γ τ} (first : this.SameBut this') (second : this'.SameBut this'') :
    this.SameBut this'' := by
  obtain ⟨_, rfl⟩ := first
  obtain ⟨cacheRow, rfl⟩ := second
  exact ⟨cacheRow, rfl⟩

theorem pgTmboSAllocate_coherent (allStrings : τ) : (pgTmboSAllocate allStrings : Tmbo γ τ).Coherent := by
  intro format
  apply SlotCache.coherent_of_empty
  intro oid
  simp only [place, pgTmboSAllocate, Option.isSome_none, Bool.or_false, Bool.and_eq_false_iff, beq_eq_false_iff_ne,
    bne_eq_false_iff_eq]
  by_cases zero : oid = 0
  · exact Or.inr zero
  · exact Or.inl (Ne.symm zero)

/-- One cache and its hash are exchanged. -/
theorem Tmbo.Coherent.row {this : Tmbo γ τ} (coherent : this.Coherent) (format : Fin 2)
    {row : SlotCache UInt8 Oid (Option γ)} {table : Oid → Option γ} (fits : row.Coherent (place γ) table) :
    Tmbo.Coherent { this.setRow format row with oidToCoder := Function.update this.oidToCoder format table } := by
  intro other
  by_cases same : other = format
  · subst same
    simpa only [Tmbo.setRow, Function.update_self] using fits
  · simpa only [Tmbo.setRow, Function.update_of_ne same] using coherent other

/-- A lookup is the one of the cache. -/
theorem pgTmboLookupOid_eq (format : Fin 2) (oid : Oid) (this : Tmbo γ τ) :
    pgTmboLookupOid format oid this =
      (.ok ((this.cacheRow format).fetch (place γ) (this.oidToCoder format) oid).1,
        this.setRow format ((this.cacheRow format).fetch (place γ) (this.oidToCoder format) oid).2) := by
  unfold pgTmboLookupOid SlotCache.fetch
  rw [read_bind]
  dsimp only
  split
  · rw [Tmbo.setRow, Function.update_eq_self]
    rfl
  · rfl

/-- **A lookup answers what the hash holds.** -/
theorem pgTmboLookupOid_spec {this : Tmbo γ τ} (coherent : this.Coherent) (format : Fin 2) (oid : Oid) :
    ∃ this', pgTmboLookupOid format oid this = (.ok (this.oidToCoder format oid), this') ∧
      this.SameBut this' ∧ this'.Coherent := by
  rw [pgTmboLookupOid_eq, (coherent format).fetch_answer]
  refine ⟨_, rfl, ⟨_, rfl⟩, ?_⟩
  have row := coherent.row format ((coherent format).fetch oid)
  rwa [Function.update_eq_self] at row

/-- What the hashes hold for the type of a field. -/
def held (this : Tmbo γ τ) (result : PgResult) (field : Nat) : Option γ :=
  (formatIndex (result.fformat field)).bind fun format => this.oidToCoder format (result.ftype field)

theorem held_sameBut {this this' : Tmbo γ τ} (same : this.SameBut this') (result : PgResult) :
    held this' result = held this result := by
  obtain ⟨_, rfl⟩ := same
  rfl

/-- The loop over the fields collects what the hashes hold. -/
theorem lookupFields_spec {result : PgResult} {fields : List Nat} {this : Tmbo γ τ} (coherent : this.Coherent)
    (supported : ∀ i ∈ fields, (formatIndex (result.fformat i)).isSome) :
    ∃ this', lookupFields result fields this = (.ok (fields.map (held this result)), this') ∧
      this.SameBut this' ∧ this'.Coherent := by
  induction fields generalizing this with
  | nil => exact ⟨this, rfl, .refl this, coherent⟩
  | cons i rest ih =>
    obtain ⟨format, known⟩ := Option.isSome_iff_exists.1 (supported i List.mem_cons_self)
    obtain ⟨first, looked, same, coherent'⟩ := pgTmboLookupOid_spec coherent format (result.ftype i)
    obtain ⟨last, run, same', coherent''⟩ := ih coherent' fun j later => supported j (List.mem_cons_of_mem _ later)
    refine ⟨last, ?_, same.trans same', coherent''⟩
    have here : held this result i = this.oidToCoder format (result.ftype i) := by
      rw [held, known]
      rfl
    rw [lookupFields]
    dsimp only
    rw [known]
    dsimp only
    rw [bind_ok looked, bind_ok run, pure_apply, held_sameBut same, List.map_cons, here]

section Reading

variable {P : Tmbo γ τ → Prop} (looked : ∀ format oid, Preserves P (pgTmboLookupOid format oid))
include looked

theorem preserves_lookupFields (result : PgResult) (fields : List Nat) : Preserves P (lookupFields result fields) := by
  induction fields with
  | nil => exact .pure _
  | cons i rest ih =>
    rw [lookupFields]
    dsimp only
    split
    · exact .raise _
    · exact .bind (looked _ _) fun _ => .bind ih fun _ => .pure _

theorem preserves_build (allStrings : τ) (result : PgResult) :
    Preserves P (pgTmboBuildTypeMapForResult2 allStrings result) :=
  .bind (preserves_lookupFields looked result _) fun _ => .pure _

theorem preserves_resultValue (result : PgResult) (tuple field : Nat) :
    Preserves P (pgTmboResultValue result tuple field) := by
  unfold pgTmboResultValue
  split
  · exact .pure _
  · dsimp only
    split
    · exact .raise _
    · exact .bind (looked _ _) fun _ => .bind .read fun _ => .pure _

/-- What the lookups keep, casting and fitting to results keep. -/
theorem preserves_fit [DecidableEq τ] (fitDefault : τ → PgResult → Outcome τ) (allStrings : τ) (result : PgResult) :
    Preserves P (pgTmboFitToResult fitDefault allStrings result) := by
  unfold pgTmboFitToResult
  refine .bind .read fun this => .bind (.ofExcept _) fun sub => ?_
  split
  · split
    · exact .pure _
    · exact .pure _
  · exact .bind (preserves_build looked _ _) fun _ => .pure _

end Reading

theorem preserves_checkFrozen (P : Tmbo γ τ → Prop) : Preserves P checkFrozen := by
  refine .bind .read fun this => ?_
  split
  · exact .raise _
  · exact .pure _

theorem checkFrozen_frozen {this : Tmbo γ τ} (frozen : this.frozen = true) :
    checkFrozen this = (.error (.exn .frozenError "can't modify frozen PG::TypeMapByOid"), this) := by
  unfold checkFrozen
  rw [read_bind, if_pos frozen, raise_apply]

theorem checkFrozen_free {this : Tmbo γ τ} (free : this.frozen = false) : checkFrozen this = (.ok (), this) := by
  unfold checkFrozen
  rw [read_bind, free, if_neg Bool.false_ne_true, pure_apply]

section Preserved

/-- The methods keep the caches and the hashes in step. -/
abbrev Keeps {α : Type} (m : Method Stop (Tmbo γ τ) α) : Prop := Preserves Tmbo.Coherent m

theorem keeps_lookup (format : Fin 2) (oid : Oid) : Keeps (pgTmboLookupOid format oid : Method Stop (Tmbo γ τ) _) := by
  intro this coherent
  obtain ⟨this', looked, -, coherent'⟩ := pgTmboLookupOid_spec coherent format oid
  rw [looked]
  exact coherent'

/-- The entry of the cache and the one of the hash are written together. -/
theorem Tmbo.Coherent.added {this : Tmbo γ τ} (coherent : this.Coherent) (format : Fin 2) (oid : Oid) (coder : γ) :
    ((this.setEntry format ((place γ).slot oid) (oid, some coder)).setCoder format oid (some coder)).Coherent :=
  coherent.row format ((coherent format).store oid (some coder))

/-- A blank entry is nobody's. -/
theorem hit_blank (oid : Oid) : (place γ).hit oid (0, none) = false := by
  simp only [place, Option.isSome_none, Bool.or_false, Bool.and_eq_false_iff, beq_eq_false_iff_ne, bne_eq_false_iff_eq]
  by_cases zero : oid = 0
  · exact Or.inr zero
  · exact Or.inl (Ne.symm zero)

/-- An entry is blanked. -/
theorem Tmbo.Coherent.blanked {this : Tmbo γ τ} (coherent : this.Coherent) (format : Fin 2) (oid : Oid) :
    (this.setEntry format ((place γ).slot oid) (0, none)).Coherent := by
  have cleared : SlotCache.Coherent (place γ) (this.oidToCoder format)
      (Function.update (this.cacheRow format) ((place γ).slot oid) (0, none)) :=
    (coherent format).clear (fun other _ => hit_blank other) fun _ _ => rfl
  have row := coherent.row format cleared
  rwa [Function.update_eq_self] at row

/-- An entry is blanked, and the coder is taken out of the hash. -/
theorem Tmbo.Coherent.removed {this : Tmbo γ τ} (coherent : this.Coherent) (format : Fin 2) (oid : Oid) :
    ((this.setEntry format ((place γ).slot oid) (0, none)).setCoder format oid none).Coherent := by
  refine coherent.row format ((coherent format).clear (fun other _ => hit_blank other) fun other different => ?_)
  exact Function.update_of_ne different _ _

theorem keeps_addCoder (coder : γ) (oid : Oid) (format : Int) :
    Keeps (pgTmboAddCoder coder oid format : Method Stop (Tmbo γ τ) _) := by
  refine .bind (preserves_checkFrozen _) fun _ => ?_
  split
  · exact .raise _
  · intro this coherent
    exact coherent.added _ oid coder

/-- The slot that is blanked is the one of the key that is deleted. -/
theorem num2uint_of_key {oid : Int} {key : Oid} (known : keyOf oid = some key) : num2uint oid = .ok key := by
  unfold keyOf at known
  split at known
  · rename_i inside
    unfold num2uint
    rw [if_neg (by omega), if_neg (by omega)]
    exact congrArg Except.ok (Option.some.inj known)
  · cases known

theorem keeps_rmCoder (format oid : Int) : Keeps (pgTmboRmCoder format oid : Method Stop (Tmbo γ τ) _) := by
  refine .bind (.ofExcept _) fun iFormat => .bind (preserves_checkFrozen _) fun _ => ?_
  split
  · exact .raise _
  · rename_i form _
    intro this coherent
    cases known : keyOf oid with
    | none =>
      cases num2uint oid with
      | error stop => exact coherent
      | ok slot => exact coherent.blanked form slot
    | some key =>
      rw [num2uint_of_key known]
      exact coherent.removed form key

theorem Op.keeps [DecidableEq τ] (env : Env τ) (op : Op γ τ) : Keeps (op.exec env) := by
  cases op with
  | addCoder coder oid format => exact keeps_addCoder coder oid format
  | rmCoder format oid => exact .bind (keeps_rmCoder format oid) fun _ => .pure _
  | resultValue result tuple field => exact .bind (preserves_resultValue keeps_lookup result tuple field) fun _ => .pure _
  | buildColumnMap result => exact .bind (preserves_build keeps_lookup _ result) fun _ => .pure _
  | fitToResult result => exact .bind (preserves_fit keeps_lookup _ _ result) fun _ => .pure _
  | setMaxRows value => exact .bind (preserves_checkFrozen _) fun _ => .change fun _ coherent => coherent
  | setDefault tm => exact .bind (preserves_checkFrozen _) fun _ => .change fun _ coherent => coherent
  | freeze => exact .change fun _ coherent => coherent

end Preserved

/-- **In every history** the caches agree with the hashes. -/
theorem runOps_coherent [DecidableEq τ] (env : Env τ) (ops : List (Op γ τ)) {this : Tmbo γ τ}
    (coherent : this.Coherent) : (runOps env ops this).Coherent := by
  induction ops generalizing this with
  | nil => exact coherent
  | cons op ops ih => exact ih (op.keeps env this coherent)

section Strategies

variable {this : Tmbo γ τ} {result : PgResult} {tuple field : Nat}

/-- Online, a value is cast by what the hash holds. -/
theorem pgTmboResultValue_spec (coherent : this.Coherent) (supported : (formatIndex (result.fformat field)).isSome) :
    (pgTmboResultValue result tuple field this).1 =
      .ok (if result.getisnull tuple field = true then .null else castBy (held this result field) this.defaultTypemap) := by
  unfold pgTmboResultValue
  by_cases null : result.getisnull tuple field = true
  · rw [if_pos null, if_pos null]
    rfl
  · obtain ⟨format, known⟩ := Option.isSome_iff_exists.1 supported
    obtain ⟨this', looked, ⟨_, rfl⟩, -⟩ := pgTmboLookupOid_spec coherent format (result.ftype field)
    rw [if_neg null, if_neg null]
    dsimp only
    rw [known]
    dsimp only
    rw [bind_ok looked, read_bind, held, known]
    rfl

/-- The column map holds what the hashes hold. -/
theorem pgTmboBuild_spec (coherent : this.Coherent) (allStrings : τ)
    (supported : ∀ i < result.nfields, (formatIndex (result.fformat i)).isSome) :
    ∃ this', pgTmboBuildTypeMapForResult2 allStrings result this =
        (.ok ⟨(List.range result.nfields).map (held this result), allStrings⟩, this') ∧
      this.SameBut this' ∧ this'.Coherent := by
  obtain ⟨this', run, same, coherent'⟩ := @lookupFields_spec γ τ result (List.range result.nfields) this coherent
    fun i member => supported i (List.mem_range.1 member)
  refine ⟨this', ?_, same, coherent'⟩
  unfold pgTmboBuildTypeMapForResult2
  rw [bind_ok run, pure_apply]

theorem columns_getD (inside : field < result.nfields) :
    ((List.range result.nfields).map (held this result)).getD field none = held this result field := by
  rw [List.getD_eq_getElem?_getD, List.getElem?_map, List.getElem?_range inside]
  rfl

/-- The cast of a value of the result, by the type map that `pg_tmbo_fit_to_result` returned. -/
def Fitted.resultValue (fitted : Fitted γ τ) (this : Tmbo γ τ) (result : PgResult) (tuple field : Nat) :
    Outcome (Cast γ τ) :=
  match fitted with
  | .self => (pgTmboResultValue result tuple field this).1
  | .copy tm => (pgTmboResultValue result tuple field { tm with oidToCoder := this.oidToCoder }).1
  | .column tm => .ok (pgTmbcResultValue tm result tuple field)

/-- Whatever the type map fits to, every value is cast by what the hash holds, else by what the
default type map fits to. -/
theorem pgTmboFitToResult_spec [DecidableEq τ] (env : Env τ) (coherent : this.Coherent)
    (supported : ∀ i < result.nfields, (formatIndex (result.fformat i)).isSome) (inside : field < result.nfields)
    {sub : τ} (fits : env.fitDefault this.defaultTypemap result = .ok sub) :
    ∃ fitted this', pgTmboFitToResult env.fitDefault env.allStrings result this = (.ok fitted, this') ∧
      fitted.resultValue this' result tuple field =
        .ok (if result.getisnull tuple field = true then .null else castBy (held this result field) sub) := by
  unfold pgTmboFitToResult
  rw [read_bind, fits, bind_ok (ofExcept_apply _ _)]
  by_cases few : result.ntuples ≤ this.maxRowsForOnlineLookup
  · rw [if_pos few]
    by_cases same : sub = this.defaultTypemap
    · rw [if_pos same]
      refine ⟨_, _, rfl, ?_⟩
      subst same
      exact pgTmboResultValue_spec coherent (supported field inside)
    · rw [if_neg same]
      refine ⟨_, _, rfl, ?_⟩
      -- the copy starts with the entries of this cache, in front of the same hashes
      have copied : Tmbo.Coherent { this with defaultTypemap := sub, frozen := false } := coherent
      exact pgTmboResultValue_spec copied (supported field inside)
  · rw [if_neg few]
    obtain ⟨this', built, -, -⟩ := pgTmboBuild_spec coherent env.allStrings supported
    rw [bind_ok built, pure_apply]
    refine ⟨_, _, rfl, ?_⟩
    simp only [Fitted.resultValue, pgTmbcResultValue, columns_getD inside]

end Strategies

theorem isSome_formatIndex {format : Int} (known : format = 0 ∨ format = 1) : (formatIndex format).isSome := by
  rcases known with rfl | rfl
  · rfl
  · rfl

/-- **The two lookup strategies agree** with each other and with the hashes, after every history of
calls on a type map: the coder looked up online, the coder in the column map, and the cast of
every value by the type map that is fitted to a result of any number of rows. -/
theorem oid_lookup_strategies_agree [DecidableEq τ] (env : Env τ) (ops : List (Op γ τ)) (result : PgResult)
    (supported : ∀ i < result.nfields, result.fformat i = 0 ∨ result.fformat i = 1) (tuple field : Nat)
    (inside : field < result.nfields) :
    let this := runOps env ops (pgTmboSAllocate env.allStrings)
    (pgTmboResultValue result tuple field this).1 =
        .ok (if result.getisnull tuple field = true then .null
          else castBy (held this result field) this.defaultTypemap) ∧
      (∃ colmap this', pgTmboBuildTypeMapForResult2 env.allStrings result this = (.ok colmap, this') ∧
        colmap.convs.getD field none = held this result field) ∧
      ∀ sub, env.fitDefault this.defaultTypemap result = .ok sub →
        ∃ fitted this', pgTmboFitToResult env.fitDefault env.allStrings result this = (.ok fitted, this') ∧
          fitted.resultValue this' result tuple field =
            .ok (if result.getisnull tuple field = true then .null else castBy (held this result field) sub) := by
  intro this
  have coherent : this.Coherent := runOps_coherent env ops (pgTmboSAllocate_coherent env.allStrings)
  have known : ∀ i < result.nfields, (formatIndex (result.fformat i)).isSome := fun i below =>
    isSome_formatIndex (supported i below)
  refine ⟨pgTmboResultValue_spec coherent (known field inside), ?_, ?_⟩
  · obtain ⟨this', built, -, -⟩ := pgTmboBuild_spec coherent env.allStrings known
    exact ⟨_, this', built, columns_getD inside⟩
  · intro sub fits
    exact pgTmboFitToResult_spec env coherent known inside fits

/-- A column of type 25, after the coder of type 281 was put into its cache slot and removed. -/
theorem oid_lookup_strategies_agree_slot :
    (pgTmboResultValue ⟨1, 1, fun _ => 0, fun _ => 25, fun _ _ => false⟩ 0 0
      (runOps ⟨(), fun tm _ => .ok tm⟩ [.addCoder 7 25 0, .addCoder 8 281 0, .rmCoder 0 281] (pgTmboSAllocate ()))).1 =
        .ok (.coder 7) := by
  have agree := oid_lookup_strategies_agree ⟨(), fun tm _ => .ok tm⟩
    [.addCoder 7 25 0, .addCoder 8 281 0, .rmCoder 0 281] ⟨1, 1, fun _ => 0, fun _ => 25, fun _ _ => false⟩
    (fun _ _ => Or.inl rfl) 0 0 (Nat.zero_lt_one)
  exact agree.1

end RubyPg.ByOid
