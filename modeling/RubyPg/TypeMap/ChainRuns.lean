import RubyPg.Lib.History
import RubyPg.TypeMap.Chain

/-!
# Type maps and results in use

Whole programs that make type maps, change them, give them to results, stream results and read values.
`pg_tmbc_result_value` relies on `fit_to_result` for the number of columns. Three calls may undo that: a new
default type map for one that results use already; a stream that meets the result of another query, which
`pgresult_stream_any` keeps although it raises; and a type map given to such a result while another stream of
it still runs. A stream goes on when its block has cleared the result or given it another type map, so its
columns count even where the result has none. `Harmless` says when the three do no damage, and
`values_inside_columns` that then, and only then, every result stays with a chain that fits.
-/

namespace RubyPg.TypeMaps
set_option autoImplicit false
open Method ByOid History

variable {γ : Type}

/-- The calls of a program. Results are known by the order in which they were made. -/
inductive Op (γ : Type) where
  | newUnsuitable (className : String)
  | newAllStrings
  | newByColumn (convs : List (Option γ))
  | newByOid
  | newInRuby (warning : Bool)
  | setDefault (self default : Ref)
  | addCoder (self : Ref) (coder : γ) (oid : Oid) (format : Int)
  | rmCoder (self : Ref) (format oid : Int)
  | setMaxRows (self : Ref) (value : Int)
  | buildColumnMap (self : Ref) (i : Nat)
  | freeze (self : Ref)
  | newResult (r : PgResult) (status : PgResult.ExecStatus) (typeMapForResults : Ref)
  | clear (i : Nat)
  | setTypeMap (i : Nat) (tm : Ref)
  /-- `stream_each` and its kin are called. The calls up to the next step of the stream may be those of its block. -/
  | streamStart (i : Nat)
  /-- Its block is through with the rows, and libpq has another result. -/
  | streamNext (k : Nat) (next : PgResult) (status : PgResult.ExecStatus)
  /-- It is left: its block breaks or raises, the connection is lost, or there is no other result. -/
  | streamLeave (k : Nat)
  /-- `stream_each_tuple` makes its copy of the result. -/
  | yieldTuple (k : Nat)
  | getvalue (i : Nat) (tupNum fieldNum : Int)

def TypeMap.frozen : TypeMap γ → Bool
  | .unsuitable _ => false
  | .allStrings => true
  | .byColumn _ frozen => frozen
  | .byOid own _ => own.frozen
  | .inRuby _ frozen _ => frozen

def TypeMap.freeze : TypeMap γ → TypeMap γ
  | .byColumn this _ => .byColumn this true
  | .byOid own hashes => .byOid { own with frozen := true } hashes
  | .inRuby default _ alreadyWarned => .inRuby default true alreadyWarned
  | tm => tm

/-- `RB_OBJ_WRITE(self, &this->default_typemap, typemap)`. Where the type map does not cast results, it is left out. -/
def TypeMap.setDefault (d : Ref) : TypeMap γ → TypeMap γ
  | .byColumn this frozen => .byColumn { this with defaultTypemap := d } frozen
  | .byOid own hashes => .byOid { own with defaultTypemap := d } hashes
  | .inRuby _ frozen alreadyWarned => .inRuby d frozen alreadyWarned
  | tm => tm

def TypeMap.className : TypeMap γ → String
  | .unsuitable className => className
  | .allStrings => "PG::TypeMapAllStrings"
  | .byColumn _ _ => "PG::TypeMapByColumn"
  | .byOid _ _ => "PG::TypeMapByOid"
  | .inRuby _ _ none => "PG::TypeMapInRuby"
  | .inRuby _ _ (some _) => "PG::BasicTypeMapForResults::WarningTypeMap"

/-- Write to an object. -/
def write (self : Ref) (tm : TypeMap γ) : Call γ Unit := change fun w => { w with maps := w.maps.set self tm }

/-- `pg_typemap_default_type_map_set`. -/
def pgTypemapDefaultTypeMapSet (self d : Ref) : Call γ Unit := do
  let tm ← this self
  if tm.frozen then
    let className := tm.className
    raise (.stop (.exn .frozenError s!"can't modify frozen {className}"))
  else write self (tm.setDefault d)

/-- The object of a result. -/
def held (i : Nat) : Call γ TPgResult := fun w =>
  match w.results[i]? with
  | some result => (.ok result, w)
  | none => (.error (.stop (.exn .noMethodError "undefined method for nil")), w)

/-- Write to a result. -/
def writeResult (i : Nat) (result : TPgResult) : Call γ Unit :=
  change fun w => { w with results := w.results.set i result }

/-- `pg_new_result2`, with the result of a query. -/
def pgNewResult (r : PgResult) (status : PgResult.ExecStatus) (typeMapForResults : Ref) : Call γ Unit := do
  let typemap ← fitTo (some r) typeMapForResults
  change fun w => { w with results := w.results ++ [⟨some (r, status), typemap⟩] }

/-- `pgresult_type_map_set`. -/
def pgresultTypeMapSet (i : Nat) (tm : Ref) : Call γ Unit := do
  let result ← held i
  let typemap ← fitTo (result.pgresult.map Prod.fst) tm
  writeResult i { result with typemap }

/-- The `switch` of `pgresult_stream_any`: whether the stream goes on with this `PGresult`. -/
def streamStatus (r : PgResult) (status : PgResult.ExecStatus) : Call γ Bool :=
  if status.finished = true then
    if r.ntuples = 0 then pure false
    else raise (.result .invalidResultStatus "PG::Result is not in single row mode")
  else if status.goesOn = true then pure true
  else raise .check

/-- `pgresult_stream_any`, up to its first call of the block. -/
def pgresultStreamStart (i : Nat) : Call γ Unit := do
  let result ← held i
  match result.pgresult with
  | none => raise (.result .pgError "result has been cleared")
  | some (r, status) =>
    if ← streamStatus r status then
      change fun w => { w with streams := w.streams ++ [⟨i, r.nfields, true⟩] }

/-- The call of `pgresult_stream_any` that runs as number `k`. -/
def streaming (k : Nat) : Call γ Stream := fun w =>
  match w.streams[k]? with
  | some stream =>
    if stream.running = true then (.ok stream, w)
    else (.error (.stop (.exn .noMethodError "undefined method for nil")), w)
  | none => (.error (.stop (.exn .noMethodError "undefined method for nil")), w)

def writeStream (k : Nat) (stream : Stream) : Call γ Unit :=
  change fun w => { w with streams := w.streams.set k stream }

/-- From one round of `pgresult_stream_any` to the next: `this->pgresult = pgresult`, and the checks, which end the
stream if they fail. Whether the block has cleared the result makes no difference. -/
def pgresultStreamNext (k : Nat) (next : PgResult) (status : PgResult.ExecStatus) : Call γ Unit := do
  let stream ← streaming k
  let result ← held stream.result
  writeResult stream.result { result with pgresult := some (next, status) }
  writeStream k { stream with running := false }
  if ← streamStatus next status then
    if stream.nfields ≠ next.nfields then
      let nfields := stream.nfields
      let nfields2 := next.nfields
      writeResult stream.result { result with pgresult := none }
      raise (.result .invalidChangeOfResultFields
        s!"number of fields changed in single row mode from {nfields} to {nfields2} - this is a sign for intersection with another query")
    else writeStream k stream

/-- An exception or a `break` ends `pgresult_stream_any`. -/
def pgresultStreamLeave (k : Nat) : Call γ Unit := do
  let stream ← streaming k
  writeStream k { stream with running := false }

/-- `yield_tuple`: the copy of `pg_copy_result` takes over the `PGresult`. -/
def yieldTuple (k : Nat) : Call γ Unit := do
  let stream ← streaming k
  let result ← held stream.result
  change fun w => { w with results := w.results.set stream.result { result with pgresult := none } ++ [result] }

/-- `pgresult_getvalue`, up to the call of the decoder. -/
def pgresultGetvalue (i : Nat) (tupNum fieldNum : Int) : Call γ (Answer γ) := do
  let result ← held i
  match result.pgresult with
  | none => raise (.result .pgError "result has been cleared")
  | some (r, _) =>
    if tupNum < 0 ∨ tupNum ≥ r.ntuples then raise (.stop (.exn .argumentError s!"invalid tuple number {tupNum}"))
    else if fieldNum < 0 ∨ fieldNum ≥ r.nfields then
      raise (.stop (.exn .argumentError s!"invalid field number {fieldNum}"))
    else valueBy result.typemap r tupNum.toNat fieldNum.toNat

/-- `pg_tmbo_build_column_map`, for a result. -/
def pgTmboBuildColumnMap (self : Ref) (i : Nat) : Call γ Unit := do
  let result ← held i
  let r ← pgresultGet (result.pgresult.map Prod.fst)
  let colmap ← onOid self (pgTmboBuildTypeMapForResult2 pgTypemapAllStrings r)
  let _ ← allocate (.byColumn colmap false)

/-- `max_rows_for_online_lookup=`. -/
def pgTmboMaxRowsForOnlineLookupSet (value : Int) : Method Stop (Tmbo γ Ref) Unit := do
  checkFrozen
  change fun this => { this with maxRowsForOnlineLookup := value }

/-- `freeze`. -/
def objFreeze (self : Ref) : Call γ Unit := do
  let tm ← this self
  write self tm.freeze

/-- `pg_result_clear`. -/
def pgResultClear (i : Nat) : Call γ Unit := do
  let result ← held i
  writeResult i { result with pgresult := none }

/-- One call; the answer is that of `getvalue`. -/
def Op.exec : Op γ → Call γ (Option (Answer γ))
  | .newUnsuitable className => do
    let _ ← allocate (.unsuitable className)
    pure none
  | .newAllStrings => do
    let _ ← allocate .allStrings
    pure none
  | .newByColumn convs => do
    let _ ← allocate (.byColumn ⟨convs, pgTypemapAllStrings⟩ false)
    pure none
  | .newByOid => do
    let w ← read
    let _ ← allocate (.byOid (pgTmboSAllocate pgTypemapAllStrings : Tmbo γ Ref).toOwn w.maps.length)
    pure none
  | .newInRuby warning => do
    let w ← read
    let _ ← allocate (.inRuby pgTypemapAllStrings false (if warning then some w.maps.length else none))
    pure none
  | .setDefault self default => do
    pgTypemapDefaultTypeMapSet self default
    pure none
  | .addCoder self coder oid format => do
    onOid self (pgTmboAddCoder coder oid format)
    pure none
  | .rmCoder self format oid => do
    let _ ← onOid self (pgTmboRmCoder format oid)
    pure none
  | .setMaxRows self value => do
    onOid self (pgTmboMaxRowsForOnlineLookupSet value)
    pure none
  | .buildColumnMap self i => do
    pgTmboBuildColumnMap self i
    pure none
  | .freeze self => do
    objFreeze self
    pure none
  | .newResult r status typeMapForResults => do
    pgNewResult r status typeMapForResults
    pure none
  | .clear i => do
    pgResultClear i
    pure none
  | .setTypeMap i tm => do
    pgresultTypeMapSet i tm
    pure none
  | .streamStart i => do
    pgresultStreamStart i
    pure none
  | .streamNext k next status => do
    pgresultStreamNext k next status
    pure none
  | .streamLeave k => do
    pgresultStreamLeave k
    pure none
  | .yieldTuple k => do
    TypeMaps.yieldTuple k
    pure none
  | .getvalue i tupNum fieldNum => do
    let value ← pgresultGetvalue i tupNum fieldNum
    pure (some value)

/-- The world behind a call, which may raise. -/
def step (w : World γ) (op : Op γ) : World γ := (op.exec w).2

/-- `PG::TypeMapAllStrings`, before a program starts. -/
def World.start : World γ where
  maps := [.allStrings]
  oidToCoder _ _ _ := none
  alreadyWarned _ := []
  warnings := []
  results := []

/-! ### Calls that leave the chains alone -/

/-- No type map gets another default or other columns, and the results and streams stay. -/
structure Beyond (w w' : World γ) : Prop where
  longer : Extends w w'
  results : w'.results = w.results
  streams : w'.streams = w.streams

section Beyonds

variable {w w' : World γ} {t : Ref}

theorem Beyond.refl (w : World γ) : Beyond w w := ⟨fun _ _ here => here, rfl, rfl⟩

theorem shape_set_of_eq {tm tm' : TypeMap γ} (here : w.maps[t]? = some tm) (same : tm'.shape = tm.shape) (u : Ref) :
    World.shape { w with maps := w.maps.set t tm' } u = w.shape u := by
  by_cases other : u = t
  · subst other
    rw [World.shape, World.shape, List.getElem?_set_self (List.getElem?_eq_some_iff.1 here).1, here, Option.map_some,
      Option.map_some, same]
  · rw [World.shape, World.shape, List.getElem?_set_ne (Ne.symm other)]

theorem beyond_allocate (w : World γ) (tm : TypeMap γ) : Preserves (Beyond w) (allocate tm) := by
  intro w' beyond
  refine ⟨fun t s here => ?_, beyond.results, beyond.streams⟩
  exact (grows_with w' tm).extends t s (beyond.longer t s here)

/-- The method leaves the default type map alone. -/
abbrev KeepsDefault {α : Type} (m : Method Stop (Tmbo γ Ref) α) : Prop :=
  ∀ d, Preserves (fun tm : Tmbo γ Ref => tm.defaultTypemap = d) m

theorem beyond_onOid {α : Type} {m : Method Stop (Tmbo γ Ref) α} (keeps : KeepsDefault m) (w : World γ) (t : Ref) :
    Preserves (Beyond w) (onOid t m) := by
  intro w' beyond
  unfold onOid
  split
  · rename_i own hashes here
    refine ⟨fun u s there => ?_, beyond.results, beyond.streams⟩
    have same : (TypeMap.byOid (m (w'.tmbo own hashes)).2.toOwn hashes : TypeMap γ).shape = (TypeMap.byOid own hashes).shape :=
      congrArg Shape.passes (keeps _ (w'.tmbo own hashes) rfl)
    have before := shape_set_of_eq here same u
    rw [← beyond.longer u s there, ← before]
    rfl
  · exact beyond

theorem keepsDefault_lookup (format : Fin 2) (oid : Oid) :
    KeepsDefault (pgTmboLookupOid format oid : Method Stop (Tmbo γ Ref) _) := by
  intro d tm same
  rw [pgTmboLookupOid_eq]
  exact same

theorem keepsDefault_build (r : PgResult) :
    KeepsDefault (pgTmboBuildTypeMapForResult2 pgTypemapAllStrings r : Method Stop (Tmbo γ Ref) _) := fun d =>
  preserves_build (fun format oid => keepsDefault_lookup format oid d) _ r

theorem keepsDefault_resultValue (r : PgResult) (tuple field : Nat) :
    KeepsDefault (pgTmboResultValue r tuple field : Method Stop (Tmbo γ Ref) _) := fun d =>
  preserves_resultValue (fun format oid => keepsDefault_lookup format oid d) r tuple field

theorem keepsDefault_addCoder (coder : γ) (oid : Oid) (format : Int) :
    KeepsDefault (pgTmboAddCoder coder oid format : Method Stop (Tmbo γ Ref) _) := by
  intro d
  refine .bind (preserves_checkFrozen _) fun _ => ?_
  split
  · exact .raise _
  · exact .bind (.change fun _ same => same) fun _ => .change fun _ same => same

theorem keepsDefault_rmCoder (format oid : Int) :
    KeepsDefault (pgTmboRmCoder format oid : Method Stop (Tmbo γ Ref) _) := by
  intro d
  refine .bind (.ofExcept _) fun iFormat => .bind (preserves_checkFrozen _) fun _ => ?_
  split
  · exact .raise _
  · refine .bind (.ofExcept _) fun slot => .bind (.change fun _ same => same) fun _ => ?_
    split
    · exact .pure _
    · exact .bind .read fun _ => .bind (.change fun _ same => same) fun _ => .pure _

theorem keepsDefault_setMaxRows (value : Int) :
    KeepsDefault (pgTmboMaxRowsForOnlineLookupSet value : Method Stop (Tmbo γ Ref) _) := fun _ =>
  .bind (preserves_checkFrozen _) fun _ => .change fun _ same => same

section Preserving

variable {P : World γ → Prop} (looks : ∀ {α : Type} t (m : Method Stop (Tmbo γ Ref) α), KeepsDefault m → Preserves P (onOid t m))

theorem preserves_this (t : Ref) : Preserves P (this t) := by
  intro w holds
  unfold this
  split <;> exact holds

theorem preserves_pgresultGet (result : Option PgResult) : Preserves P (pgresultGet result) := by
  cases result with
  | none => exact .raise _
  | some r => exact .pure _

theorem preserves_held (i : Nat) : Preserves P (held i) := by
  intro w holds
  unfold held
  split <;> exact holds

theorem preserves_streamStatus (r : PgResult) (status : PgResult.ExecStatus) : Preserves P (streamStatus r status) := by
  intro w holds
  unfold streamStatus
  split
  · split <;> exact holds
  · split <;> exact holds

include looks

/-- What new objects and lookups keep, `fit_to_result` keeps. -/
theorem preserves_fitToResult (allocates : ∀ tm, tm.frozen = false → Preserves P (allocate tm))
    (result : Option PgResult) (fuel : Nat) (t : Ref) : Preserves P (fitToResult result fuel t) := by
  induction fuel generalizing t with
  | zero => exact .raise _
  | succ fuel ih =>
    refine .bind (preserves_this t) fun tm => ?_
    cases tm with
    | unsuitable className => exact .raise _
    | allStrings => exact .pure _
    | byColumn tm frozen =>
      refine .bind (preserves_pgresultGet result) fun r => ?_
      dsimp only
      split
      · exact .raise _
      · refine .bind (ih _) fun sub => ?_
        split
        · exact .pure _
        · exact allocates _ rfl
    | byOid own hashes =>
      refine .bind (preserves_pgresultGet result) fun r => .bind (ih _) fun sub => ?_
      split
      · split
        · exact .pure _
        · exact allocates _ rfl
      · exact .bind (looks t _ (keepsDefault_build r)) fun colmap => allocates _ rfl
    | inRuby default frozen alreadyWarned =>
      refine .bind (ih _) fun sub => ?_
      split
      · exact allocates _ rfl
      · exact .pure _

/-- What lookups and warnings keep, reading values keeps. -/
theorem preserves_typecastResultValue
    (warns : ∀ (w : World γ) (t d : Ref) (frozen : Bool) (h : Nat), w.maps[t]? = some (TypeMap.inRuby d frozen (some h)) →
      P w → ∀ format oid, P (warnUndefined frozen h format oid w).2)
    (r : PgResult) (tuple field : Nat) (fuel : Nat) (t : Ref) : Preserves P (typecastResultValue r tuple field fuel t) := by
  induction fuel generalizing t with
  | zero => exact .raise _
  | succ fuel ih =>
    have ofCast_keeps (cast : Cast γ Ref) : Preserves P (ofCast (typecastResultValue r tuple field fuel) cast) := by
      cases cast with
      | null => exact .pure _
      | coder conv => exact .pure _
      | default tm => exact ih tm
    intro w holds
    rw [typecastResultValue]
    cases here : w.maps[t]? with
    | none =>
      have lost : this t w = (.error (.stop .undefined), w) := by rw [this, here]
      rw [bind_error lost]
      exact holds
    | some tm =>
      rw [this_bind here]
      cases tm with
      | unsuitable className => exact holds
      | allStrings => exact holds
      | byColumn tm frozen =>
        dsimp only
        unfold pgTmbcTypecast
        split
        · exact holds
        · exact ofCast_keeps _ w holds
      | byOid own hashes => exact Preserves.bind (looks t _ (keepsDefault_resultValue r tuple field)) ofCast_keeps w holds
      | inRuby default frozen alreadyWarned =>
        cases alreadyWarned with
        | none => exact ih default w holds
        | some h => exact Preserves.behind (warns w t default frozen h here holds _ _) fun _ => ih default

end Preserving

theorem beyond_fitToResult (w : World γ) (result : Option PgResult) (fuel : Nat) (t : Ref) :
    Preserves (Beyond w) (fitToResult result fuel t) :=
  preserves_fitToResult (fun t _ keeps => beyond_onOid keeps w t) (fun tm _ => beyond_allocate w tm) result fuel t

theorem beyond_warnUndefined (w : World γ) (frozen : Bool) (alreadyWarned : Nat) (format : Int) (oid : Oid) :
    Preserves (Beyond w) (warnUndefined frozen alreadyWarned format oid) := by
  refine .change fun w' beyond => ?_
  split
  · exact beyond
  · exact ⟨beyond.longer, beyond.results, beyond.streams⟩

theorem beyond_typecastResultValue (w : World γ) (r : PgResult) (tuple field : Nat) (fuel : Nat) (t : Ref) :
    Preserves (Beyond w) (typecastResultValue r tuple field fuel t) :=
  preserves_typecastResultValue (fun t _ keeps => beyond_onOid keeps w t)
    (fun w' _ _ frozen h _ beyond format oid => beyond_warnUndefined w frozen h format oid w' beyond) r tuple field fuel t

theorem beyond_fitTo (w : World γ) (result : Option PgResult) (t : Ref) : Preserves (Beyond w) (fitTo result t) :=
  fun w' => beyond_fitToResult w result w'.maps.length t w'

theorem beyond_valueBy (w : World γ) (t : Ref) (r : PgResult) (tuple field : Nat) :
    Preserves (Beyond w) (valueBy t r tuple field) :=
  fun w' => beyond_typecastResultValue w r tuple field w'.maps.length t w'

end Beyonds

/-! ### What `fit_to_result` returns fits -/

section Returned

variable {w w' : World γ} {r : PgResult} {t t' : Ref}

theorem fits_with {tm : TypeMap γ} {nfields : Nat} {d : Ref} (default : tm.shape.default = some d)
    (accepts : tm.shape.Accepts nfields) (behind : w.Fits nfields d) : (w.with tm).Fits nfields w.maps.length := by
  obtain ⟨ds, chain⟩ := behind
  exact ⟨_, .cons (World.shape_at (maps_with w tm)) default accepts ((grows_with w tm).chain chain)⟩

theorem lookupFields_length {fields : List Nat} {tm tm' : Tmbo γ Ref} {convs : List (Option γ)}
    (run : lookupFields r fields tm = (.ok convs, tm')) : convs.length = fields.length := by
  induction fields generalizing tm convs with
  | nil =>
    cases run
    rfl
  | cons i rest ih =>
    rw [lookupFields] at run
    dsimp only at run
    cases known : formatIndex (r.fformat i) with
    | none =>
      rw [known] at run
      cases run
    | some format =>
      rw [known] at run
      obtain ⟨conv, tm₁, -, run⟩ := of_bind run
      obtain ⟨later, tm₂, looked, run⟩ := of_bind run
      cases run
      rw [List.length_cons, List.length_cons, ih looked]

theorem build_columns {tm tm' : Tmbo γ Ref} {colmap : Tmbc γ Ref}
    (run : pgTmboBuildTypeMapForResult2 pgTypemapAllStrings r tm = (.ok colmap, tm')) : colmap.convs.length = r.nfields := by
  obtain ⟨convs, tm₁, looked, done⟩ := of_bind run
  cases done
  exact (lookupFields_length looked).trans List.length_range

theorem onOid_ok {α : Type} {m : Method Stop (Tmbo γ Ref) α} {a : α} (run : onOid t m w = (.ok a, w')) :
    ∃ tm tm', m tm = (.ok a, tm') := by
  unfold onOid at run
  split at run
  · rename_i own hashes here
    cases ran : m (w.tmbo own hashes) with
    | mk result tm' =>
      rw [ran] at run
      cases result with
      | ok b =>
        cases run
        exact ⟨_, tm', ran⟩
      | error e => cases run
  · cases run

theorem fitToResult_returned {fuel : Nat} (run : fitToResult (some r) fuel t w = (.ok t', w')) : w'.Fits r.nfields t' := by
  induction fuel generalizing w t t' w' with
  | zero => cases run
  | succ fuel ih =>
    have fits := fitToResult_fits run
    have beyond := beyond_fitToResult w (some r) (fuel + 1) t w (.refl w)
    rw [run] at beyond
    have kept := beyond.longer.fits fits
    rw [fitToResult] at run
    obtain ⟨tm, w₁, looked, run⟩ := of_bind run
    cases tm with
    | unsuitable className => cases run
    | allStrings =>
      cases run
      exact kept
    | byColumn tm frozen =>
      obtain ⟨r₁, w₂, got, run⟩ := of_bind run
      cases got
      split at run
      · cases run
      · rename_i columns
        obtain ⟨sub, w₃, fit, run⟩ := of_bind run
        split at run
        · cases run
          exact kept
        · cases run
          exact fits_with rfl (not_not.1 columns) (ih fit)
    | byOid own hashes =>
      obtain ⟨r₁, w₂, got, run⟩ := of_bind run
      cases got
      obtain ⟨sub, w₃, fit, run⟩ := of_bind run
      split at run
      · split at run
        · cases run
          exact kept
        · cases run
          exact fits_with rfl trivial (ih fit)
      · obtain ⟨colmap, w₄, built, run⟩ := of_bind run
        cases run
        obtain ⟨_, _, convs⟩ := onOid_ok built
        have later := beyond_onOid (keepsDefault_build r) w₃ t w₃ (.refl w₃)
        rw [built] at later
        have columns : colmap.convs.length = r.nfields := build_columns convs
        exact fits_with rfl columns (later.longer.fits (ih fit))
    | inRuby default frozen alreadyWarned =>
      obtain ⟨sub, w₃, fit, run⟩ := of_bind run
      split at run
      · cases run
        exact fits_with rfl trivial (ih fit)
      · cases run
        exact kept

theorem fitTo_returned (run : fitTo (some r) t w = (.ok t', w')) : w'.Fits r.nfields t' := fitToResult_returned run

end Returned

/-! ### Values are read inside the columns -/

/-- A Ruby exception, and not undefined behaviour or a recursion without end. -/
def Raised.IsException : Raised → Prop
  | .stop (.exn _ _) | .notImplementedError _ | .result _ _ | .check => True
  | .stop .undefined | .stop .fuel => False

/-- The call returns or raises a Ruby exception. -/
def Behaves {α : Type} (out : Except Raised α × World γ) : Prop := ∀ e, out.1 = .error e → e.IsException

theorem Behaves.pure {α : Type} (a : α) (w : World γ) : Behaves ((pure a : Call γ α) w) := by
  intro e raised
  cases raised

theorem Behaves.raise {α : Type} {e : Raised} (exception : e.IsException) (w : World γ) : Behaves ((raise e : Call γ α) w) := by
  intro e' raised
  cases raised
  exact exception

theorem Behaves.bind {α β : Type} {m : Call γ α} {f : α → Call γ β} {w : World γ} (first : Behaves (m w))
    (rest : ∀ a w', m w = (.ok a, w') → Behaves (f a w')) : Behaves ((m >>= f) w) := by
  cases run : m w with
  | mk result w' =>
    cases result with
    | ok a =>
      rw [bind_ok run]
      exact rest a w' run
    | error e =>
      rw [bind_error run]
      rw [run] at first
      intro e' raised
      cases raised
      exact first e rfl

theorem resultValue_stops {r : PgResult} {tuple field : Nat} {tm tm' : Tmbo γ Ref} {stop : Stop}
    (run : pgTmboResultValue r tuple field tm = (.error stop, tm')) : ∃ cls msg, stop = .exn cls msg := by
  unfold pgTmboResultValue at run
  split at run
  · cases run
  · dsimp only at run
    cases known : formatIndex (r.fformat field) with
    | none =>
      rw [known] at run
      cases run
      exact ⟨_, _, rfl⟩
    | some format =>
      rw [known] at run
      rcases error_of_bind run with looked | ⟨conv, tm₁, -, rest⟩
      · rw [pgTmboLookupOid_eq] at looked
        cases looked
      · cases rest

/-- Without a decoder, the default type map is asked. -/
theorem resultValue_default {r : PgResult} {tuple field : Nat} {tm tm' : Tmbo γ Ref} {d : Ref}
    (run : pgTmboResultValue r tuple field tm = (.ok (.default d), tm')) : d = tm.defaultTypemap := by
  unfold pgTmboResultValue at run
  split at run
  · cases run
  · dsimp only at run
    cases known : formatIndex (r.fformat field) with
    | none =>
      rw [known] at run
      cases run
    | some format =>
      rw [known] at run
      obtain ⟨conv, tm₁, looked, rest⟩ := of_bind run
      have same := keepsDefault_lookup format (r.ftype field) _ tm rfl
      rw [looked] at same
      cases conv with
      | some coder => cases rest
      | none =>
        cases rest
        exact same

theorem onOid_default {w w' : World γ} {t d : Ref} {own : Own γ Ref} {hashes : Nat} {r : PgResult} {tuple field : Nat}
    (here : w.maps[t]? = some (.byOid own hashes))
    (run : onOid t (pgTmboResultValue r tuple field) w = (.ok (.default d), w')) : d = own.defaultTypemap := by
  cases ran : pgTmboResultValue r tuple field (w.tmbo own hashes) with
  | mk result tm' =>
    rw [onOid_at here ran] at run
    cases result with
    | error stop => cases run
    | ok cast =>
      cases run
      exact resultValue_default ran

theorem onOid_behaves {α : Type} {w : World γ} {t : Ref} {own : Own γ Ref} {hashes : Nat}
    (here : w.maps[t]? = some (.byOid own hashes)) {m : Method Stop (Tmbo γ Ref) α}
    (stops : ∀ tm stop tm', m tm = (.error stop, tm') → ∃ cls msg, stop = .exn cls msg) : Behaves (onOid t m w) := by
  intro e raised
  cases ran : m (w.tmbo own hashes) with
  | mk result tm' =>
    rw [onOid_at here ran] at raised
    cases result with
    | ok a => cases raised
    | error stop =>
      obtain ⟨cls, msg, rfl⟩ := stops _ stop tm' ran
      cases raised
      trivial

/-- On a chain that fits, a value is cast without leaving the columns. -/
theorem typecastResultValue_behaves {w : World γ} {r : PgResult} {t : Ref} {ts : List Ref} (chain : w.Chain r.nfields t ts)
    (tuple : Nat) {field : Nat} (inside : field < r.nfields) {fuel : Nat} (enough : ts.length ≤ fuel) :
    Behaves (typecastResultValue r tuple field fuel t w) := by
  induction ts generalizing w t fuel with
  | nil => cases chain.linked
  | cons u us ih =>
    cases fuel with
    | zero => cases enough
    | succ fuel =>
      have short : us.length ≤ fuel := Nat.le_of_succ_le_succ enough
      obtain ⟨tm, here, head⟩ := chain.head
      rw [typecastResultValue, this_bind here]
      cases head with
      | strings => exact .pure _ _
      | @column tm frozen _ columns rest =>
        dsimp only
        rw [pgTmbcTypecast, if_neg (by omega), pgTmbcResultValue]
        split
        · exact .pure _ _
        · cases tm.convs.getD field none with
          | some conv => exact .pure _ _
          | none => exact ih rest short
      | @oid own hashes _ rest =>
        refine .bind (onOid_behaves here fun _ _ _ => resultValue_stops) fun cast w' run => ?_
        have beyond := beyond_onOid (keepsDefault_resultValue r tuple field) w u w (.refl w)
        rw [run] at beyond
        cases cast with
        | null => exact .pure _ _
        | coder conv => exact .pure _ _
        | default d =>
          cases onOid_default here run
          exact ih (beyond.longer.chain rest) short
      | @ruby default frozen alreadyWarned _ rest =>
        cases alreadyWarned with
        | none => exact ih rest short
        | some warned =>
          have beyond := beyond_warnUndefined w frozen warned (r.fformat field) (r.ftype field) w (.refl w)
          refine .bind (fun e raised => by cases raised) fun _ w' run => ?_
          rw [run] at beyond
          exact ih (beyond.longer.chain rest) short

/-! ### Sound worlds -/

/-- The result may give out values of so many columns: it has rows or more of a stream may come, or a stream of
it runs. -/
def World.Serves (w : World γ) (i : Nat) (result : TPgResult) (nfields : Nat) : Prop :=
  (∃ r status, result.pgresult = some (r, status) ∧ (0 < r.ntuples ∨ status.goesOn = true) ∧ r.nfields = nfields) ∨
    ∃ stream ∈ w.streams, stream.running = true ∧ stream.result = i ∧ stream.nfields = nfields

/-- All values of all results can be read, also of those that streams still bring. -/
structure World.Sound (w : World γ) : Prop where
  fits : ∀ i result, w.results[i]? = some result → ∀ nfields, w.Serves i result nfields → w.Fits nfields result.typemap
  known : ∀ stream ∈ w.streams, stream.result < w.results.length

/-- The call gives no result a type map that does not fit. -/
def Harmless (w : World γ) : Op γ → Prop
  | .setDefault self d =>
    ∀ tm, w.maps[self]? = some tm → tm.frozen = false → tm.shape.default.isSome = true →
      ∀ i result, w.results[i]? = some result → ∀ nfields, w.Serves i result nfields →
        ∀ ts, w.Chain nfields result.typemap ts → self ∈ ts → ∃ ds, w.Chain nfields d ds ∧ self ∉ ds
  | .setTypeMap i tm =>
    ∀ result, w.results[i]? = some result → ∀ r status, result.pgresult = some (r, status) →
      ∀ stream ∈ w.streams, stream.running = true → stream.result = i → stream.nfields ≠ r.nfields →
        ∀ typemap w', fitTo (some r) tm w = (.ok typemap, w') → w'.Fits stream.nfields typemap
  | .streamNext k next status =>
    ∀ stream, w.streams[k]? = some stream → stream.running = true → status.goesOn = false → 0 < next.ntuples →
      ∀ result, w.results[stream.result]? = some result → w.Fits next.nfields result.typemap
  | _ => True

section Soundness

variable {w w' : World γ}

theorem World.Serves.congr {i nfields : Nat} {result : TPgResult} (same : w'.streams = w.streams) :
    w'.Serves i result nfields ↔ w.Serves i result nfields := by
  rw [World.Serves, World.Serves, same]

theorem World.Sound.beyond (sound : w.Sound) (beyond : Beyond w w') : w'.Sound where
  fits i result here nfields serves := by
    rw [beyond.results] at here
    exact beyond.longer.fits (sound.fits i result here nfields ((World.Serves.congr beyond.streams).1 serves))
  known stream member := by
    rw [beyond.streams] at member
    rw [beyond.results]
    exact sound.known stream member

theorem sound_of_beyond {α : Type} {m : Call γ α} (keeps : ∀ w, Preserves (Beyond w) m) : Preserves World.Sound m :=
  fun w sound => sound.beyond (keeps w w (.refl w))

/-! ### A new default type map -/

theorem setDefault_shape {tm : TypeMap γ} (links : tm.shape.default.isSome = true) (d : Ref) (nfields : Nat) :
    (tm.setDefault d).shape.default = some d ∧ ((tm.setDefault d).shape.Accepts nfields ↔ tm.shape.Accepts nfields) := by
  cases tm with
  | unsuitable className => cases links
  | allStrings => cases links
  | byColumn tm frozen => exact ⟨rfl, Iff.rfl⟩
  | byOid own hashes => exact ⟨rfl, Iff.rfl⟩
  | inRuby default frozen alreadyWarned => exact ⟨rfl, Iff.rfl⟩

section Redirected

variable {self d : Ref} {tm : TypeMap γ} {nfields : Nat} {t : Ref}

/-- The world with another default type map for one. -/
def World.redirect (w : World γ) (self d : Ref) (tm : TypeMap γ) : World γ :=
  { w with maps := w.maps.set self (tm.setDefault d) }

theorem redirect_shape_self (here : w.maps[self]? = some tm) :
    (w.redirect self d tm).shape self = some (tm.setDefault d).shape := by
  rw [World.shape, World.redirect, List.getElem?_set_self (List.getElem?_eq_some_iff.1 here).1, Option.map_some]

theorem redirect_shape_other (other : t ≠ self) : (w.redirect self d tm).shape t = w.shape t := by
  rw [World.shape, World.shape, World.redirect, List.getElem?_set_ne other.symm]

theorem redirect_next (here : w.maps[self]? = some tm) (links : tm.shape.default.isSome = true) :
    (w.redirect self d tm).next = Function.update w.next self (some d) := by
  funext t
  by_cases other : t = self
  · subst other
    rw [World.next, redirect_shape_self here, Function.update_self]
    exact (setDefault_shape links d 0).1
  · rw [World.next, redirect_shape_other other, Function.update_of_ne other, World.next]

theorem redirect_accepts (here : w.maps[self]? = some tm) (links : tm.shape.default.isSome = true) :
    (w.redirect self d tm).Accepts nfields t ↔ w.Accepts nfields t := by
  by_cases other : t = self
  · subst other
    rw [World.accepts_iff (redirect_shape_self here), World.accepts_iff (w.shape_at here)]
    exact (setDefault_shape links d nfields).2
  · rw [World.Accepts, World.Accepts, redirect_shape_other other]

theorem redirect_fits_iff (here : w.maps[self]? = some tm) (links : tm.shape.default.isSome = true) :
    (w.redirect self d tm).Fits nfields t ↔
      ∃ js, Linked (Function.update w.next self (some d)) t js ∧ ∀ j ∈ js, w.Accepts nfields j := by
  constructor
  · rintro ⟨js, linked, accepts⟩
    rw [redirect_next here links] at linked
    exact ⟨js, linked, fun j member => (redirect_accepts here links).1 (accepts j member)⟩
  · rintro ⟨js, linked, accepts⟩
    rw [← redirect_next here links] at linked
    exact ⟨js, linked, fun j member => (redirect_accepts here links).2 (accepts j member)⟩

/-- A result stays with a chain that fits if and only if the new default type map has one, away from `self`. -/
theorem redirect_keeps_iff (here : w.maps[self]? = some tm) (links : tm.shape.default.isSome = true)
    (fits : w.Fits nfields t) : (w.redirect self d tm).Fits nfields t ↔
      ∀ ts, w.Chain nfields t ts → self ∈ ts → ∃ ds, w.Chain nfields d ds ∧ self ∉ ds := by
  rw [redirect_fits_iff here links]
  obtain ⟨ts, chain⟩ := fits
  by_cases passes : self ∈ ts
  · rw [chain.linked.redirect_iff passes chain.accepts]
    constructor
    · rintro ⟨ds, linked, avoids, accepts⟩ _ _ _
      exact ⟨ds, ⟨linked, accepts⟩, avoids⟩
    · intro each
      obtain ⟨ds, target, avoids⟩ := each ts chain passes
      exact ⟨ds, target.linked, avoids, target.accepts⟩
  · constructor
    · intro _ ts' chain' member
      rw [chain'.linked.unique chain.linked] at member
      exact absurd member passes
    · intro _
      exact ⟨ts, chain.linked.redirect_other passes d, chain.accepts⟩

end Redirected

/-! ### Steps -/

section Steps

variable {α : Type} {i : Nat} {result : TPgResult}

theorem held_some (here : w.results[i]? = some result) (f : TPgResult → Call γ α) : (held i >>= f) w = f result w := by
  apply bind_ok
  rw [held, here]

theorem held_none (here : w.results[i]? = none) (f : TPgResult → Call γ α) : ((held i >>= f) w).2 = w := by
  have missing : held i w = (.error (.stop (.exn .noMethodError "undefined method for nil")), w) := by rw [held, here]
  rw [bind_error missing]

theorem streamStatus_goes {r : PgResult} {status : PgResult.ExecStatus} (goes : status.goesOn = true) :
    (streamStatus r status : Call γ Bool) = pure true := by
  rw [streamStatus, if_neg (PgResult.ExecStatus.unfinished goes), if_pos goes]

/-- A stream that does not go on raises, or ends. -/
theorem streamStatus_ends {r : PgResult} {status : PgResult.ExecStatus} (ends : ¬status.goesOn = true) (f : Call γ Unit) :
    ((streamStatus r status >>= fun goes => if goes = true then f else pure ()) w).2 = w := by
  unfold streamStatus
  split
  · split <;> rfl
  · rfl

/-- Results and streams change, and the streams that run then ran before. -/
theorem World.Sound.change (sound : w.Sound) {w' : World γ} (longer : Extends w w')
    (running : ∀ stream ∈ w'.streams, stream.running = true → stream ∈ w.streams)
    (known : ∀ stream ∈ w'.streams, stream.result < w'.results.length)
    (results : ∀ i result, w'.results[i]? = some result → w.results[i]? = some result ∨
      ∀ nfields, w'.Serves i result nfields → w'.Fits nfields result.typemap) : w'.Sound := by
  refine ⟨fun i result here nfields serves => ?_, known⟩
  rcases results i result here with old | fits
  · refine longer.fits (sound.fits i result old nfields ?_)
    rcases serves with holds | ⟨stream, member, runs, of, columns⟩
    · exact Or.inl holds
    · exact Or.inr ⟨stream, running stream member runs, runs, of, columns⟩
  · exact fits nfields serves

/-- A running stream has a result. -/
theorem World.Sound.streamed (sound : w.Sound) {stream : Stream} (member : stream ∈ w.streams) :
    ∃ result, w.results[stream.result]? = some result :=
  ⟨_, List.getElem?_eq_getElem (sound.known stream member)⟩

/-- The columns that a running stream brings. -/
theorem World.Sound.stream_fits (sound : w.Sound) {stream : Stream} (member : stream ∈ w.streams) (runs : stream.running = true)
    (here : w.results[stream.result]? = some result) : w.Fits stream.nfields result.typemap :=
  sound.fits stream.result result here _ (Or.inr ⟨stream, member, runs, rfl, rfl⟩)

/-- One result is replaced by one that fits. -/
theorem World.Sound.set (sound : w.Sound) (i : Nat) {result : TPgResult}
    (fits : ∀ nfields, w.Serves i result nfields → w.Fits nfields result.typemap) :
    World.Sound { w with results := w.results.set i result } := by
  have longer : Extends w { w with results := w.results.set i result } := fun _ _ here => here
  refine sound.change longer (fun _ member _ => member) (fun stream member => ?_) fun j other there => ?_
  · rw [List.length_set]
    exact sound.known stream member
  · by_cases same : j = i
    · subst same
      have inside : j < w.results.length := by simpa using (List.getElem?_eq_some_iff.1 there).1
      rw [List.getElem?_set_self inside] at there
      cases there
      exact Or.inr fun nfields serves => longer.fits (fits nfields serves)
    · rw [List.getElem?_set_ne (Ne.symm same)] at there
      exact Or.inl there

/-- A cleared result still serves the streams of it that run. -/
theorem World.Sound.cleared (sound : w.Sound) (here : w.results[i]? = some result) (nfields : Nat)
    (serves : w.Serves i { result with pgresult := none } nfields) : w.Fits nfields result.typemap := by
  rcases serves with ⟨r, status, holds, -⟩ | streams
  · cases holds
  · exact sound.fits i result here nfields (Or.inr streams)

/-- There is one result more. -/
theorem World.Sound.append (sound : w.Sound) {result : TPgResult}
    (fits : ∀ r status, result.pgresult = some (r, status) → 0 < r.ntuples ∨ status.goesOn = true →
      w.Fits r.nfields result.typemap) : World.Sound { w with results := w.results ++ [result] } := by
  have longer : Extends w { w with results := w.results ++ [result] } := fun _ _ here => here
  refine sound.change longer (fun _ member _ => member) (fun stream member => ?_) fun i other here => ?_
  · rw [List.length_append]
    exact Nat.lt_add_right _ (sound.known stream member)
  · rcases Nat.lt_trichotomy i w.results.length with old | new | beyond
    · rw [List.getElem?_append_left old] at here
      exact Or.inl here
    · subst new
      rw [List.getElem?_concat_length] at here
      cases here
      refine Or.inr fun nfields serves => ?_
      rcases serves with ⟨r, status, holds, served, rfl⟩ | ⟨stream, member, -, of, -⟩
      · exact longer.fits (fits r status holds served)
      · have inside := sound.known stream member
        omega
    · rw [List.getElem?_eq_none (by rw [List.length_append, List.length_singleton]; omega)] at here
      cases here

theorem sound_pgNewResult (r : PgResult) (status : PgResult.ExecStatus) (t : Ref) :
    Preserves World.Sound (pgNewResult r status t : Call γ Unit) := by
  intro w sound
  have kept := sound.beyond (beyond_fitTo w (some r) t w (.refl w))
  unfold pgNewResult
  cases run : fitTo (some r) t w with
  | mk result w' =>
    rw [run] at kept
    cases result with
    | error e =>
      rw [bind_error run]
      exact kept
    | ok typemap =>
      rw [bind_ok run]
      refine kept.append fun r' status' holds _ => ?_
      cases holds
      exact fitTo_returned run

/-- A result without a `PGresult` only takes a type map that casts whatever there is. -/
theorem fitToResult_cleared {fuel nfields : Nat} {t t' : Ref} {w' : World γ}
    (run : fitToResult none fuel t w = (.ok t', w')) : t' = t ∧ w' = w ∧ w'.Fits nfields t' := by
  induction fuel generalizing w t t' w' with
  | zero => cases run
  | succ fuel ih =>
    rw [fitToResult] at run
    obtain ⟨tm, w₁, looked, run⟩ := of_bind run
    obtain ⟨here, rfl⟩ := this_ok looked
    have shape := w₁.shape_at here
    cases tm with
    | unsuitable className => cases run
    | allStrings =>
      cases run
      exact ⟨rfl, rfl, [t], .strings shape⟩
    | byColumn tm frozen => cases run
    | byOid own hashes => cases run
    | inRuby default frozen alreadyWarned =>
      obtain ⟨sub, w₃, fit, rest⟩ := of_bind run
      obtain ⟨rfl, rfl, ds, chain⟩ := ih fit
      rw [if_neg (not_not_intro rfl)] at rest
      cases rest
      exact ⟨rfl, rfl, _, .cons shape rfl trivial chain⟩

theorem sound_pgResultClear (i : Nat) : Preserves World.Sound (pgResultClear i : Call γ Unit) := by
  intro w sound
  unfold pgResultClear
  cases here : w.results[i]? with
  | none =>
    rw [held_none here]
    exact sound
  | some result =>
    rw [held_some here]
    exact sound.set i (sound.cleared here)

theorem sound_pgresultStreamStart (i : Nat) : Preserves World.Sound (pgresultStreamStart i : Call γ Unit) := by
  intro w sound
  unfold pgresultStreamStart
  cases here : w.results[i]? with
  | none =>
    rw [held_none here]
    exact sound
  | some result =>
    rw [held_some here]
    cases holds : result.pgresult with
    | none => exact sound
    | some current =>
      obtain ⟨r, status⟩ := current
      dsimp only
      by_cases goes : status.goesOn = true
      · rw [streamStatus_goes goes, pure_bind_apply, if_pos rfl, change_apply]
        have longer : Extends w { w with streams := w.streams ++ [⟨i, r.nfields, true⟩] } := fun _ _ here => here
        refine ⟨fun j other there nfields serves => ?_, fun stream member => ?_⟩
        · rcases serves with served | ⟨stream, member, runs, of, columns⟩
          · exact longer.fits (sound.fits j other there nfields (Or.inl served))
          · rcases List.mem_append.1 member with old | new
            · exact longer.fits (sound.fits j other there nfields (Or.inr ⟨stream, old, runs, of, columns⟩))
            · cases List.mem_singleton.1 new
              cases of
              cases here.symm.trans there
              exact longer.fits (sound.fits i result here nfields (Or.inl ⟨r, status, holds, .inr goes, columns⟩))
        · rcases List.mem_append.1 member with old | new
          · exact sound.known stream old
          · cases List.mem_singleton.1 new
            exact (List.getElem?_eq_some_iff.1 here).1
      · rw [streamStatus_ends goes]
        exact sound

/-- Without such a running stream nothing happens. -/
theorem streaming_none {k : Nat} (none : ∀ stream, w.streams[k]? = some stream → stream.running = false)
    (f : Stream → Call γ α) : ((streaming k >>= f) w).2 = w := by
  have missing : streaming k w = (.error (.stop (.exn .noMethodError "undefined method for nil")), w) := by
    unfold streaming
    cases here : w.streams[k]? with
    | none => rfl
    | some stream => simp [none stream here]
  rw [bind_error missing]

theorem streaming_some {k : Nat} {stream : Stream} (here : w.streams[k]? = some stream) (runs : stream.running = true)
    (f : Stream → Call γ α) : (streaming k >>= f) w = f stream w := by
  apply bind_ok
  rw [streaming, here]
  exact if_pos runs

/-- The streams that run when one has ended. -/
theorem running_of_ended {k : Nat} {stream other : Stream}
    (member : other ∈ w.streams.set k { stream with running := false }) (runs : other.running = true) : other ∈ w.streams := by
  rcases List.mem_or_eq_of_mem_set member with old | rfl
  · exact old
  · cases runs

/-- An ended stream is one of a known result. -/
theorem World.Sound.known_set (sound : w.Sound) {k : Nat} {stream stream' other : Stream} (here : w.streams[k]? = some stream)
    (same : stream'.result = stream.result) (member : other ∈ w.streams.set k stream') :
    other.result < w.results.length := by
  rcases List.mem_or_eq_of_mem_set member with old | rfl
  · exact sound.known other old
  · rw [same]
    exact sound.known stream (List.mem_of_getElem? here)

theorem sound_pgresultStreamLeave (k : Nat) : Preserves World.Sound (pgresultStreamLeave k : Call γ Unit) := by
  intro w sound
  unfold pgresultStreamLeave
  by_cases runs : ∃ stream, w.streams[k]? = some stream ∧ stream.running = true
  · obtain ⟨stream, here, runs⟩ := runs
    rw [streaming_some here runs]
    exact sound.change (fun _ _ there => there) (fun _ => running_of_ended)
      (fun _ => sound.known_set here rfl) fun _ _ there => Or.inl there
  · rw [streaming_none fun stream here => Bool.eq_false_iff.2 fun goes => runs ⟨stream, here, goes⟩]
    exact sound

theorem sound_yieldTuple (k : Nat) : Preserves World.Sound (yieldTuple k : Call γ Unit) := by
  intro w sound
  unfold yieldTuple
  by_cases runs : ∃ stream, w.streams[k]? = some stream ∧ stream.running = true
  · obtain ⟨stream, here, runs⟩ := runs
    obtain ⟨result, held⟩ := sound.streamed (List.mem_of_getElem? here)
    rw [streaming_some here runs, held_some held, change_apply]
    have taken := sound.set stream.result (sound.cleared held)
    have longer : Extends w { w with results := w.results.set stream.result { result with pgresult := none } } :=
      fun _ _ there => there
    refine taken.append fun r status holds served => longer.fits ?_
    exact sound.fits stream.result result held r.nfields (Or.inl ⟨r, status, holds, served, rfl⟩)
  · rw [streaming_none fun stream here => Bool.eq_false_iff.2 fun goes => runs ⟨stream, here, goes⟩]
    exact sound

theorem beyond_pgresultGetvalue (w : World γ) (i : Nat) (tupNum fieldNum : Int) :
    Preserves (Beyond w) (pgresultGetvalue i tupNum fieldNum) := by
  refine .bind (preserves_held i) fun result => ?_
  cases result.pgresult with
  | none => exact .raise _
  | some holds =>
    dsimp only
    split
    · exact .raise _
    · split
      · exact .raise _
      · exact beyond_valueBy w _ _ _ _

theorem beyond_pgTmboBuildColumnMap (w : World γ) (self : Ref) (i : Nat) :
    Preserves (Beyond w) (pgTmboBuildColumnMap self i) :=
  .bind (preserves_held i) fun _ => .bind (preserves_pgresultGet _) fun r =>
    .bind (beyond_onOid (keepsDefault_build r) w self) fun _ => .bind (beyond_allocate w _) fun _ => .pure _

theorem beyond_objFreeze (w : World γ) (self : Ref) : Preserves (Beyond w) (objFreeze self) := by
  intro w' beyond
  unfold objFreeze
  cases here : w'.maps[self]? with
  | none =>
    have lost : this self w' = (.error (.stop .undefined), w') := by rw [this, here]
    rw [bind_error lost]
    exact beyond
  | some tm =>
    rw [this_bind here]
    refine ⟨fun t s there => ?_, beyond.results, beyond.streams⟩
    have same : tm.freeze.shape = tm.shape := by cases tm <;> rfl
    rw [← beyond.longer t s there]
    exact shape_set_of_eq here same t

/-! The calls that may do damage. -/

theorem setDefault_sound_iff (sound : w.Sound) (self d : Ref) :
    (step w (.setDefault self d)).Sound ↔ Harmless w (.setDefault self d) := by
  unfold step Op.exec
  dsimp only
  rw [bind_pure_state (pgTypemapDefaultTypeMapSet self d) fun _ => none]
  unfold pgTypemapDefaultTypeMapSet
  cases here : w.maps[self]? with
  | none =>
    have lost : this self w = (.error (.stop .undefined), w) := by rw [this, here]
    rw [bind_error lost]
    refine iff_of_true sound fun tm there => ?_
    rw [here] at there
    cases there
  | some tm =>
    rw [this_bind here]
    by_cases frozen : tm.frozen = true
    · rw [if_pos frozen]
      refine iff_of_true sound fun tm' there free => ?_
      cases here.symm.trans there
      rw [frozen] at free
      cases free
    · rw [if_neg frozen]
      show (w.redirect self d tm).Sound ↔ _
      by_cases links : tm.shape.default.isSome = true
      · constructor
        · intro after tm' there _ _ i result held nfields serves
          exact (redirect_keeps_iff here links (sound.fits i result held nfields serves)).1
            (after.fits i result held nfields serves)
        · refine fun each => ⟨fun i result held nfields serves => ?_, sound.known⟩
          exact (redirect_keeps_iff here links (sound.fits i result held nfields serves)).2
            (each tm here (Bool.eq_false_iff.2 frozen) links i result held nfields serves)
      · have same : (tm.setDefault d).shape = tm.shape := by
          cases tm with
          | unsuitable className => rfl
          | allStrings => rfl
          | byColumn tm frozen => cases links rfl
          | byOid own hashes => cases links rfl
          | inRuby default frozen alreadyWarned => cases links rfl
        refine iff_of_true (sound.beyond ⟨fun t s there => ?_, rfl, rfl⟩) fun tm' there _ links' => ?_
        · rw [← there]
          exact shape_set_of_eq here same t
        · cases here.symm.trans there
          exact absurd links' links

/-- A stream stores the next result. -/
theorem World.Sound.stored (sound : w.Sound) (held : w.results[i]? = some result) {next : PgResult}
    (status : PgResult.ExecStatus) (fits : 0 < next.ntuples ∨ status.goesOn = true → w.Fits next.nfields result.typemap) :
    World.Sound { w with results := w.results.set i { result with pgresult := some (next, status) } } := by
  apply sound.set
  rintro nfields (⟨r, status', holds, served, rfl⟩ | streams)
  · cases holds
    exact fits served
  · exact sound.fits i result held nfields (Or.inr streams)

theorem streamNext_sound_iff (sound : w.Sound) (k : Nat) (next : PgResult) (status : PgResult.ExecStatus) :
    (step w (.streamNext k next status)).Sound ↔ Harmless w (.streamNext k next status) := by
  unfold step Op.exec
  dsimp only
  rw [bind_pure_state (pgresultStreamNext k next status) fun _ => none]
  unfold pgresultStreamNext
  by_cases runs : ∃ stream, w.streams[k]? = some stream ∧ stream.running = true
  · obtain ⟨stream, here, runs⟩ := runs
    have member := List.mem_of_getElem? here
    obtain ⟨result, held⟩ := sound.streamed member
    have inside := (List.getElem?_eq_some_iff.1 held).1
    rw [streaming_some here runs, held_some held]
    unfold writeResult writeStream
    rw [change_bind, change_bind]
    by_cases goes : status.goesOn = true
    · rw [streamStatus_goes goes, pure_bind_apply, if_pos rfl]
      refine iff_of_true ?_ fun _ _ _ ends => by rw [goes] at ends; cases ends
      split
      · show World.Sound { w with
          results := (w.results.set stream.result _).set stream.result _
          streams := w.streams.set k { stream with running := false } }
        rw [List.set_set]
        have cleared := sound.set stream.result (sound.cleared held)
        exact cleared.change (fun _ _ there => there) (fun _ => running_of_ended)
          (fun _ => cleared.known_set here rfl) fun _ _ there => Or.inl there
      · rename_i same
        show World.Sound { w with
          results := w.results.set stream.result { result with pgresult := some (next, status) }
          streams := (w.streams.set k _).set k stream }
        have columns : w.Fits next.nfields result.typemap := not_not.1 same ▸ sound.stream_fits member runs held
        have stored := sound.stored held status fun _ => columns
        rw [List.set_set]
        exact stored.change (fun _ _ there => there)
          (fun other there _ => (List.mem_or_eq_of_mem_set there).elim id fun eq => eq ▸ member)
          (fun _ => stored.known_set here rfl) fun _ _ there => Or.inl there
    · rw [streamStatus_ends goes]
      have ended : status.goesOn = false := Bool.eq_false_iff.2 goes
      constructor
      · intro after stream' here' _ _ rows result' held'
        cases here.symm.trans here'
        cases held.symm.trans held'
        have longer : Extends { w with
            results := w.results.set stream.result { result with pgresult := some (next, status) }
            streams := w.streams.set k { stream with running := false } } w := fun _ _ there => there
        exact longer.fits (after.fits stream.result _ (List.getElem?_set_self inside) next.nfields
          (Or.inl ⟨next, status, rfl, .inl rows, rfl⟩))
      · intro each
        have stored := sound.stored held status fun served =>
          each stream here runs ended (served.resolve_right goes) result held
        exact stored.change (fun _ _ there => there) (fun _ => running_of_ended)
          (fun _ => stored.known_set here rfl) fun _ _ there => Or.inl there
  · rw [streaming_none fun stream here => Bool.eq_false_iff.2 fun goes => runs ⟨stream, here, goes⟩]
    exact iff_of_true sound fun stream here goes => absurd ⟨stream, here, goes⟩ runs

/-- A type map fits the columns of the result that it is given to; what else streams bring is the matter. -/
theorem setTypeMap_sound_iff (sound : w.Sound) (i : Nat) (t : Ref) :
    (step w (.setTypeMap i t)).Sound ↔ Harmless w (.setTypeMap i t) := by
  unfold step Op.exec
  dsimp only
  rw [bind_pure_state (pgresultTypeMapSet i t) fun _ => none]
  unfold pgresultTypeMapSet
  cases here : w.results[i]? with
  | none =>
    rw [held_none here]
    refine iff_of_true sound fun result there => ?_
    rw [here] at there
    cases there
  | some result =>
    rw [held_some here]
    have kept := sound.beyond (beyond_fitTo w (result.pgresult.map Prod.fst) t w (.refl w))
    have beyond := beyond_fitTo w (result.pgresult.map Prod.fst) t w (.refl w)
    cases run : fitTo (result.pgresult.map Prod.fst) t w with
    | mk answer w' =>
      rw [run] at kept beyond
      cases answer with
      | error e =>
        rw [bind_error run]
        refine iff_of_true kept fun result' there r status holds stream _ _ _ _ typemap w'' fit => ?_
        cases here.symm.trans there
        rw [holds] at run
        cases run.symm.trans fit
      | ok typemap =>
        rw [bind_ok run]
        have inside := (List.getElem?_eq_some_iff.1 (beyond.results ▸ here)).1
        constructor
        · intro after result' there r status holds stream member runs of _ typemap' w'' fit
          cases here.symm.trans there
          rw [holds] at run
          cases run.symm.trans fit
          have longer : Extends { w' with results := w'.results.set i { result with typemap } } w' := fun _ _ there => there
          refine longer.fits (after.fits i _ (List.getElem?_set_self inside) stream.nfields (Or.inr ⟨stream, ?_, runs, of, rfl⟩))
          rw [← beyond.streams] at member
          exact member
        · intro each
          apply kept.set
          rintro nfields (⟨r, status, holds, -, rfl⟩ | ⟨stream, member, runs, of, rfl⟩)
          · rw [show result.pgresult = some (r, status) from holds] at run
            exact fitTo_returned run
          · cases holds : result.pgresult with
            | none =>
              rw [holds] at run
              exact (fitToResult_cleared run).2.2
            | some current =>
              obtain ⟨r, status⟩ := current
              rw [holds] at run
              by_cases same : stream.nfields = r.nfields
              · rw [same]
                exact fitTo_returned run
              · exact each result here r status holds stream (beyond.streams ▸ member) runs of same typemap w' run

/-- **A call leaves the world sound if and only if it is harmless.** -/
theorem step_sound_iff (w : World γ) (op : Op γ) (sound : w.Sound) : (step w op).Sound ↔ Harmless w op := by
  cases op with
  | setDefault self d => exact setDefault_sound_iff sound self d
  | setTypeMap i t => exact setTypeMap_sound_iff sound i t
  | streamNext k next status => exact streamNext_sound_iff sound k next status
  | newUnsuitable className =>
    exact iff_of_true (Preserves.bind (sound_of_beyond fun w => beyond_allocate w _) (fun _ => .pure _) w sound) trivial
  | newAllStrings =>
    exact iff_of_true (Preserves.bind (sound_of_beyond fun w => beyond_allocate w _) (fun _ => .pure _) w sound) trivial
  | newByColumn convs =>
    exact iff_of_true (Preserves.bind (sound_of_beyond fun w => beyond_allocate w _) (fun _ => .pure _) w sound) trivial
  | newByOid =>
    exact iff_of_true (Preserves.bind (sound_of_beyond fun w => beyond_allocate w _) (fun _ => .pure _) w sound) trivial
  | newInRuby warning =>
    exact iff_of_true (Preserves.bind (sound_of_beyond fun w => beyond_allocate w _) (fun _ => .pure _) w sound) trivial
  | addCoder self coder oid format =>
    refine iff_of_true (Preserves.bind (sound_of_beyond fun w => ?_) (fun _ => .pure _) w sound) trivial
    exact beyond_onOid (keepsDefault_addCoder coder oid format) w self
  | rmCoder self format oid =>
    refine iff_of_true (Preserves.bind (sound_of_beyond fun w => ?_) (fun _ => .pure _) w sound) trivial
    exact beyond_onOid (keepsDefault_rmCoder format oid) w self
  | setMaxRows self value =>
    refine iff_of_true (Preserves.bind (sound_of_beyond fun w => ?_) (fun _ => .pure _) w sound) trivial
    exact beyond_onOid (keepsDefault_setMaxRows value) w self
  | buildColumnMap self i =>
    refine iff_of_true (Preserves.bind (sound_of_beyond fun w => ?_) (fun _ => .pure _) w sound) trivial
    exact beyond_pgTmboBuildColumnMap w self i
  | freeze self =>
    refine iff_of_true (Preserves.bind (sound_of_beyond fun w => ?_) (fun _ => .pure _) w sound) trivial
    exact beyond_objFreeze w self
  | newResult r status t => exact iff_of_true (Preserves.bind (sound_pgNewResult r status t) (fun _ => .pure _) w sound) trivial
  | clear i => exact iff_of_true (Preserves.bind (sound_pgResultClear i) (fun _ => .pure _) w sound) trivial
  | streamStart i =>
    exact iff_of_true (Preserves.bind (sound_pgresultStreamStart i) (fun _ => .pure _) w sound) trivial
  | streamLeave k =>
    exact iff_of_true (Preserves.bind (sound_pgresultStreamLeave k) (fun _ => .pure _) w sound) trivial
  | yieldTuple k => exact iff_of_true (Preserves.bind (sound_yieldTuple k) (fun _ => .pure _) w sound) trivial
  | getvalue i tupNum fieldNum =>
    refine iff_of_true (Preserves.bind (sound_of_beyond fun w => ?_) (fun _ => .pure _) w sound) trivial
    exact beyond_pgresultGetvalue w i tupNum fieldNum

theorem getvalue_behaves (sound : w.Sound) (i : Nat) (tupNum fieldNum : Int) :
    Behaves ((Op.getvalue i tupNum fieldNum).exec w) := by
  refine .bind (.bind (?_ : Behaves (held i w)) fun result w' run => ?_) fun value w' _ => .pure _ w'
  · intro e raised
    unfold held at raised
    split at raised
    · cases raised
    · cases raised
      trivial
  · have here : w.results[i]? = some result ∧ w' = w := by
      unfold held at run
      split at run
      · rename_i there
        cases run
        exact ⟨there, rfl⟩
      · cases run
    obtain ⟨here, rfl⟩ := here
    cases holds : result.pgresult with
    | none => exact .raise (by trivial) _
    | some current =>
      obtain ⟨r, status⟩ := current
      dsimp only
      split
      · exact .raise (by trivial) _
      · split
        · exact .raise (by trivial) _
        · have rows : 0 < r.ntuples := by omega
          obtain ⟨ts, chain⟩ := sound.fits i result here r.nfields (Or.inl ⟨r, status, holds, .inl rows, rfl⟩)
          exact typecastResultValue_behaves chain _ (by omega) chain.length_le

end Steps

theorem start_sound : (World.start : World γ).Sound := by
  refine ⟨fun i result here => ?_, fun stream member => ?_⟩
  · cases here
  · cases member

/-- **No value is read behind the columns of a type map.** In every program the results keep type maps that fit
as long as every call is harmless, and no longer; and in such a program every `getvalue` returns or raises
a Ruby exception, whatever type maps, coders and results there are. -/
theorem values_inside_columns (ops : List (Op γ)) :
    (Always step World.Sound World.start ops ↔ EveryStep step Harmless World.start ops) ∧
      (EveryStep step Harmless World.start ops →
        EveryStep step (fun w op => ∀ i tupNum fieldNum, op = .getvalue i tupNum fieldNum → Behaves (op.exec w))
          World.start ops) := by
  have exactly := always_iff step_sound_iff start_sound ops
  refine ⟨exactly, fun harmless => (exactly.2 harmless).everyStep fun w op sound => ?_⟩
  rintro i tupNum fieldNum rfl
  exact getvalue_behaves sound i tupNum fieldNum

/-- A type map of one column becomes the default of one of two columns behind its back. -/
example : ((Op.getvalue 0 0 1).exec (run step World.start
    [.newByColumn [none, none], .newByColumn [some 7], .newResult twoTexts .tuplesOk 1, .setDefault 1 2])).1 =
      .error (.stop .undefined) := rfl

/-- So it does in a block that has cleared the result before, as the stream brings the next one. -/
example : ((Op.getvalue 0 0 0).exec (run step World.start
    [.newByColumn [none, some 7], .newByColumn [], .newResult twoTexts .singleTuple 1, .streamStart 0, .clear 0,
      .setDefault 1 2, .streamNext 0 twoTexts .singleTuple])).1 = .error (.stop .undefined) := rfl

end Soundness

end RubyPg.TypeMaps
