import RubyPg.Text.CopyRow
import RubyPg.Text.Record
import RubyPg.Binary.CopyRow

/-!
# Rows that are wider than the type map

`pg_tmbc_typecast_copy_get` checks the number of a field, but the row decoders call it for fields that are not NULL
only. A row decoder first cuts the row into fields, whatever the type map is, and casts them in order (`CastsRows`). So
a row is refused exactly if a field behind the last column is not NULL and the casts get that far (`wide_row_refused_iff`).
-/

namespace RubyPg
set_option autoImplicit false

/-! ## Casting the fields of a row -/

/-- A field of a row: NULL is not cast. -/
def castField (typemap : DecoderMap) (fieldno : Nat) : Option Bytes → Outcome Value
  | none => pure .nil
  | some fieldStr => typemap.typecastCopyGet fieldStr fieldno

/-- The fields, from field `fieldno` on. -/
def castFields (typemap : DecoderMap) : Nat → List (Option Bytes) → Outcome (List Value)
  | _, [] => pure []
  | fieldno, field :: rest => do
    let value ← castField typemap fieldno field
    let values ← castFields typemap (fieldno + 1) rest
    pure (value :: values)

/-- The decoder cuts a row into fields and casts them. -/
def CastsRows (decode : DecoderMap → Decoder) : Prop :=
  ∀ s fields, decode .allStrings s = .ok (.ary (fields.map fieldValue)) →
    ∀ typemap, decode typemap s = castFields typemap 0 fields >>= fun array => pure (.ary array)

theorem fieldValue_injective : Function.Injective fieldValue := by
  intro field field' same
  cases field with
  | none =>
    cases field' with
    | none => rfl
    | some s => cases same
  | some s =>
    cases field' with
    | none => cases same
    | some s' =>
      cases same
      rfl

theorem fields_unique {fields fields' : List (Option Bytes)} (same : fields.map fieldValue = fields'.map fieldValue) :
    fields = fields' := List.map_injective_iff.2 fieldValue_injective same

theorem castFields_cons {α : Type} (typemap : DecoderMap) (fieldno : Nat) (field : Option Bytes) (rest : List (Option Bytes))
    (k : List Value → Outcome α) : castFields typemap fieldno (field :: rest) >>= k =
      castField typemap fieldno field >>= fun value => castFields typemap (fieldno + 1) rest >>= fun values => k (value :: values) := by
  rw [castFields, bind_assoc]
  apply bind_congr
  intro value
  rw [bind_assoc]
  rfl

/-- The casts raise what the first cast that raises does. -/
theorem castFields_raises {typemap : DecoderMap} {fieldno : Nat} {fields : List (Option Bytes)} {stop : Stop} :
    castFields typemap fieldno fields = .error stop ↔ ∃ i s, fields[i]? = some (some s) ∧
      typemap.typecastCopyGet s (fieldno + i) = .error stop ∧
      ∀ j < i, ∀ t, fields[j]? = some (some t) → ∃ v, typemap.typecastCopyGet t (fieldno + j) = .ok v := by
  induction fields generalizing fieldno with
  | nil =>
    refine iff_of_false ?_ ?_
    · intro raised
      cases raised
    · rintro ⟨i, s, found, -⟩
      cases found
  | cons field rest ih =>
    constructor
    · intro raised
      rw [castFields] at raised
      rcases Outcome.error_of_bind raised with here | ⟨value, cast, later⟩
      · cases field with
        | none => cases here
        | some s => exact ⟨0, s, rfl, here, fun j small => absurd small (Nat.not_lt_zero j)⟩
      · rcases Outcome.error_of_bind later with later | ⟨values, -, none⟩
        · obtain ⟨i, s, found, here, before⟩ := ih.1 later
          rw [Nat.add_right_comm] at here
          refine ⟨i + 1, s, found, here, fun j small t first => ?_⟩
          cases j with
          | zero =>
            cases first
            exact ⟨value, cast⟩
          | succ j =>
            obtain ⟨v, cast⟩ := before j (Nat.lt_of_succ_lt_succ small) t first
            rw [Nat.add_right_comm] at cast
            exact ⟨v, cast⟩
        · cases none
    · rintro ⟨i, s, found, here, before⟩
      rw [castFields]
      cases i with
      | zero =>
        cases found
        have raised : castField typemap fieldno (some s) = .error stop := here
        rw [raised]
        rfl
      | succ i =>
        have later : castFields typemap (fieldno + 1) rest = .error stop := by
          refine ih.2 ⟨i, s, found, ?_, fun j small t first => ?_⟩
          · rwa [Nat.add_right_comm]
          · obtain ⟨v, cast⟩ := before (j + 1) (Nat.succ_lt_succ small) t first
            exact ⟨v, by rwa [Nat.add_right_comm]⟩
        obtain ⟨value, cast⟩ : ∃ value, castField typemap fieldno field = .ok value := by
          cases field with
          | none => exact ⟨.nil, rfl⟩
          | some t => exact before 0 (Nat.succ_pos i) t rfl
        rw [cast, later]
        rfl

section Text

open Text

theorem recordField_casts {s : Bytes} {cur fieldno : Nat} {r : Nat × Value}
    (read : recordField .allStrings s cur fieldno = .ok r) :
    ∃ field, r.2 = fieldValue field ∧
      ∀ typemap, recordField typemap s cur fieldno = castField typemap fieldno field >>= fun value => pure (r.1, value) := by
  unfold recordField at *
  by_cases null : s.getD cur Ascii.nul = Ascii.comma ∨ s.getD cur Ascii.nul = Ascii.rparen
  · rw [if_pos null] at read
    cases read
    refine ⟨none, rfl, fun typemap => ?_⟩
    rw [if_pos null]
    rfl
  · rw [if_neg null] at read
    obtain ⟨⟨behind, field⟩, scanned, cast⟩ := Outcome.of_bind read
    cases cast
    refine ⟨some field, rfl, fun typemap => ?_⟩
    rw [if_neg null, scanned]
    rfl

theorem recordFields_casts {s : Bytes} {fuel cur fieldno : Nat} {array : List Value} {r : Nat × List Value}
    (read : recordFields .allStrings s fuel cur fieldno array = .ok r) :
    ∃ fields, r.2 = array ++ fields.map fieldValue ∧ ∀ typemap array', recordFields typemap s fuel cur fieldno array' =
      castFields typemap fieldno fields >>= fun values => pure (r.1, array' ++ values) := by
  induction fuel generalizing cur fieldno array with
  | zero => cases read
  | succ fuel ih =>
    rw [recordFields] at read
    obtain ⟨⟨behind, value⟩, first, later⟩ := Outcome.of_bind read
    obtain ⟨field, rfl, casts⟩ := recordField_casts first
    dsimp only at later
    by_cases more : s.getD behind Ascii.nul = Ascii.comma
    · rw [if_pos more] at later
      obtain ⟨fields, values, rest⟩ := ih later
      refine ⟨field :: fields, ?_, fun typemap array' => ?_⟩
      · rw [values, List.append_assoc]
        rfl
      · rw [recordFields, casts, castFields_cons, bind_assoc]
        apply bind_congr
        intro value
        rw [pure_bind]
        dsimp only
        rw [if_pos more, rest]
        simp only [List.append_assoc, List.singleton_append]
    · rw [if_neg more] at later
      by_cases last : s.getD behind Ascii.nul = Ascii.rparen
      · rw [if_pos last] at later
        cases later
        refine ⟨[field], rfl, fun typemap array' => ?_⟩
        rw [recordFields, casts, castFields_cons, bind_assoc]
        apply bind_congr
        intro value
        rw [pure_bind]
        dsimp only
        rw [if_neg more, if_pos last]
        rfl
      · rw [if_neg last] at later
        cases later

theorem record_castsRows : CastsRows pgTextDecRecord := by
  intro s fields row typemap
  unfold pgTextDecRecord at *
  dsimp only at *
  by_cases missing : s.getD (skipWhile recordIsspace s 0) Ascii.nul ≠ Ascii.lparen
  · rw [if_pos missing] at row
    cases row
  · rw [if_neg missing] at row ⊢
    obtain ⟨⟨cur, array⟩, read, row⟩ := Outcome.of_bind row
    obtain ⟨fields', values, casts⟩ := recordFields_casts read
    dsimp only at row values
    by_cases junk : s.getD (skipWhile recordIsspace s cur) Ascii.nul ≠ Ascii.nul
    · rw [if_pos junk] at row
      cases row
    · rw [if_neg junk] at row
      cases row
      rw [fields_unique values, casts, bind_assoc]
      apply bind_congr
      intro array
      rw [pure_bind]
      dsimp only
      rw [if_neg junk]
      rfl

theorem copyFieldValue_casts {this : CopyCoder} {raw field : Bytes} {fieldno : Nat} {v : Value}
    (read : copyFieldValue this .allStrings raw field fieldno = .ok v) :
    ∃ null, v = fieldValue null ∧ ∀ typemap, copyFieldValue this typemap raw field fieldno = castField typemap fieldno null := by
  unfold copyFieldValue at *
  by_cases marker : raw.length = this.nullString.length ∧ strncmpEq raw this.nullString = true
  · rw [if_pos marker] at read
    cases read
    exact ⟨none, rfl, fun typemap => if_pos marker⟩
  · rw [if_neg marker] at read
    cases read
    exact ⟨some field, rfl, fun typemap => if_neg marker⟩

theorem copyFields_casts {this : CopyCoder} {s : Bytes} {fuel start fieldno : Nat} {array r : List Value}
    (read : copyFields this .allStrings s fuel start fieldno array = .ok r) :
    ∃ fields, r = array ++ fields.map fieldValue ∧ ∀ typemap array', copyFields this typemap s fuel start fieldno array' =
      castFields typemap fieldno fields >>= fun values => pure (array' ++ values) := by
  induction fuel generalizing start fieldno array with
  | zero => cases read
  | succ fuel ih =>
    rw [copyFields] at read
    obtain ⟨scanned, scan, read⟩ := Outcome.of_bind read
    dsimp only at read
    by_cases trailing : scanned.foundDelim = false ∧ scanned.cur < s.length
    · rw [if_pos trailing] at read
      cases read
    · rw [if_neg trailing] at read
      obtain ⟨value, first, later⟩ := Outcome.of_bind read
      obtain ⟨field, rfl, casts⟩ := copyFieldValue_casts first
      by_cases more : scanned.foundDelim = true
      · rw [if_pos more] at later
        obtain ⟨fields, values, rest⟩ := ih later
        refine ⟨field :: fields, ?_, fun typemap array' => ?_⟩
        · rw [values, List.append_assoc]
          rfl
        · rw [copyFields, scan, castFields_cons]
          refine (if_neg trailing).trans ?_
          rw [casts]
          apply bind_congr
          intro value
          rw [if_pos more, rest]
          simp only [List.append_assoc, List.singleton_append]
      · rw [if_neg more] at later
        cases later
        refine ⟨[field], rfl, fun typemap array' => ?_⟩
        rw [copyFields, scan, castFields_cons]
        refine (if_neg trailing).trans ?_
        rw [casts]
        apply bind_congr
        intro value
        rw [if_neg more]
        rfl

theorem copyRow_castsRows (this : CopyCoder) : CastsRows (pgTextDecCopyRow this) := by
  intro s fields row typemap
  unfold pgTextDecCopyRow at *
  obtain ⟨array, read, row⟩ := Outcome.of_bind row
  obtain ⟨fields', values, casts⟩ := copyFields_casts read
  rw [List.nil_append] at values
  cases row
  rw [fields_unique values, casts, bind_assoc]
  rfl

end Text

section Binary

open Binary Reader

theorem binCopyField_casts {st st' : Cursor} {fieldno : Nat} {v : Value}
    (read : binCopyField .allStrings fieldno st = (.ok v, st')) :
    ∃ bytes, v = fieldValue bytes ∧ ∀ typemap, binCopyField typemap fieldno st = (castField typemap fieldno bytes, st') := by
  unfold binCopyField at *
  rcases field_cases lengthError st with ⟨e, st₁, raised⟩ | ⟨bytes, st₁, cut⟩
  · rw [raised] at read
    cases read
  · rw [cut] at read
    refine ⟨bytes, ?_, fun typemap => ?_⟩
    · cases bytes with
      | none =>
        cases read
        rfl
      | some s =>
        cases read
        rfl
    · rw [cut, (Prod.mk.inj read).2]
      cases bytes with
      | none => rfl
      | some s => rfl

theorem binCopyFields_casts {n fieldno : Nat} {st st' : Cursor} {array : List Value}
    (read : binCopyFields .allStrings n fieldno st = (.ok array, st')) :
    ∃ fields, array = fields.map fieldValue ∧ ∀ typemap, ∃ st'', binCopyFields typemap n fieldno st =
      (castFields typemap fieldno fields, st'') ∧ (∀ values, castFields typemap fieldno fields = .ok values → st'' = st') := by
  induction n generalizing fieldno st st' array with
  | zero =>
    cases read
    exact ⟨[], rfl, fun typemap => ⟨_, rfl, fun _ _ => rfl⟩⟩
  | succ n ih =>
    rw [binCopyFields] at read
    obtain ⟨value, st₁, first, later⟩ := Method.of_bind read
    obtain ⟨others, st₂, rest, done⟩ := Method.of_bind later
    obtain ⟨bytes, rfl, casts⟩ := binCopyField_casts first
    obtain ⟨fields, rfl, others⟩ := ih rest
    cases done
    refine ⟨bytes :: fields, rfl, fun typemap => ?_⟩
    rw [binCopyFields, castFields]
    cases here : castField typemap fieldno bytes with
    | error stop =>
      refine ⟨st₁, Method.bind_error ((casts typemap).trans ?_), fun values returned => ?_⟩
      · rw [here]
      · cases returned
    | ok value =>
      have run : binCopyField typemap fieldno st = (.ok value, st₁) := by rw [casts, here]
      obtain ⟨st'', behind, same⟩ := others typemap
      refine ⟨st'', (Method.bind_ok run).trans (Method.bind_pure_at behind), fun values returned => ?_⟩
      obtain ⟨_, _, later⟩ := Outcome.of_bind returned
      obtain ⟨values, returned, -⟩ := Outcome.of_bind later
      exact same values returned

theorem binCopyRow_casts {st st' : Cursor} {fields : List (Option Bytes)}
    (read : binCopyRow .allStrings st = (.ok (.ary (fields.map fieldValue)), st')) (typemap : DecoderMap) :
    ∃ st'', binCopyRow typemap st = (castFields typemap 0 fields >>= fun array => pure (.ary array), st'') ∧
      (∀ values, castFields typemap 0 fields = .ok values → st'' = st') := by
  unfold binCopyRow at *
  obtain ⟨nfields, st₁, first, later⟩ := Method.of_bind read
  by_cases negative : readNbo nfields < 0
  · rw [if_pos negative] at later
    by_cases trailer : readNbo nfields ≠ -1
    · rw [if_pos trailer] at later
      cases later
    · rw [if_neg trailer] at later
      cases later
  · rw [if_neg negative] at later
    obtain ⟨array, st₂, cut, done⟩ := Method.of_bind later
    obtain ⟨fields', rfl, casts⟩ := binCopyFields_casts cut
    obtain ⟨st'', behind, same⟩ := casts typemap
    have unique : fields' = fields := fields_unique (Value.ary.inj (Except.ok.inj (Prod.mk.inj done).1))
    subst unique
    refine ⟨st'', (Method.bind_ok first).trans ?_, fun values returned => ?_⟩
    · rw [if_neg negative]
      exact Method.bind_pure_at behind
    · rw [same values returned]
      exact (Prod.mk.inj done).2

theorem binCopyRow_castsRows : CastsRows pgBinDecCopyRow := by
  intro s fields row typemap
  unfold pgBinDecCopyRow at *
  have pair (m : Reader Stop Value) {r : Outcome Value} (result : (m ⟨0, s⟩).1 = r) : ∃ st, m ⟨0, s⟩ = (r, st) :=
    ⟨_, Prod.ext result rfl⟩
  obtain ⟨st, run⟩ := pair _ row
  obtain ⟨value, st₁, read, later⟩ := Method.of_bind run
  obtain ⟨_, st₂, header, read⟩ := Method.of_bind read
  obtain ⟨_, st₃, ends, done⟩ := Method.of_bind later
  cases done
  obtain ⟨st'', casts, same⟩ := binCopyRow_casts read typemap
  have whole : (dropHeader >>= fun _ => binCopyRow typemap) ⟨0, s⟩ =
      (castFields typemap 0 fields >>= fun array => pure (.ary array), st'') := (Method.bind_ok header).trans casts
  cases here : castFields typemap 0 fields with
  | error stop =>
    rw [here] at whole
    exact congrArg Prod.fst (Method.bind_error whole)
  | ok values =>
    rw [here, same values here] at whole
    have returned : (dropHeader >>= fun _ => binCopyRow typemap) ⟨0, s⟩ = (.ok (.ary values), st₁) := whole
    have last : (atEnd trailingData >>= fun _ => pure (Value.ary values) : Reader Stop Value) st₁ = (.ok (.ary values), st) :=
      Method.bind_ok ends
    rw [Method.bind_ok returned]
    exact congrArg Prod.fst last

end Binary

/-! ## Too many fields for the columns -/

/-- `PG::TypeMapByColumn`, with the two functions of its default type map. -/
structure TypeMapByColumn where
  convs : List (Option Decoder)
  defaultFits : Outcome Nat
  defaultTm : DecoderMap

namespace TypeMapByColumn

/-- `pg_tmbc_fit_to_copy_get`. -/
def fitToCopyGet (this : TypeMapByColumn) : Outcome Nat := do
  let _ ← this.defaultFits
  pure this.convs.length

/-- The cast of a column, if there is such a column. -/
def columnCast (this : TypeMapByColumn) (fieldno : Nat) (fieldStr : Bytes) : Outcome Value :=
  match this.convs.getD fieldno none with
  | none => this.defaultTm.typecastCopyGet fieldStr fieldno
  | some decFunc => decFunc fieldStr

/-- The functions of the type map. -/
def decoderMap (this : TypeMapByColumn) : DecoderMap := .byColumn this.convs this.defaultTm

theorem typecastCopyGet_behind {this : TypeMapByColumn} {fieldno : Nat} (behind : this.convs.length ≤ fieldno) (fieldStr : Bytes) :
    ∃ msg, this.decoderMap.typecastCopyGet fieldStr fieldno = .error (.exn .argumentError msg) := ⟨_, if_pos behind⟩

theorem typecastCopyGet_column {this : TypeMapByColumn} {fieldno : Nat} (column : fieldno < this.convs.length) (fieldStr : Bytes) :
    this.decoderMap.typecastCopyGet fieldStr fieldno = this.columnCast fieldno fieldStr := if_neg (Nat.not_le_of_lt column)

end TypeMapByColumn

/-- The three row decoders. -/
inductive RowDecoder where
  | textCopy (this : Text.CopyCoder)
  | binaryCopy
  | record

/-- What the decoder makes of a row, behind `fit_to_copy_get`. -/
def RowDecoder.decode : RowDecoder → DecoderMap → Decoder
  | textCopy this => Text.pgTextDecCopyRow this
  | binaryCopy => Binary.pgBinDecCopyRow
  | record => Text.pgTextDecRecord

/-- `decode` of a coder with this type map. -/
def RowDecoder.run (dec : RowDecoder) (typemap : TypeMapByColumn) : Decoder := fun s => do
  let _ ← typemap.fitToCopyGet
  dec.decode typemap.decoderMap s

/-- The fields of a row, as they are without a type map. -/
def RowDecoder.Row (dec : RowDecoder) (s : Bytes) (fields : List (Option Bytes)) : Prop :=
  dec.decode .allStrings s = .ok (.ary (fields.map fieldValue))

theorem RowDecoder.castsRows (dec : RowDecoder) : CastsRows dec.decode := by
  cases dec with
  | textCopy this => exact copyRow_castsRows this
  | binaryCopy => exact binCopyRow_castsRows
  | record => exact record_castsRows

/-- ArgumentError is raised. -/
def Refused {α : Type} (r : Outcome α) : Prop := ∃ msg, r = .error (.exn .argumentError msg)

/-- The first field whose cast does not return stands behind the columns, or its cast raises ArgumentError. -/
def StopsRefused (typemap : TypeMapByColumn) (fields : List (Option Bytes)) : Prop :=
  ∃ i s, fields[i]? = some (some s) ∧ (typemap.convs.length ≤ i ∨ Refused (typemap.columnCast i s)) ∧
    ∀ j < i, ∀ t, fields[j]? = some (some t) → j < typemap.convs.length ∧ ∃ v, typemap.columnCast j t = .ok v

theorem castFields_refused_iff {typemap : TypeMapByColumn} {fields : List (Option Bytes)} :
    Refused (castFields typemap.decoderMap 0 fields) ↔ StopsRefused typemap fields := by
  constructor
  · rintro ⟨msg, raised⟩
    obtain ⟨i, s, found, here, before⟩ := castFields_raises.1 raised
    rw [Nat.zero_add] at here
    refine ⟨i, s, found, ?_, fun j small t first => ?_⟩
    · by_cases behind : typemap.convs.length ≤ i
      · exact .inl behind
      · rw [typemap.typecastCopyGet_column (Nat.lt_of_not_le behind)] at here
        exact .inr ⟨msg, here⟩
    · obtain ⟨v, cast⟩ := before j small t first
      rw [Nat.zero_add] at cast
      by_cases column : j < typemap.convs.length
      · rw [typemap.typecastCopyGet_column column] at cast
        exact ⟨column, v, cast⟩
      · obtain ⟨msg, raised⟩ := typemap.typecastCopyGet_behind (Nat.le_of_not_lt column) t
        rw [raised] at cast
        cases cast
  · rintro ⟨i, s, found, here, before⟩
    obtain ⟨msg, raised⟩ : Refused (typemap.decoderMap.typecastCopyGet s i) := by
      by_cases behind : typemap.convs.length ≤ i
      · exact typemap.typecastCopyGet_behind behind s
      · rw [typemap.typecastCopyGet_column (Nat.lt_of_not_le behind)]
        exact here.resolve_left behind
    refine ⟨msg, castFields_raises.2 ⟨i, s, found, ?_, fun j small t first => ?_⟩⟩
    · rwa [Nat.zero_add]
    · obtain ⟨column, v, cast⟩ := before j small t first
      rw [Nat.zero_add, typemap.typecastCopyGet_column column]
      exact ⟨v, cast⟩

/-- **A row** is refused iff the casts come to a field behind the last column that is not NULL, or to one that is refused by
its own coder. -/
theorem wide_row_refused_iff (dec : RowDecoder) (typemap : TypeMapByColumn) {s : Bytes} {fields : List (Option Bytes)}
    (row : dec.Row s fields) :
    Refused (dec.run typemap s) ↔
      Refused typemap.defaultFits ∨ (∃ n, typemap.defaultFits = .ok n) ∧ StopsRefused typemap fields := by
  have casts := dec.castsRows s fields row typemap.decoderMap
  unfold RowDecoder.run TypeMapByColumn.fitToCopyGet
  cases fits : typemap.defaultFits with
  | error stop =>
    constructor
    · rintro ⟨msg, raised⟩
      cases raised
      exact .inl ⟨msg, rfl⟩
    · rintro (⟨msg, raised⟩ | ⟨⟨n, fits⟩, -⟩)
      · cases raised
        exact ⟨msg, rfl⟩
      · cases fits
  | ok n =>
    have result : Refused (dec.decode typemap.decoderMap s) ↔ StopsRefused typemap fields := by
      rw [casts, ← castFields_refused_iff]
      cases castFields typemap.decoderMap 0 fields with
      | error stop =>
        constructor
        · rintro ⟨msg, raised⟩
          cases raised
          exact ⟨msg, rfl⟩
        · rintro ⟨msg, raised⟩
          cases raised
          exact ⟨msg, rfl⟩
      | ok array =>
        apply iff_of_false
        · rintro ⟨msg, raised⟩
          cases raised
        · rintro ⟨msg, raised⟩
          cases raised
    constructor
    · intro refused
      exact .inr ⟨⟨n, rfl⟩, result.1 refused⟩
    · rintro (⟨msg, raised⟩ | ⟨-, stops⟩)
      · cases raised
      · exact result.2 stops

/-- One column without a coder. -/
def oneColumn : TypeMapByColumn := ⟨[none], .ok 0, .allStrings⟩

/-- `(a,b)` is refused. -/
theorem wide_record_refused : Refused (RowDecoder.record.run oneColumn [0x28, 0x61, 0x2c, 0x62, 0x29]) := by
  apply (@wide_row_refused_iff .record oneColumn [0x28, 0x61, 0x2c, 0x62, 0x29] [some [0x61], some [0x62]] rfl).2
  refine .inr ⟨⟨0, rfl⟩, 1, [0x62], rfl, .inl (by decide), fun j small t first => ?_⟩
  obtain rfl := Nat.lt_one_iff.1 small
  cases first
  exact ⟨by decide, .str [0x61], rfl⟩

/-- A second field that is NULL is not: `a\t\\N\n`, its binary form, and `(a,)`. -/
theorem wide_null_accepted :
    (RowDecoder.textCopy {}).run oneColumn [0x61, 0x09, 0x5c, 0x4e, 0x0a] = .ok (.ary [.str [0x61], .nil]) ∧
      RowDecoder.binaryCopy.run oneColumn [0x00, 0x02, 0x00, 0x00, 0x00, 0x01, 0x61, 0xff, 0xff, 0xff, 0xff] =
        .ok (.ary [.str [0x61], .nil]) ∧
      RowDecoder.record.run oneColumn [0x28, 0x61, 0x2c, 0x29] = .ok (.ary [.str [0x61], .nil]) :=
  ⟨rfl, rfl, rfl⟩

end RubyPg
