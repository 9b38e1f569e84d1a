import RubyPg.Tuple.Lazily

/-!
# Tuples are lazy views

Whatever a program does with a tuple, it sees the row that the type map made of the fields when the
tuple was created. A `Client` is any program over the methods of the tuple, with blocks that are
clients again.
-/

namespace RubyPg.PgTuple
set_option autoImplicit false

variable {κ ν τ ρ : Type} [DecidableEq κ] {rs : Results κ ν τ ρ}

section Methods

variable {o : Origin rs}

theorem give_lazily {col : Nat} (inside : col < o.names.length) (P : World κ ν τ ρ → Prop) :
    Lazily o P (give rs col) fun v w => v = o.value col ∧ Materialised w col := by
  apply Lazily.bind (materializeField_lazily inside P)
  intro v
  apply Lazily.assume
  rintro rfl
  have allowed : o.Allows (.gave col (o.value col)) := rfl
  have noted := (note_lazily allowed (fun _ => rfl) fun _ => True).keeping fun c => c = col
  apply Lazily.bind (noted.pre fun w there => ⟨trivial, fun c same => same ▸ there⟩)
  intro _
  exact Lazily.pure.post fun v w after => ⟨after.1, after.2.2 col rfl⟩

/-- `pg_tuple_materialize` materialises all fields. -/
theorem materialize_lazily (P : World κ ν τ ρ → Prop) :
    Lazily o P (materialize rs) fun _ w => ∀ col, col < o.names.length → Materialised w col := by
  intro w holds _
  have loop : Lazily o (fun _ => True) ((List.range w.tuple.numFields).forM fun fieldNum => do
      let _ ← materializeField rs fieldNum
      pure ()) fun _ w' => ∀ i ∈ List.range w.tuple.numFields, ∀ col, col = i → Materialised w' col := by
    apply forM_lazily
    intro i member
    have inside : i < o.names.length := holds.numFields ▸ List.mem_range.1 member
    apply Lazily.bind (materializeField_lazily inside fun _ => True)
    intro _
    apply Lazily.pure.post
    rintro _ w' ⟨-, -, there⟩ col rfl
    exact there
  have dropped := detach_lazily.keeping (o := o) fun col => col < o.names.length
  have both := loop.bind (k := fun _ => detach) fun _ => dropped.pre fun w' all => by
    have cols : ∀ col, col < o.names.length → Materialised w' col := fun col inside =>
      all col (List.mem_range.2 (holds.numFields.symm ▸ inside)) col rfl
    exact ⟨cols, cols⟩
  exact (both.post fun _ _ after => after.2) w holds trivial

/-- The names of the fields are known at all times. -/
theorem Holds.getFieldNames {w : World κ ν τ ρ} (holds : Holds o w) :
    getFieldNames w.tuple =
      .ok (if o.names.length ≠ (OrderedHash.indexHash o.names).length then some o.names else none) := by
  unfold PgTuple.getFieldNames
  rw [holds.numFields, holds.fieldMap, holds.behind]
  split
  · rfl
  · rfl

/-- `keys` are the names of the row. -/
theorem Holds.keys {w : World κ ν τ ρ} (holds : Holds o w) : keys w.tuple = .ok o.names := by
  unfold PgTuple.keys
  rw [holds.getFieldNames, holds.fieldMap]
  by_cases full : o.names.length = (OrderedHash.indexHash o.names).length
  · rw [if_neg (not_not.2 full), OrderedHash.indexHash_of_size full.symm]
    exact congrArg Except.ok (List.zipIdx_map_fst 0 o.names)
  · rw [if_pos full]
    rfl

/-- The row as an Array. -/
def Origin.values (o : Origin rs) : List ν := (List.range o.names.length).map o.value

/-- When all fields are materialised, the values are the row. -/
theorem Holds.values {w : World κ ν τ ρ} (holds : Holds o w)
    (all : ∀ col, col < o.names.length → Materialised w col) : w.tuple.values = o.values.map some := by
  apply List.ext_getElem
  · rw [List.length_map, Origin.values, List.length_map, List.length_range, holds.length]
  · intro i inside inside'
    obtain ⟨v, present⟩ := all i (holds.length ▸ inside)
    have value := holds.value i v present
    rw [List.getElem?_eq_getElem inside, Option.some.injEq] at present
    rw [present, value]
    simp [Origin.values]

theorem mapM_some {α : Type} (xs : List α) : (xs.map some).mapM id = some xs := by
  induction xs with
  | nil => rfl
  | cons x xs ih =>
    rw [List.map_cons, List.mapM_cons, ih]
    rfl

/-- When all fields are materialised, the Array of the values is the row. -/
theorem valuesArray_lazily :
    Lazily o (fun w => ∀ col, col < o.names.length → Materialised w col) valuesArray fun vs _ => vs = o.values := by
  intro w holds all
  have start : valuesArray w = (do
      o.values.zipIdx.forM fun entry => note (.gave entry.2 entry.1)
      pure o.values : TupleMethod κ ν τ ρ (List ν)) w := by
    unfold valuesArray
    rw [Method.read_bind, holds.values all, mapM_some]
  have noted : Lazily o (fun _ => True) (do
      o.values.zipIdx.forM fun entry => note (.gave entry.2 entry.1)
      pure o.values) fun vs _ => vs = o.values := by
    have loop : Lazily o (fun _ => True) (o.values.zipIdx.forM fun entry => note (.gave entry.2 entry.1))
        fun _ w => ∀ entry ∈ o.values.zipIdx, ∀ col, False → Materialised w col := by
      apply forM_lazily
      rintro ⟨v, col⟩ member
      have allowed : o.Allows (.gave col v) := by
        have entry := (List.mem_zipIdx member).2.2
        simp only [Origin.values, List.getElem_map, List.getElem_range, Nat.sub_zero] at entry
        exact entry
      exact (note_lazily allowed (fun _ => rfl) _).post fun _ _ _ col none => absurd none id
    apply loop.bind
    intro _
    exact Lazily.pure.post fun _ _ after => after.1
  rw [start]
  exact noted w holds trivial

/-- **`values` is the row.** -/
theorem values_lazily : Lazily o (fun _ => True) (pgTupleValues rs) fun vs _ => vs = o.values :=
  .bind (materialize_lazily _) fun _ => valuesArray_lazily

/-- **`dump` is the names and the row.** -/
theorem dump_lazily : Lazily o (fun _ => True) (pgTupleDump rs) fun dumped w =>
    dumped = (o.names, o.values) ∧ ∀ col, col < o.names.length → Materialised w col := by
  apply Lazily.bind (materialize_lazily _)
  intro _ w holds all
  have start : (do
      let w ← Method.read
      let fieldNames ← Method.ofExcept (keys w.tuple)
      let values ← valuesArray
      pure (fieldNames, values) : TupleMethod κ ν τ ρ (List κ × List ν)) w = (do
        let values ← valuesArray
        pure (o.names, values) : TupleMethod κ ν τ ρ (List κ × List ν)) w := by
    rw [Method.read_bind, holds.keys]
    rfl
  have last : Lazily o (fun w => ∀ col, col < o.names.length → Materialised w col) (do
      let values ← valuesArray
      pure (o.names, values)) fun dumped _ => dumped = (o.names, o.values) := by
    apply Lazily.bind valuesArray_lazily
    intro vs
    apply Lazily.pure.post
    rintro _ _ ⟨rfl, rfl⟩
    rfl
  rw [start]
  exact (last.keeping fun col => col < o.names.length) w holds ⟨all, all⟩

/-- The column that a key stands for: the last one of a name. -/
def Origin.column (o : Origin rs) : Key κ → Outcome (Except (ErrClass × String) Nat)
  | .int i => intColumn o.names.length i
  | .name name =>
    match OrderedHash.lastIndex name o.names with
    | none => pure (.error (.keyError, "column not found"))
    | some col => pure (.ok col)

/-- What the row answers to a key, where `none` is `nil`. -/
def Origin.answer (o : Origin rs) (key : Key κ) : Outcome (Option ν) := do
  match ← o.column key with
  | .ok col => pure (some (o.value col))
  | .error _ => pure none

theorem Holds.keyColumn {w : World κ ν τ ρ} (holds : Holds o w) (key : Key κ) : keyColumn w.tuple key = o.column key := by
  cases key with
  | int i => exact congrArg (intColumn · i) holds.numFields
  | name name =>
    have same : w.tuple.fieldMap.aref name = OrderedHash.lastIndex name o.names := by
      rw [holds.fieldMap, OrderedHash.aref_indexHash]
    unfold PgTuple.keyColumn Origin.column
    cases found : OrderedHash.lastIndex name o.names with
    | none => simp only [same, found]
    | some col => simp only [same, found]

/-- A column that is found is one of the row. -/
theorem Origin.column_lt {key : Key κ} {col : Nat} (found : o.column key = .ok (.ok col)) : col < o.names.length := by
  cases key with
  | int i =>
    obtain ⟨n, -, inside⟩ := Outcome.of_bind found
    dsimp only at inside
    by_cases outside : (if n < 0 then (o.names.length : Int) + n else n) < 0 ∨
        (if n < 0 then (o.names.length : Int) + n else n) ≥ o.names.length
    · rw [if_pos outside] at inside
      cases inside
    · rw [if_neg outside] at inside
      cases inside
      omega
  | name name =>
    unfold Origin.column at found
    dsimp only at found
    cases last : OrderedHash.lastIndex name o.names with
    | none =>
      rw [last] at found
      cases found
    | some i =>
      rw [last] at found
      cases found
      exact OrderedHash.lastIndex_lt last

/-- What a method does with the column of its key. -/
theorem column_lazily {α : Type} {k : Except (ErrClass × String) Nat → TupleMethod κ ν τ ρ α} {key : Key κ}
    {Q : α → World κ ν τ ρ → Prop} (next : ∀ column, o.column key = .ok column → Lazily o (fun _ => True) (k column) Q) :
    Lazily o (fun _ => True) (do
      let w ← Method.read
      let column ← Method.ofExcept (keyColumn w.tuple key)
      k column) Q := by
  intro w holds _
  rw [Method.read_bind, holds.keyColumn]
  refine Lazily.bind (P := fun _ => True) Lazily.ofExcept (fun column => ?_) w holds trivial
  exact Lazily.assume fun found => next column found

/-- **`[]` answers as the row does.** -/
theorem aref_lazily (key : Key κ) :
    Lazily o (fun _ => True) (pgTupleAref rs key) fun r _ => o.answer key = .ok r := by
  apply column_lazily
  intro column found
  unfold Origin.answer
  rw [found]
  cases column with
  | error missing => exact Lazily.pure.post fun r _ after => congrArg (fun a => Except.ok a) after.1.symm
  | ok col =>
    apply Lazily.bind (give_lazily (Origin.column_lt found) _)
    intro v
    apply Lazily.pure.post
    rintro _ _ ⟨rfl, rfl, -⟩
    rfl

/-- **`fetch` answers as the row does**, where that has the key. -/
theorem fetch_lazily (key : Key κ) (default : Option ν) {block : Option (Key κ → TupleMethod κ ν τ ρ ν)}
    (inner : ∀ b, block = some b → Lazily o (fun _ => True) (b key) fun _ _ => True) :
    Lazily o (fun _ => True) (pgTupleFetch rs key default block) fun r _ =>
      ∀ v, o.answer key = .ok (some v) → r = v := by
  apply column_lazily
  intro column found
  unfold Origin.answer
  rw [found]
  cases column with
  | ok col =>
    apply (give_lazily (Origin.column_lt found) _).post
    rintro r _ ⟨rfl, -⟩ v answer
    cases answer
    rfl
  | error missing =>
    have missed : ∀ m : TupleMethod κ ν τ ρ ν, Lazily o (fun _ => True) m (fun _ _ => True) →
        Lazily o (fun _ => True) m fun r _ => ∀ v, (Except.ok none : Outcome (Option ν)) = .ok (some v) → r = v :=
      fun m spec => spec.post fun r _ _ v answer => by cases answer
    cases block with
    | some b => exact missed _ (inner b rfl)
    | none =>
      cases default with
      | some v => exact missed _ (Lazily.pure.post fun _ _ _ => trivial)
      | none => exact missed _ (Lazily.raise _)

/-- One round of `each`. -/
theorem yieldField_lazily {block : κ → ν → TupleMethod κ ν τ ρ Unit} {name : κ} {col : Nat}
    (named : o.names[col]? = some name) (inner : Lazily o (fun _ => True) (block name (o.value col)) fun _ _ => True) :
    Lazily o (fun _ => True) (yieldField rs block name col) fun _ w => ∀ c, c = col → Materialised w c := by
  have inside : col < o.names.length := (List.getElem?_eq_some_iff.1 named).1
  apply Lazily.bind (materializeField_lazily inside _)
  intro v
  apply Lazily.assume
  rintro rfl
  have allowed : o.Allows (.yielded name col (o.value col)) := ⟨named, rfl⟩
  have noted := (note_lazily allowed (fun _ => rfl) fun _ => True).keeping fun c => c = col
  apply Lazily.bind (noted.pre fun w there => ⟨trivial, fun c same => same ▸ there⟩)
  intro _
  exact (inner.keeping fun c => c = col).post fun _ _ after => after.2

/-- **`each`** drops the result behind a block that has seen all fields. -/
theorem each_lazily {block : κ → ν → TupleMethod κ ν τ ρ Unit}
    (inner : ∀ name v, Lazily o (fun _ => True) (block name v) fun _ _ => True) :
    Lazily o (fun _ => True) (pgTupleEach rs block) fun _ _ => True := by
  intro w holds _
  unfold pgTupleEach
  rw [Method.read_bind, holds.getFieldNames]
  by_cases full : o.names.length = (OrderedHash.indexHash o.names).length
  · rw [if_neg (not_not.2 full), holds.fieldMap, OrderedHash.indexHash_of_size full.symm]
    have loop : Lazily o (fun _ => True) (o.names.zipIdx.forM fun entry => yieldField rs block entry.1 entry.2)
        fun _ w => ∀ entry ∈ o.names.zipIdx, ∀ c, c = entry.2 → Materialised w c := by
      apply forM_lazily
      rintro ⟨name, col⟩ member
      exact yieldField_lazily (List.mk_mem_zipIdx_iff_getElem?.1 member) (inner _ _)
    refine (loop.bind fun _ => detach_lazily.pre fun w all col inside => ?_) w holds trivial
    have member : (o.names[col], col) ∈ o.names.zipIdx :=
      List.mk_mem_zipIdx_iff_getElem?.2 (List.getElem?_eq_getElem inside)
    exact all _ member col rfl
  · rw [if_pos full]
    refine (Lazily.bind (forM_lazily (fun i c => c = i) ?_) fun _ => detach_lazily.pre fun w' all col inside => ?_) w holds trivial
    · intro i _
      cases named : o.names[i]? with
      | none => exact Lazily.raise _
      | some name => exact yieldField_lazily named (inner _ _)
    · exact all col (List.mem_range.2 (holds.numFields.symm ▸ inside)) col rfl

/-- **`each_value`**, likewise. -/
theorem eachValue_lazily {block : ν → TupleMethod κ ν τ ρ Unit}
    (inner : ∀ v, Lazily o (fun _ => True) (block v) fun _ _ => True) :
    Lazily o (fun _ => True) (pgTupleEachValue rs block) fun _ _ => True := by
  intro w holds _
  unfold pgTupleEachValue
  rw [Method.read_bind]
  have loop : Lazily o (fun _ => True) ((List.range w.tuple.numFields).forM fun fieldNum => do
      let value ← give rs fieldNum
      block value) fun _ w' => ∀ i ∈ List.range w.tuple.numFields, ∀ c, c = i → Materialised w' c := by
    apply forM_lazily
    intro i member
    have inside : i < o.names.length := holds.numFields ▸ List.mem_range.1 member
    apply Lazily.bind (give_lazily inside _)
    intro v
    have kept := (inner v).keeping fun c => c = i
    exact (kept.pre fun w' after => ⟨trivial, fun c same => same ▸ after.2⟩).post fun _ _ after => after.2
  refine (loop.bind fun _ => detach_lazily.pre fun w' all col inside => ?_) w holds trivial
  exact all col (List.mem_range.2 (holds.numFields.symm ▸ inside)) col rfl

end Methods

section Clients

variable [DecidableEq ρ]

/-- A program over the methods of a tuple and `Result#type_map=`. It decides by what it has seen how it
goes on, may raise, `break` or `throw` out of blocks, and rescue that, and its blocks are such
programs. -/
inductive Client (rs : Results κ ν τ ρ) : {α : Type} → TupleMethod κ ν τ ρ α → Prop where
  | pure {α : Type} (a : α) : Client rs (Pure.pure a)
  | leave {α : Type} (cls : ErrClass) (msg : String) : Client rs (raiseExn (α := α) cls msg)
  | bind {α β : Type} {m : TupleMethod κ ν τ ρ α} {k : α → TupleMethod κ ν τ ρ β} :
      Client rs m → (∀ a, Client rs (k a)) → Client rs (m >>= k)
  | rescue {α : Type} {m : TupleMethod κ ν τ ρ α} {p : Stop → Bool} {handler : Stop → TupleMethod κ ν τ ρ α} :
      Client rs m → (∀ e, Client rs (handler e)) → Client rs (m.rescueIf p handler)
  | setTypeMap (result : ρ) (typemap : τ) : Client rs (setTypeMap result typemap)
  | aref (key : Key κ) : Client rs (pgTupleAref rs key)
  | fetch (key : Key κ) (default : Option ν) : Client rs (pgTupleFetch rs key default none)
  | fetchBlock (key : Key κ) (default : Option ν) {block : Key κ → TupleMethod κ ν τ ρ ν} :
      (∀ key, Client rs (block key)) → Client rs (pgTupleFetch rs key default (some block))
  | each {block : κ → ν → TupleMethod κ ν τ ρ Unit} :
      (∀ name v, Client rs (block name v)) → Client rs (pgTupleEach rs block)
  | eachValue {block : ν → TupleMethod κ ν τ ρ Unit} :
      (∀ v, Client rs (block v)) → Client rs (pgTupleEachValue rs block)
  | values : Client rs (pgTupleValues rs)
  | dump : Client rs (pgTupleDump rs)

/-- **Every program keeps the invariant.** The induction is on the program. -/
theorem Client.lazily {α : Type} {m : TupleMethod κ ν τ ρ α} (client : Client rs m) (o : Origin rs) :
    Lazily o (fun _ => True) m fun _ _ => True := by
  induction client with
  | pure a => exact Lazily.pure.post fun _ _ _ => trivial
  | leave cls msg => exact Lazily.raise _
  | bind _ _ first next => exact first.bind next
  | @rescue α m p handler _ _ first next =>
    intro w holds _
    obtain ⟨holds', grows, -⟩ := first w holds trivial
    unfold Method.rescueIf
    cases run : m w with
    | mk result w' =>
      rw [run] at holds' grows
      cases result with
      | ok a => exact ⟨holds', grows, fun _ _ => trivial⟩
      | error e =>
        dsimp only
        split
        · obtain ⟨holds'', grows', -⟩ := next e w' holds' trivial
          exact ⟨holds'', fun col there => grows' col (grows col there), fun _ _ => trivial⟩
        · exact ⟨holds', grows, fun _ _ => trivial⟩
  | setTypeMap result typemap => exact setTypeMap_lazily result typemap _
  | aref key => exact (aref_lazily key).post fun _ _ _ => trivial
  | fetch key default =>
    refine (fetch_lazily key default ?_).post fun _ _ _ => trivial
    intro b given
    cases given
  | fetchBlock key default _ inner =>
    refine (fetch_lazily key default ?_).post fun _ _ _ => trivial
    rintro b given
    cases given
    exact inner key
  | each _ inner => exact each_lazily inner
  | eachValue _ inner => exact eachValue_lazily inner
  | values => exact values_lazily.post fun _ _ _ => trivial
  | dump => exact dump_lazily.post fun _ _ _ => trivial

end Clients

section Dump

variable {o : Origin rs}

/-- When all fields are materialised, `[]` answers as the row does and never raises for a field. -/
theorem Holds.aref {w w' : World κ ν τ ρ} (holds : Holds o w) (all : ∀ col, col < o.names.length → Materialised w col)
    (same : w'.tuple = w.tuple) (key : Key κ) : (pgTupleAref rs key w').1 = o.answer key := by
  unfold pgTupleAref Origin.answer
  rw [Method.read_bind, same, holds.keyColumn]
  cases found : o.column key with
  | error stop => rfl
  | ok column =>
    cases column with
    | error missing => rfl
    | ok col =>
      obtain ⟨v, present⟩ := all col (Origin.column_lt found)
      have run : materializeField rs col w' = (.ok v, w') := by
        unfold materializeField
        rw [Method.read_bind, same, present]
        rfl
      have given : give rs col w' = (.ok v, ⟨w'.typeMap, w'.tuple, .gave col v :: w'.log⟩) := by
        unfold give
        rw [Method.bind_ok run]
        rfl
      show ((give rs col >>= fun value => pure (some value) : TupleMethod κ ν τ ρ (Option ν)) w').1 = _
      rw [Method.bind_ok given]
      exact congrArg (fun v => Except.ok (some v)) (holds.value col v present)

/-- The row of a tuple that was loaded: it has no source. -/
def Origin.loaded (o : Origin rs) : Origin rs := ⟨o.names, o.value, none, fun _ _ _ none => by cases none⟩

/-- A dump is loaded as a tuple that shows the same row, without a result. -/
theorem load_holds (o : Origin rs) (typeMap : ρ → τ) :
    ∃ t : Tuple κ ν τ ρ, pgTupleLoad none (o.names, o.values) = .ok t ∧ t.values = o.values.map some ∧
      Holds o.loaded ⟨typeMap, t, []⟩ ∧
      ∀ col, col < o.names.length → Materialised (⟨typeMap, t, []⟩ : World κ ν τ ρ) col := by
  have count : o.values.length = o.names.length := by
    rw [Origin.values, List.length_map, List.length_range]
  have entry : ∀ col, col < o.names.length → (o.values.map some)[col]? = some (some (o.value col)) := by
    intro col inside
    rw [List.getElem?_map, Origin.values, List.getElem?_map, List.getElem?_range inside]
    rfl
  have loads : ∃ t : Tuple κ ν τ ρ, pgTupleLoad none (o.names, o.values) = .ok t ∧ t.values = o.values.map some ∧
      t.numFields = o.names.length ∧ t.fieldMap = OrderedHash.indexHash o.names ∧
      t.behind = if o.names.length ≠ (OrderedHash.indexHash o.names).length then some o.names else none := by
    unfold pgTupleLoad
    dsimp only
    rw [count, if_neg (not_not.2 rfl)]
    exact ⟨_, rfl, rfl, rfl, rfl, rfl⟩
  obtain ⟨t, loaded, values, numFields, fieldMap, behind⟩ := loads
  have all : ∀ col, col < o.names.length → Materialised (⟨typeMap, t, []⟩ : World κ ν τ ρ) col := by
    intro col inside
    refine ⟨o.value col, ?_⟩
    show t.values[col]? = _
    rw [values]
    exact entry col inside
  refine ⟨t, loaded, values, ⟨numFields, ?_, fieldMap, behind, ?_, Or.inr all, ?_, ?_, ?_⟩, all⟩
  · show t.values.length = o.names.length
    rw [values, List.length_map, count]
  · intro col v present
    have inside : col < o.names.length := by
      have bound := (List.getElem?_eq_some_iff.1 present).1
      dsimp only at bound
      rwa [values, List.length_map, count] at bound
    dsimp only at present
    rw [values, entry col inside] at present
    cases present
    rfl
  · intro event member
    cases member
  · exact fun _ => Nat.zero_le 1
  · exact fun _ _ => rfl

end Dump

section View

variable {typeMap : ρ → τ} {result : ρ} {index : Int} {tuple : Tuple κ ν τ ρ}

/-- The row of a tuple that was made by `Result#tuple`: what its type map made of the fields then. -/
def Origin.ofResult (rs : Results κ ν τ ρ) (typeMap : ρ → τ) (result : ρ) (index : Int) : Origin rs where
  names := rs.fnames result
  value := rs.value (typeMap result) result index
  source := some (typeMap result, result, index)
  sound := by
    rintro _ _ _ same _
    cases same
    rfl

theorem num2int_eq {i n : Int} (fits : num2int i = .ok n) : n = i := by
  unfold num2int at fits
  split at fits
  · cases fits
    rfl
  · split at fits
    · cases fits
    · split at fits
      · cases fits
      · cases fits

/-- `Result#tuple` makes a view of the row. -/
theorem made_holds (made : pgresultTuple rs typeMap result index = .ok tuple) :
    Holds (Origin.ofResult rs typeMap result index) ⟨typeMap, tuple, []⟩ := by
  obtain ⟨n, fits, made⟩ := Outcome.of_bind made
  cases num2int_eq fits
  split at made
  · cases made
  · cases made
    refine ⟨rfl, List.length_replicate, rfl, rfl, ?_, Or.inl ⟨_, _, rfl, rfl, rfl⟩, ?_, ?_, ?_⟩
    · intro col v present
      cases List.eq_of_mem_replicate (List.mem_of_getElem? present)
    · intro event member
      cases member
    · exact fun _ => Nat.zero_le 1
    · exact fun _ _ => rfl

omit [DecidableEq κ] in
/-- The loop of `tuple_values`, whose casts do not change the type map. -/
theorem castAll_eq {row : Int} {fields : List Nat} {w : World κ ν τ ρ} {vs : List ν}
    (same : w.typeMap result = typeMap result)
    (returned : ((fields.mapM fun field => do
      let w ← Method.read
      typecastResultValue rs (w.typeMap result) result row field : TupleMethod κ ν τ ρ (List ν)) w).1 = .ok vs) :
    vs = fields.map (rs.value (typeMap result) result row) := by
  induction fields generalizing w vs with
  | nil =>
    cases returned
    rfl
  | cons field fields ih =>
    have start : (do
        let w ← Method.read
        typecastResultValue rs (w.typeMap result) result row field : TupleMethod κ ν τ ρ ν) w =
          typecastResultValue rs (typeMap result) result row field w := by
      rw [Method.read_bind, same]
    rw [List.mapM_cons, Method.bind_congr start] at returned
    cases raised : rs.raises w.log (typeMap result) result row field with
    | some exn =>
      have failed : ∃ w', typecastResultValue rs (typeMap result) result row field w = (.error (.exn exn.1 exn.2), w') := by
        unfold typecastResultValue
        rw [Method.read_bind, raised]
        exact ⟨_, rfl⟩
      obtain ⟨w', failed⟩ := failed
      rw [Method.bind_error failed] at returned
      cases returned
    | none =>
      have done : typecastResultValue rs (typeMap result) result row field w =
          (.ok (rs.value (typeMap result) result row field),
            ⟨w.typeMap, w.tuple, .cast (typeMap result) result row field true :: w.log⟩) := by
        unfold typecastResultValue
        rw [Method.read_bind, raised]
        rfl
      rw [Method.bind_ok done] at returned
      cases rest : (fields.mapM fun field => do
          let w ← Method.read
          typecastResultValue rs (w.typeMap result) result row field : TupleMethod κ ν τ ρ (List ν))
          ⟨w.typeMap, w.tuple, .cast (typeMap result) result row field true :: w.log⟩ with
      | mk outcome w' =>
        cases outcome with
        | error e =>
          rw [Method.bind_error rest] at returned
          cases returned
        | ok later =>
          rw [Method.bind_ok rest] at returned
          cases returned
          rw [List.map_cons, ← ih (w := ⟨w.typeMap, w.tuple, .cast (typeMap result) result row field true :: w.log⟩) same
            (by rw [rest])]

omit [DecidableEq κ] in
/-- `Result#tuple_values` gives the row as an Array. -/
theorem tupleValues_eq {w : World κ ν τ ρ} {vs : List ν} (same : w.typeMap result = typeMap result)
    (returned : (pgresultTupleValues rs result index w).1 = .ok vs) :
    vs = (Origin.ofResult rs typeMap result index).values := by
  unfold pgresultTupleValues at returned
  cases fits : num2int index with
  | error stop =>
    have failed : (Method.ofExcept (num2int index) : TupleMethod κ ν τ ρ Int) w = (.error stop, w) := by rw [fits]; rfl
    rw [Method.bind_error failed] at returned
    cases returned
  | ok n =>
    cases num2int_eq fits
    have fitted : (Method.ofExcept (num2int index) : TupleMethod κ ν τ ρ Int) w = (.ok index, w) := by rw [fits]; rfl
    rw [Method.bind_ok fitted] at returned
    split at returned
    · cases returned
    · exact castAll_eq same returned

/-- **Tuples are faithful lazy views.** Whatever program is run on a tuple, in the state it ends in, by
returning or by raising: all values that it saw are those of the row, which are those that
`tuple_values` gives under the type map of the beginning; no field was cast with success twice, all
casts went through that type map and the result, and never through a dropped one; the result is
only dropped when all fields are materialised; every key has one answer, whatever was accessed
before, and `fetch` and `values` agree with it; and what `dump` writes is loaded as a tuple with
the same length, names and values and the same answers. -/
theorem lazy_view [DecidableEq ρ] (made : pgresultTuple rs typeMap result index = .ok tuple) {α : Type} {m : TupleMethod κ ν τ ρ α}
    (client : Client rs m) {s : World κ ν τ ρ} (ends : (m ⟨typeMap, tuple, []⟩).2 = s) :
    (∀ col v, (.gave col v ∈ s.log → v = (Origin.ofResult rs typeMap result index).value col) ∧
      ∀ name, .yielded name col v ∈ s.log →
        (rs.fnames result)[col]? = some name ∧ v = (Origin.ofResult rs typeMap result index).value col) ∧
    (∀ w vs, w.typeMap result = typeMap result → (pgresultTupleValues rs result index w).1 = .ok vs →
      vs = (Origin.ofResult rs typeMap result index).values) ∧
    (∀ col, successes col s.log ≤ 1) ∧
    (∀ typemap r row col succeeds, .cast typemap r row col succeeds ∈ s.log →
      typemap = typeMap result ∧ r = result ∧ row = index) ∧
    (∀ col, .dangling col ∉ s.log) ∧
    (s.tuple.result = none → ∀ col, col < (rs.fnames result).length → Materialised s col) ∧
    (∀ key r, (pgTupleAref rs key s).1 = .ok r → (Origin.ofResult rs typeMap result index).answer key = .ok r) ∧
    (∀ key default block r v, (∀ b, block = some b → Client rs (b key)) →
      (pgTupleFetch rs key default block s).1 = .ok r →
      (Origin.ofResult rs typeMap result index).answer key = .ok (some v) → r = v) ∧
    (∀ vs, (pgTupleValues rs s).1 = .ok vs → vs = (Origin.ofResult rs typeMap result index).values) ∧
    ∀ dumped s', pgTupleDump rs s = (.ok dumped, s') → ∃ t, pgTupleLoad none dumped = .ok t ∧
      pgTupleLength t = pgTupleLength s.tuple ∧ keys t = keys s.tuple ∧ t.values = s'.tuple.values ∧
      ∀ key w, w.tuple = t → (pgTupleAref rs key w).1 = (pgTupleAref rs key s').1 := by
  have start := made_holds made
  obtain ⟨holds, -, -⟩ := client.lazily (Origin.ofResult rs typeMap result index) _ start trivial
  rw [ends] at holds
  refine ⟨?_, ?_, holds.once, ?_, ?_, ?_, ?_, ?_, ?_, ?_⟩
  · intro col v
    exact ⟨fun seen => holds.allowed _ seen, fun name seen => holds.allowed _ seen⟩
  · exact fun w vs same returned => tupleValues_eq same returned
  · intro typemap r row col succeeds seen
    have source := holds.allowed _ seen
    cases source
    exact ⟨rfl, rfl, rfl⟩
  · exact fun col seen => holds.allowed _ seen
  · intro dropped
    rcases holds.attached with ⟨_, _, -, hasResult, -⟩ | all
    · rw [dropped] at hasResult
      cases hasResult
    · exact all
  · exact fun key r returned => (aref_lazily key s holds trivial).2.2 r returned
  · intro key default block r v inner returned answer
    refine (fetch_lazily key default ?_ s holds trivial).2.2 r returned v answer
    exact fun b given => (inner b given).lazily _
  · exact fun vs returned => (values_lazily s holds trivial).2.2 vs returned
  · intro dumped s' run
    obtain ⟨holds', -, after⟩ := dump_lazily s holds trivial
    rw [run] at holds' after
    obtain ⟨rfl, all⟩ := after dumped rfl
    obtain ⟨t, loaded, values, shows, materialised⟩ := load_holds (Origin.ofResult rs typeMap result index) s.typeMap
    refine ⟨t, loaded, ?_, ?_, ?_, ?_⟩
    · exact shows.numFields.trans holds.numFields.symm
    · exact shows.keys.trans holds.keys.symm
    · exact values.trans (holds'.values all).symm
    · intro key w same
      exact (shows.aref materialised same key).trans (holds'.aref all rfl key).symm

/-- A result with one row and a duplicate name, where the first cast raises; for concrete runs. -/
def Results.sample : Results Bool Nat Bool Unit where
  fnames _ := [true, false, true]
  ntuples _ := 1
  value typemap _ _ col := if typemap then col else col + 10
  raises log _ _ _ _ := if log.isEmpty then some (.typeError, "invalid input") else none

/-- A program that exchanges the type map, leaves `each` from within, and goes on with `each_value`. -/
def leaveEach : TupleMethod Bool Nat Bool Unit Unit :=
  (pgTupleEach .sample fun _ _ => pure ()).rescueIf (fun _ => true) fun _ => do
    setTypeMap () true
    (pgTupleEach .sample fun name _ => do
      let _ ← pgTupleAref .sample (.name name)
      raiseExn .runtimeError "leave").rescueIf (fun _ => true) fun _ => pgTupleEachValue .sample fun _ => pure ()

theorem leaveEach_client : Client .sample leaveEach := by
  apply Client.rescue
  · exact Client.each fun _ _ => Client.pure _
  · intro _
    apply Client.bind (Client.setTypeMap () true)
    intro _
    apply Client.rescue
    · apply Client.each
      intro name _
      exact (Client.aref (.name name)).bind fun _ => Client.leave _ _
    · exact fun _ => Client.eachValue fun _ => Client.pure _

/-- The tuple of that row. -/
def Tuple.sample : Tuple Bool Nat Bool Unit := pgTupleNew .sample (fun _ => false) () [(true, 2), (false, 1)] 0

/-- The program has seen the last column with the type map of the beginning, and cast it once. -/
theorem lazy_view_leaveEach :
    (pgTupleAref .sample (.name true) (leaveEach ⟨fun _ => false, .sample, []⟩).2).1 = .ok (some 12) ∧
      successes 2 (leaveEach ⟨fun _ => false, .sample, []⟩).2.log ≤ 1 := by
  have made : pgresultTuple Results.sample (fun _ => false) () 0 = .ok .sample := rfl
  have view := lazy_view made leaveEach_client rfl
  exact ⟨rfl, view.2.2.1 2⟩

end View

end RubyPg.PgTuple
