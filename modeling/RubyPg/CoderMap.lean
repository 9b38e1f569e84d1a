import RubyPg.BasicTypeRegistry
import RubyPg.Lib.OrderedHash
import RubyPg.Text.ArrayOut

/-!
# The coders of a catalogue

`CoderMap#initialize` of `lib/pg/basic_type_registry.rb` makes a coder for each row of `pg_type` whose type is registered,
and one for each array of such a type. It gets the delimiter of every type along with the rows, and does not look at it:
the delimiter of an array coder is the comma that it was allocated with (`aref_coderMap`).
-/

namespace RubyPg.BasicTypeRegistry
set_option autoImplicit false
open Ascii

/-- A row of the query on `pg_type`. -/
structure TypeRow where
  oid : Nat
  typname : String
  typelem : Nat
  typdelim : UInt8
  typinput : String
deriving DecidableEq, Repr

/-- The type is an array. -/
def TypeRow.isArray (row : TypeRow) : Bool := row.typinput == "array_in"

/-- The catalogue: no two types have one OID, and there are no arrays of arrays. -/
structure Catalogue where
  rows : List TypeRow
  unique : (rows.map TypeRow.oid).Nodup
  flat : ∀ row ∈ rows, ∀ element ∈ rows, row.isArray = true → element.oid = row.typelem → element.isArray = false

/-- The classes of the array coders. -/
inductive ArrayClass where
  | textEncoder | textDecoder | binaryEncoder | binaryDecoder
deriving DecidableEq, Repr

/-- The delimiter of a new coder, which `pg_composite_encoder_allocate` and `pg_composite_decoder_allocate` set. -/
def ArrayClass.delimiter : ArrayClass → UInt8
  | textEncoder | textDecoder | binaryEncoder | binaryDecoder => comma

/-- A coder of a map: a registered one with the OID, name and format of its type, or one for the arrays of a type. -/
inductive Coder (γ : Type) where
  | base (obj : γ) (oid : Nat) (name : String) (format : Nat)
  | array (class' : ArrayClass) (oid : Nat) (name : String) (format : Nat) (elementsType : Coder γ) (needsQuotation : Bool)
      (delimiter : UInt8)
deriving DecidableEq, Repr

variable {γ : Type}

def Coder.name : Coder γ → String
  | base _ _ name _ => name
  | array _ _ name _ _ _ _ => name

def Coder.oid : Coder γ → Nat
  | base _ oid _ _ => oid
  | array _ oid _ _ _ _ _ => oid

/-- Populate the base types. -/
def populateBase (codersByName : String → Option γ) (format : Nat) (coderMap : OrderedHash Nat (Coder γ)) (row : TypeRow) :
    OrderedHash Nat (Coder γ) :=
  match codersByName row.typname with
  | some coder => coderMap.aset row.oid (.base coder row.oid row.typname format)
  | none => coderMap

/-- Populate array types. -/
def populateArray (arraycoder : ArrayClass) (format : Nat) (coderMap : OrderedHash Nat (Coder γ)) (row : TypeRow) :
    OrderedHash Nat (Coder γ) :=
  match coderMap.aref row.typelem with
  | none => coderMap
  | some elementsCoder =>
    coderMap.aset row.oid (.array arraycoder row.oid row.typname format elementsCoder
      (!dontQuoteTypes.contains elementsCoder.name) arraycoder.delimiter)

/-- `coder_map` of `CoderMap#initialize`. -/
def coderMap (result : List TypeRow) (codersByName : String → Option γ) (format : Nat) (arraycoder : Option ArrayClass) :
    OrderedHash Nat (Coder γ) :=
  let arrays := result.filter (·.isArray)
  let nodes := result.filter fun row => !row.isArray
  let coderMap := nodes.foldl (populateBase codersByName format) []
  match arraycoder with
  | some arraycoder => arrays.foldl (populateArray arraycoder format) coderMap
  | none => coderMap

/-- What a registry has for a format: encoders or decoders. -/
inductive Direction where
  | encoder | decoder
deriving DecidableEq, Repr

/-- The formats, directions and array coders of `init_maps`. -/
def mapKinds : List (Nat × Direction × ArrayClass) :=
  [(0, .encoder, .textEncoder), (0, .decoder, .textDecoder), (1, .encoder, .binaryEncoder), (1, .decoder, .binaryDecoder)]

/-- The map of `init_maps` for one of them, where `codersFor` is `coders_for` of the registry. -/
def initMap (codersFor : Nat → Direction → Option (String → Option γ)) (result : List TypeRow)
    (kind : Nat × Direction × ArrayClass) : OrderedHash Nat (Coder γ) :=
  let coders := (codersFor kind.1 kind.2.1).getD fun _ => none
  coderMap result coders kind.1 (some kind.2.2)

/-- `init_maps`. -/
def initMaps (codersFor : Nat → Direction → Option (String → Option γ)) (result : List TypeRow) :
    List (OrderedHash Nat (Coder γ)) := mapKinds.map (initMap codersFor result)

section Lookup

variable {rows : List TypeRow} {codersByName : String → Option γ} {format : Nat} {arraycoder : ArrayClass}

/-- The coder of a base type. -/
def baseCoder (codersByName : String → Option γ) (format : Nat) (row : TypeRow) : Option (Coder γ) :=
  (codersByName row.typname).map fun coder => .base coder row.oid row.typname format

/-- The row of a type. -/
def rowOf (rows : List TypeRow) (oid : Nat) : Option TypeRow := rows.find? fun row => row.oid == oid

theorem rowOf_eq_some {row : TypeRow} {oid : Nat} (found : rowOf rows oid = some row) : row ∈ rows ∧ row.oid = oid := by
  have here := List.find?_some found
  rw [beq_iff_eq] at here
  exact ⟨List.mem_of_find?_eq_some found, here⟩

/-- Among rows with different OIDs. -/
theorem rowOf_mem {row : TypeRow} (unique : (rows.map TypeRow.oid).Nodup) (member : row ∈ rows) :
    rowOf rows row.oid = some row := by
  induction rows with
  | nil => cases member
  | cons first rows ih =>
    rw [List.map_cons, List.nodup_cons] at unique
    unfold rowOf
    rcases List.mem_cons.1 member with rfl | later
    · rw [List.find?_cons_of_pos (by simp)]
    · have other : first.oid ≠ row.oid := by
        intro same
        exact unique.1 (same ▸ List.mem_map_of_mem later)
      rw [List.find?_cons_of_neg (by simpa using other)]
      exact ih unique.2 later

/-- Behind the row of a type there is no other. -/
theorem rowOf_behind {row : TypeRow} {oid : Nat} (unique : row.oid ∉ rows.map TypeRow.oid) (here : row.oid = oid) :
    rowOf rows oid = none := by
  apply List.find?_eq_none.2
  intro other member same
  rw [beq_iff_eq] at same
  exact unique (here.trans same.symm ▸ List.mem_map_of_mem member)

/-- Populating with rows that have different OIDs, where each row sets the coder of its own type if it has one, and no row
changes which coder another one has. -/
theorem aref_populated {populate : OrderedHash Nat (Coder γ) → TypeRow → OrderedHash Nat (Coder γ)}
    {coderOf : OrderedHash Nat (Coder γ) → TypeRow → Option (Coder γ)}
    (sets : ∀ coderMap row oid, (populate coderMap row).aref oid =
      if row.oid = oid then (coderOf coderMap row).or (coderMap.aref oid) else coderMap.aref oid)
    (unique : (rows.map TypeRow.oid).Nodup)
    (apart : ∀ row ∈ rows, ∀ other ∈ rows, ∀ coderMap, coderOf (populate coderMap other) row = coderOf coderMap row)
    (start : OrderedHash Nat (Coder γ)) (oid : Nat) :
    (rows.foldl populate start).aref oid = ((rowOf rows oid).bind (coderOf start)).or (start.aref oid) := by
  induction rows generalizing start with
  | nil => rfl
  | cons row rows ih =>
    rw [List.map_cons, List.nodup_cons] at unique
    have apart' : ∀ row ∈ rows, ∀ other ∈ rows, ∀ coderMap, coderOf (populate coderMap other) row = coderOf coderMap row :=
      fun row member other member' => apart row (List.mem_cons_of_mem _ member) other (List.mem_cons_of_mem _ member')
    rw [List.foldl_cons, ih unique.2 apart', sets]
    by_cases here : row.oid = oid
    · have first : rowOf (row :: rows) oid = some row := List.find?_cons_of_pos (by simpa using here)
      rw [rowOf_behind unique.1 here, first, if_pos here, Option.bind_none, Option.none_or, Option.bind_some]
    · have later : rowOf (row :: rows) oid = rowOf rows oid := List.find?_cons_of_neg (by simpa using here)
      rw [later, if_neg here]
      cases found : rowOf rows oid with
      | none => rfl
      | some other =>
        have member := (rowOf_eq_some found).1
        rw [Option.bind_some, Option.bind_some, apart other (List.mem_cons_of_mem _ member) row List.mem_cons_self]

theorem aref_populateBase (coderMap : OrderedHash Nat (Coder γ)) (row : TypeRow) (oid : Nat) :
    (populateBase codersByName format coderMap row).aref oid =
      if row.oid = oid then (baseCoder codersByName format row).or (coderMap.aref oid) else coderMap.aref oid := by
  unfold populateBase baseCoder
  cases codersByName row.typname with
  | none => by_cases here : row.oid = oid <;> simp [here]
  | some coder => exact OrderedHash.aref_aset _ _ _ _

/-- The map of the base types. -/
theorem aref_bases (unique : (rows.map TypeRow.oid).Nodup) (start : OrderedHash Nat (Coder γ)) (oid : Nat) :
    (rows.foldl (populateBase codersByName format) start).aref oid =
      ((rowOf rows oid).bind (baseCoder codersByName format)).or (start.aref oid) :=
  aref_populated aref_populateBase unique (fun _ _ _ _ _ => rfl) start oid

/-- The coder of an array type. -/
def arrayCoderOf (arraycoder : ArrayClass) (format : Nat) (row : TypeRow) (elementsCoder : Coder γ) : Coder γ :=
  .array arraycoder row.oid row.typname format elementsCoder (!dontQuoteTypes.contains elementsCoder.name) comma

theorem aref_populateArray (coderMap : OrderedHash Nat (Coder γ)) (row : TypeRow) (oid : Nat) :
    (populateArray arraycoder format coderMap row).aref oid =
      if row.oid = oid then ((coderMap.aref row.typelem).map (arrayCoderOf arraycoder format row)).or (coderMap.aref oid)
      else coderMap.aref oid := by
  have delimiter : arraycoder.delimiter = comma := by cases arraycoder <;> rfl
  unfold populateArray arrayCoderOf
  rw [delimiter]
  cases coderMap.aref row.typelem with
  | none => by_cases here : row.oid = oid <;> simp [here]
  | some elementsCoder => exact OrderedHash.aref_aset _ _ _ _

/-- The arrays come behind their elements, which they leave as they are. -/
theorem aref_arrays (unique : (rows.map TypeRow.oid).Nodup) (flat : ∀ row ∈ rows, ∀ other ∈ rows, other.oid ≠ row.typelem)
    (start : OrderedHash Nat (Coder γ)) (oid : Nat) :
    (rows.foldl (populateArray arraycoder format) start).aref oid =
      ((rowOf rows oid).bind fun row => (start.aref row.typelem).map (arrayCoderOf arraycoder format row)).or
        (start.aref oid) := by
  apply aref_populated aref_populateArray unique
  intro row member other member' coderMap
  rw [aref_populateArray, if_neg (flat row member other member')]

/-- Some of the rows, such as the arrays. -/
theorem rowOf_filter {p : TypeRow → Bool} (unique : (rows.map TypeRow.oid).Nodup) {row : TypeRow} {oid : Nat} :
    rowOf (rows.filter p) oid = some row ↔ row ∈ rows ∧ p row = true ∧ row.oid = oid := by
  constructor
  · intro found
    obtain ⟨member, here⟩ := rowOf_eq_some found
    obtain ⟨member, holds⟩ := List.mem_filter.1 member
    exact ⟨member, holds, here⟩
  · rintro ⟨member, holds, rfl⟩
    apply rowOf_mem (unique.sublist (List.filter_sublist.map _))
    exact List.mem_filter.2 ⟨member, holds⟩

/-- Rows with one OID are the same. -/
theorem Catalogue.eq_of_oid (catalogue : Catalogue) {row other : TypeRow} (member : row ∈ catalogue.rows)
    (member' : other ∈ catalogue.rows) (same : row.oid = other.oid) : row = other := by
  have found := rowOf_mem catalogue.unique member
  have found' := rowOf_mem catalogue.unique member'
  rw [same, found'] at found
  exact (Option.some.inj found).symm

variable (catalogue : Catalogue) (codersByName : String → Option γ) (format : Nat)

/-- The base types of a catalogue. -/
theorem aref_nodes (oid : Nat) (coder : Coder γ) :
    ((catalogue.rows.filter fun row => !row.isArray).foldl (populateBase codersByName format) []).aref oid = some coder ↔
      ∃ row ∈ catalogue.rows, row.isArray = false ∧ row.oid = oid ∧ baseCoder codersByName format row = some coder := by
  rw [aref_bases (catalogue.unique.sublist (List.filter_sublist.map _))]
  have empty : OrderedHash.aref ([] : OrderedHash Nat (Coder γ)) oid = none := rfl
  rw [empty, Option.or_none, Option.bind_eq_some_iff]
  simp only [rowOf_filter catalogue.unique, Bool.not_eq_true']
  constructor
  · rintro ⟨row, ⟨member, node, here⟩, built⟩
    exact ⟨row, member, node, here, built⟩
  · rintro ⟨row, member, node, here, built⟩
    exact ⟨row, ⟨member, node, here⟩, built⟩

/-- The coders of a map: those of the registered base types, and one for each array of such a type. -/
theorem aref_coderMap (arraycoder : ArrayClass) (oid : Nat) (coder : Coder γ) :
    (coderMap catalogue.rows codersByName format (some arraycoder)).aref oid = some coder ↔
      (∃ row ∈ catalogue.rows, row.isArray = true ∧ row.oid = oid ∧ ∃ element ∈ catalogue.rows,
        element.oid = row.typelem ∧ ∃ elementsCoder, baseCoder codersByName format element = some elementsCoder ∧
          coder = arrayCoderOf arraycoder format row elementsCoder) ∨
      ∃ row ∈ catalogue.rows, row.isArray = false ∧ row.oid = oid ∧ baseCoder codersByName format row = some coder := by
  have flat : ∀ row ∈ catalogue.rows.filter (·.isArray), ∀ other ∈ catalogue.rows.filter (·.isArray),
      other.oid ≠ row.typelem := by
    intro row member other member' same
    obtain ⟨member, array⟩ := List.mem_filter.1 member
    obtain ⟨member', array'⟩ := List.mem_filter.1 member'
    rw [catalogue.flat row member other member' array same] at array'
    cases array'
  unfold coderMap
  rw [aref_arrays (catalogue.unique.sublist (List.filter_sublist.map _)) flat, Option.or_eq_some_iff]
  constructor
  · rintro (built | ⟨-, built⟩)
    · obtain ⟨row, found, built⟩ := Option.bind_eq_some_iff.1 built
      obtain ⟨elementsCoder, there, rfl⟩ := Option.map_eq_some_iff.1 built
      obtain ⟨member, array, here⟩ := (rowOf_filter catalogue.unique).1 found
      obtain ⟨element, member', -, same, based⟩ := (aref_nodes catalogue codersByName format _ _).1 there
      exact .inl ⟨row, member, array, here, element, member', same, elementsCoder, based, rfl⟩
    · exact .inr ((aref_nodes catalogue codersByName format _ _).1 built)
  · rintro (⟨row, member, array, here, element, member', same, elementsCoder, based, rfl⟩ | ⟨row, member, node, here, based⟩)
    · have found := (rowOf_filter catalogue.unique).2 ⟨member, array, here⟩
      have node := catalogue.flat row member element member' array same
      have there := (aref_nodes catalogue codersByName format _ _).2 ⟨element, member', node, same, based⟩
      refine .inl (Option.bind_eq_some_iff.2 ⟨row, found, ?_⟩)
      exact Option.map_eq_some_iff.2 ⟨elementsCoder, there, rfl⟩
    · have apart : rowOf (catalogue.rows.filter (·.isArray)) oid = none := by
        apply Option.eq_none_iff_forall_ne_some.2
        intro other found
        obtain ⟨member', array, there⟩ := (rowOf_filter catalogue.unique).1 found
        rw [← catalogue.eq_of_oid member member' (here.trans there.symm), node] at array
        cases array
      rw [apart]
      exact .inr ⟨rfl, (aref_nodes catalogue codersByName format _ _).2 ⟨row, member, node, here, based⟩⟩

end Lookup

/-- An array coder has the delimiter of its element type, and a text decoder splits every array that is written with it. -/
def Coder.Fits (rows : List TypeRow) : Coder γ → Prop
  | base .. => True
  | array class' _ _ _ elementsType _ delimiter => ∀ element ∈ rows, element.oid = elementsType.oid →
      delimiter = element.typdelim ∧ (class' = .textDecoder →
        ∀ (elem : Decoder) (formatError : FormatError) (items : List Text.Item) (v : Value) (front : Bytes),
          Text.SameElements elem (.array items) v → front = [] ∨ Text.Decoration front →
          Text.pgTextDecArray { elem, delimiter, formatError } (front ++ Text.arrayOut element.typdelim (.array items)) =
            .ok v)

theorem baseCoder_oid {codersByName : String → Option γ} {format : Nat} {row : TypeRow} {coder : Coder γ}
    (built : baseCoder codersByName format row = some coder) : coder.oid = row.oid := by
  obtain ⟨obj, -, rfl⟩ := Option.map_eq_some_iff.1 built
  rfl

/-- The coder of an array fits if the delimiter of its elements is the comma. -/
theorem arrayCoderOf_fits (catalogue : Catalogue) {arraycoder : ArrayClass} {format : Nat} {row element : TypeRow}
    {elementsCoder : Coder γ} (member : element ∈ catalogue.rows) (there : elementsCoder.oid = element.oid) :
    (arrayCoderOf arraycoder format row elementsCoder).Fits catalogue.rows ↔ element.typdelim = comma := by
  constructor
  · intro fits
    exact (fits element member there.symm).1.symm
  · intro delimiter other member' same
    obtain rfl := catalogue.eq_of_oid member' member (same.trans there)
    refine ⟨delimiter.symm, ?_⟩
    intro _ elem formatError items v front splits bounds
    rw [delimiter]
    exact Text.pgTextDecArray_arrayOut Text.plain_comma splits bounds

/-- The coders of the four maps fit, if the registered types that there are arrays of have the comma as delimiter. -/
theorem delimiters_iff (catalogue : Catalogue) (codersFor : Nat → Direction → Option (String → Option γ)) :
    (∀ map ∈ initMaps codersFor catalogue.rows, ∀ oid coder, map.aref oid = some coder → coder.Fits catalogue.rows) ↔
      ∀ row ∈ catalogue.rows, row.isArray = true → ∀ element ∈ catalogue.rows, element.oid = row.typelem →
        ∀ kind ∈ mapKinds, ∀ coders, codersFor kind.1 kind.2.1 = some coders → (coders element.typname).isSome = true →
          element.typdelim = comma := by
  constructor
  · intro fits row member array element member' same kind among coders known registered
    obtain ⟨obj, registered⟩ := Option.isSome_iff_exists.1 registered
    have built : baseCoder coders kind.1 element = some (.base obj element.oid element.typname kind.1) := by
      unfold baseCoder
      rw [registered, Option.map_some]
    have there := (aref_coderMap catalogue coders kind.1 kind.2.2 row.oid _).2
      (.inl ⟨row, member, array, rfl, element, member', same, _, built, rfl⟩)
    apply (arrayCoderOf_fits catalogue member' (baseCoder_oid built)).1
    apply fits (initMap codersFor catalogue.rows kind) (List.mem_map_of_mem among) row.oid
    unfold initMap
    rw [known]
    exact there
  · intro commas map among oid coder there
    obtain ⟨kind, listed, rfl⟩ := List.mem_map.1 among
    unfold initMap at there
    rcases (aref_coderMap catalogue _ _ _ _ _).1 there with
      ⟨row, member, array, -, element, member', same, elementsCoder, built, rfl⟩ | ⟨row, -, -, -, built⟩
    · rw [arrayCoderOf_fits catalogue member' (baseCoder_oid built)]
      cases known : codersFor kind.1 kind.2.1 with
      | none =>
        rw [known] at built
        cases built
      | some coders =>
        rw [known] at built
        obtain ⟨obj, registered, -⟩ := Option.map_eq_some_iff.1 built
        exact commas row member array element member' same kind listed coders known (Option.isSome_of_eq_some registered)
    · obtain ⟨obj, -, rfl⟩ := Option.map_eq_some_iff.1 built
      exact trivial

/-- `box`, which is the type with a delimiter of its own, and its arrays. -/
def boxes : Catalogue where
  rows := [⟨603, "box", 600, 0x3b, "box_in"⟩, ⟨1020, "_box", 603, 0x3b, "array_in"⟩]
  unique := by decide
  flat := by decide

/-- With a decoder for `box`, `{(1,1),(0,0);(3,3),(2,2)}` comes apart at the commas: the first element is `(1`. -/
theorem boxes_split_at_commas :
    let coders : String → Option Unit := fun name => if name = "box" then some () else none
    let boxArray : Coder Unit := .array .textDecoder 1020 "_box" 0 (.base () 603 "box" 0) true comma
    let corners (a b : UInt8) : Bytes := [0x28, a, comma, a, 0x29, comma, 0x28, b, comma, b, 0x29]
    (coderMap boxes.rows coders 0 (some .textDecoder)).aref 1020 = some boxArray ∧ ¬ boxArray.Fits boxes.rows ∧
      Text.pgTextDecArray { elem := pgTextDecString, delimiter := comma }
        (Text.arrayOut 0x3b (.array [.text (corners 0x31 0x30) (by decide), .text (corners 0x33 0x32) (by decide)])) =
        .ok (.ary [.str [0x28, 0x31], .str [0x31, 0x29], .str [0x28, 0x30], .str [0x30, 0x29, 0x3b, 0x28, 0x33],
          .str [0x33, 0x29], .str [0x28, 0x32], .str [0x32, 0x29]]) := by
  refine ⟨by decide, ?_, rfl⟩
  intro fits
  have same := (fits ⟨603, "box", 600, 0x3b, "box_in"⟩ List.mem_cons_self rfl).1
  revert same
  decide

end RubyPg.BasicTypeRegistry
