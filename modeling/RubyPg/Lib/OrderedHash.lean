import Mathlib.Data.List.Basic

/-!
# Hashes in insertion order

A Ruby Hash as the list of its entries: a new key goes to the end, a known one keeps its place.
`indexHash` is the hash from names to their positions that is filled name by name, so that the last
position of a name wins. It has as many entries as there are names only if it lists them all in
order (`indexHash_of_size`).
-/

namespace RubyPg
set_option autoImplicit false

/-- The entries of a hash, in the order in which their keys came. -/
abbrev OrderedHash (κ α : Type) := List (κ × α)

namespace OrderedHash

variable {κ α : Type} [DecidableEq κ]

/-- `rb_hash_aset`. -/
def aset : OrderedHash κ α → κ → α → OrderedHash κ α
  | [], key, value => [(key, value)]
  | entry :: hash, key, value =>
    if entry.1 = key then (entry.1, value) :: hash else entry :: aset hash key value

/-- `rb_hash_aref`, where `none` is `nil`. -/
def aref : OrderedHash κ α → κ → Option α
  | [], _ => none
  | entry :: hash, key => if entry.1 = key then some entry.2 else aref hash key

theorem aref_aset (hash : OrderedHash κ α) (key other : κ) (value : α) :
    aref (aset hash key value) other = if key = other then some value else aref hash other := by
  induction hash with
  | nil => rfl
  | cons entry hash ih =>
    unfold aset
    by_cases known : entry.1 = key
    · subst known
      rw [if_pos rfl]
      by_cases same : entry.1 = other
      · simp only [aref, if_pos same]
      · simp only [aref, if_neg same]
    · rw [if_neg known]
      by_cases same : entry.1 = other
      · subst same
        simp only [aref, if_pos, if_neg (Ne.symm known)]
      · simp only [aref, if_neg same, ih]

/-- A new key goes to the end, and a known one does not add an entry. -/
theorem aset_cases (hash : OrderedHash κ α) (key : κ) (value : α) :
    aset hash key value = hash ++ [(key, value)] ∨ (aset hash key value).length = hash.length := by
  induction hash with
  | nil => exact Or.inl rfl
  | cons entry hash ih =>
    unfold aset
    by_cases known : entry.1 = key
    · rw [if_pos known]
      exact Or.inr rfl
    · rw [if_neg known]
      rcases ih with new | old
      · exact Or.inl (congrArg (entry :: ·) new)
      · exact Or.inr (congrArg (· + 1) old)

/-- `for (i = 0; i < n; i++) rb_hash_aset(hash, names[i], i)`, from position `i` on. -/
def asetIndexes : OrderedHash κ Nat → Nat → List κ → OrderedHash κ Nat
  | hash, _, [] => hash
  | hash, i, name :: names => asetIndexes (aset hash name i) (i + 1) names

/-- The positions of the names. -/
def indexHash (names : List κ) : OrderedHash κ Nat := asetIndexes [] 0 names

/-- The last position of a name. -/
def lastIndex (key : κ) : List κ → Option Nat
  | [] => none
  | name :: names =>
    match lastIndex key names with
    | some i => some (i + 1)
    | none => if name = key then some 0 else none

theorem aref_asetIndexes (hash : OrderedHash κ Nat) (i : Nat) (names : List κ) (key : κ) :
    aref (asetIndexes hash i names) key =
      match lastIndex key names with
      | some j => some (i + j)
      | none => aref hash key := by
  induction names generalizing hash i with
  | nil => rfl
  | cons name names ih =>
    rw [asetIndexes, ih, lastIndex]
    cases lastIndex key names with
    | some j =>
      dsimp only
      rw [Nat.add_assoc, Nat.add_comm 1]
    | none =>
      dsimp only
      rw [aref_aset]
      by_cases same : name = key
      · rw [if_pos same, if_pos same]
        rfl
      · rw [if_neg same, if_neg same]

/-- **The last position wins.** -/
theorem aref_indexHash (names : List κ) (key : κ) : aref (indexHash names) key = lastIndex key names := by
  rw [indexHash, aref_asetIndexes]
  cases lastIndex key names with
  | none => rfl
  | some j => exact congrArg some (Nat.zero_add j)

theorem lastIndex_lt {key : κ} {names : List κ} {i : Nat} (found : lastIndex key names = some i) :
    i < names.length := by
  induction names generalizing i with
  | nil => cases found
  | cons name names ih =>
    rw [lastIndex] at found
    cases later : lastIndex key names with
    | some j =>
      rw [later] at found
      cases found
      exact Nat.succ_lt_succ (ih later)
    | none =>
      rw [later] at found
      dsimp only at found
      split at found
      · cases found
        exact Nat.succ_pos _
      · cases found

theorem asetIndexes_size (hash : OrderedHash κ Nat) (i : Nat) (names : List κ) :
    (asetIndexes hash i names).length ≤ hash.length + names.length ∧
      ((asetIndexes hash i names).length = hash.length + names.length →
        asetIndexes hash i names = hash ++ names.zipIdx i) := by
  induction names generalizing hash i with
  | nil => exact ⟨Nat.le_refl _, fun _ => (List.append_nil hash).symm⟩
  | cons name names ih =>
    obtain ⟨bound, full⟩ := ih (aset hash name i) (i + 1)
    rw [asetIndexes, List.length_cons]
    rcases aset_cases hash name i with new | old
    · rw [new] at bound full ⊢
      rw [List.length_append, List.length_singleton, Nat.add_assoc, Nat.add_comm 1] at bound full
      refine ⟨bound, fun all => ?_⟩
      rw [full all, List.append_assoc]
      rfl
    · rw [old] at bound
      exact ⟨by omega, fun all => by omega⟩

/-- A hash with as many entries as there are names lists the names in order. -/
theorem indexHash_of_size {names : List κ} (full : (indexHash names).length = names.length) :
    indexHash names = names.zipIdx := by
  apply (asetIndexes_size [] 0 names).2
  rw [List.length_nil, Nat.zero_add]
  exact full

end OrderedHash

end RubyPg
