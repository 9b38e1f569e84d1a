import Mathlib.Logic.Function.Basic

/-!
# Direct mapped caches

A cache in front of a table: every key has one slot, and a slot keeps one key with what the
table answered for it. A `Placement` says where a key goes and when an entry counts as a hit;
`Coherent` says that no hit differs from the table. Filling a slot from the table keeps that,
so does storing an answer together with the table, and clearing the slot of a key that changes.
What a change of the table does to the caches that are not told is `Coherent.update_iff`.
-/

namespace RubyPg
set_option autoImplicit false

/-- The entries of a cache with the slots `ι`: a key, and what was stored for it. -/
abbrev SlotCache (ι κ α : Type) := ι → κ × α

/-- Where the keys go, and which entries answer for them. -/
structure Placement (ι κ α : Type) where
  slot : κ → ι
  hit : κ → κ × α → Bool
  key_of_hit : ∀ {k e}, hit k e = true → e.1 = k

namespace SlotCache

variable {ι κ α : Type} (place : Placement ι κ α)

/-- The cache answers `k` with what it has stored for it. -/
def Answers (cache : SlotCache ι κ α) (k : κ) (a : α) : Prop :=
  place.hit k (cache (place.slot k)) = true ∧ (cache (place.slot k)).2 = a

/-- Every hit is what the table holds. -/
def Coherent (table : κ → α) (cache : SlotCache ι κ α) : Prop :=
  ∀ k, place.hit k (cache (place.slot k)) = true → (cache (place.slot k)).2 = table k

section Entries

variable {place} {table : κ → α} {cache : SlotCache ι κ α}

theorem Coherent.answers (coherent : Coherent place table cache) {k : κ} {a : α} (answers : cache.Answers place k a) :
    a = table k := by
  obtain ⟨hit, rfl⟩ := answers
  exact coherent k hit

/-- A cache without hits agrees with every table. -/
theorem coherent_of_empty (empty : ∀ k, place.hit k (cache (place.slot k)) = false) :
    Coherent place table cache := by
  intro k hit
  rw [empty k] at hit
  cases hit

end Entries

variable [DecidableEq ι]

/-- A lookup: the hit, or else the entry of the table, which goes into the slot. -/
def fetch (table : κ → α) (k : κ) (cache : SlotCache ι κ α) : α × SlotCache ι κ α :=
  if place.hit k (cache (place.slot k)) = true then ((cache (place.slot k)).2, cache)
  else (table k, Function.update cache (place.slot k) (k, table k))

variable {place} {table : κ → α} {cache : SlotCache ι κ α}

/-- A change of the table at `k` that empties the slot of `k`. -/
theorem Coherent.clear {table' : κ → α} {k : κ} {blank : κ × α} (coherent : Coherent place table cache)
    (empty : ∀ other, place.slot other = place.slot k → place.hit other blank = false)
    (others : ∀ other, other ≠ k → table' other = table other) :
    Coherent place table' (Function.update cache (place.slot k) blank) := by
  intro other hit
  by_cases same : place.slot other = place.slot k
  · rw [same, Function.update_self, empty other same] at hit
    cases hit
  · rw [Function.update_of_ne same] at hit ⊢
    have different : other ≠ k := by
      rintro rfl
      exact same rfl
    rw [others other different]
    exact coherent other hit

/-- A lookup answers what the table holds. -/
theorem Coherent.fetch_answer (coherent : Coherent place table cache) (k : κ) :
    (cache.fetch place table k).1 = table k := by
  unfold fetch
  split
  · rename_i hit
    exact coherent k hit
  · rfl

/-- Coherent caches are those that answer every lookup with what the table holds. -/
theorem coherent_iff_fetch : Coherent place table cache ↔ ∀ k, (cache.fetch place table k).1 = table k := by
  constructor
  · intro coherent k
    exact coherent.fetch_answer k
  · intro answers k hit
    have answer := answers k
    rwa [SlotCache.fetch, if_pos hit] at answer

variable [DecidableEq κ]

/-- Storing an answer in the cache and in the table. -/
theorem Coherent.store (coherent : Coherent place table cache) (k : κ) (a : α) :
    Coherent place (Function.update table k a) (Function.update cache (place.slot k) (k, a)) := by
  intro other hit
  by_cases same : place.slot other = place.slot k
  · rw [same, Function.update_self] at hit ⊢
    have key : k = other := place.key_of_hit hit
    rw [← key, Function.update_self]
  · rw [Function.update_of_ne same] at hit ⊢
    have different : other ≠ k := by
      rintro rfl
      exact same rfl
    rw [Function.update_of_ne different]
    exact coherent other hit

/-- Filling a slot with what the table holds. -/
theorem Coherent.fill (coherent : Coherent place table cache) (k : κ) :
    Coherent place table (Function.update cache (place.slot k) (k, table k)) := by
  have stored := coherent.store k (table k)
  rwa [Function.update_eq_self] at stored

theorem Coherent.fetch (coherent : Coherent place table cache) (k : κ) :
    Coherent place table (cache.fetch place table k).2 := by
  unfold SlotCache.fetch
  split
  · exact coherent
  · exact coherent.fill k

omit [DecidableEq ι] in
/-- A change of the table behind the back of a cache does no harm exactly if the cache has no other
answer for the key. -/
theorem Coherent.update_iff (coherent : Coherent place table cache) (k : κ) (a : α) :
    Coherent place (Function.update table k a) cache ↔ ∀ stale, cache.Answers place k stale → stale = a := by
  constructor
  · intro after stale answers
    have current := after.answers answers
    rwa [Function.update_self] at current
  · intro current other hit
    by_cases same : other = k
    · subst same
      rw [Function.update_self]
      exact current _ ⟨hit, rfl⟩
    · rw [Function.update_of_ne same]
      exact coherent other hit

end SlotCache

end RubyPg
