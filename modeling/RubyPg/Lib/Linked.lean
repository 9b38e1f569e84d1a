import Mathlib.Data.List.Basic
import Mathlib.Logic.Function.Basic
import Mathlib.Tactic.ByContra

/-!
# Chains of links

Objects that each name at most one other object. `Linked next k ks` says that the links from `k` on come
to an end, and that `ks` are the objects on the way. Such a chain visits no object twice, so in a heap it is
no longer than the heap. Where one object gets another link, the chains that pass it end if and only
if the new target has a chain that does not pass it (`Linked.redirect_iff`).
-/

namespace RubyPg
set_option autoImplicit false

/-- The objects from `k` on, up to one without a link. -/
inductive Linked {κ : Type} (next : κ → Option κ) : κ → List κ → Prop where
  | last {k : κ} (stop : next k = none) : Linked next k [k]
  | link {k k' : κ} {ks : List κ} (here : next k = some k') (rest : Linked next k' ks) : Linked next k (k :: ks)

namespace Linked

variable {κ : Type} {next next' : κ → Option κ} {k t d : κ} {ks ds : List κ}

theorem head_mem (linked : Linked next k ks) : k ∈ ks := by
  cases linked with
  | last => exact List.mem_singleton_self k
  | link => exact List.mem_cons_self

theorem unique {ks' : List κ} (linked : Linked next k ks) (other : Linked next k ks') : ks = ks' := by
  induction linked generalizing ks' with
  | last stop =>
    cases other with
    | last => rfl
    | link here =>
      rw [stop] at here
      cases here
  | link here _ ih =>
    cases other with
    | last stop =>
      rw [stop] at here
      cases here
    | link here' rest' =>
      rw [here] at here'
      cases here'
      rw [ih rest']

/-- Every object on the way has the rest of the chain. -/
theorem of_mem (linked : Linked next k ks) (member : t ∈ ks) : ∃ ts, Linked next t ts ∧ ts <:+ ks := by
  induction linked with
  | last stop =>
    cases List.mem_singleton.1 member
    exact ⟨_, .last stop, List.suffix_refl _⟩
  | link here rest ih =>
    rcases List.mem_cons.1 member with rfl | later
    · exact ⟨_, .link here rest, List.suffix_refl _⟩
    · obtain ⟨ts, chain, behind⟩ := ih later
      exact ⟨ts, chain, behind.trans (List.suffix_cons _ _)⟩

/-- A chain that ends does not come back. -/
theorem nodup (linked : Linked next k ks) : ks.Nodup := by
  induction linked with
  | last => exact List.pairwise_singleton _ _
  | @link k k' ks here rest ih =>
    refine List.nodup_cons.2 ⟨fun again => ?_, ih⟩
    obtain ⟨ts, chain, behind⟩ := rest.of_mem again
    have whole := chain.unique (.link here rest)
    have short := behind.length_le
    rw [whole, List.length_cons] at short
    omega

theorem length_le {ks : List Nat} {next : Nat → Option Nat} {k n : Nat} (linked : Linked next k ks)
    (inside : ∀ j ∈ ks, j < n) : ks.length ≤ n := by
  have few := linked.nodup.length_le_of_subset (fun j member => List.mem_range.2 (inside j member) : ks ⊆ List.range n)
  rwa [List.length_range] at few

theorem congr (linked : Linked next k ks) (same : ∀ j ∈ ks, next' j = next j) : Linked next' k ks := by
  induction linked with
  | last stop =>
    apply last
    rw [same _ (List.mem_singleton_self _), stop]
  | link here rest ih =>
    refine .link ?_ (ih fun j member => same j (List.mem_cons_of_mem _ member))
    rw [same _ List.mem_cons_self, here]

section Redirect

variable [DecidableEq κ]

theorem redirect_other (linked : Linked next k ks) (avoids : t ∉ ks) (d : κ) :
    Linked (Function.update next t (some d)) k ks :=
  linked.congr fun _ member => Function.update_of_ne (ne_of_mem_of_not_mem member avoids) _ _

/-- A chain behind the changed object was there before. -/
theorem before (linked : Linked (Function.update next t (some d)) k ks) (avoids : t ∉ ks) : Linked next k ks :=
  linked.congr fun _ member => (Function.update_of_ne (ne_of_mem_of_not_mem member avoids) _ _).symm

/-- The way to the changed object, then the new link. -/
theorem redirect (linked : Linked next k ks) (member : t ∈ ks) (target : Linked next d ds) (avoids : t ∉ ds) :
    ∃ js, Linked (Function.update next t (some d)) k js ∧ ∀ j ∈ js, j ∈ ks ∨ j ∈ ds := by
  have behind : Linked (Function.update next t (some d)) t (t :: ds) :=
    .link (Function.update_self _ _ _) (target.redirect_other avoids d)
  induction linked with
  | @last k stop =>
    cases List.mem_singleton.1 member
    refine ⟨_, behind, fun j there => ?_⟩
    rcases List.mem_cons.1 there with rfl | later
    · exact .inl (List.mem_singleton_self _)
    · exact .inr later
  | @link k k' ks here rest ih =>
    by_cases same : k = t
    · subst same
      refine ⟨_, behind, fun j there => ?_⟩
      rcases List.mem_cons.1 there with rfl | later
      · exact .inl List.mem_cons_self
      · exact .inr later
    · obtain ⟨js, chain, parts⟩ := ih ((List.mem_cons.1 member).resolve_left (Ne.symm same))
      refine ⟨k :: js, .link ?_ chain, fun j there => ?_⟩
      · rw [Function.update_of_ne same, here]
      · rcases List.mem_cons.1 there with rfl | later
        · exact .inl List.mem_cons_self
        · exact (parts j later).imp_left (List.mem_cons_of_mem _)

/-- The chain after the change still leads to the changed object. -/
theorem redirect_mem {js : List κ} (linked : Linked next k ks) (member : t ∈ ks)
    (after : Linked (Function.update next t (some d)) k js) : t ∈ js := by
  by_contra avoids
  rw [linked.unique (after.before avoids)] at member
  exact avoids member

/-- **Where an object gets another link**, the chains that pass it end, with `P` on the whole way, if and only
if the new target has such a chain that does not pass it. -/
theorem redirect_iff {P : κ → Prop} (linked : Linked next k ks) (member : t ∈ ks) (holds : ∀ j ∈ ks, P j) :
    (∃ js, Linked (Function.update next t (some d)) k js ∧ ∀ j ∈ js, P j) ↔
      ∃ ds, Linked next d ds ∧ t ∉ ds ∧ ∀ j ∈ ds, P j := by
  constructor
  · rintro ⟨js, after, each⟩
    obtain ⟨ts, chain, behind⟩ := after.of_mem (linked.redirect_mem member after)
    cases chain with
    | last stop =>
      rw [Function.update_self] at stop
      cases stop
    | @link _ k' ds here rest =>
      rw [Function.update_self] at here
      cases here
      have avoids := (List.nodup_cons.1 (Linked.link (Function.update_self t (some d) next) rest).nodup).1
      exact ⟨ds, rest.before avoids, avoids, fun j there => each j (behind.subset (List.mem_cons_of_mem _ there))⟩
  · rintro ⟨ds, target, avoids, each⟩
    obtain ⟨js, chain, parts⟩ := linked.redirect member target avoids
    exact ⟨js, chain, fun j there => (parts j there).elim (holds j) (each j)⟩

end Redirect

end Linked

end RubyPg
