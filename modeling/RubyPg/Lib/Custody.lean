import Mathlib.Data.List.Perm.Basic
import Mathlib.Data.List.Range
import Mathlib.Logic.Function.Basic

/-!
# Custody of resources

Resources are issued one after the other, pass from holder to holder, and are released. `Sound`
says that no two holders share a resource and that what was released is not held any more,
`Complete` that nothing got lost. Each move keeps both, and when nobody holds anything any more,
every resource was released exactly once (`Sound.all_released`).
-/

namespace RubyPg
set_option autoImplicit false

/-- Who holds which resource, how many were issued, and the released ones, the latest first. -/
@[ext] structure Custody (ι : Type) where
  holds : ι → Option Nat
  issued : Nat
  released : List Nat

namespace Custody

variable {ι : Type}

structure Sound (c : Custody ι) : Prop where
  known : ∀ i id, c.holds i = some id → id < c.issued
  past : ∀ id ∈ c.released, id < c.issued
  sole : ∀ i j id, c.holds i = some id → c.holds j = some id → i = j
  apart : ∀ i id, c.holds i = some id → id ∉ c.released
  once : c.released.Nodup

/-- What was issued is released or held. -/
def Complete (c : Custody ι) : Prop := ∀ id, id < c.issued → id ∈ c.released ∨ ∃ i, c.holds i = some id

/-- What was issued is released or held, but for the ones that got lost. -/
def CompleteBut (c : Custody ι) (lost : List Nat) : Prop :=
  ∀ id, id < c.issued → id ∈ c.released ∨ (∃ i, c.holds i = some id) ∨ id ∈ lost

theorem complete_iff {c : Custody ι} : c.Complete ↔ c.CompleteBut [] := by
  unfold Complete CompleteBut
  simp

namespace Sound

variable {c : Custody ι} {id : Nat}

/-- Only one holder yet, and nothing released. -/
theorem single {i : ι} (only : ∀ k id, c.holds k = some id → k = i ∧ id < c.issued) (fresh : c.released = []) : c.Sound where
  known k id held := (only k id held).2
  past id member := by
    rw [fresh] at member
    cases member
  sole k l id first second := (only k id first).1.trans (only l id second).1.symm
  apart k id _ := by
    rw [fresh]
    exact List.not_mem_nil
  once := fresh ▸ List.nodup_nil

/-- Where nothing got lost, a resource is held exactly until it is released. -/
theorem owner (sound : c.Sound) (complete : c.Complete) (issued : id < c.issued) :
    id ∉ c.released ↔ ∃! i, c.holds i = some id := by
  constructor
  · intro live
    obtain ⟨i, held⟩ := (complete id issued).resolve_left live
    exact ⟨i, held, fun k held' => sound.sole k i id held' held⟩
  · rintro ⟨i, held, -⟩
    exact sound.apart i id held

theorem all_released (sound : c.Sound) (complete : c.Complete) (empty : ∀ i, c.holds i = none) :
    c.released.Perm (List.range c.issued) := by
  apply (List.perm_ext_iff_of_nodup sound.once List.nodup_range).2
  intro id
  rw [List.mem_range]
  constructor
  · exact sound.past id
  · intro issued
    apply (complete id issued).resolve_right
    rintro ⟨i, held⟩
    rw [empty i] at held
    cases held

end Sound

variable [DecidableEq ι]

/-- A holder gets the next resource. -/
def issue (c : Custody ι) (i : ι) : Custody ι := ⟨Function.update c.holds i (some c.issued), c.issued + 1, c.released⟩

/-- A holder lets go of what it holds, if anything, without releasing it. -/
def drop (c : Custody ι) (i : ι) : Custody ι := ⟨Function.update c.holds i none, c.issued, c.released⟩

/-- A holder releases what it holds, if anything. -/
def release (c : Custody ι) (i : ι) : Custody ι :=
  ⟨Function.update c.holds i none, c.issued, (c.holds i).toList ++ c.released⟩

/-- A holder hands what it holds, if anything, to another one. -/
def hand (c : Custody ι) (i j : ι) : Custody ι :=
  ⟨Function.update (Function.update c.holds j (c.holds i)) i none, c.issued, c.released⟩

variable {c : Custody ι} {i j k : ι} {id : Nat}

theorem holds_issue : (c.issue i).holds k = some id ↔ k = i ∧ id = c.issued ∨ k ≠ i ∧ c.holds k = some id := by
  by_cases same : k = i
  · subst same
    simp [issue, eq_comm]
  · simp [issue, same]

theorem holds_drop : (c.drop i).holds k = some id ↔ k ≠ i ∧ c.holds k = some id := by
  by_cases same : k = i
  · subst same
    simp [drop]
  · simp [drop, same]

theorem holds_hand (other : j ≠ i) :
    (c.hand i j).holds k = some id ↔ k = j ∧ c.holds i = some id ∨ k ≠ i ∧ k ≠ j ∧ c.holds k = some id := by
  by_cases giver : k = i
  · subst giver
    simp [hand, other.symm]
  · by_cases taker : k = j
    · subst taker
      simp [hand, giver]
    · simp [hand, giver, taker]

namespace Sound

theorem issue (sound : c.Sound) : (c.issue i).Sound where
  known k id held := by
    rcases holds_issue.1 held with ⟨-, new⟩ | ⟨-, old⟩
    · exact new ▸ Nat.lt_succ_self _
    · exact Nat.lt_succ_of_lt (sound.known k id old)
  past id member := Nat.lt_succ_of_lt (sound.past id member)
  sole k l id first second := by
    rcases holds_issue.1 first with ⟨rfl, new⟩ | ⟨_, old⟩
    · rcases holds_issue.1 second with ⟨rfl, _⟩ | ⟨_, old⟩
      · rfl
      · exact absurd (sound.known l id old) (by omega)
    · rcases holds_issue.1 second with ⟨-, new⟩ | ⟨_, old'⟩
      · exact absurd (sound.known k id old) (by omega)
      · exact sound.sole k l id old old'
  apart k id held := by
    rcases holds_issue.1 held with ⟨-, new⟩ | ⟨-, old⟩
    · intro member
      exact absurd (sound.past id member) (by omega)
    · exact sound.apart k id old
  once := sound.once

theorem drop (sound : c.Sound) : (c.drop i).Sound where
  known k id held := sound.known k id (holds_drop.1 held).2
  past := sound.past
  sole k l id first second := sound.sole k l id (holds_drop.1 first).2 (holds_drop.1 second).2
  apart k id held := sound.apart k id (holds_drop.1 held).2
  once := sound.once

theorem release (sound : c.Sound) : (c.release i).Sound where
  known k id held := sound.known k id (holds_drop.1 held).2
  past id member := by
    rcases List.mem_append.1 member with now | before
    · exact sound.known i id (Option.mem_toList.1 now)
    · exact sound.past id before
  sole k l id first second := sound.sole k l id (holds_drop.1 first).2 (holds_drop.1 second).2
  apart k id held member := by
    obtain ⟨other, held⟩ := holds_drop.1 held
    rcases List.mem_append.1 member with now | before
    · exact other (sound.sole k i id held (Option.mem_toList.1 now))
    · exact sound.apart k id held before
  once := by
    show ((c.holds i).toList ++ c.released).Nodup
    cases holding : c.holds i with
    | none => exact sound.once
    | some id => exact List.nodup_cons.2 ⟨sound.apart i id holding, sound.once⟩

theorem hand (sound : c.Sound) (other : j ≠ i) : (c.hand i j).Sound where
  known k id held := by
    rcases (holds_hand other).1 held with ⟨-, held⟩ | ⟨-, -, held⟩
    · exact sound.known i id held
    · exact sound.known k id held
  past := sound.past
  sole k l id first second := by
    rcases (holds_hand other).1 first with ⟨taker, held⟩ | ⟨notGiver, notTaker, held⟩
    · rcases (holds_hand other).1 second with ⟨taker', -⟩ | ⟨notGiver', -, held'⟩
      · exact taker.trans taker'.symm
      · exact absurd (sound.sole l i id held' held) notGiver'
    · rcases (holds_hand other).1 second with ⟨-, held'⟩ | ⟨-, -, held'⟩
      · exact absurd (sound.sole k i id held held') notGiver
      · exact sound.sole k l id held held'
  apart k id held := by
    rcases (holds_hand other).1 held with ⟨-, held⟩ | ⟨-, -, held⟩
    · exact sound.apart i id held
    · exact sound.apart k id held
  once := sound.once

end Sound

namespace CompleteBut

variable {lost : List Nat}

theorem issue (complete : c.CompleteBut lost) (free : c.holds i = none) : (c.issue i).CompleteBut lost := by
  intro id issued
  rcases Nat.lt_succ_iff_lt_or_eq.1 issued with old | new
  · rcases complete id old with gone | ⟨k, held⟩ | lost
    · exact .inl gone
    · refine .inr (.inl ⟨k, holds_issue.2 (.inr ⟨?_, held⟩)⟩)
      rintro rfl
      rw [free] at held
      cases held
    · exact .inr (.inr lost)
  · exact .inr (.inl ⟨i, holds_issue.2 (.inl ⟨rfl, new⟩)⟩)

theorem release (complete : c.CompleteBut lost) : (c.release i).CompleteBut lost := by
  intro id issued
  rcases complete id issued with gone | ⟨k, held⟩ | lost
  · exact .inl (List.mem_append_right _ gone)
  · by_cases here : k = i
    · subst here
      exact .inl (List.mem_append_left _ (Option.mem_toList.2 held))
    · exact .inr (.inl ⟨k, holds_drop.2 ⟨here, held⟩⟩)
  · exact .inr (.inr lost)

theorem hand (complete : c.CompleteBut lost) (free : c.holds j = none) (other : j ≠ i) : (c.hand i j).CompleteBut lost := by
  intro id issued
  rcases complete id issued with gone | ⟨k, held⟩ | lost
  · exact .inl gone
  · by_cases here : k = i
    · subst here
      exact .inr (.inl ⟨j, (holds_hand other).2 (.inl ⟨rfl, held⟩)⟩)
    · refine .inr (.inl ⟨k, (holds_hand other).2 (.inr ⟨here, ?_, held⟩)⟩)
      rintro rfl
      rw [free] at held
      cases held
  · exact .inr (.inr lost)

/-- Whatever a holder lets go of is lost. -/
theorem drop (complete : c.CompleteBut lost) : (c.drop i).CompleteBut ((c.holds i).toList ++ lost) := by
  intro id issued
  rcases complete id issued with gone | ⟨k, held⟩ | lost
  · exact .inl gone
  · by_cases here : k = i
    · subst here
      exact .inr (.inr (List.mem_append_left _ (Option.mem_toList.2 held)))
    · exact .inr (.inl ⟨k, holds_drop.2 ⟨here, held⟩⟩)
  · exact .inr (.inr (List.mem_append_right _ lost))

end CompleteBut

namespace Complete

theorem issue (complete : c.Complete) (free : c.holds i = none) : (c.issue i).Complete :=
  complete_iff.2 ((complete_iff.1 complete).issue free)

theorem release (complete : c.Complete) : (c.release i).Complete := complete_iff.2 (complete_iff.1 complete).release

theorem hand (complete : c.Complete) (free : c.holds j = none) (other : j ≠ i) : (c.hand i j).Complete :=
  complete_iff.2 ((complete_iff.1 complete).hand free other)

end Complete

end Custody

end RubyPg
