import RubyPg.Lib.Method

/-!
# Methods that keep a log

A run notes in a log what is asked about it afterwards. `Triple` is a Hoare triple for runs whose notes
are all as expected: from `P` such a run ends in `Q`, or raises something other than `bad`.
-/

namespace RubyPg
set_option autoImplicit false

/-- A state, and the notes so far. -/
structure Logged (σ ι : Type) where
  state : σ
  log : List ι

namespace Logged

variable {ε σ ι α β : Type}

/-- Make a note of the state. -/
def note (f : σ → ι) : Method ε (Logged σ ι) Unit := Method.change fun s => ⟨s.state, f s.state :: s.log⟩

/-- A step on the state. -/
def step (f : σ → Except ε σ) : Method ε (Logged σ ι) Unit := fun s =>
  match f s.state with
  | .ok state => (.ok (), ⟨state, s.log⟩)
  | .error e => (.error e, s)

theorem step_ok {f : σ → Except ε σ} {s : Logged σ ι} {state : σ} (done : f s.state = .ok state) :
    step f s = (.ok (), ⟨state, s.log⟩) := by
  unfold step
  rw [done]

theorem step_error {f : σ → Except ε σ} {s : Logged σ ι} {e : ε} (stopped : f s.state = .error e) :
    step f s = (.error e, s) := by
  unfold step
  rw [stopped]

/-- From `P`, if all notes are expected, `m` ends in `Q` or raises something else than `bad`. -/
structure Triple (expected : ι → Prop) (bad : ε) (P : σ → Prop) (m : Method ε (Logged σ ι) α) (Q : α → σ → Prop) :
    Prop where
  keeps : ∀ s, s.log ⊆ (m s).2.log
  safe : ∀ s, P s.state → (∀ x ∈ (m s).2.log, expected x) →
    match (m s).1 with
    | .ok a => Q a (m s).2.state
    | .error e => e ≠ bad

namespace Triple

variable {expected : ι → Prop} {bad : ε} {P P' : σ → Prop} {m : Method ε (Logged σ ι) α} {Q Q' : α → σ → Prop}

theorem pure {a : α} (holds : ∀ s, P s → Q a s) : Triple expected bad P (Pure.pure a) Q where
  keeps _ := List.Subset.refl _
  safe s before _ := holds s.state before

theorem raise {e : ε} (other : e ≠ bad) : Triple expected bad P (Method.raise e : Method ε (Logged σ ι) α) Q where
  keeps _ := List.Subset.refl _
  safe _ _ _ := other

theorem ofExcept {r : Except ε α} (value : ∀ a s, r = .ok a → P s → Q a s) (raised : ∀ e, r = .error e → e ≠ bad) :
    Triple expected bad P (Method.ofExcept r) Q where
  keeps _ := List.Subset.refl _
  safe s before _ := by
    cases r with
    | ok a => exact value a s.state rfl before
    | error e => exact raised e rfl

theorem bind {k : α → Method ε (Logged σ ι) β} {R : β → σ → Prop} (first : Triple expected bad P m Q)
    (next : ∀ a, Triple expected bad (Q a) (k a) R) : Triple expected bad P (m >>= k) R where
  keeps s := by
    have kept := first.keeps s
    cases run : m s with
    | mk result s' =>
      rw [run] at kept
      cases result with
      | ok a =>
        rw [Method.bind_ok run]
        exact List.Subset.trans kept ((next a).keeps s')
      | error e =>
        rw [Method.bind_error run]
        exact kept
  safe s before known := by
    have here := first.safe s before
    cases run : m s with
    | mk result s' =>
      rw [run] at here
      cases result with
      | ok a =>
        rw [Method.bind_ok run] at known ⊢
        exact (next a).safe s' (here fun x member => known x ((next a).keeps s' member)) known
      | error e =>
        rw [Method.bind_error run] at known ⊢
        exact here known

/-- The rule of consequence. -/
theorem conseq (triple : Triple expected bad P m Q) (stronger : ∀ s, P' s → P s) (weaker : ∀ a s, Q a s → Q' a s) :
    Triple expected bad P' m Q' where
  keeps := triple.keeps
  safe s before known := by
    have here := triple.safe s (stronger s.state before) known
    cases run : (m s).1 with
    | ok a =>
      rw [run] at here
      exact weaker a _ here
    | error e =>
      rw [run] at here
      exact here

theorem note {f : σ → ι} {Q : Unit → σ → Prop} (holds : ∀ s, P s → expected (f s) → Q () s) :
    Triple expected bad P (Logged.note f : Method ε (Logged σ ι) Unit) Q where
  keeps _ := List.subset_cons_self _ _
  safe s before known := holds s.state before (known _ List.mem_cons_self)

theorem step {f : σ → Except ε σ} {Q : Unit → σ → Prop} (value : ∀ s s', P s → f s = .ok s' → Q () s')
    (raised : ∀ s e, P s → f s = .error e → e ≠ bad) :
    Triple expected bad P (Logged.step f : Method ε (Logged σ ι) Unit) Q where
  keeps s := by
    cases run : f s.state with
    | ok state =>
      rw [step_ok run]
      exact List.Subset.refl _
    | error e =>
      rw [step_error run]
      exact List.Subset.refl _
  safe s before _ := by
    cases run : f s.state with
    | ok state =>
      rw [step_ok run]
      exact value _ _ before run
    | error e =>
      rw [step_error run]
      exact raised _ _ before run

end Triple

end Logged

end RubyPg
