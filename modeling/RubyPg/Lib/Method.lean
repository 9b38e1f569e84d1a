import Mathlib.Logic.Basic

/-!
# Methods with state and exceptions

A method runs on a state and returns or raises; either way the changes it made to the state
stay. `rescueIf` is a `rescue` clause for some exceptions, and `protect` the whole
`begin .. rescue .. else .. ensure .. end`: what the `else` branch raises is not rescued,
an exit that is no exception passes the clause by, and the `ensure` branch runs in every case.
-/

namespace RubyPg
set_option autoImplicit false

/-- A method over the state `σ` that may raise an `ε`. -/
def Method (ε σ α : Type) : Type := σ → Except ε α × σ

namespace Method

variable {ε σ α β δ : Type}

instance : Monad (Method ε σ) where
  pure a s := (.ok a, s)
  bind m f s :=
    match m s with
    | (.ok a, s) => f a s
    | (.error e, s) => (.error e, s)

/-- `raise`. -/
def raise (e : ε) : Method ε σ α := fun s => (.error e, s)

/-- Read the state. -/
def read : Method ε σ σ := fun s => (.ok s, s)

/-- Change the state. -/
def change (f : σ → σ) : Method ε σ Unit := fun s => (.ok (), f s)

/-- A computation on values that may raise. -/
def ofExcept (r : Except ε α) : Method ε σ α := fun s => (r, s)

/-- `begin m rescue => e; handler(e) end`, for the exceptions `p` names. -/
def rescueIf (m : Method ε σ α) (p : ε → Bool) (handler : ε → Method ε σ α) : Method ε σ α := fun s =>
  match m s with
  | (.ok a, s) => (.ok a, s)
  | (.error e, s) => if p e then handler e s else (.error e, s)

/-- `begin body rescue => e; onRescue(e) else onElse ensure onEnsure end`; `rescues` is what the clause gets of
the exits that it rescues. -/
def protect (body : Method ε σ α) (rescues : ε → Option δ) (onRescue : δ → Method ε σ β)
    (onElse : α → Method ε σ β) (onEnsure : Method ε σ Unit) : Method ε σ β := fun s =>
  let (result, s) := match body s with
    | (.ok a, s) => onElse a s
    | (.error e, s) =>
      match rescues e with
      | some d => onRescue d s
      | none => (.error e, s)
  match onEnsure s with
  | (.ok (), s) => (result, s)
  | (.error e, s) => (.error e, s)

@[simp] theorem pure_apply (a : α) (s : σ) : (pure a : Method ε σ α) s = (.ok a, s) := rfl

@[simp] theorem raise_apply (e : ε) (s : σ) : (raise e : Method ε σ α) s = (.error e, s) := rfl

@[simp] theorem read_apply (s : σ) : (read : Method ε σ σ) s = (.ok s, s) := rfl

@[simp] theorem change_apply (f : σ → σ) (s : σ) : (change f : Method ε σ Unit) s = (.ok (), f s) := rfl

@[simp] theorem ofExcept_apply (r : Except ε α) (s : σ) : (ofExcept r : Method ε σ α) s = (r, s) := rfl

/-- A method that returns hands its value and state on. -/
theorem bind_ok {m : Method ε σ α} {f : α → Method ε σ β} {s s' : σ} {a : α} (h : m s = (.ok a, s')) :
    (m >>= f) s = f a s' := by
  show (match m s with | (.ok a, s) => f a s | (.error e, s) => (.error e, s)) = _
  rw [h]

/-- A method that raises ends the sequence. -/
theorem bind_error {m : Method ε σ α} {f : α → Method ε σ β} {s s' : σ} {e : ε} (h : m s = (.error e, s')) :
    (m >>= f) s = (.error e, s') := by
  show (match m s with | (.ok a, s) => f a s | (.error e, s) => (.error e, s)) = _
  rw [h]

/-- What follows depends on how the first method ends. -/
theorem bind_same {m m' : Method ε σ α} {s : σ} (same : m s = m' s) (f : α → Method ε σ β) : (m >>= f) s = (m' >>= f) s := by
  show (match m s with | (.ok a, s) => f a s | (.error e, s) => (.error e, s)) = _
  rw [same]
  rfl

/-- A sequence that returns consists of methods that return. -/
theorem of_bind {m : Method ε σ α} {f : α → Method ε σ β} {s s' : σ} {b : β} (returned : (m >>= f) s = (.ok b, s')) :
    ∃ a s₁, m s = (.ok a, s₁) ∧ f a s₁ = (.ok b, s') := by
  cases run : m s with
  | mk result s₁ =>
    cases result with
    | ok a =>
      rw [bind_ok run] at returned
      exact ⟨a, s₁, rfl, returned⟩
    | error e =>
      rw [bind_error run] at returned
      cases returned

/-- A sequence raises where its first method does, or behind it. -/
theorem error_of_bind {m : Method ε σ α} {f : α → Method ε σ β} {s s' : σ} {e : ε} (raised : (m >>= f) s = (.error e, s')) :
    m s = (.error e, s') ∨ ∃ a s₁, m s = (.ok a, s₁) ∧ f a s₁ = (.error e, s') := by
  cases run : m s with
  | mk result s₁ =>
    cases result with
    | ok a =>
      rw [bind_ok run] at raised
      exact .inr ⟨a, s₁, rfl, raised⟩
    | error e' =>
      rw [bind_error run] at raised
      cases raised
      exact .inl rfl

/-- Two methods that do the same from some states on do so in front of everything. -/
theorem bind_congr {m m' : Method ε σ α} {f : α → Method ε σ β} {s s' : σ} (same : m s = m' s') :
    (m >>= f) s = (m' >>= f) s' := by
  show (match m s with | (.ok a, s) => f a s | (.error e, s) => (.error e, s)) = _
  rw [same]
  rfl

@[simp] theorem read_bind (f : σ → Method ε σ β) (s : σ) : (read >>= f) s = f s s := rfl

@[simp] theorem change_bind (g : σ → σ) (f : Unit → Method ε σ β) (s : σ) : (change g >>= f) s = f () (g s) := rfl

@[simp] theorem raise_bind (e : ε) (f : α → Method ε σ β) (s : σ) : (raise e >>= f) s = (.error e, s) := rfl

@[simp] theorem pure_bind_apply (a : α) (f : α → Method ε σ β) (s : σ) : ((pure a : Method ε σ α) >>= f) s = f a s := rfl

@[simp] theorem ofExcept_ok_bind (a : α) (f : α → Method ε σ β) (s : σ) :
    (ofExcept (.ok a) >>= f : Method ε σ β) s = f a s := rfl

@[simp] theorem ofExcept_error_bind (e : ε) (f : α → Method ε σ β) (s : σ) :
    (ofExcept (.error e) >>= f : Method ε σ β) s = (.error e, s) := rfl

theorem ofExcept_bind (r : Except ε α) (f : α → Except ε β) (s : σ) :
    (ofExcept r >>= fun a => ofExcept (f a) : Method ε σ β) s = (r >>= f, s) := by
  cases r <;> rfl

theorem bind_assoc {γ : Type} (m : Method ε σ α) (f : α → Method ε σ β) (g : β → Method ε σ γ) :
    m >>= f >>= g = m >>= fun a => f a >>= g := by
  funext s
  cases run : m s with
  | mk result s' =>
    cases result with
    | ok a =>
      have first : (m >>= f) s = f a s' := bind_ok run
      rw [bind_ok run, bind_congr first]
    | error e =>
      have first : (m >>= f) s = (.error e, s') := bind_error run
      rw [bind_error run, bind_error first]

theorem bind_pure (m : Method ε σ α) : m >>= Pure.pure = m := by
  funext s
  cases run : m s with
  | mk result s' =>
    cases result with
    | ok a => exact bind_ok run
    | error e => exact bind_error run

instance : LawfulMonad (Method ε σ) := .mk' _ bind_pure (fun _ _ => rfl) bind_assoc

/-- What a method returns, in another form. -/
theorem bind_pure_at {m : Method ε σ α} {f : α → β} {s s' : σ} {r : Except ε α} (h : m s = (r, s')) :
    (m >>= fun a => pure (f a)) s = (r >>= fun a => pure (f a), s') := by
  cases r with
  | ok a => exact bind_ok h
  | error e => exact bind_error h

/-- A loop whose rounds leave the state as it is. -/
theorem foldlM_at {xs : List β} {f : α → β → Method ε σ α} {g : α → β → Except ε α} {s : σ}
    (round : ∀ a, ∀ x ∈ xs, f a x s = (g a x, s)) (a : α) : xs.foldlM f a s = (xs.foldlM g a, s) := by
  induction xs generalizing a with
  | nil => rfl
  | cons x xs ih =>
    have here := round a x List.mem_cons_self
    have later := ih fun a y member => round a y (List.mem_cons_of_mem _ member)
    rw [List.foldlM_cons, List.foldlM_cons]
    cases value : g a x with
    | ok a' =>
      rw [value] at here
      exact (bind_ok here).trans (later a')
    | error e =>
      rw [value] at here
      exact bind_error here

theorem mapM_at {xs : List α} {f : α → Method ε σ β} {g : α → Except ε β} {s : σ}
    (round : ∀ x ∈ xs, f x s = (g x, s)) : xs.mapM f s = (xs.mapM g, s) := by
  induction xs with
  | nil => rfl
  | cons x xs ih =>
    have here := round x List.mem_cons_self
    have later := ih fun y member => round y (List.mem_cons_of_mem _ member)
    rw [List.mapM_cons, List.mapM_cons]
    cases value : g x with
    | error e =>
      rw [value] at here
      exact bind_error here
    | ok b =>
      rw [value] at here
      refine (bind_ok here).trans ?_
      cases values : xs.mapM g with
      | error e =>
        rw [values] at later
        exact bind_error later
      | ok bs =>
        rw [values] at later
        exact bind_ok later

theorem bind_pure_state (m : Method ε σ α) (f : α → β) (s : σ) : ((m >>= fun a => pure (f a)) s).2 = (m s).2 := by
  cases run : m s with
  | mk result s' =>
    cases result with
    | ok a => rw [bind_ok run]; rfl
    | error e => rw [bind_error run]

section Rescue

variable {m : Method ε σ α} {p : ε → Bool} {handler : ε → Method ε σ α} {s s' : σ}

theorem rescueIf_ok {a : α} (h : m s = (.ok a, s')) : rescueIf m p handler s = (.ok a, s') := by
  simp only [rescueIf, h]

theorem rescueIf_rescued {e : ε} (h : m s = (.error e, s')) (rescued : p e = true) :
    rescueIf m p handler s = handler e s' := by
  simp only [rescueIf, h, rescued, if_true]

theorem rescueIf_passed {e : ε} (h : m s = (.error e, s')) (passed : p e = false) :
    rescueIf m p handler s = (.error e, s') := by
  simp [rescueIf, h, passed]

end Rescue

section Protect

variable {body : Method ε σ α} {rescues : ε → Option δ} {onRescue : δ → Method ε σ β} {onElse : α → Method ε σ β}
  {f : σ → σ} {s s' : σ}

/-- `protect` behind a body that returns, for an `ensure` that only changes the state. -/
theorem protect_ok {a : α} (h : body s = (.ok a, s')) :
    protect body rescues onRescue onElse (change f) s = ((onElse a s').1, f (onElse a s').2) := by
  simp only [protect, h, change_apply]

/-- `protect` behind an exit that is rescued. -/
theorem protect_rescued {e : ε} {d : δ} (h : body s = (.error e, s')) (rescued : rescues e = some d) :
    protect body rescues onRescue onElse (change f) s = ((onRescue d s').1, f (onRescue d s').2) := by
  simp only [protect, h, rescued, change_apply]

/-- `protect` behind an exit that is not: only the `ensure` runs. -/
theorem protect_passed {e : ε} (h : body s = (.error e, s')) (passed : rescues e = none) :
    protect body rescues onRescue onElse (change f) s = (.error e, f s') := by
  simp only [protect, h, passed, change_apply]

end Protect

/-- The state a method ends in, or what it raises. -/
def finish (m : Method ε σ Unit) (s : σ) : Except ε σ :=
  match m s with
  | (.ok (), s) => .ok s
  | (.error e, _) => .error e

theorem finish_bind (m : Method ε σ α) (f : α → Method ε σ Unit) (s : σ) :
    finish (m >>= f) s = match m s with
      | (.ok a, s) => finish (f a) s
      | (.error e, _) => .error e := by
  cases run : m s with
  | mk result s' =>
    cases result with
    | ok a => rw [finish, bind_ok run]; rfl
    | error e => rw [finish, bind_error run]

/-- One step after the other. -/
theorem finish_seq (m m' : Method ε σ Unit) (s : σ) : finish (m >>= fun _ => m') s = finish m s >>= finish m' := by
  rw [finish_bind, finish]
  cases run : m s with
  | mk result s' =>
    cases result with
    | ok a => rfl
    | error e => rfl

/-- The method leaves what `f` sees of the state alone. -/
def Keeps {γ : Type} (f : σ → γ) (m : Method ε σ α) : Prop := ∀ s, f (m s).2 = f s

namespace Keeps

variable {γ : Type} {f : σ → γ}

theorem pure (a : α) : Keeps f (Pure.pure a : Method ε σ α) := fun _ => rfl

theorem raise (e : ε) : Keeps f (Method.raise e : Method ε σ α) := fun _ => rfl

theorem ofExcept (r : Except ε α) : Keeps f (Method.ofExcept r : Method ε σ α) := fun _ => rfl

theorem change {g : σ → σ} (h : ∀ s, f (g s) = f s) : Keeps f (Method.change g : Method ε σ Unit) := h

theorem bind {m : Method ε σ α} {k : α → Method ε σ β} (hm : Keeps f m) (hk : ∀ a, Keeps f (k a)) :
    Keeps f (m >>= k) := by
  intro s
  have first := hm s
  cases run : m s with
  | mk result s' =>
    rw [run] at first
    cases result with
    | ok a => rw [bind_ok run, hk a s', first]
    | error e => rw [bind_error run, first]

/-- Reading the state first changes nothing. -/
theorem read_bind {k : σ → Method ε σ β} (hk : ∀ s, Keeps f (k s)) : Keeps f (read >>= k) := fun s => hk s s

/-- What is left alone as a whole is left alone in part. -/
theorem part {δ : Type} {m : Method ε σ α} (hm : Keeps f m) (g : γ → δ) : Keeps (fun s => g (f s)) m :=
  fun s => congrArg g (hm s)

theorem rescueIf {m : Method ε σ α} {p : ε → Bool} {handler : ε → Method ε σ α} (hm : Keeps f m)
    (hh : ∀ e, Keeps f (handler e)) : Keeps f (Method.rescueIf m p handler) := by
  intro s
  have first := hm s
  unfold Method.rescueIf
  cases run : m s with
  | mk result s' =>
    rw [run] at first
    cases result with
    | ok a => exact first
    | error e =>
      dsimp only
      split
      · rw [hh e s', first]
      · exact first

end Keeps

/-- The method keeps what `P` says of the state, also where it raises. -/
def Preserves (P : σ → Prop) (m : Method ε σ α) : Prop := ∀ s, P s → P (m s).2

namespace Preserves

variable {P : σ → Prop}

theorem pure (a : α) : Preserves P (Pure.pure a : Method ε σ α) := fun _ holds => holds

theorem raise (e : ε) : Preserves P (Method.raise e : Method ε σ α) := fun _ holds => holds

theorem ofExcept (r : Except ε α) : Preserves P (Method.ofExcept r : Method ε σ α) := fun _ holds => holds

theorem read : Preserves P (Method.read : Method ε σ σ) := fun _ holds => holds

theorem change {g : σ → σ} (h : ∀ s, P s → P (g s)) : Preserves P (Method.change g : Method ε σ Unit) := h

/-- What holds behind a first step is kept by what follows. -/
theorem behind {m : Method ε σ α} {k : α → Method ε σ β} {s : σ} (holds : P (m s).2) (hk : ∀ a, Preserves P (k a)) :
    P ((m >>= k) s).2 := by
  cases run : m s with
  | mk result s' =>
    rw [run] at holds
    cases result with
    | ok a =>
      rw [bind_ok run]
      exact hk a s' holds
    | error e =>
      rw [bind_error run]
      exact holds

theorem bind {m : Method ε σ α} {k : α → Method ε σ β} (hm : Preserves P m) (hk : ∀ a, Preserves P (k a)) :
    Preserves P (m >>= k) := fun s holds => behind (hm s holds) hk

theorem foldlM {xs : List β} {f : α → β → Method ε σ α} (hf : ∀ a x, Preserves P (f a x)) (a : α) :
    Preserves P (xs.foldlM f a) := by
  induction xs generalizing a with
  | nil => exact pure a
  | cons x xs ih =>
    rw [List.foldlM_cons]
    exact bind (hf a x) ih

theorem mapM {xs : List α} {f : α → Method ε σ β} (hf : ∀ x, Preserves P (f x)) : Preserves P (xs.mapM f) := by
  induction xs with
  | nil => exact pure []
  | cons x xs ih =>
    rw [List.mapM_cons]
    exact bind (hf x) fun _ => bind ih fun _ => pure _

end Preserves

/-- Whatever the method raises is an exception that `P` allows. -/
def Raises (P : ε → Prop) (m : Method ε σ α) : Prop := ∀ s e s', m s = (.error e, s') → P e

namespace Raises

variable {P : ε → Prop}

theorem pure (a : α) : Raises P (Pure.pure a : Method ε σ α) := by
  intro s e s' raised
  cases raised

theorem read : Raises P (Method.read : Method ε σ σ) := by
  intro s e s' raised
  cases raised

theorem change (f : σ → σ) : Raises P (Method.change f : Method ε σ Unit) := by
  intro s e s' raised
  cases raised

theorem raise {e : ε} (allowed : P e) : Raises P (Method.raise e : Method ε σ α) := by
  intro s e' s' raised
  cases raised
  exact allowed

theorem bind {m : Method ε σ α} {k : α → Method ε σ β} (hm : Raises P m) (hk : ∀ a, Raises P (k a)) : Raises P (m >>= k) := by
  intro s e s' raised
  rcases error_of_bind raised with first | ⟨a, s₁, -, later⟩
  · exact hm s e s' first
  · exact hk a s₁ e s' later

end Raises

end Method

end RubyPg
