import RubyPg.Lib.Method

/-!
# Readers of binary data

C code that takes bytes from the front of its input, after a test that there are enough of them.
The state is what is left of the input, and the position it begins at. `Reads short m bs a` says
that `m` reads the bytes `bs` as `a`, touches nothing behind them, and notices every cut of them
with the error `short`.
-/

namespace RubyPg
set_option autoImplicit false

/-- What is left to read, and where it begins. -/
structure Cursor where
  pos : Nat
  rest : List UInt8

/-- A program that reads from the front of its input. -/
abbrev Reader (ε α : Type) := Method ε Cursor α

namespace Reader

variable {ε α β : Type} (short : Nat → ε)

/-- `cur += n`. -/
def advance (n : Nat) : Reader ε Unit := Method.change fun s => ⟨s.pos + n, s.rest.drop n⟩

/-- `goto length_error`. -/
def fail : Reader ε α := fun s => (.error (short s.pos), s)

/-- `if (end - cur < n || !p(cur)) goto length_error;` and then go behind these bytes. -/
def takeIf (n : Nat) (p : List UInt8 → Bool) : Reader ε (List UInt8) := fun s =>
  if s.rest.length < n ∨ p (s.rest.take n) = false then (.error (short s.pos), s)
  else (.ok (s.rest.take n), ⟨s.pos + n, s.rest.drop n⟩)

/-- `if (end - cur < n) goto length_error;` and then go behind these bytes. -/
def take (n : Nat) : Reader ε (List UInt8) := takeIf short n fun _ => true

/-- `if (cur < end)` there is something behind the data. -/
def atEnd (trailing : Nat → ε) : Reader ε Unit := fun s =>
  if s.rest = [] then (.ok (), s) else (.error (trailing s.pos), s)

/-- `m` reads `bs` as `a`. -/
structure Reads (m : Reader ε α) (bs : List UInt8) (a : α) : Prop where
  whole : ∀ pos rest, m ⟨pos, bs ++ rest⟩ = (.ok a, ⟨pos + bs.length, rest⟩)
  cut : ∀ pos part, part <+: bs → part ≠ bs → ∃ p s, m ⟨pos, part⟩ = (.error (short p), s)

variable {short} {m : Reader ε α} {bs cs : List UInt8} {a : α}

/-- A part of two pieces is cut in the first or in the second. -/
theorem prefix_append_cases {part : List UInt8} (inside : part <+: bs ++ cs) (cut : part ≠ bs ++ cs) :
    (part <+: bs ∧ part ≠ bs) ∨ ∃ later, part = bs ++ later ∧ later <+: cs ∧ later ≠ cs := by
  rcases List.prefix_or_prefix_of_prefix inside (List.prefix_append bs cs) with first | ⟨later, rfl⟩
  · by_cases full : part = bs
    · subst full
      right
      refine ⟨[], (List.append_nil part).symm, List.nil_prefix, ?_⟩
      rintro rfl
      exact cut (List.append_nil part).symm
    · exact Or.inl ⟨first, full⟩
  · right
    refine ⟨later, rfl, (List.prefix_append_right_inj bs).1 inside, ?_⟩
    rintro rfl
    exact cut rfl

theorem Reads.pure (a : α) : Reads short (Pure.pure a : Reader ε α) [] a where
  whole _ _ := rfl
  cut _ _ inside cut := absurd (List.prefix_nil.1 inside) cut

theorem Reads.bind {k : α → Reader ε β} {b : β} (first : Reads short m bs a) (next : Reads short (k a) cs b) :
    Reads short (m >>= k) (bs ++ cs) b where
  whole pos rest := by
    have run := first.whole pos (cs ++ rest)
    rw [List.append_assoc, Method.bind_ok run, next.whole, List.length_append, Nat.add_assoc]
  cut pos part inside cut := by
    rcases prefix_append_cases inside cut with ⟨inside, cut⟩ | ⟨later, rfl, inside, cut⟩
    · obtain ⟨p, s, run⟩ := first.cut pos part inside cut
      exact ⟨p, s, Method.bind_error run⟩
    · obtain ⟨p, s, run⟩ := next.cut (pos + bs.length) later inside cut
      exact ⟨p, s, (Method.bind_ok (first.whole pos later)).trans run⟩

/-- What is done with the value afterwards reads nothing. -/
theorem Reads.map {b : β} {k : α → Reader ε β} (first : Reads short m bs a) (next : k a = Pure.pure b) :
    Reads short (m >>= k) bs b := by
  have last : Reads short (k a) [] b := by
    rw [next]
    exact .pure b
  have both := first.bind last
  rwa [List.append_nil] at both

theorem Reads.takeIf {n : Nat} {p : List UInt8 → Bool} (length : bs.length = n) (holds : p bs = true) :
    Reads short (takeIf short n p) bs bs where
  whole pos rest := by
    subst length
    have enough : ¬((bs ++ rest).length < bs.length ∨ p ((bs ++ rest).take bs.length) = false) := by
      rw [List.take_left, holds, List.length_append]
      simp
    rw [Reader.takeIf]
    dsimp only
    rw [if_neg enough, List.take_left, List.drop_left]
  cut pos part inside cut := by
    have shorter : part.length < n := by
      apply Nat.lt_of_not_le
      intro enough
      exact cut (inside.eq_of_length_le (length ▸ enough))
    exact ⟨pos, ⟨pos, part⟩, if_pos (Or.inl shorter)⟩

theorem Reads.take {n : Nat} (length : bs.length = n) : Reads short (take short n) bs bs := .takeIf length rfl

/-- A check that the bytes are the whole input. -/
theorem Reads.all (reads : Reads short m bs a) (trailing : Nat → ε) :
    (∀ pos, ((m >>= fun a => atEnd trailing >>= fun _ => Pure.pure a : Reader ε α) ⟨pos, bs⟩).1 = .ok a) ∧
      (∀ pos part, part <+: bs → part ≠ bs →
        ∃ p, ((m >>= fun a => atEnd trailing >>= fun _ => Pure.pure a : Reader ε α) ⟨pos, part⟩).1 = .error (short p)) ∧
      ∀ pos extra, extra ≠ [] →
        ((m >>= fun a => atEnd trailing >>= fun _ => Pure.pure a : Reader ε α) ⟨pos, bs ++ extra⟩).1 =
          .error (trailing (pos + bs.length)) := by
  refine ⟨?_, ?_, ?_⟩
  · intro pos
    have run := reads.whole pos []
    rw [List.append_nil] at run
    rw [Method.bind_ok run]
    rfl
  · intro pos part inside cut
    obtain ⟨p, s, run⟩ := reads.cut pos part inside cut
    exact ⟨p, by rw [Method.bind_error run]⟩
  · intro pos extra more
    have last : (atEnd trailing : Reader ε Unit) ⟨pos + bs.length, extra⟩ =
        (.error (trailing (pos + bs.length)), ⟨pos + bs.length, extra⟩) := if_neg more
    rw [Method.bind_ok (reads.whole pos extra), Method.bind_error last]

/-- Whatever `m` returns, it has read the bytes that are the form of it; and what it raises is one of
these. -/
def Parses (m : Reader ε α) (form : List UInt8 → α → Prop) (raises : ε → Prop) : Prop :=
  ∀ s, match m s with
    | (.ok a, s') => ∃ bs, s.rest = bs ++ s'.rest ∧ form bs a
    | (.error e, _) => raises e

section Parsing

variable {form : List UInt8 → α → Prop} {raises : ε → Prop}

theorem Parses.pure {a : α} (empty : form [] a) : Parses (Pure.pure a : Reader ε α) form raises :=
  fun _ => ⟨[], rfl, empty⟩

theorem Parses.raise {e : ε} (known : raises e) : Parses (Method.raise e : Reader ε α) form raises := fun _ => known

theorem Parses.fail {short : Nat → ε} (known : ∀ pos, raises (short pos)) :
    Parses (Reader.fail short : Reader ε α) form raises := fun s => known s.pos

theorem Parses.ofExcept {r : Except ε α} (empty : ∀ a, r = .ok a → form [] a) (known : ∀ e, r = .error e → raises e) :
    Parses (Method.ofExcept r : Reader ε α) form raises := by
  intro s
  cases r with
  | ok a => exact ⟨[], rfl, empty a rfl⟩
  | error e => exact known e rfl

theorem Parses.mono {form' : List UInt8 → α → Prop} (parses : Parses m form raises)
    (weaker : ∀ bs a, form bs a → form' bs a) : Parses m form' raises := by
  intro s
  have here := parses s
  cases run : m s with
  | mk result s' =>
    rw [run] at here
    cases result with
    | ok a =>
      obtain ⟨bs, rest, formed⟩ := here
      exact ⟨bs, rest, weaker bs a formed⟩
    | error e => exact here

theorem Parses.bind {k : α → Reader ε β} {next : List UInt8 → β → Prop} (parses : Parses m form raises)
    (later : ∀ bs a, form bs a → Parses (k a) (fun cs b => next (bs ++ cs) b) raises) :
    Parses (m >>= k) next raises := by
  intro s
  have here := parses s
  cases run : m s with
  | mk result s' =>
    rw [run] at here
    cases result with
    | ok a =>
      obtain ⟨bs, rest, formed⟩ := here
      have there := later bs a formed s'
      rw [Method.bind_ok run]
      cases run' : k a s' with
      | mk result' s'' =>
        rw [run'] at there
        cases result' with
        | ok b =>
          obtain ⟨cs, rest', formed'⟩ := there
          refine ⟨bs ++ cs, ?_, formed'⟩
          rw [rest, rest', List.append_assoc]
        | error e => exact there
    | error e =>
      rw [Method.bind_error run]
      exact here

theorem Parses.take {short : Nat → ε} {n : Nat} (known : ∀ pos, raises (short pos)) :
    Parses (Reader.take short n) (fun bs a => bs = a ∧ a.length = n) raises := by
  intro s
  by_cases few : s.rest.length < n
  · have run : Reader.take short n s = (.error (short s.pos), s) := if_pos (Or.inl few)
    rw [run]
    exact known s.pos
  · have run : Reader.take short n s = (.ok (s.rest.take n), ⟨s.pos + n, s.rest.drop n⟩) := by
      apply if_neg
      simpa using few
    rw [run]
    refine ⟨s.rest.take n, (List.take_append_drop n s.rest).symm, rfl, ?_⟩
    rw [List.length_take]
    omega

end Parsing

end Reader

end RubyPg
