import RubyPg.Lib.Memory
import RubyPg.Lib.Method

/-!
# Programs that write into a buffer

C code that stores bytes through a pointer into memory it was given. The state is the memory
together with the list of all indices written so far, the latest first, so that what a
program touches can be said of runs that raise, too. `Writes lo hi Q m` says that `m` only
stores at the indices from `lo` up to `hi`, and that `Q` holds of what it returns.
-/

namespace RubyPg
set_option autoImplicit false

/-- The memory behind a pointer, and the indices that were written. -/
structure Buf where
  mem : Mem
  log : List Nat

/-- A program that writes into a buffer. -/
abbrev Writer (ε α : Type) := Method ε Buf α

namespace Writer

variable {ε α β : Type}

/-- `out[i] = b`. -/
def store (i : Nat) (b : UInt8) : Writer ε Unit := Method.change fun s => ⟨s.mem.put i b, i :: s.log⟩

/-- `out[i]`. -/
def load (i : Nat) : Writer ε UInt8 := fun s => (.ok (s.mem i), s)

/-- Store some bytes, from index `i` on. -/
def storeAll (i : Nat) : List UInt8 → Writer ε Unit
  | [] => pure ()
  | b :: bs => do
    store i b
    storeAll (i + 1) bs

/-- `m` stores only at indices from `lo` up to `hi`, and returns what satisfies `Q`. -/
def Writes (lo hi : Nat) (Q : α → Prop) (m : Writer ε α) : Prop :=
  ∀ s, ∃ w, (m s).2.log = w ++ s.log ∧ (∀ i ∈ w, lo ≤ i ∧ i < hi) ∧ ∀ a, (m s).1 = .ok a → Q a

variable {lo hi : Nat} {Q : α → Prop} {m : Writer ε α}

theorem Writes.pure {a : α} (h : Q a) : Writes lo hi Q (Pure.pure a : Writer ε α) := fun _ =>
  ⟨[], rfl, by simp, fun _ eq => Except.ok.inj eq ▸ h⟩

theorem Writes.raise (e : ε) : Writes lo hi Q (Method.raise e : Writer ε α) := fun _ =>
  ⟨[], rfl, by simp, fun _ eq => by cases eq⟩

theorem Writes.ofExcept {r : Except ε α} (h : ∀ a, r = .ok a → Q a) :
    Writes lo hi Q (Method.ofExcept r : Writer ε α) := fun _ => ⟨[], rfl, by simp, h⟩

theorem Writes.store {i : Nat} (b : UInt8) (low : lo ≤ i) (high : i < hi) :
    Writes lo hi (fun _ => True) (store i b : Writer ε Unit) := fun _ =>
  ⟨[i], rfl, by simp [low, high], fun _ _ => trivial⟩

theorem Writes.load (i : Nat) : Writes lo hi (fun _ => True) (load i : Writer ε UInt8) := fun _ =>
  ⟨[], rfl, by simp, fun _ _ => trivial⟩

theorem Writes.bind {k : α → Writer ε β} {R : β → Prop} (first : Writes lo hi Q m)
    (next : ∀ a, Q a → Writes lo hi R (k a)) : Writes lo hi R (m >>= k) := by
  intro s
  obtain ⟨w, log, inside, returns⟩ := first s
  cases run : m s with
  | mk result s' =>
    rw [run] at log returns
    cases result with
    | error e =>
      rw [Method.bind_error run]
      exact ⟨w, log, inside, fun _ eq => by cases eq⟩
    | ok a =>
      rw [Method.bind_ok run]
      obtain ⟨w', log', inside', returns'⟩ := next a (returns a rfl) s'
      refine ⟨w' ++ w, ?_, ?_, returns'⟩
      · rw [log', log, List.append_assoc]
      · intro i member
        rcases List.mem_append.1 member with later | earlier
        · exact inside' i later
        · exact inside i earlier

/-- A wider range and a weaker condition. -/
theorem Writes.mono {lo' hi' : Nat} {R : α → Prop} (h : Writes lo hi Q m) (low : lo' ≤ lo) (high : hi ≤ hi')
    (weaker : ∀ a, Q a → R a) : Writes lo' hi' R m := by
  intro s
  obtain ⟨w, log, inside, returns⟩ := h s
  exact ⟨w, log, fun i member => ⟨Nat.le_trans low (inside i member).1, Nat.lt_of_lt_of_le (inside i member).2 high⟩,
    fun a eq => weaker a (returns a eq)⟩

theorem Writes.storeAll {i : Nat} {bs : List UInt8} (low : lo ≤ i) (high : i + bs.length ≤ hi) :
    Writes lo hi (fun _ => True) (storeAll i bs : Writer ε Unit) := by
  induction bs generalizing i with
  | nil => exact .pure trivial
  | cons b bs ih =>
    rw [List.length_cons] at high
    exact .bind (.store b low (by omega)) fun _ _ => ih (by omega) (by omega)

/-- `m` returns, and `Q` holds of what it returns and the indices it writes. -/
def Ends (Q : α → List Nat → Prop) (m : Writer ε α) : Prop :=
  ∀ s, ∃ a s' w, m s = (.ok a, s') ∧ s'.log = w ++ s.log ∧ Q a w

section Ends

variable {P : α → List Nat → Prop}

theorem Ends.pure {a : α} (h : P a []) : Ends P (Pure.pure a : Writer ε α) := fun s => ⟨a, s, [], rfl, rfl, h⟩

theorem Ends.store (i : Nat) (b : UInt8) : Ends (fun _ w => i ∈ w) (store i b : Writer ε Unit) := fun s =>
  ⟨(), ⟨s.mem.put i b, i :: s.log⟩, [i], rfl, rfl, by simp⟩

theorem Ends.load (i : Nat) : Ends (fun _ _ => True) (load i : Writer ε UInt8) := fun s =>
  ⟨s.mem i, s, [], rfl, rfl, trivial⟩

theorem Ends.bind {k : α → Writer ε β} {R : β → List Nat → Prop} (first : Ends P m)
    (next : ∀ a w, P a w → Ends (fun b w' => R b (w' ++ w)) (k a)) : Ends R (m >>= k) := by
  intro s
  obtain ⟨a, s', w, run, log, holds⟩ := first s
  obtain ⟨b, s'', w', run', log', holds'⟩ := next a w holds s'
  refine ⟨b, s'', w' ++ w, ?_, ?_, holds'⟩
  · rw [Method.bind_ok run, run']
  · rw [log', log, List.append_assoc]

theorem Ends.mono {R : α → List Nat → Prop} (h : Ends P m) (weaker : ∀ a w, P a w → R a w) : Ends R m := by
  intro s
  obtain ⟨a, s', w, run, log, holds⟩ := h s
  exact ⟨a, s', w, run, log, weaker a w holds⟩

/-- A block store writes all its indices. -/
theorem Ends.storeAll (i : Nat) (bs : List UInt8) :
    Ends (fun _ w => ∀ j, i ≤ j → j < i + bs.length → j ∈ w) (storeAll i bs : Writer ε Unit) := by
  induction bs generalizing i with
  | nil => exact .pure fun j low high => by simp at high; omega
  | cons b bs ih =>
    refine .bind (.store i b) fun _ w first => (ih (i + 1)).mono fun _ w' rest j low high => ?_
    rw [List.length_cons] at high
    rw [List.mem_append]
    by_cases here : j = i
    · exact Or.inr (here ▸ first)
    · exact Or.inl (rest j (by omega) (by omega))

end Ends

/-- A block store leaves its bytes, and what is in front of them. -/
theorem storeAll_run (i : Nat) (bs : List UInt8) (s : Buf) :
    ∃ s', (storeAll i bs : Writer ε Unit) s = (.ok (), s') ∧ s'.mem.slice i bs.length = bs ∧
      ∀ j, j < i → s'.mem j = s.mem j := by
  induction bs generalizing i s with
  | nil => exact ⟨s, rfl, rfl, fun _ _ => rfl⟩
  | cons b bs ih =>
    obtain ⟨s', run, stored, front⟩ := ih (i + 1) ⟨s.mem.put i b, i :: s.log⟩
    dsimp only at front
    refine ⟨s', run, ?_, fun j before => ?_⟩
    · rw [List.length_cons, Mem.slice_cons, stored, front i (Nat.lt_succ_self i), Mem.put_same]
    · rw [front j (by omega), Mem.put_other _ _ (by omega)]

/-- A block store leaves what is behind it. -/
theorem storeAll_behind (i : Nat) (bs : List UInt8) (s : Buf) {j : Nat} (behind : i + bs.length ≤ j) :
    ((storeAll i bs : Writer ε Unit) s).2.mem j = s.mem j := by
  induction bs generalizing i s with
  | nil => rfl
  | cons b bs ih =>
    rw [List.length_cons] at behind
    have rest := ih (i + 1) ⟨s.mem.put i b, i :: s.log⟩ (by omega)
    have apart : (s.mem.put i b) j = s.mem j := Mem.put_other _ _ (by omega)
    exact rest.trans apart

/-- Bytes are stored one part behind the other. -/
theorem storeAll_append (i : Nat) (bs cs : List UInt8) :
    (storeAll i (bs ++ cs) : Writer ε Unit) = storeAll i bs >>= fun _ => storeAll (i + bs.length) cs := by
  induction bs generalizing i with
  | nil => simp [storeAll]
  | cons b bs ih =>
    simp only [List.cons_append, storeAll, ih, bind_assoc, List.length_cons]
    rw [Nat.add_right_comm, Nat.add_assoc]

/-- `m` returns `a`, leaves the bytes from index `out` on, and changes nothing in front of them. -/
def Puts (out : Nat) (bytes : List UInt8) (a : α) (m : Writer ε α) : Prop :=
  ∀ s, ∃ s', m s = (.ok a, s') ∧ s'.mem.slice out bytes.length = bytes ∧ ∀ j, j < out → s'.mem j = s.mem j

section Puts

variable {out : Nat} {bs cs : List UInt8} {a : α} {b : β} {k : α → Writer ε β}

theorem Puts.pure (a : α) : Puts out [] a (Pure.pure a : Writer ε α) := fun s => ⟨s, rfl, rfl, fun _ _ => rfl⟩

theorem Puts.storeAll (out : Nat) (bs : List UInt8) : Puts out bs () (storeAll out bs : Writer ε Unit) :=
  storeAll_run out bs

/-- What is put behind leaves what is in front of it. -/
theorem Puts.bind (first : Puts out bs a m) (next : Puts (out + bs.length) cs b (k a)) :
    Puts out (bs ++ cs) b (m >>= k) := by
  intro s
  obtain ⟨s₁, run₁, here, front₁⟩ := first s
  obtain ⟨s₂, run₂, there, front₂⟩ := next s₁
  refine ⟨s₂, (Method.bind_ok run₁).trans run₂, ?_, ?_⟩
  · rw [List.length_append, Mem.slice_append, there]
    have kept : s₂.mem.slice out bs.length = s₁.mem.slice out bs.length :=
      Mem.slice_congr fun i inside => front₂ (out + i) (by omega)
    rw [kept, here]
  · intro j before
    rw [front₂ j (by omega), front₁ j before]

/-- Some bytes are put where room for a head was left, and then the head. -/
theorem Puts.head {head : α → List UInt8} (first : Puts (out + (head a).length) bs a m)
    (next : Puts (out + (head a ++ bs).length) cs b (k a)) :
    Puts out (head a ++ bs ++ cs) b (m >>= fun a => Writer.storeAll out (head a) >>= fun _ => k a) := by
  have both : Puts out (head a ++ bs) a (m >>= fun a => Writer.storeAll out (head a) >>= fun _ => Pure.pure a) := by
    intro s
    obtain ⟨s₁, run₁, there, front₁⟩ := first s
    obtain ⟨s₂, run₂, here, front₂⟩ := @storeAll_run ε out (head a) s₁
    have last : (Writer.storeAll out (head a) >>= fun _ => Pure.pure a : Writer ε α) s₁ = (.ok a, s₂) :=
      Method.bind_ok run₂
    refine ⟨s₂, (Method.bind_ok run₁).trans last, ?_, ?_⟩
    · have kept : s₂.mem.slice (out + (head a).length) bs.length = s₁.mem.slice (out + (head a).length) bs.length := by
        apply Mem.slice_congr
        intro i inside
        have same := @storeAll_behind ε out (head a) s₁ (out + (head a).length + i) (by omega)
        rwa [run₂] at same
      rw [List.length_append, Mem.slice_append, here, kept, there]
    · intro j before
      rw [front₂ j before, front₁ j (by omega)]
  have whole := both.bind next
  simpa only [bind_assoc, pure_bind] using whole

end Puts

/-- `m` returns `a`, leaves the bytes from index `out` on, and changes nothing else. -/
def Fills (out : Nat) (bytes : List UInt8) (a : α) (m : Writer ε α) : Prop :=
  ∀ s, ∃ s', m s = (.ok a, s') ∧ s'.mem.slice out bytes.length = bytes ∧
    ∀ j, j < out ∨ out + bytes.length ≤ j → s'.mem j = s.mem j

section Fills

variable {out : Nat} {bs cs : List UInt8} {a : α} {b : β} {k : α → Writer ε β}

theorem Fills.pure (a : α) : Fills out [] a (Pure.pure a : Writer ε α) := by
  intro s
  refine ⟨s, rfl, ?_⟩
  simp

theorem Fills.store (out : Nat) (byte : UInt8) : Fills out [byte] () (store out byte : Writer ε Unit) := by
  intro s
  refine ⟨⟨s.mem.put out byte, out :: s.log⟩, rfl, ?_, ?_⟩
  · simp [Mem.slice_cons]
  · intro j outside
    apply Mem.put_other
    simp only [List.length_singleton] at outside
    omega

/-- What is filled behind comes first. -/
theorem Fills.before (first : Fills (out + bs.length) cs a m) (next : Fills out bs b (k a)) :
    Fills out (bs ++ cs) b (m >>= k) := by
  intro s
  obtain ⟨s₁, run₁, there, outside₁⟩ := first s
  obtain ⟨s₂, run₂, here, outside₂⟩ := next s₁
  refine ⟨s₂, (Method.bind_ok run₁).trans run₂, ?_, ?_⟩
  · have kept : s₂.mem.slice (out + bs.length) cs.length = s₁.mem.slice (out + bs.length) cs.length := by
      apply Mem.slice_congr
      intro i _
      exact outside₂ _ (.inr (by omega))
    rw [List.length_append, Mem.slice_append, here, kept, there]
  · intro j outside
    rw [List.length_append] at outside
    rw [outside₂ j (by omega), outside₁ j (by omega)]

/-- What only fills leaves what is in front of it. -/
theorem Fills.puts (fills : Fills out bs a m) : Puts out bs a m := by
  intro s
  obtain ⟨s', run, here, outside⟩ := fills s
  exact ⟨s', run, here, fun j front => outside j (.inl front)⟩

/-- A byte is stored behind what is filled in next. -/
theorem Fills.storeBehind {m : Writer ε α} {i : Nat} (fills : Fills out bs a m) (behind : i = out + bs.length) (byte : UInt8) :
    Fills out (bs ++ [byte]) a (Writer.store i byte >>= fun _ => m) := by
  subst behind
  exact .before (.store _ byte) fills

end Fills

/-- From `before` to `after` just these bytes were written, from index `out` on. -/
structure Laid (out : Nat) (bytes : List UInt8) (before after : Buf) : Prop where
  here : after.mem.slice out bytes.length = bytes
  frame : ∀ j, j < out ∨ out + bytes.length ≤ j → after.mem j = before.mem j
  log : ∃ w, after.log = w ++ before.log ∧ ∀ j, j ∈ w ↔ out ≤ j ∧ j < out + bytes.length

section Laid

variable {out : Nat} {bs cs : List UInt8} {s s₁ s₂ : Buf}

theorem Laid.nothing (out : Nat) (s : Buf) : Laid out [] s s where
  here := rfl
  frame _ _ := rfl
  log := ⟨[], rfl, fun j => by simp⟩

theorem Laid.stored (out : Nat) (byte : UInt8) (s : Buf) : Laid out [byte] s ⟨s.mem.put out byte, out :: s.log⟩ where
  here := by simp [Mem.slice_cons]
  frame j outside := by
    apply Mem.put_other
    simp only [List.length_singleton] at outside
    omega
  log := by
    refine ⟨[out], rfl, fun j => ?_⟩
    rw [List.mem_singleton, List.length_singleton]
    omega

/-- Two parts make up a whole, whichever is written first. -/
theorem Laid.parts {i j : Nat} {whole : List UInt8} (first : Laid i bs s s₁) (next : Laid j cs s₁ s₂)
    (here : s₂.mem.slice out whole.length = whole)
    (parts : ∀ k, out ≤ k ∧ k < out + whole.length ↔ (j ≤ k ∧ k < j + cs.length) ∨ (i ≤ k ∧ k < i + bs.length)) :
    Laid out whole s s₂ where
  here := here
  frame k outside := by
    have inside := parts k
    rw [next.frame k (by omega), first.frame k (by omega)]
  log := by
    obtain ⟨w, log, inside⟩ := first.log
    obtain ⟨w', log', inside'⟩ := next.log
    refine ⟨w' ++ w, ?_, fun k => ?_⟩
    · rw [log', log, List.append_assoc]
    · rw [List.mem_append, inside', inside, parts]

/-- One part, and then what comes behind it. -/
theorem Laid.behind (first : Laid out bs s s₁) (next : Laid (out + bs.length) cs s₁ s₂) : Laid out (bs ++ cs) s s₂ := by
  have kept : s₂.mem.slice out bs.length = s₁.mem.slice out bs.length := by
    apply Mem.slice_congr
    intro i inside
    exact next.frame _ (.inl (by omega))
  apply first.parts next
  · rw [List.length_append, Mem.slice_append, kept, first.here, next.here]
  · intro k
    rw [List.length_append]
    omega

/-- One part, and then what comes in front of it. -/
theorem Laid.front (first : Laid (out + bs.length) cs s s₁) (next : Laid out bs s₁ s₂) : Laid out (bs ++ cs) s s₂ := by
  have kept : s₂.mem.slice (out + bs.length) cs.length = s₁.mem.slice (out + bs.length) cs.length := by
    apply Mem.slice_congr
    intro i inside
    exact next.frame _ (.inr (by omega))
  apply first.parts next
  · rw [List.length_append, Mem.slice_append, kept, first.here, next.here]
  · intro k
    rw [List.length_append]
    omega

/-- A byte in front. -/
theorem Laid.cons (laid : Laid (out + 1) bs s s₁) (byte : UInt8) :
    Laid out (byte :: bs) s ⟨s₁.mem.put out byte, out :: s₁.log⟩ :=
  have first : Laid (out + [byte].length) bs s s₁ := laid
  first.front (.stored out byte s₁)

/-- A byte behind. -/
theorem Laid.snoc (laid : Laid out bs s s₁) (byte : UInt8) :
    Laid out (bs ++ [byte]) s ⟨s₁.mem.put (out + bs.length) byte, (out + bs.length) :: s₁.log⟩ :=
  laid.behind (.stored _ byte s₁)

/-- What fills a place, writes all of it and nothing else has laid it. -/
theorem Laid.of_fills {R : α → Prop} {a : α} (fills : Fills out bs a m) (inside : Writes out (out + bs.length) R m)
    (all : Ends (fun _ w => ∀ j, out ≤ j → j < out + bs.length → j ∈ w) m) (s : Buf) :
    ∃ s', m s = (.ok a, s') ∧ Laid out bs s s' := by
  obtain ⟨s', run, here, outside⟩ := fills s
  obtain ⟨w, log, within, -⟩ := inside s
  obtain ⟨b, s'', w', run', log', covered⟩ := all s
  rw [run] at run' log
  cases run'
  have same : w = w' := List.append_cancel_right (log.symm.trans log')
  refine ⟨s', run, here, outside, w, log, fun j => ⟨within j, ?_⟩⟩
  rintro ⟨low, high⟩
  rw [same]
  exact covered j low high

end Laid

section Steps

variable {k : UInt8 → Writer ε β} {k' : Unit → Writer ε β}

@[simp] theorem load_bind (i : Nat) (s : Buf) : (load i >>= k) s = k (s.mem i) s := rfl

@[simp] theorem store_bind (i : Nat) (byte : UInt8) (s : Buf) :
    (store i byte >>= k') s = k' () ⟨s.mem.put i byte, i :: s.log⟩ := rfl

end Steps

/-- From memory with `P`, `m` raises or leaves memory with `Q`. -/
def Leaves (P : Mem → Prop) (m : Writer ε α) (Q : α → Mem → Prop) : Prop :=
  ∀ s, P s.mem → ∀ a, (m s).1 = .ok a → Q a (m s).2.mem

section Leaves

variable {P P' : Mem → Prop} {Q Q' : α → Mem → Prop}

theorem Leaves.pure {a : α} (holds : ∀ mem, P mem → Q a mem) : Leaves P (Pure.pure a : Writer ε α) Q := by
  rintro s before b ⟨⟩
  exact holds s.mem before

theorem Leaves.ofExcept {r : Except ε α} (holds : ∀ a mem, r = .ok a → P mem → Q a mem) :
    Leaves P (Method.ofExcept r : Writer ε α) Q := fun s before a returned => holds a s.mem returned before

theorem Leaves.store {Q : Unit → Mem → Prop} {i : Nat} {b : UInt8} (holds : ∀ mem, P mem → Q () (mem.put i b)) :
    Leaves P (store i b : Writer ε Unit) Q := fun s before _ _ => holds s.mem before

theorem Leaves.bind {k : α → Writer ε β} {R : β → Mem → Prop} (first : Leaves P m Q)
    (next : ∀ a, Leaves (Q a) (k a) R) : Leaves P (m >>= k) R := by
  intro s before b returned
  have here := first s before
  cases run : m s with
  | mk result s' =>
    rw [run] at here
    cases result with
    | ok a =>
      rw [Method.bind_ok run] at returned ⊢
      exact next a s' (here a rfl) b returned
    | error e =>
      rw [Method.bind_error run] at returned
      cases returned

theorem Leaves.mono (leaves : Leaves P m Q) (stronger : ∀ mem, P' mem → P mem) (weaker : ∀ a mem, Q a mem → Q' a mem) :
    Leaves P' m Q' := fun s before a returned => weaker a _ (leaves s (stronger s.mem before) a returned)

/-- What is put, with all in front of it as before. -/
theorem Puts.leaves {out : Nat} {bs : List UInt8} {a : α} (puts : Puts out bs a m)
    (holds : ∀ mem mem', P mem → Mem.slice mem' out bs.length = bs → (∀ j, j < out → mem' j = mem j) → Q a mem') :
    Leaves P m Q := by
  intro s before b returned
  obtain ⟨s', run, slice, front⟩ := puts s
  rw [run] at returned ⊢
  cases returned
  exact holds s.mem s'.mem before slice front

end Leaves

end Writer

end RubyPg
