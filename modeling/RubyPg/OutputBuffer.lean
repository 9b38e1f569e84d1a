import RubyPg.Lib.CInt
import RubyPg.Lib.Logged
import RubyPg.Value

/-!
# The growing output String

`pg_rb_str_ensure_capa` of `ext/pg.c` and `PG_RB_STR_ENSURE_CAPA` of `ext/pg.h` in 32-bit `int`s and
64-bit `size_t`s, `long`s and addresses. A write that is not inside the capacity of the String is the
error `outside`; all other errors are exceptions.
-/

namespace RubyPg
set_option autoImplicit false

/-- Why writing stops. -/
inductive WriteError where
  | outside
  | raised (stop : Stop)
deriving DecidableEq

/-- A Ruby String: where its bytes are, and how many there can be (`rb_str_capacity`). -/
structure RString where
  base : Nat
  capa : Nat
  /-- Addresses have less than 62 bits (57 are the most in use). -/
  below : base + capa < 2 ^ 62

/-- What Ruby does to resize a String; it may fail with a `NoMemoryError`. -/
structure Allocator where
  resize : RString → Nat → Outcome RString
  enough : ∀ str n str', resize str n = .ok str' → n ≤ str'.capa

/-- The output: `current_out` counted from the start of the String, and the cached end pointer. -/
structure Buffer where
  str : RString
  cur : Int
  endCapa : Nat

/-- A place where a text is quoted: the announced size, the size of the quoted text, where it goes, and
the capacity there. -/
structure Quoting where
  announced : Nat
  quoted : Nat
  cur : Int
  capa : Nat

/-- A program that writes to the output. -/
abbrev Writing := Method WriteError (Logged Buffer Quoting)

/-- A number as `size_t`. -/
def sizeT (n : Int) : Nat := (n % 2 ^ 64).toNat

/-- A call of Ruby or of an encoder. -/
def call {α : Type} (r : Outcome α) : Writing α := Method.ofExcept (r.mapError .raised)

section Code

variable (a : Allocator)

/-- `rb_str_modify_expand`, for a String of length `len`. -/
def rbStrModifyExpand (str : RString) (len : Nat) (expand : Int) : Outcome RString :=
  if expand < 0 then rbRaise .argumentError "negative expanding string size"
  else if expand ≥ 2 ^ 63 - 1 - len then rbRaise .argumentError "string size too big"
  else if expand = 0 then pure str
  else a.resize str (len + expand.toNat)

/-- `pg_rb_str_ensure_capa` without an end pointer. -/
def ensureCapa (expandLen : Int) (b : Buffer) : Except WriteError Buffer :=
  let currLen := sizeT b.cur
  let needed := (currLen + sizeT expandLen) % 2 ^ 64
  if b.str.capa < needed then
    -- `rb_str_set_len` ends the process with "probable buffer overflow"
    if b.str.capa < currLen then .error .outside
    else
      match rbStrModifyExpand a b.str currLen (Int.bmod (needed * 2 - b.str.capa) (2 ^ 64)) with
      | .ok str => .ok { b with str }
      | .error stop => .error (.raised stop)
  else .ok b

/-- `pg_rb_str_ensure_capa`. -/
def pgRbStrEnsureCapa (expandLen : Int) : Writing Unit := Logged.step (ensureCapa a expandLen)

/-- `PG_RB_STR_ENSURE_CAPA`. -/
def pgRbStrEnsureCapaMacro (expandLen : Int) : Writing Unit := Logged.step fun b =>
  if b.endCapa ≤ (b.str.base + b.cur + expandLen) % 2 ^ 64 then
    match ensureCapa a expandLen b with
    | .ok b => .ok { b with endCapa := b.str.base + b.str.capa }
    | .error e => .error e
  else .ok b

/-- Write `n` bytes to `current_out`. -/
def writeBytes (n : Nat) : Writing Unit := Logged.step fun b =>
  if 0 ≤ b.cur ∧ b.cur + n ≤ b.str.capa then .ok b else .error .outside

/-- `current_out += n`. -/
def moveOut (n : Int) : Writing Unit := Logged.step fun b => .ok { b with cur := b.cur + n }

/-- Write `n` bytes and go behind them. -/
def putBytes (n : Nat) : Writing Unit := do
  writeBytes n
  moveOut n

end Code

/-- There is room for `n` bytes at `current_out`; with `cached`, the end pointer is not behind the String. -/
structure Buffer.Roomy (cached : Bool) (n : Nat) (b : Buffer) : Prop where
  start : 0 ≤ b.cur
  room : b.cur + n ≤ b.str.capa
  stop : cached = true → b.endCapa ≤ b.str.base + b.str.capa

theorem Buffer.Roomy.less {cached : Bool} {m n : Nat} {b : Buffer} (roomy : b.Roomy cached n) (fewer : m ≤ n) :
    b.Roomy cached m where
  start := roomy.start
  room := by
    have room := roomy.room
    omega
  stop := roomy.stop

theorem Buffer.Roomy.uncached {cached : Bool} {n : Nat} {b : Buffer} (roomy : b.Roomy cached n) : b.Roomy false n :=
  ⟨roomy.start, roomy.room, Bool.noConfusion⟩

section Rules

variable {a : Allocator} {expected : Quoting → Prop}

/-- What a call returns is known behind it; what it raises is not a write. -/
theorem call_bind {α β : Type} {r : Outcome α} {k : α → Writing β} {P : Buffer → Prop} {Q : β → Buffer → Prop}
    (next : ∀ x, r = .ok x → Logged.Triple expected .outside P (k x) Q) :
    Logged.Triple expected .outside P (call r >>= k) Q := by
  cases r with
  | ok x => exact next x rfl
  | error stop => exact .raise WriteError.noConfusion

theorem call_triple {α : Type} {r : Outcome α} {P : Buffer → Prop} :
    Logged.Triple expected .outside P (call r) fun _ => P := by
  cases r with
  | ok x => exact .pure fun _ before => before
  | error stop => exact .raise WriteError.noConfusion

/-- What a String is expanded to. -/
theorem rbStrModifyExpand_ok {str str' : RString} {len : Nat} {expand : Int}
    (expanded : rbStrModifyExpand a str len expand = .ok str') :
    0 ≤ expand ∧ (expand = 0 ∧ str' = str ∨ len + expand.toNat ≤ str'.capa) := by
  unfold rbStrModifyExpand at expanded
  split at expanded
  · cases expanded
  split at expanded
  · cases expanded
  split at expanded
  · rename_i nonneg _ zero
    cases expanded
    exact ⟨by omega, .inl ⟨zero, rfl⟩⟩
  · exact ⟨by omega, .inr (a.enough _ _ _ expanded)⟩

/-- A reservation of less than 2^33 bytes does not wrap: there is room for them behind it. -/
theorem ensureCapa_ok {cached : Bool} {n : Nat} (few : n < 2 ^ 33) {b b' : Buffer} (inside : b.Roomy cached 0)
    (ensured : ensureCapa a n b = .ok b') :
    b'.cur = b.cur ∧ b.cur + n ≤ b'.str.capa ∧ (b' = b ∨ b.str.capa < b.cur + n) := by
  have start := inside.start
  have stop := inside.room
  have below := b.str.below
  unfold ensureCapa sizeT at ensured
  dsimp only at ensured
  have current : (b.cur % 2 ^ 64).toNat = b.cur.toNat := by omega
  have more : ((n : Int) % 2 ^ 64).toNat = n := by omega
  have needed : (b.cur.toNat + n) % 2 ^ 64 = b.cur.toNat + n := by omega
  rw [current, more, needed] at ensured
  split at ensured
  · split at ensured
    · cases ensured
    · cases expanded : rbStrModifyExpand a b.str b.cur.toNat
          (Int.bmod (((b.cur.toNat + n : Nat) : Int) * 2 - b.str.capa) (2 ^ 64)) with
      | error stop =>
        rw [expanded] at ensured
        cases ensured
      | ok str =>
        rw [expanded] at ensured
        cases ensured
        obtain ⟨nonneg, resized⟩ := rbStrModifyExpand_ok expanded
        refine ⟨rfl, ?_, .inr (by omega)⟩
        show b.cur + n ≤ str.capa
        rw [Int.bmod_def] at nonneg resized
        rcases resized with ⟨zero, rfl⟩ | grown
        · omega
        · omega
  · cases ensured
    exact ⟨rfl, by omega, .inl rfl⟩

/-- Inside the String the length is not refused. -/
theorem ensureCapa_error {cached : Bool} {expandLen : Int} {b : Buffer} (inside : b.Roomy cached 0) {e : WriteError}
    (refused : ensureCapa a expandLen b = .error e) : e ≠ .outside := by
  have start := inside.start
  have stop := inside.room
  have below := b.str.below
  have current : sizeT b.cur = b.cur.toNat := by
    unfold sizeT
    omega
  unfold ensureCapa at refused
  dsimp only at refused
  rw [current] at refused
  split at refused
  · split at refused
    · omega
    · split at refused
      · cases refused
      · cases refused
        exact WriteError.noConfusion
  · cases refused

theorem ensure_triple {n : Nat} (few : n < 2 ^ 33) :
    Logged.Triple expected .outside (Buffer.Roomy false 0) (pgRbStrEnsureCapa a n) fun _ => Buffer.Roomy false n := by
  apply Logged.Triple.step
  · intro b b' inside ensured
    obtain ⟨cur, room, -⟩ := ensureCapa_ok few inside ensured
    have start := inside.start
    exact ⟨by omega, by omega, Bool.noConfusion⟩
  · exact fun b e inside refused => ensureCapa_error inside refused

/-- The inline check and the cached end agree with the capacity. -/
theorem ensureMacro_triple {n : Nat} (few : n < 2 ^ 33) :
    Logged.Triple expected .outside (Buffer.Roomy true 0) (pgRbStrEnsureCapaMacro a n) fun _ => Buffer.Roomy true n := by
  apply Logged.Triple.step
  · intro b b' inside ensured
    have start := inside.start
    have stop := inside.room
    have cached := inside.stop rfl
    have below := b.str.below
    split at ensured
    · cases done : ensureCapa a n b with
      | error e =>
        rw [done] at ensured
        cases ensured
      | ok b'' =>
        rw [done] at ensured
        cases ensured
        obtain ⟨cur, room, -⟩ := ensureCapa_ok few inside done
        refine ⟨?_, ?_, fun _ => Nat.le_refl _⟩
        · show 0 ≤ b''.cur
          omega
        · show b''.cur + n ≤ b''.str.capa
          omega
    · cases ensured
      refine ⟨start, ?_, inside.stop⟩
      omega
  · intro b e inside refused
    split at refused
    · cases done : ensureCapa a n b with
      | error e' =>
        rw [done] at refused
        cases refused
        exact ensureCapa_error inside done
      | ok b' =>
        rw [done] at refused
        cases refused
    · cases refused

theorem write_triple {P : Buffer → Prop} {n : Nat} (room : ∀ b, P b → b.Roomy false n) :
    Logged.Triple expected .outside P (writeBytes n) fun _ => P := by
  apply Logged.Triple.step
  · intro b b' before wrote
    split at wrote
    · cases wrote
      exact before
    · cases wrote
  · intro b e before wrote
    rw [if_pos ⟨(room b before).start, (room b before).room⟩] at wrote
    cases wrote

/-- Behind `n` bytes there is room for the rest. -/
theorem put_triple {cached : Bool} {n m : Nat} :
    Logged.Triple expected .outside (Buffer.Roomy cached (n + m)) (putBytes n) fun _ => Buffer.Roomy cached m := by
  refine .bind (write_triple fun b roomy => (roomy.less (Nat.le_add_right n m)).uncached) fun _ => .step ?_ ?_
  · intro b b' roomy moved
    cases moved
    have start := roomy.start
    have room := roomy.room
    refine ⟨?_, ?_, roomy.stop⟩
    · show 0 ≤ b.cur + n
      omega
    · show b.cur + n + m ≤ b.str.capa
      omega
  · intro b e roomy moved
    cases moved

/-- What was reserved for one write is used up by it. -/
theorem put_all_triple {cached : Bool} {n : Nat} :
    Logged.Triple expected .outside (Buffer.Roomy cached n) (putBytes n) fun _ => Buffer.Roomy cached 0 :=
  put_triple (m := 0)

end Rules

end RubyPg
