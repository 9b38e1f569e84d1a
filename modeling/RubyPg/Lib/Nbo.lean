import Mathlib.Algebra.Order.Ring.Int

/-!
# Integers in network byte order

`write_nbo16`, `write_nbo32`, `write_nbo64` and their inverses, over the number of bytes:
two's complement, most significant byte first.
-/

namespace RubyPg
set_option autoImplicit false

/-- The low `k` bytes of a number, most significant first. -/
def bytesOf : Nat → Nat → List UInt8
  | 0, _ => []
  | k + 1, n => (n / 256 ^ k % 256).toUInt8 :: bytesOf k n

theorem bytesOf_succ (k n : Nat) : bytesOf (k + 1) n = (n / 256 ^ k % 256).toUInt8 :: bytesOf k n := rfl

/-- The number written by a run of bytes behind those already read. -/
def readBytes (acc : Nat) : List UInt8 → Nat
  | [] => acc
  | b :: bs => readBytes (acc * 256 + b.toNat) bs

theorem readBytes_cons (acc : Nat) (b : UInt8) (bs : List UInt8) :
    readBytes acc (b :: bs) = readBytes (acc * 256 + b.toNat) bs := rfl

/-- `write_nbo` for a signed integer of `k` bytes. -/
def writeNbo (k : Nat) (l : Int) : List UInt8 := bytesOf k (l % (256 ^ k : Nat)).toNat

/-- `read_nbo`, sign extended. -/
def readNbo (c : List UInt8) : Int := Int.bmod (readBytes 0 c) (256 ^ c.length)

@[simp] theorem length_bytesOf (k n : Nat) : (bytesOf k n).length = k := by
  induction k with
  | zero => rfl
  | succ k ih => rw [bytesOf_succ, List.length_cons, ih]

@[simp] theorem length_writeNbo (k : Nat) (l : Int) : (writeNbo k l).length = k := length_bytesOf k _

theorem readBytes_bytesOf (k n acc : Nat) : readBytes acc (bytesOf k n) = acc * 256 ^ k + n % 256 ^ k := by
  induction k generalizing acc with
  | zero => simp [bytesOf, readBytes, Nat.mod_one]
  | succ k ih =>
    have byte : (n / 256 ^ k % 256).toUInt8.toNat = n / 256 ^ k % 256 := by
      rw [Nat.toUInt8, UInt8.toNat_ofNat']
      exact Nat.mod_eq_of_lt (Nat.mod_lt _ (by decide))
    have split : n % 256 ^ (k + 1) = 256 ^ k * (n / 256 ^ k % 256) + n % 256 ^ k := by
      rw [Nat.pow_succ, Nat.mod_mul, Nat.add_comm]
    rw [bytesOf_succ, readBytes_cons, ih, byte, split, Nat.pow_succ, Nat.add_mul, Nat.mul_assoc, Nat.mul_comm (256 ^ k),
      Nat.mul_comm (n / 256 ^ k % 256), Nat.mul_comm 256 (256 ^ k)]
    omega

/-- The high bytes, and the low ones. -/
theorem bytesOf_add (j k n : Nat) : bytesOf (j + k) n = bytesOf j (n / 256 ^ k) ++ bytesOf k n := by
  induction j with
  | zero => simp [bytesOf]
  | succ j ih =>
    rw [Nat.succ_add, bytesOf_succ, bytesOf_succ, ih, List.cons_append, Nat.div_div_eq_div_mul, ← Nat.pow_add, Nat.add_comm k j]

/-- An integer that fits is read back. -/
theorem readNbo_writeNbo {k : Nat} {l : Int} (low : -(256 ^ k : Nat) ≤ l * 2) (high : l * 2 < (256 ^ k : Nat)) :
    readNbo (writeNbo k l) = l := by
  have positive : 0 < (256 ^ k : Nat) := Nat.pow_pos (by decide)
  have nonneg : 0 ≤ l % (256 ^ k : Nat) := Int.emod_nonneg _ (by omega)
  have small : l % (256 ^ k : Nat) < (256 ^ k : Nat) := Int.emod_lt_of_pos _ (by omega)
  have read : readBytes 0 (writeNbo k l) = (l % (256 ^ k : Nat)).toNat := by
    rw [writeNbo, readBytes_bytesOf, Nat.zero_mul, Nat.zero_add]
    exact Nat.mod_eq_of_lt (by omega)
  rw [readNbo, read, length_writeNbo, Int.toNat_of_nonneg nonneg, Int.emod_bmod]
  exact Int.bmod_eq_of_le_mul_two low high

/-- What was read before stands in front. -/
theorem readBytes_eq (acc : Nat) (bs : List UInt8) : readBytes acc bs = acc * 256 ^ bs.length + readBytes 0 bs := by
  induction bs generalizing acc with
  | nil => simp [readBytes]
  | cons b bs ih =>
    rw [readBytes_cons, readBytes_cons, ih, ih (0 * 256 + b.toNat), List.length_cons, Nat.pow_succ, Nat.add_mul, Nat.mul_assoc,
      Nat.mul_comm 256, Nat.zero_mul, Nat.zero_add]
    omega

theorem readBytes_lt (bs : List UInt8) : readBytes 0 bs < 256 ^ bs.length := by
  induction bs with
  | nil => simp [readBytes]
  | cons b bs ih =>
    have byte := b.toNat_lt
    have first : b.toNat * 256 ^ bs.length + 256 ^ bs.length ≤ 256 * 256 ^ bs.length := by
      rw [← Nat.succ_mul]
      exact Nat.mul_le_mul_right _ byte
    rw [readBytes_cons, readBytes_eq, List.length_cons, Nat.pow_succ, Nat.zero_mul, Nat.zero_add, Nat.mul_comm _ 256]
    omega

theorem bytesOf_readBytes (acc : Nat) (bs : List UInt8) : bytesOf bs.length (readBytes acc bs) = bs := by
  induction bs generalizing acc with
  | nil => rfl
  | cons b bs ih =>
    have first : readBytes acc (b :: bs) / 256 ^ bs.length % 256 = b.toNat := by
      have positive : 0 < 256 ^ bs.length := Nat.pow_pos (by decide)
      rw [readBytes_cons, readBytes_eq, Nat.mul_comm, Nat.mul_add_div positive, Nat.div_eq_of_lt (readBytes_lt bs), Nat.add_zero,
        Nat.mul_comm, Nat.mul_add_mod]
      exact Nat.mod_eq_of_lt b.toNat_lt
    rw [List.length_cons, bytesOf_succ, first, readBytes_cons, ih]
    simp

/-- Bytes are those of the integer they are read as. -/
theorem writeNbo_readNbo (bs : List UInt8) : writeNbo bs.length (readNbo bs) = bs := by
  have small : (readBytes 0 bs : Int) < (256 ^ bs.length : Nat) := Int.ofNat_lt.2 (readBytes_lt bs)
  rw [writeNbo, readNbo, Int.bmod_emod, Int.emod_eq_of_lt (Int.natCast_nonneg _) small, Int.toNat_natCast,
    bytesOf_readBytes]

/-- What is read from `k` bytes fits into them. -/
theorem readNbo_bounds {k : Nat} {bs : List UInt8} (length : bs.length = k + 1) :
    -(256 ^ (k + 1) : Nat) ≤ readNbo bs * 2 ∧ readNbo bs * 2 < (256 ^ (k + 1) : Nat) := by
  have positive : 0 < 256 ^ (k + 1) := Nat.pow_pos (by decide)
  have low := @Int.le_bmod (readBytes 0 bs) (256 ^ (k + 1)) positive
  have high := @Int.bmod_lt (readBytes 0 bs) (256 ^ (k + 1)) positive
  rw [readNbo, length]
  have even : 256 ^ (k + 1) = 2 * (128 * 256 ^ k) := by
    rw [Nat.pow_succ]
    omega
  omega

end RubyPg
