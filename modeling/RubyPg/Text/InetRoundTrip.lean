import RubyPg.Text.InetMalformed
import RubyPg.Text.InetTexts
import Mathlib.Data.Nat.Size

/-!
# Inet values come back

`PG::TextEncoder::Inet` writes the address as `IPAddr#to_s` does, and the prefix length unless it is the largest.
The decoder asks `inet_pton` for an IPv4 address wherever there is a dot. So all values come back but IPv4-mapped
and IPv4-compatible IPv6 addresses, which are written with a dotted tail (`inet_round_trip_iff`).
-/

namespace RubyPg.Inet
set_option autoImplicit false
open Ascii

/-- `IPAddr#prefix`: the bits of the family, less those that are not in the mask. -/
def IPAddr.prefixLen (ip : IPAddr) : Nat := ip.family.bits - ((2 ^ ip.family.bits - 1) ^^^ ip.maskAddr).size

/-- `PG::TextEncoder::Inet#encode`; other values are handed on. -/
def encode {α : Type} (toS : Family → Nat → Bytes) : IPAddr ⊕ α → Bytes ⊕ α
  | .inl value =>
    let defaultPrefix := value.family.bits
    let s := toS value.family value.addr
    .inl (if value.prefixLen ≠ defaultPrefix then s ++ slash :: decimal value.prefixLen else s)
  | .inr value => .inr value

/-- An address without bits behind its prefix, as `IPAddr` keeps it. -/
structure Masked where
  family : Family
  addr : Nat
  len : Nat
  len_le : len ≤ family.bits
  addr_lt : addr < 2 ^ family.bits
  masked : 2 ^ (family.bits - len) ∣ addr

/-- The object. -/
def Masked.toIPAddr (ip : Masked) : IPAddr := ⟨ip.family, ip.addr, maskOf ip.family.bits ip.len⟩

section Numbers

theorem size_ones (k : Nat) : (2 ^ k - 1).size = k := by
  apply Nat.le_antisymm
  · exact Nat.size_le.2 (Nat.sub_lt (Nat.two_pow_pos k) Nat.one_pos)
  · cases k with
    | zero => exact Nat.zero_le _
    | succ k =>
      apply Nat.lt_size.2
      have positive : 0 < 2 ^ k := Nat.two_pow_pos k
      rw [Nat.pow_succ]
      omega

theorem ones_xor_maskOf {bits len : Nat} (inside : len ≤ bits) : (2 ^ bits - 1) ^^^ maskOf bits len = 2 ^ (bits - len) - 1 := by
  have positive : 0 < 2 ^ (bits - len) := Nat.two_pow_pos _
  have power : 2 ^ (bits - len) ≤ 2 ^ bits := Nat.pow_le_pow_right (by decide) (Nat.sub_le _ _)
  have complement : maskOf bits len = 2 ^ bits - (2 ^ (bits - len) - 1 + 1) := by
    unfold maskOf
    omega
  apply Nat.eq_of_testBit_eq
  intro i
  rw [Nat.testBit_xor, Nat.testBit_two_pow_sub_one, complement, Nat.testBit_two_pow_sub_succ (by omega),
    Nat.testBit_two_pow_sub_one]
  by_cases low : i < bits - len
  · have high : i < bits := by omega
    simp [low, high]
  · simp [low]

theorem prefixLen_toIPAddr (ip : Masked) : ip.toIPAddr.prefixLen = ip.len := by
  have inside := ip.len_le
  unfold IPAddr.prefixLen Masked.toIPAddr
  dsimp only
  rw [ones_xor_maskOf inside, size_ones]
  omega

/-- A number of two words. -/
theorem words_eq {a : Nat} (small : a < 2 ^ 128) : a / 256 ^ 8 % 256 ^ 8 * 2 ^ 64 + a % 256 ^ 8 = a := by
  have word : 256 ^ 8 = 2 ^ 64 := by decide
  have upper : a / 2 ^ 64 < 2 ^ 64 := Nat.div_lt_of_lt_mul small
  rw [word, Nat.mod_eq_of_lt upper]
  exact Nat.div_add_mod' a (2 ^ 64)

theorem number_bytesOf (af : Family) {a : Nat} (small : a < 2 ^ af.bits) : number af (bytesOf (af.bits / 8) a) = a := by
  cases af with
  | inet =>
    have whole : (bytesOf 4 a).take 4 = bytesOf 4 a := List.take_of_length_le (by simp)
    show readBytes 0 ((bytesOf 4 a).take 4) = a
    rw [whole, readBytes_bytesOf, Nat.zero_mul, Nat.zero_add]
    exact Nat.mod_eq_of_lt small
  | inet6 =>
    have halves : bytesOf 16 a = bytesOf 8 (a / 256 ^ 8) ++ bytesOf 8 a := bytesOf_add 8 8 a
    have front : (bytesOf 16 a).take 8 = bytesOf 8 (a / 256 ^ 8) := by
      rw [halves]
      exact List.take_left' (length_bytesOf 8 _)
    have back : ((bytesOf 16 a).drop 8).take 8 = bytesOf 8 a := by
      rw [halves, List.drop_left' (length_bytesOf 8 _)]
      exact List.take_of_length_le (by simp)
    show readBytes 0 ((bytesOf 16 a).take 8) * 2 ^ 64 + readBytes 0 (((bytesOf 16 a).drop 8).take 8) = a
    rw [front, back, readBytes_bytesOf, readBytes_bytesOf, Nat.zero_mul, Nat.zero_add, Nat.zero_add]
    exact words_eq small

end Numbers

section RoundTrip

variable {toS : Family → Nat → Bytes} {inetPton : Family → Bytes → Option Bytes} {char : UInt8 → Int}

theorem bits_le (af : Family) : af.bits ≤ 128 := by
  cases af with
  | inet => decide
  | inet6 => decide

theorem slash_notMem_decimal (n : Nat) : slash ∉ decimal n := fun member => absurd (isDigit_of_mem_decimal member) (by decide)

theorem dot_notMem_decimal (n : Nat) : dot ∉ decimal n := fun member => absurd (isDigit_of_mem_decimal member) (by decide)

/-- The prefix of a text that is written. -/
theorem cut_written {s : Bytes} {len : Nat} (two : 2 ≤ s.length) (small : len ≤ 128) :
    Cut (s ++ slash :: decimal len) s (decimal len) where
  whole := rfl
  long := by
    have some := List.length_pos_of_ne_nil (decimal_ne_nil len)
    rw [List.length_append, List.length_cons]
    omega
  some := decimal_ne_nil len
  short := (length_decimal_le (by decide)).2 (by omega)
  nearest member := slash_notMem_decimal len (List.dropLast_subset _ member)

/-- What the decoder cuts off a text that is written. -/
theorem cutMask_text (ascii : ∀ c, c.toNat < 128 → char c = c.toNat) (texts : StandardTexts toS inetPton) (ip : Masked) :
    ∃ val, encode toS (.inl ip.toIPAddr : IPAddr ⊕ Unit) = .inl val ∧ val.length < 64 ∧
      (cutMask char val).1 = toS ip.family ip.addr ∧ lengthOf ip.family.bits (cutMask char val).2 = some ip.len ∧
      (dot ∈ val ↔ dot ∈ toS ip.family ip.addr) ∧ nul ∉ val := by
  have small := bits_le ip.family
  have inside := ip.len_le
  obtain ⟨two, short⟩ := texts.length ip.family ip.addr ip.addr_lt
  obtain ⟨noSlash, noNul⟩ := texts.plain ip.family ip.addr ip.addr_lt
  have length := prefixLen_toIPAddr ip
  unfold encode
  dsimp only
  rw [length]
  show ∃ val, Sum.inl (if ip.len ≠ ip.family.bits then toS ip.family ip.addr ++ slash :: decimal ip.len
    else toS ip.family ip.addr) = Sum.inl val ∧ _
  by_cases all : ip.len = ip.family.bits
  · rw [if_neg (not_not.2 all)]
    refine ⟨_, rfl, by omega, ?_⟩
    have whole : cutMask char (toS ip.family ip.addr) = (toS ip.family ip.addr, -1) := by
      rcases cutMask_cases char (toS ip.family ip.addr) with ⟨addr, suffix, cut, -⟩ | ⟨-, none⟩
      · rw [cut.whole] at noSlash
        exact absurd (by simp) noSlash
      · exact none
    rw [whole]
    refine ⟨rfl, ?_, Iff.rfl, noNul⟩
    rw [all]
    exact if_pos rfl
  · have cut := @cut_written (toS ip.family ip.addr) ip.len two (by omega)
    have value := suffixValue_digits ascii (fun d member => @isDigit_of_mem_decimal ip.len d member)
    rw [readDigits_decimal] at value
    have digits := cut.short
    rw [if_pos all]
    refine ⟨_, rfl, ?_, ?_⟩
    · rw [List.length_append, List.length_cons]
      omega
    rw [cut.mask, value]
    refine ⟨rfl, ?_, ?_, ?_⟩
    · unfold lengthOf
      rw [if_neg (by omega), if_pos (by omega), Int.toNat_natCast]
    · have other : dot ≠ slash := by decide
      simp [dot_notMem_decimal, other]
    · simp only [List.mem_append, List.mem_cons, not_or]
      exact ⟨noNul, by decide, Text.nul_notMem_decimal ip.len⟩

/-- **Inet values** come back if, and only if, they are not written as IPv6 addresses with a dotted tail. -/
theorem inet_round_trip_iff (ascii : ∀ c, c.toNat < 128 → char c = c.toNat) (texts : StandardTexts toS inetPton)
    (useIpaddrAlloc : Bool) (tuple field : Int) (ip : Masked) :
    (∃ val, encode toS (.inl ip.toIPAddr : IPAddr ⊕ Unit) = .inl val ∧
      pgTextDecInet char inetPton useIpaddrAlloc tuple field val = .ok ip.toIPAddr) ↔
      ¬(ip.family = .inet6 ∧ DottedTail ip.addr) := by
  obtain ⟨text, encoded, short, address, length, dots, noNul⟩ := cutMask_text ascii texts ip
  obtain ⟨-, plain⟩ := texts.plain ip.family ip.addr ip.addr_lt
  have addressText : cString (cutMask char text).1 = toS ip.family ip.addr := by
    rw [address]
    exact cString_of_notMem plain
  have family : familyOf text = if ip.family = .inet ∨ DottedTail ip.addr then .inet else .inet6 := by
    unfold familyOf
    rw [cString_of_notMem noNul]
    simp only [dots, texts.dotted ip.family ip.addr ip.addr_lt]
  constructor
  · rintro ⟨val, same, run⟩ ⟨six, dotted⟩
    rw [encoded] at same
    cases same
    rw [if_pos (.inr dotted)] at family
    have small : ip.addr < 2 ^ 128 := by
      have bound := ip.addr_lt
      rwa [six] at bound
    have refused : inetPton (familyOf text) (cString (cutMask char text).1) = none := by
      rw [family, addressText, six]
      exact texts.refuses ip.addr small
    obtain ⟨msg, error⟩ := @pgTextDecInet_refuses char inetPton useIpaddrAlloc tuple field text (.inr (.inl refused))
    rw [error] at run
    cases run
  · intro undotted
    refine ⟨text, encoded, ?_⟩
    have family' : familyOf text = ip.family := by
      rw [family]
      cases four : ip.family with
      | inet => exact if_pos (.inl rfl)
      | inet6 =>
        apply if_neg
        rintro (other | dotted)
        · cases other
        · exact undotted ⟨four, dotted⟩
    have parsed : inetPton (familyOf text) (cString (cutMask char text).1) = some (bytesOf (ip.family.bits / 8) ip.addr) := by
      rw [family', addressText]
      exact texts.parses ip.family ip.addr ip.addr_lt
    have run := @pgTextDecInet_eq char inetPton useIpaddrAlloc tuple field text _ ip.len short parsed
    rw [family', number_bytesOf ip.family ip.addr_lt] at run
    have kept : truncated ip.addr (ip.family.bits - ip.len) = ip.addr := Nat.div_mul_cancel ip.masked
    rw [kept] at run
    exact run length

/-- `1.2.3.0/24`. -/
def network : Masked := ⟨.inet, 0x01020300, 24, by decide, by decide, by decide⟩

theorem inet_round_trip_network :
    ∃ val, encode toText (.inl network.toIPAddr : IPAddr ⊕ Unit) = .inl val ∧
      pgTextDecInet signedChar ofText true (-1) (-1) val = .ok network.toIPAddr :=
  (inet_round_trip_iff signedChar_ascii standardTexts true (-1) (-1) network).2 fun six => by cases six.1

/-- `::ffff:1.2.3.4`. -/
def mappedAddress : Masked := ⟨.inet6, 0xffff01020304, 128, by decide, by decide, by decide⟩

/-- `inet_pton` is asked for an IPv4 address. -/
theorem mapped_refused :
    ∃ val, StandardTexts toText ofText ∧ encode toText (.inl mappedAddress.toIPAddr : IPAddr ⊕ Unit) = .inl val ∧
      pgTextDecInet signedChar ofText true (-1) (-1) val ≠ .ok mappedAddress.toIPAddr := by
  refine ⟨[0x3a, 0x3a, 0x66, 0x66, 0x66, 0x66, 0x3a, 0x31, 0x2e, 0x32, 0x2e, 0x33, 0x2e, 0x34], standardTexts, ?_, ?_⟩
  · unfold encode
    dsimp only
    rw [prefixLen_toIPAddr]
    rfl
  · intro run
    obtain ⟨msg, error⟩ := @pgTextDecInet_refuses signedChar ofText true (-1) (-1)
      [0x3a, 0x3a, 0x66, 0x66, 0x66, 0x66, 0x3a, 0x31, 0x2e, 0x32, 0x2e, 0x33, 0x2e, 0x34] (.inr (.inl (by decide)))
    rw [error] at run
    cases run

end RoundTrip

end RubyPg.Inet
