import RubyPg.Lib.Nbo
import RubyPg.Value
import Mathlib.Tactic.Ring

/-!
# `PG::TextDecoder::Inet`

`pg_text_dec_inet` of `ext/pg_text_decoder.c` cuts the prefix length off the end of the string, leaves the
address to `inet_pton`, and clears the bits behind the prefix in halves of 64 bits. The shifts are undefined
outside a word, and so is an index outside the tables of masks; neither ever happens (`pgTextDecInet_eq`).
-/

namespace RubyPg.Inet
set_option autoImplicit false
open Ascii

abbrev slash : UInt8 := 0x2f

/-- `Socket::AF_INET` and `Socket::AF_INET6`. -/
inductive Family where
  | inet | inet6
deriving DecidableEq, Repr

/-- The bits of an address. -/
def Family.bits : Family → Nat
  | .inet => 32
  | .inet6 => 128

/-- The name in the messages. -/
def Family.name : Family → String
  | .inet => "IPv4"
  | .inet6 => "IPv6"

/-- The instance variables of an `IPAddr`. -/
structure IPAddr where
  family : Family
  addr : Nat
  maskAddr : Nat
deriving DecidableEq, Repr

/-- `s_vmasks4` and `s_vmasks6`, from the last element down: `a[i] = a[i+1] - (1 << (bits - 1 - i))`. -/
def vmaskDownto (bits : Nat) : Nat → Nat
  | 0 => 2 ^ bits - 1
  | k + 1 =>
    let i := bits - (k + 1)
    vmaskDownto bits k - 1 <<< (bits - 1 - i)

/-- `s_vmasks4` and `s_vmasks6`. -/
def vmasks (bits : Nat) : List Nat := 0 :: (List.range bits).map fun i => vmaskDownto bits (bits - (i + 1))

/-- `RARRAY_AREF`. -/
def rarrayAref (a : List Nat) (i : Int) : Outcome Nat :=
  match if i < 0 then none else a[i.toNat]? with
  | some value => pure value
  | none => .error .undefined

/-- `1ULL << n`. -/
def shiftOne (n : Int) : Outcome UInt64 := if 0 ≤ n ∧ n < 64 then pure (1 <<< n.toNat.toUInt64) else .error .undefined

/-- `native & ~((1ULL << n) - 1)`. -/
def clearBelow (native : UInt64) (n : Int) : Outcome UInt64 := do
  let bit ← shiftOne n
  pure (native &&& ~~~(bit - 1))

/-- The bits of an IPv4 address in front of the mask. -/
def maskInet (native : UInt64) (mask : Int) : Outcome UInt64 :=
  if mask = 0 then pure 0
  else if mask = 32 then pure native
  else clearBelow native (32 - mask)

/-- The bits of an IPv6 address in front of the mask. -/
def maskInet6 (native1 native2 : UInt64) (mask : Int) : Outcome (UInt64 × UInt64) :=
  if mask = 128 then pure (native1, native2)
  else if mask = 64 then pure (native1, 0)
  else if mask = 0 then pure (0, 0)
  else if mask < 64 then do
    let native1 ← clearBelow native1 (64 - mask)
    pure (native1, 0)
  else do
    let native2 ← clearBelow native2 (128 - mask)
    pure (native1, native2)

/-- The address as an Integer: `read_nbo32`, or twice `read_nbo64`. -/
def ipInt (af : Family) (dst : Bytes) (mask : Int) : Outcome Nat :=
  match af with
  | .inet => do
    let native ← maskInet (readBytes 0 (dst.take 4)).toUInt64 mask
    pure native.toNat
  | .inet6 => do
    let (native1, native2) ← maskInet6 (readBytes 0 (dst.take 8)).toUInt64 (readBytes 0 ((dst.drop 8).take 8)).toUInt64 mask
    pure (native1.toNat <<< 64 + native2.toNat)

/-- `IPAddr#mask`. -/
def IPAddr.mask (ip : IPAddr) (prefixlen : Int) : Outcome IPAddr :=
  if prefixlen < 0 ∨ ip.family.bits < prefixlen then rbRaise .argumentError s!"invalid length: {ip.addr}"
  else
    let masklen := ip.family.bits - prefixlen.toNat
    pure ⟨ip.family, ip.addr >>> masklen <<< masklen, (2 ^ ip.family.bits - 1) >>> masklen <<< masklen⟩

/-- The new object, with its instance variables set directly, or by `IPAddr.new(ip_int, af).mask(mask)`. -/
def newIPAddr (useIpaddrAlloc : Bool) (af : Family) (ipInt : Nat) (mask : Int) : Outcome IPAddr :=
  if useIpaddrAlloc then do
    let maskAddr ← rarrayAref (vmasks af.bits) mask
    pure ⟨af, ipInt, maskAddr⟩
  else IPAddr.mask ⟨af, ipInt, 2 ^ af.bits - 1⟩ mask

section Decoder

variable (char : UInt8 → Int) (inetPton : Family → Bytes → Option Bytes)

/-- The mask from the end of the string, and the address in front of it; -1 is "no mask". -/
def cutMask (val : Bytes) : Bytes × Int :=
  let len := val.length
  let back (k : Nat) : UInt8 := val.getD (len - k) 0
  let digit (k : Nat) : Int := char (back k) - 48
  if len ≥ 4 then
    if back 2 = slash then (val.take (len - 2), digit 1)
    else if back 3 = slash then (val.take (len - 3), digit 2 * 10 + digit 1)
    else if back 4 = slash then (val.take (len - 4), digit 3 * 100 + digit 2 * 10 + digit 1)
    else (val, -1)
  else (val, -1)

/-- The mask in the range of the family. -/
def checkMask (af : Family) (mask : Int) : Outcome Int :=
  if mask = -1 then pure af.bits
  else if mask < 0 ∨ mask > af.bits then rbRaise .typeError s!"invalid mask for {af.name}: {mask}"
  else pure mask

/-- `strchr(val, '.') ? AF_INET : AF_INET6`. -/
def familyOf (val : Bytes) : Family := if dot ∈ cString val then .inet else .inet6

/-- `pg_text_dec_inet`. -/
def pgTextDecInet (useIpaddrAlloc : Bool) (tuple field : Int) (val : Bytes) : Outcome IPAddr := do
  let af := familyOf val
  if val.length ≥ 64 then
    rbRaise .typeError s!"too long data for text inet converter in tuple {tuple} field {field}"
  else do
    let (address, mask) := cutMask char val
    match inetPton af (cString address) with
    | none => rbRaise .typeError s!"wrong data for text inet converter in tuple {tuple} field {field} val"
    | some dst => do
      let mask ← checkMask af mask
      let ipInt ← ipInt af dst mask
      newIPAddr useIpaddrAlloc af ipInt mask

end Decoder

section Masks

/-- The bits from `k` on. -/
def truncated (n k : Nat) : Nat := n / 2 ^ k * 2 ^ k

theorem truncated_of_lt {n k : Nat} (small : n < 2 ^ k) : truncated n k = 0 := by
  unfold truncated
  rw [Nat.div_eq_of_lt small, Nat.zero_mul]

theorem truncated_zero (n : Nat) : truncated n 0 = n := by simp [truncated]

/-- In the lower of two words. -/
theorem truncated_low {h l w k : Nat} (inside : k ≤ w) : truncated (h * 2 ^ w + l) k = h * 2 ^ w + truncated l k := by
  obtain ⟨j, rfl⟩ := Nat.exists_eq_add_of_le inside
  have power : h * 2 ^ (k + j) = 2 ^ k * (h * 2 ^ j) := by
    rw [Nat.pow_add]
    ring
  unfold truncated
  rw [power, Nat.mul_add_div (Nat.two_pow_pos k)]
  ring

/-- In the upper of two words. -/
theorem truncated_high {h l w j : Nat} (word : l < 2 ^ w) : truncated (h * 2 ^ w + l) (w + j) = truncated h j * 2 ^ w := by
  have upper : (h * 2 ^ w + l) / 2 ^ w = h := by
    rw [Nat.mul_comm, Nat.mul_add_div (Nat.two_pow_pos w), Nat.div_eq_of_lt word, Nat.add_zero]
  unfold truncated
  rw [Nat.pow_add, ← Nat.div_div_eq_div_mul, upper]
  ring

theorem words_lt {h l w : Nat} (upper : h < 2 ^ w) (lower : l < 2 ^ w) : h * 2 ^ w + l < 2 ^ (w + w) := by
  have scaled : (h + 1) * 2 ^ w ≤ 2 ^ w * 2 ^ w := Nat.mul_le_mul_right _ upper
  rw [Nat.add_mul, Nat.one_mul] at scaled
  rw [Nat.pow_add]
  omega

/-- Clearing the low bits of a word. -/
theorem and_not_low {n w k : Nat} (word : n < 2 ^ w) (inside : k ≤ w) : n &&& (2 ^ w - 1 - (2 ^ k - 1)) = truncated n k := by
  have small : 2 ^ k - 1 < 2 ^ w := by
    have power : 2 ^ k ≤ 2 ^ w := Nat.pow_le_pow_right (by decide) inside
    have positive : 0 < 2 ^ k := Nat.two_pow_pos k
    omega
  have complement : 2 ^ w - 1 - (2 ^ k - 1) = 2 ^ w - (2 ^ k - 1 + 1) := by omega
  apply Nat.eq_of_testBit_eq
  intro i
  unfold truncated
  rw [Nat.testBit_and, complement, Nat.testBit_two_pow_sub_succ small, Nat.testBit_two_pow_sub_one, Nat.testBit_mul_two_pow,
    Nat.testBit_div_two_pow]
  by_cases above : k ≤ i
  · have index : i - k + k = i := by omega
    by_cases high : i < w
    · simp [above, high, index]
    · have zero : n.testBit i = false := Nat.testBit_lt_two_pow (word.trans_le (Nat.pow_le_pow_right (by decide) (by omega)))
      simp [high, index, zero]
  · simp [above]
    omega

theorem shiftOne_eq {k : Nat} (inside : k < 64) : shiftOne k = .ok (1 <<< k.toUInt64) := by
  unfold shiftOne
  rw [if_pos (by omega), Int.toNat_natCast]
  rfl

theorem clearBelow_eq {k : Nat} (inside : k < 64) (native : UInt64) :
    ∃ rest, clearBelow native k = .ok rest ∧ rest.toNat = truncated native.toNat k := by
  refine ⟨native &&& ~~~(1 <<< k.toUInt64 - 1), ?_, ?_⟩
  · unfold clearBelow
    rw [shiftOne_eq inside]
    rfl
  · have power : 2 ^ k < 2 ^ 64 := Nat.pow_lt_pow_right (by decide) inside
    have positive : 0 < 2 ^ k := Nat.two_pow_pos k
    have bit : (1 <<< k.toUInt64 - 1 : UInt64).toNat = 2 ^ k - 1 := by
      have amount : k.toUInt64.toNat % 64 = k := by
        rw [Nat.toUInt64, UInt64.toNat_ofNat']
        omega
      have shifted : (1 <<< k.toUInt64 : UInt64).toNat = 2 ^ k := by
        rw [UInt64.toNat_shiftLeft, amount, UInt64.toNat_one, Nat.one_shiftLeft]
        exact Nat.mod_eq_of_lt power
      rw [UInt64.toNat_sub_of_le _ _ (by rw [UInt64.le_iff_toNat_le, shifted]; exact positive), shifted]
      rfl
    rw [UInt64.toNat_and, UInt64.toNat_not, bit]
    exact and_not_low native.toNat_lt (by omega)

variable {mask : Int}

/-- The shift of an IPv4 address is inside a word. -/
theorem maskInet_eq {native : UInt64} (word : native.toNat < 2 ^ 32) (low : 0 ≤ mask) (high : mask ≤ 32) :
    ∃ rest, maskInet native mask = .ok rest ∧ rest.toNat = truncated native.toNat (32 - mask.toNat) := by
  unfold maskInet
  by_cases none : mask = 0
  · rw [if_pos none]
    refine ⟨0, rfl, ?_⟩
    rw [none]
    exact (truncated_of_lt word).symm
  by_cases all : mask = 32
  · rw [if_neg none, if_pos all]
    refine ⟨native, rfl, ?_⟩
    rw [all]
    exact (truncated_zero _).symm
  · have amount : 32 - mask = (32 - mask.toNat : Nat) := by omega
    rw [if_neg none, if_neg all, amount]
    exact clearBelow_eq (by omega) native

/-- Only one half of an IPv6 address is shifted. -/
theorem maskInet6_eq (native1 native2 : UInt64) (low : 0 ≤ mask) (high : mask ≤ 128) :
    ∃ rest, maskInet6 native1 native2 mask = .ok rest ∧
      rest.1.toNat * 2 ^ 64 + rest.2.toNat = truncated (native1.toNat * 2 ^ 64 + native2.toNat) (128 - mask.toNat) := by
  have word1 := native1.toNat_lt
  have word2 := native2.toNat_lt
  unfold maskInet6
  by_cases all : mask = 128
  · rw [if_pos all]
    refine ⟨_, rfl, ?_⟩
    rw [all]
    exact (truncated_zero _).symm
  by_cases half : mask = 64
  · rw [if_neg all, if_pos half]
    refine ⟨_, rfl, ?_⟩
    rw [half]
    have low64 : truncated native2.toNat 64 = 0 := truncated_of_lt word2
    exact ((truncated_low (le_refl 64)).trans (congrArg _ low64)).symm
  by_cases none : mask = 0
  · rw [if_neg all, if_neg half, if_pos none]
    have index : 128 - mask.toNat = 64 + 64 := by omega
    refine ⟨_, rfl, ?_⟩
    rw [index]
    exact (truncated_of_lt (words_lt word1 word2)).symm
  by_cases upper : mask < 64
  · have amount : 64 - mask = (64 - mask.toNat : Nat) := by omega
    have index : 128 - mask.toNat = 64 + (64 - mask.toNat) := by omega
    obtain ⟨rest, run, value⟩ := @clearBelow_eq (64 - mask.toNat) (by omega) native1
    rw [if_neg all, if_neg half, if_neg none, if_pos upper, amount, run]
    refine ⟨(rest, 0), rfl, ?_⟩
    simp only [index, truncated_high word2, value, UInt64.toNat_zero, Nat.add_zero]
  · have amount : 128 - mask = (128 - mask.toNat : Nat) := by omega
    obtain ⟨rest, run, value⟩ := @clearBelow_eq (128 - mask.toNat) (by omega) native2
    rw [if_neg all, if_neg half, if_neg none, if_neg upper, amount, run]
    refine ⟨(native1, rest), rfl, ?_⟩
    rw [truncated_low (by omega), value]

/-- The number in the bytes that `inet_pton` leaves. -/
def number (af : Family) (dst : Bytes) : Nat :=
  match af with
  | .inet => readBytes 0 (dst.take 4)
  | .inet6 => readBytes 0 (dst.take 8) * 2 ^ 64 + readBytes 0 ((dst.drop 8).take 8)

theorem readBytes_take_lt (dst : Bytes) {k : Nat} : readBytes 0 (dst.take k) < 256 ^ k :=
  (readBytes_lt _).trans_le (Nat.pow_le_pow_right (by decide) (List.length_take_le k dst))

theorem toNat_toUInt64 {n : Nat} (word : n < 2 ^ 64) : n.toUInt64.toNat = n := by
  rw [Nat.toUInt64, UInt64.toNat_ofNat']
  exact Nat.mod_eq_of_lt word

/-- The address without the bits behind the mask. -/
theorem ipInt_eq (af : Family) (dst : Bytes) (low : 0 ≤ mask) (high : mask ≤ af.bits) :
    ipInt af dst mask = .ok (truncated (number af dst) (af.bits - mask.toNat)) := by
  cases af with
  | inet =>
    have small : readBytes 0 (dst.take 4) < 2 ^ 32 := readBytes_take_lt dst
    have same := toNat_toUInt64 (n := readBytes 0 (dst.take 4)) (by omega)
    obtain ⟨rest, run, value⟩ := @maskInet_eq mask (readBytes 0 (dst.take 4)).toUInt64 (by omega) low high
    unfold ipInt
    dsimp only
    rw [run]
    rw [same] at value
    exact congrArg Except.ok value
  | inet6 =>
    have small1 : readBytes 0 (dst.take 8) < 2 ^ 64 := readBytes_take_lt dst
    have small2 : readBytes 0 ((dst.drop 8).take 8) < 2 ^ 64 := readBytes_take_lt _
    obtain ⟨rest, run, value⟩ := @maskInet6_eq mask (readBytes 0 (dst.take 8)).toUInt64
      (readBytes 0 ((dst.drop 8).take 8)).toUInt64 low high
    rw [toNat_toUInt64 small1, toNat_toUInt64 small2] at value
    unfold ipInt
    dsimp only
    rw [run]
    show Except.ok (rest.1.toNat <<< 64 + rest.2.toNat) = _
    rw [Nat.shiftLeft_eq, value]
    rfl

end Masks

section Objects

/-- The mask of a prefix. -/
def maskOf (bits len : Nat) : Nat := 2 ^ bits - 2 ^ (bits - len)

theorem vmaskDownto_eq {bits k : Nat} (inside : k < bits) : vmaskDownto bits k = 2 ^ bits - 2 ^ k := by
  induction k with
  | zero => rfl
  | succ k ih =>
    have index : bits - 1 - (bits - (k + 1)) = k := by omega
    unfold vmaskDownto
    dsimp only
    rw [ih (by omega), index, Nat.one_shiftLeft, Nat.pow_succ]
    omega

theorem rarrayAref_vmasks {bits len : Nat} (inside : len ≤ bits) : rarrayAref (vmasks bits) len = .ok (maskOf bits len) := by
  have element : (vmasks bits)[len]? = some (maskOf bits len) := by
    unfold vmasks maskOf
    cases len with
    | zero => simp
    | succ len =>
      rw [List.getElem?_cons_succ, List.getElem?_map, List.getElem?_range (by omega), Option.map_some,
        vmaskDownto_eq (by omega)]
  unfold rarrayAref
  rw [if_neg (by omega), Int.toNat_natCast, element]
  rfl

theorem maskOf_eq {bits len : Nat} (inside : len ≤ bits) :
    (2 ^ bits - 1) >>> (bits - len) <<< (bits - len) = maskOf bits len := by
  obtain ⟨k, rfl⟩ := Nat.exists_eq_add_of_le inside
  have rest : len + k - len = k := by omega
  have positive : 0 < 2 ^ k := Nat.two_pow_pos k
  have quotient : (2 ^ (len + k) - 1) / 2 ^ k = 2 ^ len - 1 := by
    apply Nat.div_eq_of_lt_le
    · rw [Nat.sub_mul, Nat.one_mul, ← Nat.pow_add]
      omega
    · rw [Nat.sub_add_cancel (Nat.two_pow_pos len), ← Nat.pow_add]
      exact Nat.sub_lt (Nat.two_pow_pos _) Nat.one_pos
  unfold maskOf
  rw [rest, Nat.shiftRight_eq_div_pow, Nat.shiftLeft_eq, quotient, Nat.sub_mul, Nat.one_mul, Nat.pow_add]

/-- Both ways to build the object give the same. -/
theorem newIPAddr_eq (useIpaddrAlloc : Bool) (af : Family) (addr : Nat) {len : Nat} (inside : len ≤ af.bits) :
    newIPAddr useIpaddrAlloc af (truncated addr (af.bits - len)) len =
      .ok ⟨af, truncated addr (af.bits - len), maskOf af.bits len⟩ := by
  unfold newIPAddr
  cases useIpaddrAlloc with
  | true =>
    rw [if_pos rfl, rarrayAref_vmasks inside]
    rfl
  | false =>
    rw [if_neg Bool.false_ne_true]
    unfold IPAddr.mask
    dsimp only
    rw [if_neg (by omega), Int.toNat_natCast, maskOf_eq inside, Nat.shiftRight_eq_div_pow, Nat.shiftLeft_eq]
    unfold truncated
    rw [Nat.mul_div_cancel _ (Nat.two_pow_pos _)]
    rfl

end Objects

section Decoder

variable {char : UInt8 → Int} {inetPton : Family → Bytes → Option Bytes} {useIpaddrAlloc : Bool} {tuple field : Int} {val : Bytes}

/-- The prefix length that a mask stands for, if it is one. -/
def lengthOf (bits : Nat) (mask : Int) : Option Nat :=
  if mask = -1 then some bits else if 0 ≤ mask ∧ mask ≤ bits then some mask.toNat else none

theorem lengthOf_le {bits len : Nat} {mask : Int} (found : lengthOf bits mask = some len) : len ≤ bits := by
  unfold lengthOf at found
  split at found
  · cases found
    exact le_rfl
  · split at found
    · cases found
      omega
    · cases found

theorem checkMask_eq (af : Family) (mask : Int) :
    checkMask af mask =
      match lengthOf af.bits mask with
      | some len => .ok (len : Int)
      | none => rbRaise .typeError s!"invalid mask for {af.name}: {mask}" := by
  unfold checkMask lengthOf
  by_cases given : mask = -1
  · rw [if_pos given, if_pos given]
    rfl
  by_cases inside : 0 ≤ mask ∧ mask ≤ af.bits
  · rw [if_neg given, if_neg (by omega), if_neg given, if_pos inside]
    show Except.ok mask = Except.ok (mask.toNat : Int)
    rw [Int.toNat_of_nonneg inside.1]
  · rw [if_neg given, if_pos (by omega), if_neg given, if_neg inside]

/-- What the decoder returns. -/
theorem pgTextDecInet_eq {dst : Bytes} {len : Nat} (short : val.length < 64)
    (parsed : inetPton (familyOf val) (cString (cutMask char val).1) = some dst)
    (found : lengthOf (familyOf val).bits (cutMask char val).2 = some len) :
    pgTextDecInet char inetPton useIpaddrAlloc tuple field val =
      .ok ⟨familyOf val, truncated (number (familyOf val) dst) ((familyOf val).bits - len), maskOf (familyOf val).bits len⟩ := by
  have inside := lengthOf_le found
  unfold pgTextDecInet
  dsimp only
  rw [if_neg (by omega), parsed]
  dsimp only
  rw [checkMask_eq, found]
  show (ipInt (familyOf val) dst len >>= fun ipInt => newIPAddr useIpaddrAlloc (familyOf val) ipInt len) = _
  rw [ipInt_eq _ _ (by omega) (by omega), Int.toNat_natCast]
  exact newIPAddr_eq useIpaddrAlloc _ _ inside

/-- Everything else is refused. -/
theorem pgTextDecInet_refuses
    (wrong : 64 ≤ val.length ∨ inetPton (familyOf val) (cString (cutMask char val).1) = none ∨
      lengthOf (familyOf val).bits (cutMask char val).2 = none) :
    ∃ msg, pgTextDecInet char inetPton useIpaddrAlloc tuple field val = .error (.exn .typeError msg) := by
  unfold pgTextDecInet
  dsimp only
  by_cases long : val.length ≥ 64
  · rw [if_pos long]
    exact ⟨_, rfl⟩
  rw [if_neg long]
  cases parsed : inetPton (familyOf val) (cString (cutMask char val).1) with
  | none => exact ⟨_, rfl⟩
  | some dst =>
    rw [parsed] at wrong
    have outside : lengthOf (familyOf val).bits (cutMask char val).2 = none := by
      rcases wrong with tooLong | none | outside
      · omega
      · cases none
      · exact outside
    dsimp only
    rw [checkMask_eq, outside]
    exact ⟨_, rfl⟩

end Decoder

end RubyPg.Inet
