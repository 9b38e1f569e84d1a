import RubyPg.Text.Inet
import RubyPg.Text.Integer
import Mathlib.Data.List.Basic
import Mathlib.Data.List.GetD
import Mathlib.Data.List.Lemmas

/-!
# What the inet decoder accepts

A character of the prefix is turned into a number by subtracting `'0'`, whatever it is. So a string that ends in
`//` has the mask -1, which stands for no mask, and `/1/` is a prefix of 9. Other than that the decoder accepts
only an address of `inet_pton`, alone or with a prefix length of up to three digits, and raises `TypeError` for
everything else (`refuses_malformed_iff`).
-/

namespace RubyPg.Inet
set_option autoImplicit false
open Ascii

/-- An address, alone or with a prefix length. -/
def WellFormed (inetPton : Family → Bytes → Option Bytes) (val : Bytes) : Prop :=
  ∃ af, inetPton af val ≠ none ∨
    ∃ addr digits, val = addr ++ slash :: digits ∧ inetPton af addr ≠ none ∧ digits ≠ [] ∧ digits.length ≤ 3 ∧
      (∀ d ∈ digits, IsDigit d) ∧ readDigits 0 digits ≤ af.bits

/-- An address is returned for such a string only, and otherwise `TypeError` is raised. -/
inductive Refuses (inetPton : Family → Bytes → Option Bytes) (val : Bytes) : Outcome IPAddr → Prop where
  | accepted (ip : IPAddr) (wellFormed : WellFormed inetPton val) : Refuses inetPton val (.ok ip)
  | refused (msg : String) : Refuses inetPton val (.error (.exn .typeError msg))

/-- A `/` with one to three characters behind it, the nearest to the end. -/
structure Cut (val addr suffix : Bytes) : Prop where
  whole : val = addr ++ slash :: suffix
  long : 4 ≤ val.length
  some : suffix ≠ []
  short : suffix.length ≤ 3
  nearest : slash ∉ suffix.dropLast

/-- The sum that the characters of a suffix give, digits or not. -/
def suffixValue (char : UInt8 → Int) (suffix : Bytes) : Int := suffix.foldl (fun sum c => sum * 10 + (char c - 48)) 0

section Cutting

variable {char : UInt8 → Int} {val addr suffix : Bytes}

/-- The last four characters. -/
theorem last_four (long : 4 ≤ val.length) : ∃ front a b c d, val = front ++ [a, b, c, d] := by
  have length : (val.drop (val.length - 4)).length = 4 := by
    rw [List.length_drop]
    omega
  obtain ⟨a, b, c, d, last⟩ := List.length_eq_four.1 length
  refine ⟨val.take (val.length - 4), a, b, c, d, ?_⟩
  rw [← last, List.take_append_drop]

/-- The three places that are looked at. -/
theorem cutMask_last (front : Bytes) (a b c d : UInt8) :
    cutMask char (front ++ [a, b, c, d]) =
      if c = slash then (front ++ [a, b], suffixValue char [d])
      else if b = slash then (front ++ [a], suffixValue char [c, d])
      else if a = slash then (front, suffixValue char [b, c, d])
      else (front ++ [a, b, c, d], -1) := by
  have length : (front ++ [a, b, c, d]).length = front.length + 4 := by simp
  have byte : ∀ k, 1 ≤ k → k ≤ 4 → (front ++ [a, b, c, d]).getD (front.length + 4 - k) 0 = [a, b, c, d].getD (4 - k) 0 := by
    intro k _ _
    rw [List.getD_append_right _ _ _ _ (by omega)]
    congr 1
    omega
  have kept : ∀ k, k ≤ 4 → (front ++ [a, b, c, d]).take (front.length + 4 - k) = front ++ [a, b, c, d].take (4 - k) := by
    intro k _
    rw [Nat.add_sub_assoc (by omega), List.take_length_add_append]
  have back1 := byte 1 (by omega) (by omega)
  have back2 := byte 2 (by omega) (by omega)
  have back3 := byte 3 (by omega) (by omega)
  have back4 := byte 4 (by omega) (by omega)
  unfold cutMask suffixValue
  simp only [length, if_pos (Nat.le_add_left 4 front.length), ge_iff_le, back1, back2, back3, back4, kept 2 (by omega),
    kept 3 (by omega), kept 4 (by omega)]
  simp [Int.add_mul, Int.mul_assoc]

theorem cutMask_short (short : val.length < 4) : cutMask char val = (val, -1) := by
  unfold cutMask
  exact if_neg (by omega)

/-- Two ways to read the end of a string of the same length are the same. -/
theorem same_end {front back addr suffix : Bytes} (same : front ++ back = addr ++ slash :: suffix)
    (length : back.length = suffix.length + 1) : addr = front ∧ back = slash :: suffix := by
  obtain ⟨left, right⟩ := List.append_inj' same (by simpa using length)
  exact ⟨left.symm, right⟩

/-- The decoder cuts there, and nowhere else. -/
theorem cutMask_cases (char : UInt8 → Int) (val : Bytes) :
    (∃ addr suffix, Cut val addr suffix ∧ cutMask char val = (addr, suffixValue char suffix)) ∨
      (∀ addr suffix, ¬Cut val addr suffix) ∧ cutMask char val = (val, -1) := by
  by_cases long : 4 ≤ val.length
  · obtain ⟨front, a, b, c, d, rfl⟩ := last_four long
    rw [cutMask_last]
    by_cases second : c = slash
    · left
      rw [if_pos second]
      refine ⟨_, _, ⟨?_, long, List.cons_ne_nil _ _, by simp, by simp⟩, rfl⟩
      simp [second]
    by_cases third : b = slash
    · left
      rw [if_neg second, if_pos third]
      refine ⟨_, _, ⟨?_, long, List.cons_ne_nil _ _, by simp, by simp [Ne.symm second]⟩, rfl⟩
      simp [third]
    by_cases fourth : a = slash
    · left
      rw [if_neg second, if_neg third, if_pos fourth]
      refine ⟨_, _, ⟨?_, long, List.cons_ne_nil _ _, by simp, by simp [Ne.symm second, Ne.symm third]⟩, rfl⟩
      simp [fourth]
    · right
      rw [if_neg second, if_neg third, if_neg fourth]
      refine ⟨?_, rfl⟩
      rintro addr suffix ⟨whole, -, some, short, -⟩
      rcases suffix with _ | ⟨s1, _ | ⟨s2, _ | ⟨s3, _ | ⟨s4, rest⟩⟩⟩⟩
      · exact some rfl
      · obtain ⟨-, last⟩ := @same_end (front ++ [a, b]) [c, d] addr [s1] (by simpa using whole) rfl
        exact second (List.head_eq_of_cons_eq last)
      · obtain ⟨-, last⟩ := @same_end (front ++ [a]) [b, c, d] addr [s1, s2] (by simpa using whole) rfl
        exact third (List.head_eq_of_cons_eq last)
      · obtain ⟨-, last⟩ := @same_end front [a, b, c, d] addr [s1, s2, s3] whole rfl
        exact fourth (List.head_eq_of_cons_eq last)
      · simp only [List.length_cons] at short
        omega
  · right
    exact ⟨fun addr suffix cut => long cut.long, cutMask_short (by omega)⟩

/-- A string has at most one such end. -/
theorem Cut.mask (cut : Cut val addr suffix) : cutMask char val = (addr, suffixValue char suffix) := by
  obtain ⟨whole, long, some, short, nearest⟩ := cut
  obtain ⟨front, a, b, c, d, rfl⟩ := last_four long
  rw [cutMask_last]
  rcases suffix with _ | ⟨s1, _ | ⟨s2, _ | ⟨s3, _ | ⟨s4, rest⟩⟩⟩⟩
  · exact absurd rfl some
  · obtain ⟨rfl, last⟩ := @same_end (front ++ [a, b]) [c, d] addr [s1] (by simpa using whole) rfl
    cases last
    rw [if_pos rfl]
  · obtain ⟨rfl, last⟩ := @same_end (front ++ [a]) [b, c, d] addr [s1, s2] (by simpa using whole) rfl
    cases last
    have second : c ≠ slash := by
      rintro rfl
      simp at nearest
    rw [if_neg second, if_pos rfl]
  · obtain ⟨rfl, last⟩ := @same_end front [a, b, c, d] addr [s1, s2, s3] whole rfl
    cases last
    have second : c ≠ slash := by
      rintro rfl
      simp at nearest
    have third : b ≠ slash := by
      rintro rfl
      simp at nearest
    rw [if_neg second, if_neg third, if_pos rfl]
  · simp only [List.length_cons] at short
    omega

end Cutting

section Main

variable {char : UInt8 → Int} {inetPton : Family → Bytes → Option Bytes} {useIpaddrAlloc : Bool} {tuple field : Int}
  {val addr suffix : Bytes}

/-- The digits of a prefix length. -/
theorem suffixValue_digits (ascii : ∀ c, c.toNat < 128 → char c = c.toNat) {digits : Bytes} (all : ∀ d ∈ digits, IsDigit d) :
    suffixValue char digits = readDigits 0 digits := by
  have from_ : ∀ acc : Nat, digits.foldl (fun sum c => sum * 10 + (char c - 48)) (acc : Int) = readDigits acc digits := by
    induction digits with
    | nil => exact fun acc => rfl
    | cons d digits ih =>
      intro acc
      have digit := all d List.mem_cons_self
      have low : 48 ≤ d.toNat := UInt8.le_iff_toNat_le.1 digit.1
      have high : d.toNat ≤ 57 := UInt8.le_iff_toNat_le.1 digit.2
      have value : (acc : Int) * 10 + (char d - 48) = (acc * 10 + (d.toNat - 48) : Nat) := by
        rw [ascii d (by omega)]
        omega
      rw [List.foldl_cons, value, readDigits_cons]
      exact ih (fun c member => all c (List.mem_cons_of_mem _ member)) _
  exact from_ 0

theorem lengthOf_none {bits : Nat} {mask : Int} : lengthOf bits mask = none ↔ mask < -1 ∨ bits < mask := by
  unfold lengthOf
  split
  · simp
    omega
  · split
    · simp
      omega
    · simp
      omega

/-- Only digits can stand behind the `/` of a well-formed string. -/
theorem WellFormed.digits (plain : ∀ af s, slash ∈ s → inetPton af s = none) (wellFormed : WellFormed inetPton val)
    (whole : val = addr ++ slash :: suffix) : ∀ c ∈ suffix, IsDigit c := by
  obtain ⟨af, alone | ⟨addr', digits, whole', accepted, -, -, all, -⟩⟩ := wellFormed
  · exact absurd (plain af val (by simp [whole])) alone
  · have front : slash ∉ addr' := fun member => accepted (plain af addr' member)
    have back : slash ∉ digits := fun member => absurd (all slash member) (by decide)
    obtain ⟨-, -, rfl⟩ := (List.append_cons_inj_of_notMem front back).1 (whole'.symm.trans whole)
    exact all

/-- **Malformed text** is refused if, and only if, the nearest `/` is not followed by other characters than digits
that happen to give a mask in range, or -1, behind an address of `inet_pton`. -/
theorem refuses_malformed_iff (ascii : ∀ c, c.toNat < 128 → char c = c.toNat)
    (plain : ∀ af s, slash ∈ s → inetPton af s = none) (terminated : nul ∉ val) :
    Refuses inetPton val (pgTextDecInet char inetPton useIpaddrAlloc tuple field val) ↔
      (val.length < 64 → ∀ addr suffix, Cut val addr suffix → (∀ c ∈ suffix, IsDigit c) ∨
        inetPton (familyOf val) addr = none ∨ suffixValue char suffix < -1 ∨ (familyOf val).bits < suffixValue char suffix) := by
  have addressText : ∀ {addr suffix}, val = addr ++ slash :: suffix → cString addr = addr := by
    rintro addr suffix rfl
    exact cString_of_notMem fun member => terminated (List.mem_append_left _ member)
  constructor
  · intro refuses short addr suffix cut
    by_contra accepted
    obtain ⟨other, accepted⟩ := not_or.1 accepted
    obtain ⟨parsed, inside⟩ := not_or.1 accepted
    obtain ⟨dst, parsed⟩ := Option.ne_none_iff_exists'.1 parsed
    have text := addressText cut.whole
    cases found : lengthOf (familyOf val).bits (suffixValue char suffix) with
    | none => exact inside (lengthOf_none.1 found)
    | some len =>
      have run := @pgTextDecInet_eq char inetPton useIpaddrAlloc tuple field val dst len short
      rw [cut.mask, text] at run
      rw [run parsed found] at refuses
      cases refuses with
      | accepted _ wellFormed => exact other (wellFormed.digits plain cut.whole)
  · intro clean
    by_cases refused : 64 ≤ val.length ∨ inetPton (familyOf val) (cString (cutMask char val).1) = none ∨
        lengthOf (familyOf val).bits (cutMask char val).2 = none
    · obtain ⟨msg, run⟩ := @pgTextDecInet_refuses char inetPton useIpaddrAlloc tuple field val refused
      rw [run]
      exact .refused msg
    obtain ⟨short, refused⟩ := not_or.1 refused
    obtain ⟨parsed, found⟩ := not_or.1 refused
    obtain ⟨dst, run⟩ := Option.ne_none_iff_exists'.1 parsed
    obtain ⟨len, inside⟩ := Option.ne_none_iff_exists'.1 found
    rw [pgTextDecInet_eq (by omega) run inside]
    apply Refuses.accepted
    rcases cutMask_cases char val with ⟨addr, suffix, cut, cutting⟩ | ⟨-, cutting⟩
    · rw [cutting] at parsed found
      rw [addressText cut.whole] at parsed
      rcases clean (by omega) addr suffix cut with digits | none | outside
      · have value := suffixValue_digits ascii digits
        have limit := mt lengthOf_none.2 found
        rw [value] at limit
        exact ⟨familyOf val, .inr ⟨addr, suffix, cut.whole, parsed, cut.some, cut.short, digits, by omega⟩⟩
      · exact absurd none parsed
      · exact absurd (lengthOf_none.2 outside) found
    · rw [cutting, cString_of_notMem terminated] at parsed
      exact ⟨familyOf val, .inl parsed⟩

/-- A `char` with sign. -/
def signedChar (c : UInt8) : Int := c.toInt8.toInt

theorem signedChar_ascii (c : UInt8) (ascii : c.toNat < 128) : signedChar c = c.toNat := by
  have all : ∀ n : Fin 128, signedChar (UInt8.ofNat n) = n.val := by decide +kernel
  have here := all ⟨c.toNat, ascii⟩
  rwa [UInt8.ofNat_toNat] at here

/-- An `inet_pton` that knows `1.2.3.4`. -/
def knowsOne (af : Family) (s : Bytes) : Option Bytes :=
  if af = .inet ∧ s = [0x31, 0x2e, 0x32, 0x2e, 0x33, 0x2e, 0x34] then some [1, 2, 3, 4] else none

theorem knowsOne_plain (af : Family) (s : Bytes) (cut : slash ∈ s) : knowsOne af s = none := by
  apply if_neg
  rintro ⟨-, rfl⟩
  exact absurd cut (by decide)

/-- `1.2.3.4/24`. -/
theorem refuses_malformed_digits :
    Refuses knowsOne [0x31, 0x2e, 0x32, 0x2e, 0x33, 0x2e, 0x34, 0x2f, 0x32, 0x34]
      (pgTextDecInet signedChar knowsOne true (-1) (-1) [0x31, 0x2e, 0x32, 0x2e, 0x33, 0x2e, 0x34, 0x2f, 0x32, 0x34]) := by
  apply (refuses_malformed_iff signedChar_ascii knowsOne_plain (by decide)).2
  intro _ addr suffix cut
  left
  have whole : [0x31, 0x2e, 0x32, 0x2e, 0x33, 0x2e, 0x34] ++ slash :: [0x32, 0x34] = addr ++ slash :: suffix := cut.whole
  obtain ⟨-, -, rfl⟩ := (List.append_cons_inj_of_notMem (by decide) (by decide)).1 whole
  intro c member
  simp only [List.mem_cons, List.not_mem_nil, or_false] at member
  rcases member with rfl | rfl
  · decide
  · decide

/-- `1.2.3.4//` has the mask -1. -/
theorem slashes_accepted :
    pgTextDecInet signedChar knowsOne true (-1) (-1) [0x31, 0x2e, 0x32, 0x2e, 0x33, 0x2e, 0x34, 0x2f, 0x2f] =
        .ok ⟨.inet, 0x01020304, 0xffffffff⟩ ∧
      ¬WellFormed knowsOne [0x31, 0x2e, 0x32, 0x2e, 0x33, 0x2e, 0x34, 0x2f, 0x2f] := by
  constructor
  · rfl
  · intro wellFormed
    have digits := @WellFormed.digits knowsOne _ [0x31, 0x2e, 0x32, 0x2e, 0x33, 0x2e, 0x34] [0x2f] knowsOne_plain wellFormed rfl
    exact absurd (digits 0x2f List.mem_cons_self) (by decide)

end Main

end RubyPg.Inet
