import RubyPg.Lib.Decimal
import RubyPg.Text.Inet
import Mathlib.Data.Nat.Digits.Defs
import Mathlib.Data.Nat.Digits.Lemmas

/-!
# Texts of addresses

What is assumed of `IPAddr#to_s` and `inet_pton` (`StandardTexts`), and a pair of functions that is so: dotted
numbers for IPv4, and for IPv6 all eight groups in hexadecimal, or a dotted tail behind `::` or `::ffff:`.
-/

namespace RubyPg.Inet
set_option autoImplicit false
open Ascii

/-- IPv6 addresses with an IPv4 address behind 96 bits: `::ffff:1.2.3.4` and `::1.2.3.4`. -/
def DottedTail (addr : Nat) : Prop := addr / 2 ^ 32 = 0xffff ∨ 2 ^ 16 ≤ addr ∧ addr < 2 ^ 32

instance (addr : Nat) : Decidable (DottedTail addr) := inferInstanceAs (Decidable (_ ∨ _))

/-- What is assumed of `IPAddr#to_s` and `inet_pton`. -/
structure StandardTexts (toS : Family → Nat → Bytes) (inetPton : Family → Bytes → Option Bytes) : Prop where
  length : ∀ af a, a < 2 ^ af.bits → 2 ≤ (toS af a).length ∧ (toS af a).length ≤ 45
  plain : ∀ af a, a < 2 ^ af.bits → slash ∉ toS af a ∧ nul ∉ toS af a
  dotted : ∀ af a, a < 2 ^ af.bits → (dot ∈ toS af a ↔ af = .inet ∨ DottedTail a)
  parses : ∀ af a, a < 2 ^ af.bits → inetPton af (toS af a) = some (bytesOf (af.bits / 8) a)
  refuses : ∀ a, a < 2 ^ 128 → inetPton .inet (toS .inet6 a) = none

section Quads

/-- Four dotted numbers. -/
def quadParts (a : Nat) : List Bytes :=
  [decimal (a / 256 ^ 3 % 256), decimal (a / 256 ^ 2 % 256), decimal (a / 256 ^ 1 % 256), decimal (a / 256 ^ 0 % 256)]

def quad (a : Nat) : Bytes := [dot].intercalate (quadParts a)

/-- Four dotted numbers, read. -/
def readQuad (s : Bytes) : Option Bytes :=
  match s.splitOn dot with
  | [a, b, c, d] =>
    if [a, b, c, d].all fun part => part.all fun c => decide (IsDigit c) then
      some [(readDigits 0 a).toUInt8, (readDigits 0 b).toUInt8, (readDigits 0 c).toUInt8, (readDigits 0 d).toUInt8]
    else none
  | _ => none

/-- A character that is in no part is not in between. -/
theorem notMem_intercalate {sep c : UInt8} {parts : List Bytes} (other : c ≠ sep) (none : ∀ part ∈ parts, c ∉ part) :
    c ∉ [sep].intercalate parts := by
  induction parts with
  | nil => simp
  | cons part parts ih =>
    have first := none part List.mem_cons_self
    cases parts with
    | nil => simpa using first
    | cons next parts =>
      have rest := ih fun p member => none p (List.mem_cons_of_mem _ member)
      rw [List.intercalate_cons_cons]
      simp only [List.mem_append, List.mem_singleton, not_or]
      exact ⟨⟨first, other⟩, rest⟩

theorem length_intercalate {sep : UInt8} {parts : List Bytes} {k : Nat} (short : ∀ part ∈ parts, part.length ≤ k) :
    ([sep].intercalate parts).length ≤ (k + 1) * parts.length := by
  induction parts with
  | nil => simp
  | cons part parts ih =>
    have first := short part List.mem_cons_self
    cases parts with
    | nil =>
      simp
      omega
    | cons next parts =>
      have rest := ih fun p member => short p (List.mem_cons_of_mem _ member)
      rw [List.intercalate_cons_cons, List.length_append, List.length_append, List.length_singleton, List.length_cons,
        Nat.mul_succ]
      omega

theorem quadParts_digits {a : Nat} {part : Bytes} (member : part ∈ quadParts a) : ∀ c ∈ part, IsDigit c := by
  unfold quadParts at member
  simp only [List.mem_cons, List.not_mem_nil, or_false] at member
  intro c inside
  rcases member with rfl | rfl | rfl | rfl
  · exact isDigit_of_mem_decimal inside
  · exact isDigit_of_mem_decimal inside
  · exact isDigit_of_mem_decimal inside
  · exact isDigit_of_mem_decimal inside

theorem splitOn_quad (a : Nat) : (quad a).splitOn dot = quadParts a := by
  apply List.splitOn_intercalate
  · intro part member inside
    exact absurd (quadParts_digits member dot inside) (by decide)
  · exact List.cons_ne_nil _ _

theorem readQuad_quad (a : Nat) : readQuad (quad a) = some (bytesOf 4 a) := by
  have digits : (quadParts a).all (fun part => part.all fun c => decide (IsDigit c)) = true := by
    apply List.all_eq_true.2
    intro part member
    apply List.all_eq_true.2
    intro c inside
    exact decide_eq_true (quadParts_digits member c inside)
  unfold readQuad
  rw [splitOn_quad]
  unfold quadParts at digits ⊢
  dsimp only
  rw [if_pos digits, readDigits_decimal, readDigits_decimal, readDigits_decimal, readDigits_decimal]
  rfl

/-- Only digits and dots are read. -/
theorem readQuad_none {s : Bytes} (member : colon ∈ s) : readQuad s = none := by
  have whole : [dot].intercalate (s.splitOn dot) = s := List.intercalate_splitOn dot
  unfold readQuad
  split
  · rename_i a b c d parts
    rw [if_neg]
    intro digits
    rw [parts] at whole
    rw [← whole] at member
    apply notMem_intercalate (by decide) _ member
    intro part inside colons
    have all := List.all_eq_true.1 (List.all_eq_true.1 digits part inside) colon colons
    exact absurd (of_decide_eq_true all) (by decide)
  · rfl

theorem quad_eq (a : Nat) : quad a = decimal (a / 256 ^ 3 % 256) ++ dot :: (decimal (a / 256 ^ 2 % 256) ++
    dot :: (decimal (a / 256 ^ 1 % 256) ++ dot :: decimal (a / 256 ^ 0 % 256))) := by
  unfold quad quadParts
  simp [List.intercalate_cons_cons]

theorem dot_mem_quad (a : Nat) : dot ∈ quad a := by
  rw [quad_eq]
  simp

theorem length_quad (a : Nat) : 2 ≤ (quad a).length ∧ (quad a).length ≤ 15 := by
  have small : ∀ n, (decimal (n % 256)).length ≤ 3 := by
    intro n
    apply (length_decimal_le (by decide)).2
    have bound := Nat.mod_lt n (show 0 < 256 by decide)
    omega
  have first := small (a / 256 ^ 3)
  have second := small (a / 256 ^ 2)
  have third := small (a / 256 ^ 1)
  have fourth := small (a / 256 ^ 0)
  rw [quad_eq]
  simp only [List.length_append, List.length_cons]
  omega

theorem notMem_quad {a : Nat} {c : UInt8} (noDigit : ¬IsDigit c) (noDot : c ≠ dot) : c ∉ quad a :=
  notMem_intercalate noDot fun _ member inside => noDigit (quadParts_digits member c inside)

end Quads

section Groups

/-- A hexadecimal digit. -/
def hexDigit (d : Nat) : UInt8 := if d < 10 then (48 + d).toUInt8 else (87 + d).toUInt8

def hexValue (c : UInt8) : Nat := if c < 58 then c.toNat - 48 else c.toNat - 87

/-- `%x`. -/
def hexGroup (n : Nat) : Bytes := if n = 0 then [zero] else (Nat.digits 16 n).reverse.map hexDigit

def readGroup (s : Bytes) : Nat := Nat.ofDigits 16 (s.reverse.map hexValue)

theorem hexValue_hexDigit {d : Nat} (small : d < 16) : hexValue (hexDigit d) = d := by
  have all : ∀ d : Fin 16, hexValue (hexDigit d) = d := by decide
  exact all ⟨d, small⟩

theorem hexDigit_digit {c : UInt8} (digit : IsDigit c) : hexDigit (c.toNat - 48) = c := by
  have low : 48 ≤ c.toNat := UInt8.le_iff_toNat_le.1 digit.1
  unfold hexDigit
  rw [if_pos digit.value_lt, Nat.add_sub_cancel' low]
  exact UInt8.ofNat_toNat

theorem readGroup_hexGroup (n : Nat) : readGroup (hexGroup n) = n := by
  unfold readGroup hexGroup
  by_cases none : n = 0
  · rw [if_pos none, none]
    rfl
  · have values : (Nat.digits 16 n).map (hexValue ∘ hexDigit) = Nat.digits 16 n := by
      have same : (Nat.digits 16 n).map (hexValue ∘ hexDigit) = (Nat.digits 16 n).map id := by
        apply List.map_congr_left
        intro d member
        exact hexValue_hexDigit (Nat.digits_lt_base (by decide) member)
      rw [same, List.map_id]
    rw [if_neg none, List.map_reverse, List.map_reverse, List.map_reverse, List.reverse_reverse, List.map_map, values,
      Nat.ofDigits_digits]

/-- The characters of a group. -/
theorem hexGroup_chars {n : Nat} {c : UInt8} (member : c ∈ hexGroup n) : ∃ d < 16, c = hexDigit d := by
  unfold hexGroup at member
  split at member
  · exact ⟨0, by decide, List.mem_singleton.1 member⟩
  · obtain ⟨d, inside, rfl⟩ := List.mem_map.1 member
    exact ⟨d, Nat.digits_lt_base (by decide) (List.mem_reverse.1 inside), rfl⟩

theorem notMem_hexGroup {n : Nat} {c : UInt8} (other : ∀ d < 16, c ≠ hexDigit d) : c ∉ hexGroup n := by
  intro member
  obtain ⟨d, small, same⟩ := hexGroup_chars member
  exact other d small same

theorem length_hexGroup {n : Nat} (small : n < 65536) : (hexGroup n).length ≤ 4 := by
  unfold hexGroup
  split
  · simp
  · rw [List.length_map, List.length_reverse]
    exact (Nat.digits_length_le_iff (by decide) n).2 small

end Groups

section Texts

/-- The parts between the colons. -/
def hexParts (a : Nat) : List Bytes :=
  if a / 2 ^ 32 = 0xffff then [[], [], [0x66, 0x66, 0x66, 0x66], quad a]
  else if 2 ^ 16 ≤ a ∧ a < 2 ^ 32 then [[], [], quad a]
  else (List.range 8).map fun i => hexGroup (a / 65536 ^ (7 - i) % 65536)

/-- `IPAddr#to_s`, without the abbreviation of zeros. -/
def toText : Family → Nat → Bytes
  | .inet, a => quad a
  | .inet6, a => [colon].intercalate (hexParts a)

/-- `inet_pton`, for these texts. -/
def ofText : Family → Bytes → Option Bytes
  | .inet, s => readQuad s
  | .inet6, s =>
    match s.splitOn colon with
    | [first, second, group, tail] =>
      if first = [] ∧ second = [] ∧ readGroup group = 0xffff then (readQuad tail).map (bytesOf 12 0xffff ++ ·) else none
    | [first, second, tail] => if first = [] ∧ second = [] then (readQuad tail).map (bytesOf 12 0 ++ ·) else none
    | groups => if groups.length = 8 then some (groups.flatMap fun group => bytesOf 2 (readGroup group)) else none

variable {a : Nat} {c : UInt8}

/-- A character that is not part of a number. -/
theorem notMem_hexParts (noHex : ∀ d < 16, c ≠ hexDigit d) (noDot : c ≠ dot) {part : Bytes} (member : part ∈ hexParts a) :
    c ∉ part := by
  have noDigit : ¬IsDigit c := by
    intro digit
    have small := digit.value_lt
    exact noHex (c.toNat - 48) (by omega) (hexDigit_digit digit).symm
  unfold hexParts at member
  split at member
  · simp only [List.mem_cons, List.not_mem_nil, or_false] at member
    rcases member with rfl | rfl | rfl | rfl
    · exact List.not_mem_nil
    · exact List.not_mem_nil
    · have letter : c ≠ 0x66 := noHex 15 (by decide)
      simp [letter]
    · exact notMem_quad noDigit noDot
  split at member
  · simp only [List.mem_cons, List.not_mem_nil, or_false] at member
    rcases member with rfl | rfl | rfl
    · exact List.not_mem_nil
    · exact List.not_mem_nil
    · exact notMem_quad noDigit noDot
  · obtain ⟨i, -, rfl⟩ := List.mem_map.1 member
    exact notMem_hexGroup noHex

theorem hexParts_ne_nil (a : Nat) : hexParts a ≠ [] := by
  unfold hexParts
  split
  · exact List.cons_ne_nil _ _
  split
  · exact List.cons_ne_nil _ _
  · simp

theorem splitOn_hexParts (a : Nat) : ([colon].intercalate (hexParts a)).splitOn colon = hexParts a := by
  apply List.splitOn_intercalate
  · intro part member
    exact notMem_hexParts (by decide) (by decide) member
  · exact hexParts_ne_nil a

theorem bytesOf_two_mod (n : Nat) : bytesOf 2 (n % 65536) = bytesOf 2 n := by
  have high : n % 65536 / 256 % 256 = n / 256 % 256 := by omega
  have low : n % 65536 / 1 % 256 = n / 1 % 256 := by omega
  show [(n % 65536 / 256 % 256).toUInt8, (n % 65536 / 1 % 256).toUInt8] = [(n / 256 % 256).toUInt8, (n / 1 % 256).toUInt8]
  rw [high, low]

/-- The groups are pairs of bytes. -/
theorem bytesOf_groups (m a : Nat) :
    (List.range m).flatMap (fun i => bytesOf 2 (a / 65536 ^ (m - 1 - i) % 65536)) = bytesOf (2 * m) a := by
  induction m with
  | zero => rfl
  | succ m ih =>
    have later : ∀ i ∈ List.range m, bytesOf 2 (a / 65536 ^ (m + 1 - 1 - (i + 1)) % 65536) =
        bytesOf 2 (a / 65536 ^ (m - 1 - i) % 65536) := by
      intro i _
      rw [Nat.add_sub_cancel, Nat.sub_add_eq, Nat.sub_right_comm]
    have power : 256 ^ (2 * m) = 65536 ^ m := Nat.pow_mul 256 2 m
    rw [List.range_succ_eq_map, List.flatMap_cons, List.flatMap_map, List.flatMap_congr later, ih, Nat.sub_zero,
      Nat.add_sub_cancel, bytesOf_two_mod, ← power, ← bytesOf_add, Nat.mul_succ, Nat.add_comm]

theorem dot_mem_hexParts (a : Nat) : dot ∈ [colon].intercalate (hexParts a) ↔ DottedTail a := by
  have inQuad := dot_mem_quad a
  unfold hexParts DottedTail
  by_cases mapped : a / 2 ^ 32 = 0xffff
  · rw [if_pos mapped]
    refine iff_of_true ?_ (.inl mapped)
    simp [List.intercalate_cons_cons, inQuad]
  by_cases compatible : 2 ^ 16 ≤ a ∧ a < 2 ^ 32
  · rw [if_neg mapped, if_pos compatible]
    refine iff_of_true ?_ (.inr compatible)
    simp [List.intercalate_cons_cons, inQuad]
  · rw [if_neg mapped, if_neg compatible]
    refine iff_of_false ?_ (not_or.2 ⟨mapped, compatible⟩)
    apply notMem_intercalate (by decide)
    intro part member
    obtain ⟨i, -, rfl⟩ := List.mem_map.1 member
    exact notMem_hexGroup (by decide)

theorem colon_mem_hexParts (a : Nat) : colon ∈ [colon].intercalate (hexParts a) := by
  unfold hexParts
  split
  · simp [List.intercalate_cons_cons]
  split
  · simp [List.intercalate_cons_cons]
  · simp [List.range_succ, List.intercalate_cons_cons]

theorem length_hexParts (a : Nat) :
    2 ≤ ([colon].intercalate (hexParts a)).length ∧ ([colon].intercalate (hexParts a)).length ≤ 45 := by
  have tail := length_quad a
  unfold hexParts
  by_cases mapped : a / 2 ^ 32 = 0xffff
  · rw [if_pos mapped]
    simp [List.intercalate_cons_cons]
    omega
  by_cases compatible : 2 ^ 16 ≤ a ∧ a < 2 ^ 32
  · rw [if_neg mapped, if_pos compatible]
    simp [List.intercalate_cons_cons]
    omega
  · rw [if_neg mapped, if_neg compatible]
    constructor
    · simp [List.range_succ, List.intercalate_cons_cons]
      omega
    · have bound := @length_intercalate colon ((List.range 8).map fun i => hexGroup (a / 65536 ^ (7 - i) % 65536)) 4 ?_
      · simp at bound
        omega
      · intro part member
        obtain ⟨i, -, rfl⟩ := List.mem_map.1 member
        exact length_hexGroup (Nat.mod_lt _ (by decide))

theorem ofText_hexParts (a : Nat) : ofText .inet6 ([colon].intercalate (hexParts a)) = some (bytesOf 16 a) := by
  have halves : bytesOf 16 a = bytesOf 12 (a / 2 ^ 32) ++ bytesOf 4 a := bytesOf_add 12 4 a
  unfold ofText
  dsimp only
  rw [splitOn_hexParts]
  by_cases mapped : a / 2 ^ 32 = 0xffff
  · unfold hexParts
    rw [if_pos mapped]
    dsimp only
    rw [if_pos ⟨rfl, rfl, by decide⟩, readQuad_quad, halves, mapped]
    rfl
  by_cases compatible : 2 ^ 16 ≤ a ∧ a < 2 ^ 32
  · have zeros : a / 2 ^ 32 = 0 := Nat.div_eq_of_lt compatible.2
    unfold hexParts
    rw [if_neg mapped, if_pos compatible]
    dsimp only
    rw [if_pos ⟨rfl, rfl⟩, readQuad_quad, halves, zeros]
    rfl
  · have groups : hexParts a = (List.range 8).map fun i => hexGroup (a / 65536 ^ (7 - i) % 65536) := by
      unfold hexParts
      rw [if_neg mapped, if_neg compatible]
    have eight : (hexParts a).length = 8 := by
      rw [groups, List.length_map, List.length_range]
    split
    · rename_i parts
      rw [parts] at eight
      cases eight
    · rename_i parts
      rw [parts] at eight
      cases eight
    · have read : ∀ i ∈ List.range 8, bytesOf 2 (readGroup (hexGroup (a / 65536 ^ (7 - i) % 65536))) =
          bytesOf 2 (a / 65536 ^ (8 - 1 - i) % 65536) := by
        intro i _
        rw [readGroup_hexGroup]
      rw [if_pos eight, groups, List.flatMap_map, List.flatMap_congr read]
      exact congrArg some (bytesOf_groups 8 a)

theorem standardTexts : StandardTexts toText ofText where
  length af a small := by
    cases af with
    | inet =>
      have bound := length_quad a
      exact ⟨bound.1, by show (quad a).length ≤ 45; omega⟩
    | inet6 => exact length_hexParts a
  plain af a small := by
    cases af with
    | inet => exact ⟨notMem_quad (by decide) (by decide), notMem_quad (by decide) (by decide)⟩
    | inet6 =>
      constructor
      · exact notMem_intercalate (by decide) fun part member => notMem_hexParts (by decide) (by decide) member
      · exact notMem_intercalate (by decide) fun part member => notMem_hexParts (by decide) (by decide) member
  dotted af a small := by
    cases af with
    | inet => exact iff_of_true (dot_mem_quad a) (.inl rfl)
    | inet6 =>
      rw [or_iff_right (by decide)]
      exact dot_mem_hexParts a
  parses af a small := by
    cases af with
    | inet => exact readQuad_quad a
    | inet6 => exact ofText_hexParts a
  refuses a small := readQuad_none (colon_mem_hexParts a)

end Texts

end RubyPg.Inet
