import Mathlib.Data.FinEnum
import RubyPg.Date
import RubyPg.Text.TimestampForm

/-!
# Text dates

`PG::TextDecoder::Date#decode` of `lib/pg/text_decoder/date.rb`, and the server's text form of a
date with the ISO date style: the year with at least four digits, month and day with two, and `BC`
behind years before the first.
-/

namespace RubyPg.Text
set_option autoImplicit false
open Ascii

/-- The groups of `/\A(\d{4})-(\d\d)-(\d\d)\z/`. -/
def dateFields : Bytes → Option (Bytes × Bytes × Bytes)
  | [y1, y2, y3, y4, s1, m1, m2, s2, d1, d2] =>
    if (∀ c ∈ [y1, y2, y3, y4, m1, m2, d1, d2], IsDigit c) ∧ s1 = minus ∧ s2 = minus then
      some ([y1, y2, y3, y4], [m1, m2], [d1, d2])
    else none
  | _ => none

/-- `PG::TextDecoder::Date#decode`. -/
def dateDecode (string : Bytes) : Outcome Value :=
  match dateFields string with
  | some (year, month, day) => dateNew (readDigits 0 year) (readDigits 0 month) (readDigits 0 day)
  | none => pure (.str string)

/-- A date in the form of the server. -/
def dateText (date : Date) : Bytes :=
  yearText (if 0 < date.year then date.year else 1 - date.year).toNat ++ minus :: (digitsOf 2 date.month ++
    minus :: (digitsOf 2 date.day.toNat ++ if 0 < date.year then [] else [space, 0x42, 0x43]))

/-- Only texts of ten bytes match. -/
theorem dateFields_none {string : Bytes} (length : string.length ≠ 10) : dateFields string = none := by
  unfold dateFields
  split
  · exact absurd rfl length
  · rfl

theorem length_dateText {date : Date} : (dateText date).length =
    (yearText (if 0 < date.year then date.year else 1 - date.year).toNat).length + 6 +
      if 0 < date.year then 0 else 3 := by
  unfold dateText
  simp only [List.length_append, List.length_cons, length_digitsOf]
  split <;> rfl

/-- A year has at least four digits. -/
theorem length_yearText (year : Nat) : 4 ≤ (yearText year).length ∧ (10000 ≤ year → 5 ≤ (yearText year).length) := by
  unfold yearText
  split
  · rw [length_digitsOf]
    omega
  · rename_i large
    have more : ¬(decimal year).length ≤ 4 := mt (length_decimal_le (by decide)).1 (by omega)
    omega

/-- Years with more than four digits and years before the first are not decoded. -/
theorem dateDecode_dateText_str {date : Date} (outside : date.year < 1 ∨ 9999 < date.year) :
    dateDecode (dateText date) = .ok (.str (dateText date)) := by
  have none : dateFields (dateText date) = none := by
    apply dateFields_none
    rw [length_dateText]
    have length := length_yearText (if 0 < date.year then date.year else 1 - date.year).toNat
    split at length <;> split <;> omega
  unfold dateDecode
  rw [none]
  rfl

/-- The other ones are. -/
theorem dateDecode_dateText {date : Date} (valid : date.Valid) (low : 1 ≤ date.year) (high : date.year ≤ 9999) :
    dateDecode (dateText date) = .ok date.value := by
  obtain ⟨y, year⟩ := Int.eq_ofNat_of_zero_le (show 0 ≤ date.year by omega)
  obtain ⟨d, day⟩ := Int.eq_ofNat_of_zero_le (show 0 ≤ date.day by have positive := valid.day_pos; omega)
  have short := Int.le_trans valid.day_le (Date.monthLength_le date.year date.month)
  have text : dateText date = digitsOf 4 y ++ minus :: (digitsOf 2 date.month ++ minus :: digitsOf 2 d) := by
    have small : y < 10000 := by omega
    unfold dateText
    rw [if_pos (by omega), if_pos (by omega), year, day, Int.toNat_natCast, Int.toNat_natCast, yearText, if_pos small,
      List.append_nil]
  have fields : dateFields (dateText date) = some (digitsOf 4 y, digitsOf 2 date.month, digitsOf 2 d) := by
    rw [text]
    apply if_pos
    refine ⟨?_, rfl, rfl⟩
    intro c member
    have groups : c ∈ digitsOf 4 y ++ (digitsOf 2 date.month ++ digitsOf 2 d) := member
    rcases List.mem_append.1 groups with first | later
    · exact isDigit_of_mem_digitsOf first
    · rcases List.mem_append.1 later with second | third
      · exact isDigit_of_mem_digitsOf second
      · exact isDigit_of_mem_digitsOf third
  have month := valid.month_le
  have groups : ((readDigits 0 (digitsOf 4 y) : Nat) : Int) = date.year ∧
      ((readDigits 0 (digitsOf 2 date.month) : Nat) : Int) = date.month ∧
      ((readDigits 0 (digitsOf 2 d) : Nat) : Int) = date.day := by
    rw [readDigits_digitsOf, readDigits_digitsOf, readDigits_digitsOf]
    omega
  unfold dateDecode
  rw [fields, ← valid.dateNew, ← groups.1, ← groups.2.1, ← groups.2.2]

end RubyPg.Text
