import RubyPg.Text.Date
import RubyPg.Binary.Date

/-!
# Text and binary dates

Both decoders applied to what the server sends for one date. The binary one knows all dates the
server can store; the text one takes years of exactly four digits only and returns the text of all
others, so that the two agree on the infinities and on the years from 1 to 9999.
-/

namespace RubyPg
set_option autoImplicit false
open Text Binary

namespace StoredDate

/-- The text form of the server. -/
def text : StoredDate → Bytes
  | infinity => "infinity".toUTF8.toList
  | negInfinity => "-infinity".toUTF8.toList
  | day number _ _ => dateText (calendarDate number)

/-- The number that the server sends in binary format. -/
def number : StoredDate → Int
  | infinity => pgInt32Max
  | negInfinity => pgInt32Min
  | day number _ _ => number

/-- The binary form of the server. -/
def binary (date : StoredDate) : Bytes := writeNbo 4 date.number

/-- The year, if there is one, is written with four digits and without an era. -/
def FourDigits : StoredDate → Prop
  | day number _ _ => 1 ≤ (calendarDate number).year ∧ (calendarDate number).year ≤ 9999
  | _ => True

end StoredDate

theorem readNbo_number (date : StoredDate) : readNbo date.binary = date.number := by
  have size : ((256 ^ 4 : Nat) : Int) = 4294967296 := by decide
  cases date with
  | infinity => decide
  | negInfinity => decide
  | day number low high =>
    apply readNbo_writeNbo
    · show -((256 ^ 4 : Nat) : Int) ≤ number * 2
      omega
    · show number * 2 < ((256 ^ 4 : Nat) : Int)
      omega

/-- **The binary decoder knows every date.** -/
theorem pgBinDecDate_day {number : Int} (low : -2451545 ≤ number) (high : number ≤ 2145031948) :
    pgBinDecDate (StoredDate.day number low high).binary = .ok (calendarDate number).value := by
  obtain ⟨jd, julian⟩ := Int.eq_ofNat_of_zero_le (show 0 ≤ number + postgresEpochJdate by unfold postgresEpochJdate; omega)
  have bound : jd ≤ 2147483493 := by
    unfold postgresEpochJdate at julian
    omega
  have day : (jd : Int) - 2440588 = number + 10957 := by
    unfold postgresEpochJdate at julian
    omega
  unfold pgBinDecDate
  rw [readNbo_number, StoredDate.binary, length_writeNbo, if_neg (not_not.2 rfl)]
  dsimp only [StoredDate.number]
  rw [if_neg (by unfold pgInt32Max; omega), if_neg (by unfold pgInt32Min; omega), julian,
    if_neg (by unfold pgInt32Max; omega), j2date_eq bound, day]
  exact (Date.ofDayNumber_valid (number + 10957)).dateNew

/-- Both decoders have the infinities as texts. -/
theorem dateDecode_infinite {string : Bytes} (length : string.length ≠ 10) : dateDecode string = .ok (.str string) := by
  unfold dateDecode
  rw [dateFields_none length]
  rfl

theorem pgBinDecDate_infinity : pgBinDecDate StoredDate.infinity.binary = .ok (.str StoredDate.infinity.text) := by
  unfold pgBinDecDate
  rw [readNbo_number, StoredDate.binary, length_writeNbo, if_neg (not_not.2 rfl)]
  exact if_pos rfl

theorem pgBinDecDate_negInfinity :
    pgBinDecDate StoredDate.negInfinity.binary = .ok (.str StoredDate.negInfinity.text) := by
  unfold pgBinDecDate
  rw [readNbo_number, StoredDate.binary, length_writeNbo, if_neg (not_not.2 rfl)]
  dsimp only [StoredDate.number]
  rw [if_neg (by decide)]
  exact if_pos rfl

/-- **The date decoders agree** exactly on the infinities and on the years from 1 to 9999. -/
theorem date_decoders_agree_iff (date : StoredDate) :
    dateDecode date.text = pgBinDecDate date.binary ↔ date.FourDigits := by
  cases date with
  | infinity =>
    rw [pgBinDecDate_infinity]
    exact iff_of_true (dateDecode_infinite (by decide +kernel)) trivial
  | negInfinity =>
    rw [pgBinDecDate_negInfinity]
    exact iff_of_true (dateDecode_infinite (by decide +kernel)) trivial
  | day number low high =>
    rw [pgBinDecDate_day]
    constructor
    · intro agree
      by_contra outside
      have year : (calendarDate number).year < 1 ∨ 9999 < (calendarDate number).year := by
        unfold StoredDate.FourDigits at outside
        omega
      have text : dateDecode (StoredDate.day number low high).text = _ := dateDecode_dateText_str year
      rw [text] at agree
      cases agree
    · rintro ⟨first, last⟩
      exact dateDecode_dateText (Date.ofDayNumber_valid (number + 10957)) first last

/-- The first day of the year 10000. -/
theorem date_decoders_disagree :
    dateDecode (StoredDate.day 2921940 (by decide) (by decide)).text =
        .ok (.str (StoredDate.day 2921940 (by decide) (by decide)).text) ∧
      pgBinDecDate (StoredDate.day 2921940 (by decide) (by decide)).binary = .ok (.date 10000 1 1) := by
  constructor
  · rfl
  · rw [pgBinDecDate_day]
    rfl

end RubyPg
