import RubyPg.Value
import RubyPg.Lib.Calendar

/-!
# Ruby dates

`Date.new(year, month, day, Date::GREGORIAN)`. Negative months and days count from the end of the
year or month; what the calendar does not have raises a `Date::Error`, a kind of `ArgumentError`.
-/

namespace RubyPg
set_option autoImplicit false

/-- The dates PostgreSQL can store: days since 2000-01-01, from 4714-11-24 BC to 5874897-12-31,
and the two infinities. -/
inductive StoredDate where
  | infinity
  | negInfinity
  | day (number : Int) (low : -2451545 ≤ number) (high : number ≤ 2145031948)

/-- The calendar date of a day since 2000-01-01. -/
def calendarDate (number : Int) : Date := Date.ofDayNumber (number + 10957)

/-- `Date.new` in the proleptic Gregorian calendar. -/
def dateNew (year month day : Int) : Outcome Value :=
  let m := if month < 0 then month + 13 else month
  let last := Date.monthLength year m.toNat
  let d := if day < 0 then last + day + 1 else day
  if 1 ≤ m ∧ m ≤ 12 ∧ 1 ≤ d ∧ d ≤ last then pure (.date year m d) else rbRaise .argumentError "invalid date"

/-- A date as a Ruby object. -/
def Date.value (date : Date) : Value := .date date.year date.month date.day

/-- `Date.new` takes every date the calendar has. -/
theorem Date.Valid.dateNew {date : Date} (valid : date.Valid) :
    dateNew date.year date.month date.day = .ok date.value := by
  obtain ⟨low, high, positive, inside⟩ := valid
  have month : ¬(date.month : Int) < 0 := by omega
  have day : ¬date.day < 0 := by omega
  unfold RubyPg.dateNew
  simp only [if_neg month, if_neg day, Int.toNat_natCast]
  rw [if_pos ⟨by omega, by omega, positive, inside⟩]
  rfl

end RubyPg
