import Mathlib.Data.List.Basic

/-!
# The proleptic Gregorian calendar

Dates and their day numbers, counted from 1970-01-01. `Date.dayNumber` counts the days in
front of a date, `Date.ofDayNumber` searches the year and then the month of a day.
-/

namespace RubyPg
set_option autoImplicit false

/-- A date; the year 0 is 1 BC. -/
structure Date where
  year : Int
  month : Nat
  day : Int
deriving DecidableEq, Repr

namespace Date

/-- Every fourth year, but of the centuries only every fourth. -/
def IsLeap (year : Int) : Prop := year % 4 = 0 ∧ (year % 100 ≠ 0 ∨ year % 400 = 0)

instance (year : Int) : Decidable (IsLeap year) := inferInstanceAs (Decidable (_ ∧ _))

def yearLength (year : Int) : Int := if IsLeap year then 366 else 365

def monthLength (year : Int) : Nat → Int
  | 1 => 31
  | 2 => if IsLeap year then 29 else 28
  | 3 => 31
  | 4 => 30
  | 5 => 31
  | 6 => 30
  | 7 => 31
  | 8 => 31
  | 9 => 30
  | 10 => 31
  | 11 => 30
  | 12 => 31
  | _ => 0

/-- The leap years from 1 to `year`, and less those from there to 0. -/
def leapsThrough (year : Int) : Int := year / 4 - year / 100 + year / 400

/-- The day number of January 1st. -/
def daysBeforeYear (year : Int) : Int := 365 * (year - 1970) + (leapsThrough (year - 1) - leapsThrough 1969)

/-- The days of the year in front of a month. -/
def daysBeforeMonth (year : Int) : Nat → Int
  | 0 => 0
  | 1 => 0
  | m + 1 => daysBeforeMonth year m + monthLength year m

/-- The number of a date, counted from 1970-01-01. -/
def dayNumber (date : Date) : Int :=
  daysBeforeYear date.year + daysBeforeMonth date.year date.month + (date.day - 1)

/-- The year of a day: a guess by the mean length of a year is off by one at most. -/
def yearOf (n : Int) : Int :=
  let guess := 1970 + n * 400 / 146097
  if n < daysBeforeYear guess then guess - 1 else if daysBeforeYear (guess + 1) ≤ n then guess + 1 else guess

/-- The month of a day of the year, and the day of the month, from the month `m` on. -/
def monthFrom (year : Int) (m : Nat) (doy : Int) : Nat → Nat × Int
  | 0 => (m, doy + 1)
  | fuel + 1 =>
    if doy < monthLength year m then (m, doy + 1) else monthFrom year (m + 1) (doy - monthLength year m) fuel

/-- The date of a day number. -/
def ofDayNumber (n : Int) : Date :=
  let year := yearOf n
  let (month, day) := monthFrom year 1 (n - daysBeforeYear year) 11
  { year, month, day }

/-- A date the calendar has. -/
structure Valid (date : Date) : Prop where
  month_pos : 1 ≤ date.month
  month_le : date.month ≤ 12
  day_pos : 1 ≤ date.day
  day_le : date.day ≤ monthLength date.year date.month

theorem daysBeforeYear_succ (year : Int) : daysBeforeYear (year + 1) = daysBeforeYear year + yearLength year := by
  have normal : year + 1 - 1 = year := Int.add_sub_cancel year 1
  unfold daysBeforeYear leapsThrough yearLength
  rw [normal]
  by_cases leap : IsLeap year
  · rw [if_pos leap]
    obtain ⟨four, hundred⟩ := leap
    omega
  · rw [if_neg leap]
    have plain : year % 4 ≠ 0 ∨ year % 100 = 0 ∧ year % 400 ≠ 0 := by
      unfold IsLeap at leap
      omega
    omega

/-- A year is 146097 / 400 days long, up to the position in the cycle. -/
theorem daysBeforeYear_bounds (year : Int) :
    146097 * (year - 1970) - 506 ≤ 400 * daysBeforeYear year ∧
      400 * daysBeforeYear year ≤ 146097 * (year - 1970) + 589 := by
  unfold daysBeforeYear leapsThrough
  omega

theorem yearOf_spec (n : Int) : daysBeforeYear (yearOf n) ≤ n ∧ n < daysBeforeYear (yearOf n + 1) := by
  have before := daysBeforeYear_bounds (1970 + n * 400 / 146097 - 1)
  have after := daysBeforeYear_bounds (1970 + n * 400 / 146097 + 1 + 1)
  have normal : 1970 + n * 400 / 146097 - 1 + 1 = 1970 + n * 400 / 146097 := Int.sub_add_cancel _ _
  unfold yearOf
  simp only
  split
  · rw [normal]
    omega
  · split <;> omega

/-- Years follow each other. -/
theorem daysBeforeYear_mono {y z : Int} (before : y ≤ z) : daysBeforeYear y ≤ daysBeforeYear z := by
  unfold daysBeforeYear leapsThrough
  omega

theorem yearOf_le {n y : Int} (before : n < daysBeforeYear (y + 1)) : yearOf n ≤ y := by
  by_contra later
  have mono := daysBeforeYear_mono (show y + 1 ≤ yearOf n by omega)
  have spec := yearOf_spec n
  omega

theorem le_yearOf {n y : Int} (after : daysBeforeYear y ≤ n) : y ≤ yearOf n := by
  by_contra earlier
  have mono := daysBeforeYear_mono (show yearOf n + 1 ≤ y by omega)
  have spec := yearOf_spec n
  omega

theorem daysBeforeMonth_succ (year : Int) {m : Nat} (positive : 1 ≤ m) :
    daysBeforeMonth year (m + 1) = daysBeforeMonth year m + monthLength year m := by
  obtain ⟨k, rfl⟩ := Nat.exists_eq_add_of_le' positive
  rfl

/-- The months of a year make up the year. -/
theorem daysBeforeMonth_thirteen (year : Int) : daysBeforeMonth year 13 = yearLength year := by
  simp only [daysBeforeMonth, monthLength, yearLength]
  split <;> rfl

/-- The search for the month ends at one that has the day. -/
theorem monthFrom_spec {year : Int} {fuel m : Nat} {doy : Int} (start : 1 ≤ m) (nonneg : 0 ≤ doy)
    (enough : daysBeforeMonth year m + doy < daysBeforeMonth year (m + fuel + 1)) :
    m ≤ (monthFrom year m doy fuel).1 ∧ (monthFrom year m doy fuel).1 ≤ m + fuel ∧
      1 ≤ (monthFrom year m doy fuel).2 ∧
      (monthFrom year m doy fuel).2 ≤ monthLength year (monthFrom year m doy fuel).1 ∧
      daysBeforeMonth year (monthFrom year m doy fuel).1 + ((monthFrom year m doy fuel).2 - 1) =
        daysBeforeMonth year m + doy := by
  induction fuel generalizing m doy with
  | zero =>
    rw [Nat.add_zero, daysBeforeMonth_succ year start] at enough
    simp only [monthFrom]
    omega
  | succ fuel ih =>
    rw [monthFrom]
    split
    · simp only
      omega
    · rename_i long
      have next := daysBeforeMonth_succ year start
      obtain ⟨low, high, positive, inside, sum⟩ := @ih (m + 1) (doy - monthLength year m) (by omega)
        (by omega) (by rw [next, show m + 1 + fuel + 1 = m + (fuel + 1) + 1 by omega]; omega)
      exact ⟨by omega, by omega, positive, inside, by omega⟩

theorem ofDayNumber_month (n : Int) :
    1 ≤ (ofDayNumber n).month ∧ (ofDayNumber n).month ≤ 12 ∧ 1 ≤ (ofDayNumber n).day ∧
      (ofDayNumber n).day ≤ monthLength (ofDayNumber n).year (ofDayNumber n).month ∧
      daysBeforeMonth (ofDayNumber n).year (ofDayNumber n).month + ((ofDayNumber n).day - 1) =
        n - daysBeforeYear (ofDayNumber n).year := by
  have spec := yearOf_spec n
  have length := daysBeforeYear_succ (yearOf n)
  have months := daysBeforeMonth_thirteen (yearOf n)
  have first : daysBeforeMonth (yearOf n) 1 = 0 := rfl
  obtain ⟨low, high, positive, inside, sum⟩ := @monthFrom_spec (yearOf n) 11 1 (n - daysBeforeYear (yearOf n))
    (Nat.le_refl 1) (by omega) (by rw [show 1 + 11 + 1 = 13 from rfl]; omega)
  rw [first, Int.zero_add] at sum
  exact ⟨low, high, positive, inside, sum⟩

/-- The date of every day is one the calendar has. -/
theorem ofDayNumber_valid (n : Int) : (ofDayNumber n).Valid := by
  obtain ⟨low, high, positive, inside, -⟩ := ofDayNumber_month n
  exact ⟨low, high, positive, inside⟩

theorem dayNumber_ofDayNumber (n : Int) : (ofDayNumber n).dayNumber = n := by
  obtain ⟨-, -, -, -, sum⟩ := ofDayNumber_month n
  unfold dayNumber
  omega

theorem monthLength_le (year : Int) (month : Nat) : monthLength year month ≤ 31 := by
  unfold monthLength
  split <;> (try split) <;> decide

theorem monthLength_nonneg (year : Int) (month : Nat) : 0 ≤ monthLength year month := by
  unfold monthLength
  split <;> (try split) <;> decide

theorem daysBeforeMonth_mono (year : Int) {m k : Nat} (start : 1 ≤ m) (order : m ≤ k) :
    daysBeforeMonth year m ≤ daysBeforeMonth year k := by
  induction order with
  | refl => exact Int.le_refl _
  | @step k reached ih =>
    have next := daysBeforeMonth_succ year (Nat.le_trans start reached)
    have nonneg := monthLength_nonneg year k
    rw [Nat.succ_eq_add_one, next]
    omega

/-- The search ends at the month of the day. -/
theorem monthFrom_eq {year day : Int} {fuel m k : Nat} (start : 1 ≤ m) (order : m ≤ k) (room : k ≤ m + fuel)
    (positive : 1 ≤ day) (inside : day ≤ monthLength year k) :
    monthFrom year m (daysBeforeMonth year k - daysBeforeMonth year m + (day - 1)) fuel = (k, day) := by
  induction fuel generalizing m with
  | zero =>
    obtain rfl : k = m := by omega
    rw [monthFrom, Int.sub_self, Int.zero_add, Int.sub_add_cancel]
  | succ fuel ih =>
    rw [monthFrom]
    rcases Nat.eq_or_lt_of_le order with rfl | later
    · rw [if_pos (by omega), Int.sub_self, Int.zero_add, Int.sub_add_cancel]
    · have next := daysBeforeMonth_succ year start
      have mono := daysBeforeMonth_mono year (Nat.le_succ_of_le start) later
      have found := @ih (m + 1) (Nat.le_succ_of_le start) later (by omega)
      rw [next] at found mono
      rw [if_neg (by omega), ← found]
      congr 1
      omega

/-- **A date is the date of its day.** -/
theorem ofDayNumber_dayNumber {date : Date} (valid : date.Valid) : ofDayNumber date.dayNumber = date := by
  obtain ⟨low, high, positive, inside⟩ := valid
  have next := daysBeforeMonth_succ date.year low
  have first := daysBeforeMonth_mono date.year (Nat.le_refl 1) low
  have last : daysBeforeMonth date.year (date.month + 1) ≤ daysBeforeMonth date.year 13 :=
    daysBeforeMonth_mono date.year (Nat.le_succ_of_le low) (Nat.succ_le_succ high)
  have january : daysBeforeMonth date.year 1 = 0 := rfl
  have following := daysBeforeYear_succ date.year
  rw [daysBeforeMonth_thirteen] at last
  have year : yearOf date.dayNumber = date.year := by
    apply Int.le_antisymm
    · apply yearOf_le
      unfold dayNumber
      omega
    · apply le_yearOf
      unfold dayNumber
      omega
  have day : date.dayNumber - daysBeforeYear date.year =
      daysBeforeMonth date.year date.month - daysBeforeMonth date.year 1 + (date.day - 1) := by
    unfold dayNumber
    omega
  have month := @monthFrom_eq date.year date.day 11 1 date.month (Nat.le_refl 1) low high positive inside
  unfold ofDayNumber
  dsimp only
  rw [year, day, month]

theorem monthLength_pos (year : Int) {month : Nat} (low : 1 ≤ month) (high : month ≤ 12) : 1 ≤ monthLength year month := by
  have known : month ∈ List.range' 1 12 := List.mem_range'_1.2 ⟨low, by omega⟩
  have all : ∀ m ∈ List.range' 1 12, m ≠ 2 → 1 ≤ monthLength 1 m := by decide
  by_cases february : month = 2
  · subst february
    show 1 ≤ if IsLeap year then (29 : Int) else 28
    split <;> decide
  · have same : monthLength year month = monthLength 1 month := by
      unfold monthLength
      split <;> first | rfl | contradiction
    rw [same]
    exact all month known february

/-- The date behind a date. -/
def next (date : Date) : Date :=
  if date.day < monthLength date.year date.month then { date with day := date.day + 1 }
  else if date.month < 12 then { date with month := date.month + 1, day := 1 }
  else { year := date.year + 1, month := 1, day := 1 }

theorem Valid.next {date : Date} (valid : date.Valid) : date.next.Valid ∧ date.next.dayNumber = date.dayNumber + 1 := by
  obtain ⟨low, high, positive, inside⟩ := valid
  have following := daysBeforeMonth_succ date.year low
  unfold Date.next
  split
  · rename_i more
    refine ⟨⟨low, high, by dsimp only; omega, by dsimp only; omega⟩, ?_⟩
    unfold dayNumber
    dsimp only
    omega
  · have last : date.day = monthLength date.year date.month := by omega
    split
    · rename_i more
      have some := monthLength_pos date.year (Nat.succ_pos date.month) more
      refine ⟨⟨by dsimp only; omega, more, Int.le_refl 1, some⟩, ?_⟩
      unfold dayNumber
      dsimp only
      omega
    · have december : date.month = 12 := by omega
      have year := daysBeforeYear_succ date.year
      have months := daysBeforeMonth_thirteen date.year
      have first : daysBeforeMonth (date.year + 1) 1 = 0 := rfl
      have some := monthLength_pos (date.year + 1) (Nat.le_refl 1) (by decide)
      rw [december] at following last
      refine ⟨⟨Nat.le_refl 1, Nat.le_of_ble_eq_true rfl, Int.le_refl 1, some⟩, ?_⟩
      unfold dayNumber
      dsimp only
      rw [first, december]
      rw [show 12 + 1 = 13 from rfl] at following
      omega

/-- Consecutive days have consecutive dates. -/
theorem ofDayNumber_succ (n : Int) : ofDayNumber (n + 1) = (ofDayNumber n).next := by
  obtain ⟨valid, number⟩ := (ofDayNumber_valid n).next
  rw [dayNumber_ofDayNumber] at number
  rw [← number, ofDayNumber_dayNumber valid]

end Date

end RubyPg
