import RubyPg.Date
import RubyPg.Lib.Nbo
import Mathlib.Tactic.IntervalCases
import Mathlib.Order.Basic

/-!
# Binary dates

`pg_bin_dec_date` of `ext/pg_binary_decoder.c`, with the conversion of a Julian day number to a date
by `j2date`. It counts years from March on: `marchMonth` has the months of such a year, and
`century_split` the leap days in front of it.
-/

namespace RubyPg.Binary
set_option autoImplicit false

def pgInt32Max : Int := 0x7FFFFFFF

def pgInt32Min : Int := -0x7FFFFFFF - 1

/-- `date2j(2000, 1, 1)`. -/
def postgresEpochJdate : Int := 2451545

/-- `j2date`, on unsigned numbers of 32 bits. -/
def j2date (jd : Int) : Int × Int × Int :=
  let julian := UInt32.ofInt jd
  let julian := julian + 32044
  let quad := julian / 146097
  let extra := (julian - quad * 146097) * 4 + 3
  let julian := julian + (60 + quad * 3 + extra / 146097)
  let quad := julian / 1461
  let julian := julian - quad * 1461
  let y := julian * 4 / 1461
  let julian := (if y ≠ 0 then (julian + 305) % 365 else (julian + 306) % 366) + 123
  let y := y + quad * 4
  let year := y.toInt32.toInt - 4800
  let quad := julian * 2141 / 65536
  let day := (julian - 7834 * quad / 256).toInt32.toInt
  let month := ((quad + 10) % 12 + 1).toInt32.toInt
  (year, month, day)

/-- `pg_bin_dec_date`. -/
def pgBinDecDate (val : Bytes) : Outcome Value :=
  if val.length ≠ 4 then rbRaise .typeError "unexpected date format != 4 bytes"
  else
    let date := readNbo val
    if date = pgInt32Max then pure (.str "infinity".toUTF8.toList)
    else if date = pgInt32Min then pure (.str "-infinity".toUTF8.toList)
    -- the sum is a signed one
    else if date + postgresEpochJdate > pgInt32Max then .error .undefined
    else
      let (year, month, day) := j2date (date + postgresEpochJdate)
      dateNew year month day

/-- The month and the day from the number of a day since the first of March. -/
def marchMonth (dm : Nat) : Nat × Nat :=
  let quad := (dm + 123) * 2141 / 65536
  ((quad + 10) % 12 + 1, dm + 123 - 7834 * quad / 256)

/-- The table of the months from March on, for an ordinary year. -/
structure MarchTable (dm : Nat) : Prop where
  month_pos : 1 ≤ (marchMonth dm).1
  month_le : (marchMonth dm).1 ≤ 12
  day_pos : 1 ≤ (marchMonth dm).2
  late : dm < 306 → 3 ≤ (marchMonth dm).1 ∧ ((marchMonth dm).2 : Int) ≤ Date.monthLength 1 (marchMonth dm).1 ∧
    Date.daysBeforeMonth 1 (marchMonth dm).1 + ((marchMonth dm).2 - 1) = dm + 59
  early : 306 ≤ dm → ((marchMonth dm).1 = 1 ∧ (marchMonth dm).2 ≤ 31 ∧ (marchMonth dm).2 + 305 = dm) ∨
    ((marchMonth dm).1 = 2 ∧ (marchMonth dm).2 + 336 = dm)

theorem marchTable {dm : Nat} (inside : dm < 366) : MarchTable dm := by
  have table : ∀ k < 366, (1 ≤ (marchMonth k).1 ∧ (marchMonth k).1 ≤ 12 ∧ 1 ≤ (marchMonth k).2) ∧
      (k < 306 → 3 ≤ (marchMonth k).1 ∧ ((marchMonth k).2 : Int) ≤ Date.monthLength 1 (marchMonth k).1 ∧
        Date.daysBeforeMonth 1 (marchMonth k).1 + ((marchMonth k).2 - 1) = k + 59) ∧
      (306 ≤ k → ((marchMonth k).1 = 1 ∧ (marchMonth k).2 ≤ 31 ∧ (marchMonth k).2 + 305 = k) ∨
        ((marchMonth k).1 = 2 ∧ (marchMonth k).2 + 336 = k)) := by decide +kernel
  obtain ⟨⟨low, high, positive⟩, late, early⟩ := table dm inside
  exact ⟨low, high, positive, late, early⟩

/-- From March on, the months are those of an ordinary year. -/
theorem monthLength_late (year : Int) {month : Nat} (late : 3 ≤ month) (high : month ≤ 12) :
    Date.monthLength year month = Date.monthLength 1 month := by
  interval_cases month <;> rfl

theorem daysBeforeMonth_late (year : Int) {month : Nat} (late : 3 ≤ month) (high : month ≤ 12) :
    Date.daysBeforeMonth year month = Date.daysBeforeMonth 1 month + (Date.yearLength year - 365) := by
  induction month, late using Nat.le_induction with
  | base =>
    simp only [Date.daysBeforeMonth, Date.monthLength, Date.yearLength]
    by_cases leap : Date.IsLeap year
    · rw [if_pos leap, if_pos leap]
      rfl
    · rw [if_neg leap, if_neg leap]
      rfl
  | succ month late ih =>
    have before := ih (by omega)
    have length := monthLength_late year late (by omega)
    rw [Date.daysBeforeMonth_succ year (by omega), Date.daysBeforeMonth_succ 1 (by omega), before, length]
    omega

/-- The date of a day of the year that begins with March. -/
def marchDate (year : Int) (dm : Nat) : Date where
  year := if dm < 306 then year else year + 1
  month := (marchMonth dm).1
  day := (marchMonth dm).2

section March

variable {year : Int} {dm : Nat}

theorem marchDate_late (march : dm < 306) : marchDate year dm = ⟨year, (marchMonth dm).1, (marchMonth dm).2⟩ := by
  unfold marchDate
  rw [if_pos march]

theorem marchDate_early (january : 306 ≤ dm) :
    marchDate year dm = ⟨year + 1, (marchMonth dm).1, (marchMonth dm).2⟩ := by
  unfold marchDate
  rw [if_neg (Nat.not_lt_of_le january)]

/-- It is one the calendar has, where there is a day for the last of February. -/
theorem marchDate_valid (inside : dm < 366) (leap : dm = 365 → Date.IsLeap (year + 1)) : (marchDate year dm).Valid := by
  obtain ⟨low, high, positive, late, early⟩ := marchTable inside
  have day : 1 ≤ ((marchMonth dm).2 : Int) := by omega
  rcases Nat.lt_or_ge dm 306 with march | january
  · obtain ⟨from3, short, -⟩ := late march
    rw [marchDate_late march]
    refine ⟨low, high, day, ?_⟩
    dsimp only
    rwa [monthLength_late year from3 high]
  · rw [marchDate_early january]
    refine ⟨low, high, day, ?_⟩
    dsimp only
    rcases early january with ⟨month, short, -⟩ | ⟨month, last⟩
    · rw [month]
      show ((marchMonth dm).2 : Int) ≤ 31
      omega
    · rw [month]
      show ((marchMonth dm).2 : Int) ≤ if Date.IsLeap (year + 1) then 29 else 28
      by_cases end_ : dm = 365
      · rw [if_pos (leap end_)]
        omega
      · split <;> omega

/-- The days from the first of March to the end of the year are 306. -/
theorem dayNumber_marchDate (inside : dm < 366) :
    (marchDate year dm).dayNumber = Date.daysBeforeYear (year + 1) - 306 + dm := by
  obtain ⟨-, high, -, late, early⟩ := marchTable inside
  rcases Nat.lt_or_ge dm 306 with march | january
  · obtain ⟨from3, -, sum⟩ := late march
    have before := daysBeforeMonth_late year from3 high
    have next := Date.daysBeforeYear_succ year
    rw [marchDate_late march, Date.dayNumber]
    dsimp only
    omega
  · rw [marchDate_early january, Date.dayNumber]
    dsimp only
    rcases early january with ⟨month, -, day⟩ | ⟨month, day⟩
    · have before : Date.daysBeforeMonth (year + 1) 1 = 0 := rfl
      rw [month, before]
      omega
    · have before : Date.daysBeforeMonth (year + 1) 2 = 31 := rfl
      rw [month, before]
      omega

end March

/-- The years of a cycle of four, on a count of days that has a leap day every fourth year. -/
theorem quad_split {j2 q r y dm : Nat} (quad : q = j2 / 1461) (rest : r = j2 - q * 1461) (year : y = r * 4 / 1461)
    (march : dm = if y ≠ 0 then (r + 305) % 365 else (r + 306) % 366) :
    dm < 366 ∧ (dm = 365 → y = 0) ∧ ∃ n : Int, (n = if dm < 306 then (y + q * 4 : Int) else y + q * 4 - 1) ∧
      j2 = 365 * n + n / 4 + dm + 60 := by
  have short : r < 1461 := by omega
  by_cases first : y = 0
  · subst first
    rw [if_neg (not_not.2 rfl)] at march
    refine ⟨by omega, fun _ => rfl, _, rfl, ?_⟩
    split <;> omega
  · rw [if_pos first] at march
    have later : y = 1 ∨ y = 2 ∨ y = 3 := by omega
    refine ⟨by omega, by omega, _, rfl, ?_⟩
    rcases later with rfl | rfl | rfl <;> split <;> omega

/-- The centuries of a cycle of 400 years, and the leap days they leave out. -/
theorem century_split {J c s dm : Nat} {n : Int} (cycle : c = J / 146097)
    (century : s = ((J - c * 146097) * 4 + 3) / 146097) (inside : dm < 366)
    (day : ((J + (60 + c * 3 + s) : Nat) : Int) = 365 * n + n / 4 + dm + 60) :
    n / 100 = 4 * c + s ∧ n / 400 = c ∧ (dm = 365 → (n + 1) % 100 = 0 → (n + 1) % 400 = 0) := by
  obtain ⟨e, rest⟩ : ∃ e, J = 146097 * c + e ∧ e < 146097 := ⟨J - c * 146097, by omega, by omega⟩
  obtain ⟨rfl, part⟩ := rest
  rw [show 146097 * c + e - c * 146097 = e by omega] at century
  have four : s ≤ 3 := by omega
  have low : 400 * (c : Int) ≤ n := by omega
  have high : n < 400 * c + 400 := by omega
  clear cycle
  have hundred : n / 100 = 4 * c + s := by omega
  refine ⟨hundred, by omega, ?_⟩
  intro last end_
  omega

theorem toInt32_small {n : UInt32} (small : n.toNat < 2 ^ 31) : n.toInt32.toInt = n.toNat := by
  show n.toBitVec.toInt = _
  rw [BitVec.toInt_eq_toNat_of_lt (by show 2 * n.toNat < _; omega)]
  rfl

theorem j2date_small {jd : Nat} (high : jd ≤ 2147483493) {c j2 q r y dm : Nat}
    (cycle : c = (jd + 32044) / 146097) (shifted : j2 = jd + 32044 + (60 + c * 3 + ((jd + 32044 - c * 146097) * 4 + 3) / 146097))
    (quad : q = j2 / 1461) (rest : r = j2 - q * 1461) (year : y = r * 4 / 1461)
    (march : dm = if y ≠ 0 then (r + 305) % 365 else (r + 306) % 366) :
    j2date jd = (((y + q * 4 : Nat) : Int) - 4800, ((marchMonth dm).1 : Int), ((marchMonth dm).2 : Int)) := by
  have start : (UInt32.ofInt (jd : Int)).toNat = jd := by
    show ((jd : Int) % 2 ^ 32).toNat % 2^32 = jd
    omega
  unfold j2date
  dsimp only
  generalize UInt32.ofInt (jd : Int) = w at start ⊢
  have shift : (w + 32044).toNat = jd + 32044 := by
    simp only [UInt32.toNat_add, UInt32.reduceToNat, Nat.reducePow, start]
    omega
  generalize w + 32044 = w at shift ⊢
  have cycles : (w / 146097).toNat = c := by
    simp only [UInt32.toNat_div, UInt32.reduceToNat, shift]
    omega
  generalize w / 146097 = v at cycles ⊢
  have extra : ((w - v * 146097) * 4 + 3).toNat = (jd + 32044 - c * 146097) * 4 + 3 := by
    simp only [UInt32.toNat_add, UInt32.toNat_mul, UInt32.toNat_sub, UInt32.reduceToNat, Nat.reducePow, shift, cycles]
    omega
  generalize (w - v * 146097) * 4 + 3 = u at extra ⊢
  have julian : (w + (60 + v * 3 + u / 146097)).toNat = j2 := by
    simp only [UInt32.toNat_add, UInt32.toNat_mul, UInt32.toNat_div, UInt32.reduceToNat, Nat.reducePow, shift, cycles, extra]
    omega
  generalize w + (60 + v * 3 + u / 146097) = w at julian ⊢
  have quads : (w / 1461).toNat = q := by
    simp only [UInt32.toNat_div, UInt32.reduceToNat, julian]
    omega
  generalize w / 1461 = v at quads ⊢
  have days : (w - v * 1461).toNat = r := by
    simp only [UInt32.toNat_mul, UInt32.toNat_sub, UInt32.reduceToNat, Nat.reducePow, julian, quads]
    omega
  generalize w - v * 1461 = w at days ⊢
  have short : r < 1461 := by omega
  have years : (w * 4 / 1461).toNat = y := by
    simp (disch := omega) only [UInt32.toNat_mul, UInt32.toNat_div, UInt32.reduceToNat, Nat.reducePow, days, Nat.mod_eq_of_lt]
    exact year.symm
  generalize w * 4 / 1461 = u at years ⊢
  have whole : (u + v * 4).toNat = y + q * 4 := by
    simp only [UInt32.toNat_add, UInt32.toNat_mul, UInt32.reduceToNat, Nat.reducePow, years, quads]
    omega
  generalize u + v * 4 = n at whole ⊢
  have first : u ≠ 0 ↔ y ≠ 0 := by
    rw [← years, Ne, Ne, ← UInt32.toNat_inj]
    rfl
  have march' : ((if u ≠ 0 then (w + 305) % 365 else (w + 306) % 366) + 123).toNat = dm + 123 := by
    rw [march]
    by_cases zero : y = 0
    · rw [if_neg (mt first.1 (not_not.2 zero)), if_neg (not_not.2 zero)]
      simp (disch := omega) only [UInt32.toNat_add, UInt32.toNat_mod, UInt32.reduceToNat, Nat.reducePow, days, Nat.mod_eq_of_lt]
    · rw [if_pos (first.2 zero), if_pos zero]
      simp (disch := omega) only [UInt32.toNat_add, UInt32.toNat_mod, UInt32.reduceToNat, Nat.reducePow, days, Nat.mod_eq_of_lt]
  generalize (if u ≠ 0 then (w + 305) % 365 else (w + 306) % 366) + 123 = d at march' ⊢
  have inside : dm < 366 := by
    rw [march]
    split <;> omega
  have small : y + q * 4 < 2 ^ 31 := by omega
  have guess : (dm + 123) * 2141 / 65536 < 16 := by omega
  have month : ((d * 2141 / 65536 + 10) % 12 + 1).toNat = (marchMonth dm).1 := by
    simp (disch := omega) only [UInt32.toNat_add, UInt32.toNat_mul, UInt32.toNat_div, UInt32.toNat_mod, UInt32.reduceToNat,
      Nat.reducePow, march', Nat.mod_eq_of_lt]
    rfl
  have enough : 7834 * ((dm + 123) * 2141 / 65536) / 256 ≤ dm + 123 := by omega
  have day : (d - 7834 * (d * 2141 / 65536) / 256).toNat = (marchMonth dm).2 := by
    have part : (7834 * (d * 2141 / 65536) / 256).toNat = 7834 * ((dm + 123) * 2141 / 65536) / 256 := by
      simp (disch := omega) only [UInt32.toNat_mul, UInt32.toNat_div, UInt32.reduceToNat, Nat.reducePow, march', Nat.mod_eq_of_lt]
    rw [UInt32.toNat_sub_of_le _ _ (UInt32.le_iff_toNat_le.2 (by omega)), part, march']
    rfl
  have few : (marchMonth dm).1 < 2 ^ 31 ∧ (marchMonth dm).2 < 2 ^ 31 := by
    simp only [marchMonth]
    omega
  rw [toInt32_small (whole ▸ small), whole, toInt32_small (month ▸ few.1), month, toInt32_small (day ▸ few.2), day]

/-- **`j2date` is the calendar**, for all days whose number fits. -/
theorem j2date_eq {jd : Nat} (high : jd ≤ 2147483493) :
    j2date jd = ((Date.ofDayNumber (jd - 2440588)).year, ((Date.ofDayNumber (jd - 2440588)).month : Int),
      (Date.ofDayNumber (jd - 2440588)).day) := by
  obtain ⟨c, cycle⟩ : ∃ c, c = (jd + 32044) / 146097 := ⟨_, rfl⟩
  obtain ⟨s, century⟩ : ∃ s, s = ((jd + 32044 - c * 146097) * 4 + 3) / 146097 := ⟨_, rfl⟩
  obtain ⟨j2, shifted⟩ : ∃ j2, j2 = jd + 32044 + (60 + c * 3 + s) := ⟨_, rfl⟩
  obtain ⟨q, quad⟩ : ∃ q, q = j2 / 1461 := ⟨_, rfl⟩
  obtain ⟨r, rest⟩ : ∃ r, r = j2 - q * 1461 := ⟨_, rfl⟩
  obtain ⟨y, year⟩ : ∃ y, y = r * 4 / 1461 := ⟨_, rfl⟩
  obtain ⟨dm, march⟩ : ∃ dm, dm = if y ≠ 0 then (r + 305) % 365 else (r + 306) % 366 := ⟨_, rfl⟩
  obtain ⟨inside, last, n, begins, days⟩ := quad_split quad rest year march
  obtain ⟨hundred, cycles, kept⟩ := century_split cycle century inside (shifted ▸ days)
  have leap : dm = 365 → Date.IsLeap (n - 4800 + 1) := by
    intro february
    have first := last february
    have four : y + q * 4 = n + 1 := by
      rw [begins, if_neg (by omega)]
      omega
    have century := kept february
    unfold Date.IsLeap
    omega
  have date : Date.ofDayNumber (jd - 2440588) = marchDate (n - 4800) dm := by
    rw [← Date.ofDayNumber_dayNumber (marchDate_valid inside leap), dayNumber_marchDate inside]
    have fours : (n - 4800 + 1 - 1) / 4 = n / 4 - 1200 := by omega
    have hundreds : (n - 4800 + 1 - 1) / 100 = n / 100 - 48 := by omega
    have cycles' : (n - 4800 + 1 - 1) / 400 = n / 400 - 12 := by omega
    unfold Date.daysBeforeYear Date.leapsThrough
    rw [fours, hundreds, cycles', hundred, cycles]
    congr 1
    clear march begins quad rest year cycle century
    omega
  rw [date, j2date_small high cycle (by rw [shifted, century]) quad rest year march]
  refine Prod.ext ?_ rfl
  show ((y + q * 4 : Nat) : Int) - 4800 = if dm < 306 then n - 4800 else n - 4800 + 1
  rw [begins]
  split <;> omega

end RubyPg.Binary
