import RubyPg.DateAgreement
import RubyPg.TwoPass.Encoding
import RubyPg.TwoPass.Overflow

/-!
# The arithmetic of binary dates

`date2j` of `ext/pg_binary_encoder.c` and `j2date` of `ext/pg_binary_decoder.c` once more, with a look at each
intermediate value: `date2j` is the calendar as well, and on the days PostgreSQL has no operation of the two
leaves its type.
-/

namespace RubyPg.Binary
set_option autoImplicit false
open TwoPass

/-- A number of type `unsigned int`, if it is one. -/
def fitsUnsigned (n : Int) : Option Int := if 0 ≤ n ∧ n < 4294967296 then some n else none

/-- A number of type `int`, if it is one. -/
def fitsInt (n : Int) : Option Int := if -2147483648 ≤ n ∧ n < 2147483648 then some n else none

/-- The rest of `j2date` from `y = julian * 4 / 1461` on, unless an operation leaves its type. -/
def yearGuarded (quad julian : Int) : Option (Int × Int × Int) := do
  let y ← fitsUnsigned (julian * 4)
  let y ← fitsInt (y / 1461)
  let moved ← fitsUnsigned (if y ≠ 0 then julian + 305 else julian + 306)
  let julian ← fitsUnsigned ((if y ≠ 0 then moved % 365 else moved % 366) + 123)
  let quad ← fitsUnsigned (quad * 4)
  let y ← fitsUnsigned (y + quad)
  let y ← fitsInt y
  let year ← fitsInt (y - 4800)
  let quad ← fitsUnsigned (julian * 2141)
  let quad := quad / 65536
  let part ← fitsUnsigned (7834 * quad)
  let day ← fitsUnsigned (julian - part / 256)
  let day ← fitsInt day
  let month ← fitsUnsigned (quad + 10)
  let month ← fitsUnsigned (month % 12 + 1)
  let month ← fitsInt month
  pure (year, month, day)

/-- `j2date`, unless an operation leaves its type. -/
def j2dateGuarded (jd : Int) : Option (Int × Int × Int) := do
  let julian ← fitsUnsigned jd
  let julian ← fitsUnsigned (julian + 32044)
  let quad := julian / 146097
  let cycles ← fitsUnsigned (quad * 146097)
  let rest ← fitsUnsigned (julian - cycles)
  let extra ← fitsUnsigned (rest * 4)
  let extra ← fitsUnsigned (extra + 3)
  let shift ← fitsUnsigned (quad * 3)
  let shift ← fitsUnsigned (60 + shift)
  let shift ← fitsUnsigned (shift + extra / 146097)
  let julian ← fitsUnsigned (julian + shift)
  let quad := julian / 1461
  let days ← fitsUnsigned (quad * 1461)
  let julian ← fitsUnsigned (julian - days)
  yearGuarded quad julian

/-- `date2j`, unless an operation leaves its type. -/
def date2jGuarded (year month day : Int) : Option Int := do
  let shifted ← fitsInt (if month > 2 then month + 1 else month + 13)
  let year ← fitsInt (if month > 2 then year + 4800 else year + 4799)
  let century := year.tdiv 100
  let days ← fitsInt (year * 365)
  let julian ← fitsInt (days - 32167)
  let leaps ← fitsInt (year.tdiv 4 - century)
  let leaps ← fitsInt (leaps + century.tdiv 4)
  let julian ← fitsInt (julian + leaps)
  let months ← fitsInt (7834 * shifted)
  let rest ← fitsInt (months.tdiv 256 + day)
  fitsInt (julian + rest)

theorem fitsUnsigned_eq {n : Int} (low : 0 ≤ n) (high : n < 4294967296) : fitsUnsigned n = some n := if_pos ⟨low, high⟩

theorem fitsInt_eq {n : Int} (low : -2147483648 ≤ n) (high : n < 2147483648) : fitsInt n = some n := if_pos ⟨low, high⟩

section Julian

/-- The year that `date2j` computes with; it begins with March. -/
def shiftedYear (date : Date) : Int := if date.month > 2 then date.year + 4800 else date.year + 4799

/-- The month that it computes with. -/
def shiftedMonth (date : Date) : Int := if date.month > 2 then date.month + 1 else date.month + 13

variable {date : Date}

/-- The years with their leap days, the months in front and the day make up the Julian day number. -/
theorem dayNumber_shifted (valid : date.Valid) :
    shiftedYear date * 365 - 32167 + (shiftedYear date / 4 - shiftedYear date / 100 + shiftedYear date / 400) +
      (7834 * shiftedMonth date / 256 + date.day) = date.dayNumber + 2440588 := by
  obtain ⟨low, high, -, -⟩ := valid
  unfold shiftedYear shiftedMonth Date.dayNumber Date.daysBeforeYear Date.leapsThrough
  by_cases late : date.month > 2
  · have before := daysBeforeMonth_late date.year late high
    have leap : Date.yearLength date.year = if Date.IsLeap date.year then 366 else 365 := rfl
    have table : ∀ m ∈ List.range' 3 10, 7834 * ((m : Int) + 1) / 256 = Date.daysBeforeMonth 1 m + 63 := by decide
    have month := table date.month (List.mem_range'_1.2 ⟨late, by omega⟩)
    rw [if_pos late, if_pos late, month, before]
    by_cases even : Date.IsLeap date.year
    · rw [if_pos even] at leap
      unfold Date.IsLeap at even
      omega
    · rw [if_neg even] at leap
      unfold Date.IsLeap at even
      omega
  · have early : date.month = 1 ∨ date.month = 2 := by omega
    rw [if_neg late, if_neg late]
    rcases early with january | february
    · have first : Date.daysBeforeMonth date.year 1 = 0 := rfl
      rw [january, first]
      omega
    · have second : Date.daysBeforeMonth date.year 2 = 31 := rfl
      rw [february, second]
      omega

theorem shiftedMonth_bounds (valid : date.Valid) :
    4 ≤ shiftedMonth date ∧ shiftedMonth date ≤ 15 ∧ 1 ≤ date.day ∧ date.day ≤ 31 := by
  obtain ⟨low, high, positive, inside⟩ := valid
  have short := Date.monthLength_le date.year date.month
  unfold shiftedMonth
  split <;> omega

/-- What `date2j` computes, if the year can be shifted. -/
theorem date2j_shifted (valid : date.Valid) (low : -2147483648 ≤ shiftedYear date) (high : shiftedYear date < 2147483648) :
    date2j date.year date.month date.day =
      int32 (shiftedYear date * 365 - 32167 +
        ((shiftedYear date).tdiv 4 - (shiftedYear date).tdiv 100 + ((shiftedYear date).tdiv 100).tdiv 4) +
          (7834 * shiftedMonth date / 256 + date.day)) := by
  obtain ⟨four, fifteen, first, last⟩ := shiftedMonth_bounds valid
  have year : (if date.month > 2 then int32 (date.year + 4800) else int32 (date.year + 4799)) = shiftedYear date := by
    unfold shiftedYear at low high ⊢
    split
    · rename_i late
      rw [if_pos late] at low high
      exact int32_eq low high
    · rename_i early
      rw [if_neg early] at low high
      exact int32_eq low high
  have month : (if date.month > 2 then int32 (date.month + 1) else int32 (date.month + 13)) = shiftedMonth date := by
    unfold shiftedMonth at four fifteen ⊢
    split
    · rename_i late
      rw [if_pos late] at four fifteen
      exact int32_eq (by omega) (by omega)
    · rename_i early
      rw [if_neg early] at four fifteen
      exact int32_eq (by omega) (by omega)
  have months : (int32 (7834 * shiftedMonth date)).tdiv 256 = 7834 * shiftedMonth date / 256 := by
    rw [int32_eq (by omega) (by omega)]
    exact Int.tdiv_eq_ediv_of_nonneg (by omega)
  have late : ((date.month : Int) > 2) ↔ date.month > 2 := by omega
  have days : date2j date.year date.month date.day =
      int32 (int32 (int32 (int32 (shiftedYear date * 365) - 32167) +
        int32 (int32 ((shiftedYear date).tdiv 4 - (shiftedYear date).tdiv 100) + ((shiftedYear date).tdiv 100).tdiv 4)) +
          int32 ((int32 (7834 * shiftedMonth date)).tdiv 256 + date.day)) := by
    rw [← year, ← month]
    unfold date2j
    by_cases m : date.month > 2
    · rw [if_pos (late.2 m), if_pos m, if_pos m]
    · rw [if_neg (mt late.1 m), if_neg m, if_neg m]
  rw [days, months]
  unfold int32
  simp only [Int.bmod_add_bmod, Int.add_bmod_bmod, Int.bmod_sub_bmod]

/-- From the year -4800 on, truncated division is division. -/
theorem leaps_nonneg {year : Int} (nonneg : 0 ≤ year) :
    year.tdiv 4 - year.tdiv 100 + (year.tdiv 100).tdiv 4 = year / 4 - year / 100 + year / 400 := by
  have hundreds : 0 ≤ year / 100 := Int.ediv_nonneg nonneg (by decide)
  rw [Int.tdiv_eq_ediv_of_nonneg nonneg, Int.tdiv_eq_ediv_of_nonneg nonneg, Int.tdiv_eq_ediv_of_nonneg hundreds]
  omega

/-- The years of the days that PostgreSQL has. -/
theorem shiftedYear_bounds (valid : date.Valid) (low : 0 ≤ date.dayNumber + 2440588)
    (high : date.dayNumber + 2440588 ≤ 2147483493) : 0 ≤ shiftedYear date ∧ shiftedYear date ≤ 5879697 := by
  have sum := dayNumber_shifted valid
  have bounds := shiftedMonth_bounds valid
  omega

/-- **`date2j` is the calendar**, and nothing overflows, on the days that PostgreSQL has. -/
theorem date2j_eq (valid : date.Valid) (low : 0 ≤ date.dayNumber + 2440588) (high : date.dayNumber + 2440588 ≤ 2147483493) :
    date2j date.year date.month date.day = date.dayNumber + 2440588 := by
  obtain ⟨nonneg, small⟩ := shiftedYear_bounds valid low high
  rw [date2j_shifted valid (by omega) (by omega), leaps_nonneg nonneg, dayNumber_shifted valid]
  exact int32_eq (by omega) (by omega)

theorem date2jGuarded_eq (valid : date.Valid) (low : 0 ≤ date.dayNumber + 2440588)
    (high : date.dayNumber + 2440588 ≤ 2147483493) :
    date2jGuarded date.year date.month date.day = some (date.dayNumber + 2440588) := by
  obtain ⟨nonneg, small⟩ := shiftedYear_bounds valid low high
  obtain ⟨four, fifteen, first, last⟩ := shiftedMonth_bounds valid
  have sum := dayNumber_shifted valid
  have month : (if (date.month : Int) > 2 then (date.month : Int) + 1 else date.month + 13) = shiftedMonth date := by
    unfold shiftedMonth
    split <;> split <;> omega
  have year : (if (date.month : Int) > 2 then date.year + 4800 else date.year + 4799) = shiftedYear date := by
    unfold shiftedYear
    split <;> split <;> omega
  have hundreds : 0 ≤ shiftedYear date / 100 := Int.ediv_nonneg nonneg (by decide)
  have months : 0 ≤ 7834 * shiftedMonth date := by omega
  unfold date2jGuarded
  rw [month, year, fitsInt_eq (by omega) (by omega), Option.bind_eq_bind, Option.bind_some, fitsInt_eq (by omega) (by omega),
    Option.bind_some]
  dsimp only
  rw [Int.tdiv_eq_ediv_of_nonneg nonneg, Int.tdiv_eq_ediv_of_nonneg nonneg, Int.tdiv_eq_ediv_of_nonneg hundreds]
  generalize shiftedYear date = year at *
  generalize shiftedMonth date = month at *
  simp (disch := omega) only [fitsInt_eq, Option.bind_some, Int.tdiv_eq_ediv_of_nonneg]
  congr 1
  omega

end Julian

/-- Nothing overflows in `j2date` either. -/
theorem yearGuarded_eq {q r y dm : Nat} (small : q < 2 ^ 23) (short : r < 1461) (year : y = r * 4 / 1461)
    (march : dm = if y ≠ 0 then (r + 305) % 365 else (r + 306) % 366) :
    yearGuarded q r = some (((y + q * 4 : Nat) : Int) - 4800, ((marchMonth dm).1 : Int), ((marchMonth dm).2 : Int)) := by
  have quarter : (r : Int) * 4 / 1461 = y := by omega
  have inside : dm < 366 := by
    rw [march]
    split <;> omega
  obtain ⟨m, moved, bound⟩ : ∃ m : Nat, (if (y : Int) ≠ 0 then (r : Int) + 305 else r + 306) = m ∧ m < 2000 := by
    by_cases zero : y = 0
    · exact ⟨r + 306, by simp [zero], by omega⟩
    · exact ⟨r + 305, by simp [zero], by omega⟩
  have days : (if (y : Int) ≠ 0 then (m : Int) % 365 else m % 366) = dm := by
    rw [march]
    by_cases zero : y = 0
    · simp only [zero] at moved ⊢
      simp at moved ⊢
      omega
    · have zero' : (y : Int) ≠ 0 := by omega
      rw [if_pos zero'] at moved ⊢
      rw [if_pos zero]
      omega
  have table : ((7834 * ((dm + 123) * 2141 / 65536) / 256 : Nat) : Int) ≤ dm + 123 := by omega
  unfold yearGuarded
  rw [fitsUnsigned_eq (by omega) (by omega), Option.bind_eq_bind, Option.bind_some, quarter, fitsInt_eq (by omega) (by omega),
    Option.bind_some, moved, fitsUnsigned_eq (by omega) (by omega), Option.bind_some, days,
    fitsUnsigned_eq (by omega) (by omega), Option.bind_some, fitsUnsigned_eq (by omega) (by omega), Option.bind_some,
    fitsUnsigned_eq (by omega) (by omega), Option.bind_some, fitsInt_eq (by omega) (by omega), Option.bind_some,
    fitsInt_eq (by omega) (by omega), Option.bind_some, fitsUnsigned_eq (by omega) (by omega), Option.bind_some]
  dsimp only
  obtain ⟨g, guess⟩ : ∃ g, g = (dm + 123) * 2141 / 65536 := ⟨_, rfl⟩
  have guess' : ((dm : Int) + 123) * 2141 / 65536 = g := by omega
  have early : g < 16 := by omega
  rw [← guess] at table
  rw [guess', fitsUnsigned_eq (by omega) (by omega), Option.bind_some, fitsUnsigned_eq (by omega) (by omega), Option.bind_some,
    fitsInt_eq (by omega) (by omega), Option.bind_some, fitsUnsigned_eq (by omega) (by omega), Option.bind_some,
    fitsUnsigned_eq (by omega) (by omega), Option.bind_some, fitsInt_eq (by omega) (by omega), Option.bind_some]
  unfold marchMonth
  dsimp only
  rw [← guess]
  refine congrArg some (Prod.ext ?_ (Prod.ext ?_ ?_))
  · dsimp only
    omega
  · dsimp only
    omega
  · dsimp only
    omega

/-- The bounds of the numbers in front of that. -/
theorem shift_bounds {jd c s j2 q r : Nat} (high : jd ≤ 2147483493) (cycle : c = (jd + 32044) / 146097)
    (century : s = ((jd + 32044 - c * 146097) * 4 + 3) / 146097) (shifted : j2 = jd + 32044 + (60 + c * 3 + s))
    (quad : q = j2 / 1461) (rest : r = j2 - q * 1461) :
    (c * 146097 ≤ jd + 32044 ∧ jd + 32044 - c * 146097 < 146097 ∧ c ≤ 14699) ∧ s ≤ 3 ∧ j2 < 2 ^ 32 - 1461 ∧
      q * 1461 ≤ j2 ∧ r < 1461 ∧ q < 2 ^ 23 := by
  have cycles : c * 146097 ≤ jd + 32044 ∧ jd + 32044 - c * 146097 < 146097 ∧ c ≤ 14699 := by omega
  have few : s ≤ 3 := by
    clear quad rest shifted cycle
    omega
  clear century cycle
  exact ⟨cycles, few, by omega, by omega, by omega, by omega⟩

theorem j2dateGuarded_eq {jd : Nat} (high : jd ≤ 2147483493) : j2dateGuarded jd = some (j2date jd) := by
  obtain ⟨c, cycle⟩ : ∃ c, c = (jd + 32044) / 146097 := ⟨_, rfl⟩
  obtain ⟨s, century⟩ : ∃ s, s = ((jd + 32044 - c * 146097) * 4 + 3) / 146097 := ⟨_, rfl⟩
  obtain ⟨j2, shifted⟩ : ∃ j2, j2 = jd + 32044 + (60 + c * 3 + s) := ⟨_, rfl⟩
  obtain ⟨q, quad⟩ : ∃ q, q = j2 / 1461 := ⟨_, rfl⟩
  obtain ⟨r, rest⟩ : ∃ r, r = j2 - q * 1461 := ⟨_, rfl⟩
  obtain ⟨⟨part, left, cycles⟩, few, sum, days, short, quads⟩ := shift_bounds high cycle century shifted quad rest
  rw [j2date_small high cycle (by rw [shifted, century]) quad rest rfl rfl, ← yearGuarded_eq quads short rfl rfl]
  have cycle' : ((jd : Int) + 32044) / 146097 = c := by
    rw [cycle]
    norm_cast
  have century' : (((jd : Int) + 32044 - c * 146097) * 4 + 3) / 146097 = s := by
    rw [century]
    push_cast [Nat.cast_sub part]
    rfl
  have shifted' : (jd : Int) + 32044 + (60 + c * 3 + s) = j2 := by
    rw [shifted]
    push_cast
    rfl
  have quad' : (j2 : Int) / 1461 = q := by
    rw [quad]
    norm_cast
  have rest' : (j2 : Int) - q * 1461 = r := by
    rw [rest]
    push_cast [Nat.cast_sub days]
    rfl
  have left' : 0 ≤ (jd : Int) + 32044 - c * 146097 ∧ (jd : Int) + 32044 - c * 146097 < 146097 := by
    clear quad rest shifted century cycle
    omega
  clear quad rest shifted century cycle
  unfold j2dateGuarded
  rw [fitsUnsigned_eq (by omega) (by omega), Option.bind_eq_bind, Option.bind_some, fitsUnsigned_eq (by omega) (by omega),
    Option.bind_some]
  dsimp only
  rw [cycle', fitsUnsigned_eq (by omega) (by omega), Option.bind_some, fitsUnsigned_eq (by omega) (by omega),
    Option.bind_some, fitsUnsigned_eq (by omega) (by omega), Option.bind_some, fitsUnsigned_eq (by omega) (by omega),
    Option.bind_some, fitsUnsigned_eq (by omega) (by omega), Option.bind_some, fitsUnsigned_eq (by omega) (by omega),
    Option.bind_some, century', fitsUnsigned_eq (by omega) (by omega), Option.bind_some, shifted',
    fitsUnsigned_eq (by omega) (by omega), Option.bind_some, quad', fitsUnsigned_eq (by omega) (by omega), Option.bind_some,
    rest', fitsUnsigned_eq (by omega) (by omega), Option.bind_some]

section Encoder

/-- What is assumed of Ruby: the Gregorian date of a Date has its fields, and `NUM2INT` takes those that are of
type `int`. -/
structure ReadsDates (api : CApi) : Prop where
  num2int : Converts 2147483648 api.num2int
  gregorian : ∀ year month day : Int, api.gregorian (.date year month day) = .ok (.int year, .int month, .int day)

variable {api : CApi} {date : Date}

/-- The bytes of a Date. -/
theorem encode_date (reads : ReadsDates api) (valid : date.Valid) (low : -2147483648 ≤ date.year) (high : date.year < 2147483648) :
    (Enc.date.encoder api).encode date.value =
      .ok (writeNbo 4 (int32 (date2j date.year date.month date.day - 2451545))) := by
  obtain ⟨first, last, positive, inside⟩ := valid
  have short := Date.monthLength_le date.year date.month
  have value : dateValue api date.value = .ok (int32 (date2j date.year date.month date.day - 2451545)) := by
    unfold dateValue Date.value
    dsimp only
    rw [reads.gregorian]
    show (do
      let year ← api.num2int (.int date.year)
      let month ← api.num2int (.int date.month)
      let day ← api.num2int (.int date.day)
      pure (int32 (date2j year month day - 2451545)) : Outcome Int) = _
    rw [reads.num2int.fits _ low high, reads.num2int.fits date.month (by omega) (by omega),
      reads.num2int.fits date.day (by omega) (by omega)]
    rfl
  rw [encode_of_size (e := .date) rfl, value, written_nboSecond]
  rfl

/-- A year that is no `int` is refused. -/
theorem encode_date_raises (reads : ReadsDates api) (outside : ¬(-2147483648 ≤ date.year ∧ date.year < 2147483648)) :
    ∃ msg, (Enc.date.encoder api).encode date.value = .error (.exn .rangeError msg) := by
  obtain ⟨msg, raised⟩ := reads.num2int.raises date.year outside
  have value : dateValue api date.value = .error (.exn .rangeError msg) := by
    unfold dateValue Date.value
    dsimp only
    rw [reads.gregorian]
    show (do
      let year ← api.num2int (.int date.year)
      let month ← api.num2int (.int date.month)
      let day ← api.num2int (.int date.day)
      pure (int32 (date2j year month day - 2451545)) : Outcome Int) = _
    rw [raised]
    rfl
  refine ⟨msg, ?_⟩
  rw [encode_of_size (e := .date) rfl, value, written_nboSecond]
  rfl

/-- **The arithmetic of the date coders is the Gregorian calendar** on the days that PostgreSQL has, and the encoder
undoes the decoder there. -/
theorem date_arithmetic (reads : ReadsDates api) :
    (∀ jd : Nat, jd ≤ 2147483493 → ∃ date : Date, date.Valid ∧ date.dayNumber = jd - 2440588 ∧
      j2dateGuarded jd = some (date.year, (date.month : Int), date.day) ∧ j2date jd = (date.year, (date.month : Int), date.day) ∧
      date2jGuarded date.year date.month date.day = some (jd : Int) ∧ date2j date.year date.month date.day = jd) ∧
    (∀ jd : Nat, jd < 2147483493 → ∀ date : Date, j2date jd = (date.year, (date.month : Int), date.day) →
      j2date (jd + 1 : Nat) = (date.next.year, (date.next.month : Int), date.next.day)) ∧
    ∀ val : Bytes, val.length = 4 → -2451545 ≤ readNbo val → readNbo val ≤ 2145031948 →
      ∃ value, pgBinDecDate val = .ok value ∧ (Enc.date.encoder api).encode value = .ok val := by
  refine ⟨fun jd high => ?_, fun jd high date same => ?_, fun val length low high => ?_⟩
  · have valid := Date.ofDayNumber_valid (jd - 2440588)
    have number := Date.dayNumber_ofDayNumber (jd - 2440588)
    have julian : (Date.ofDayNumber (jd - 2440588)).dayNumber + 2440588 = jd := by
      rw [number]
      omega
    refine ⟨Date.ofDayNumber (jd - 2440588), valid, number, (j2dateGuarded_eq high).trans ?_, j2date_eq high, ?_, ?_⟩
    · rw [j2date_eq high]
    · rw [date2jGuarded_eq valid (by omega) (by omega), julian]
    · rw [date2j_eq valid (by omega) (by omega), julian]
  · rw [j2date_eq (Nat.le_of_lt high)] at same
    have found : Date.ofDayNumber (jd - 2440588) = date := by
      generalize Date.ofDayNumber (jd - 2440588) = found at same
      obtain ⟨year, rest⟩ := Prod.mk.inj same
      obtain ⟨month, day⟩ := Prod.mk.inj rest
      cases found
      cases date
      exact (Date.mk.injEq ..).mpr ⟨year, Int.ofNat_inj.1 month, day⟩
    rw [j2date_eq high, ← found, ← Date.ofDayNumber_succ]
    have behind : ((jd + 1 : Nat) : Int) - 2440588 = jd - 2440588 + 1 := by
      push_cast
      omega
    rw [behind]
  · have valid := Date.ofDayNumber_valid (readNbo val + 10957)
    have number := Date.dayNumber_ofDayNumber (readNbo val + 10957)
    have bytes : (StoredDate.day (readNbo val) low high).binary = val := by
      rw [StoredDate.binary, ← length]
      exact writeNbo_readNbo val
    have decoded := pgBinDecDate_day low high
    rw [bytes] at decoded
    refine ⟨_, decoded, ?_⟩
    unfold calendarDate
    have years := shiftedYear_bounds valid (by omega) (by omega)
    have year : -2147483648 ≤ (Date.ofDayNumber (readNbo val + 10957)).year ∧
        (Date.ofDayNumber (readNbo val + 10957)).year < 2147483648 := by
      unfold shiftedYear at years
      split at years <;> omega
    rw [encode_date reads valid year.1 year.2, date2j_eq valid (by omega) (by omega), number]
    rw [show readNbo val + 10957 + 2440588 - 2451545 = readNbo val by omega, int32_eq (by omega) (by omega), ← length,
      writeNbo_readNbo]

theorem sample_readsDates : ReadsDates CApi.sample := ⟨CApi.sampleNum2_converts 31, fun _ _ _ => rfl⟩

/-- The last day that PostgreSQL has. -/
theorem date_arithmetic_last : ∃ value, pgBinDecDate [0x7f, 0xda, 0x97, 0x0c] = .ok value ∧
    (Enc.date.encoder CApi.sample).encode value = .ok [0x7f, 0xda, 0x97, 0x0c] :=
  (date_arithmetic sample_readsDates).2.2 _ rfl (by decide) (by decide)

end Encoder

end RubyPg.Binary
