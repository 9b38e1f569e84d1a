import RubyPg.Binary.DateArithmetic
import RubyPg.Binary.Timestamp

/-!
# The binary encoders of times and dates

`pg_bin_enc_timestamp` and `pg_bin_enc_date` compute in numbers of 64 and 32 bits without a check. Timestamps come
back as the microsecond that was encoded (`timestamp_round_trip`); what is out of range, or a date with a year
before -4800 that `date2j` divides wrongly, is written as another time or date (`exact_or_refused_iff`).
-/

namespace RubyPg.Binary
set_option autoImplicit false
open TwoPass

variable {api : CApi} {zone : Zone}

/-- What is assumed of Ruby: a Time with a `time_t` of seconds has a `struct timespec`, and a local time the offset
of the zone. -/
structure ReadsTimes (api : CApi) (zone : Zone) : Prop where
  timespec : ∀ (sec : Int) (nsec : Nat) (utcOffset : Int), -(2 ^ 63) ≤ sec → sec < 2 ^ 63 → nsec < 1000000000 →
    api.timespec (.time sec nsec utcOffset) = .ok (sec, (nsec : Int))
  getlocal : ∀ (sec : Int) (nsec : Nat) (utcOffset : Int), -(2 ^ 63) ≤ sec → sec < 2 ^ 63 → nsec < 1000000000 →
    api.getlocal (.time sec nsec utcOffset) = .ok (sec, nsec, zone.offset sec)

/-- The microseconds of a time since 2000-01-01, on the clock of the flags. -/
def microsecondsOf (zone : Zone) (flags : Nat) (sec : Int) (nsec : Nat) : Int :=
  (sec - epochOffset) * 1000000 + nsec / 1000 + if dbLocal flags then zone.offset sec * 1000000 else 0

/-- The bytes of a Time. -/
theorem encode_time (reads : ReadsTimes api zone) (flags : Nat) {sec : Int} {nsec : Nat} (utcOffset : Int)
    (low : -(2 ^ 63) ≤ sec) (high : sec < 2 ^ 63) (fraction : nsec < 1000000000) :
    ((Enc.timestamp flags).encoder api).encode (.time sec nsec utcOffset) =
      .ok (writeNbo 8 (microsecondsOf zone flags sec nsec)) := by
  have exact : timestampOf sec nsec = (sec - epochOffset) * 1000000 + nsec / 1000 := by
    unfold timestampOf
    rw [Int.tdiv_eq_ediv_of_nonneg (Int.natCast_nonneg nsec)]
    rfl
  unfold microsecondsOf
  cases db : dbLocal flags with
  | true =>
    have first : (Enc.timestamp flags).func api (.time sec nsec utcOffset) =
        .ok (.size 8 (nboSecond 8 (.ok (timestampOf sec nsec + zone.offset sec * 1000000)))) := by
      show pgBinEncTimestamp api flags (.time sec nsec utcOffset) = _
      unfold pgBinEncTimestamp
      dsimp only
      rw [if_pos db, reads.getlocal sec nsec utcOffset low high fraction]
      rfl
    rw [encode_of_size first, written_nboSecond, exact]
    rfl
  | false =>
    have first : (Enc.timestamp flags).func api (.time sec nsec utcOffset) =
        .ok (.size 8 (nboSecond 8 (.ok (timestampOf sec nsec)))) := by
      show pgBinEncTimestamp api flags (.time sec nsec utcOffset) = _
      unfold pgBinEncTimestamp timestampValue
      dsimp only
      rw [if_neg (Bool.eq_false_iff.1 db), reads.timespec sec nsec utcOffset low high fraction]
      rfl
    rw [encode_of_size first, written_nboSecond, exact, if_neg Bool.false_ne_true, Int.add_zero]
    rfl

/-- Both roundings cancel: the encoder gets the floored seconds and the nanoseconds behind them. -/
theorem microsecondsOf_nanosOf {flags : Nat} (utc : dbLocal flags = false) (timestamp : Int) :
    microsecondsOf zone flags (nanosOf timestamp / 1000000000) (nanosOf timestamp % 1000000000).toNat = timestamp := by
  unfold microsecondsOf
  rw [utc, if_neg Bool.false_ne_true]
  unfold nanosOf wallOf
  omega

/-- **Binary timestamps come back**, for UTC in the database: the bytes as they are, and a Time down to its
microsecond. -/
theorem timestamp_round_trip (reads : ReadsTimes api zone) {decFlags encFlags : Nat} (decUtc : dbLocal decFlags = false)
    (encUtc : dbLocal encFlags = false) (tuple field : Int) :
    (∀ val : Bytes, val.length = 8 → readNbo val ≠ pgInt64Max → readNbo val ≠ pgInt64Min →
      ∃ value, pgBinDecTimestamp zone decFlags val tuple field = .ok value ∧
        ((Enc.timestamp encFlags).encoder api).encode value = .ok val) ∧
    ∀ (sec : Int) (nsec : Nat) (utcOffset : Int), -(2 ^ 63) ≤ sec → sec < 2 ^ 63 → nsec < 1000000000 →
      pgInt64Min < microsecondsOf zone encFlags sec nsec → microsecondsOf zone encFlags sec nsec < pgInt64Max →
      ∃ val, ((Enc.timestamp encFlags).encoder api).encode (.time sec nsec utcOffset) = .ok val ∧
        (pgBinDecTimestamp zone decFlags val tuple field).map Value.instant =
          .ok (some ((sec * 1000000000 + nsec) / 1000 * 1000)) := by
  constructor
  · intro val length notMax notMin
    have bounds := readNbo_bounds (k := 7) length
    have low : pgInt64Min < readNbo val := by
      unfold pgInt64Min at notMin ⊢
      have size : ((256 ^ (7 + 1) : Nat) : Int) = 18446744073709551616 := by decide
      omega
    have high : readNbo val < pgInt64Max := by
      unfold pgInt64Max at notMax ⊢
      have size : ((256 ^ (7 + 1) : Nat) : Int) = 18446744073709551616 := by decide
      omega
    have bytes : writeNbo 8 (readNbo val) = val := length ▸ writeNbo_readNbo val
    have decoded : pgBinDecTimestamp zone decFlags (writeNbo 8 (readNbo val)) tuple field = _ :=
      pgBinDecTimestamp_utc decUtc low high
    rw [bytes] at decoded
    refine ⟨_, decoded, ?_⟩
    unfold RbTime.value
    have seconds : -(2 ^ 63) ≤ nanosOf (readNbo val) / 1000000000 ∧ nanosOf (readNbo val) / 1000000000 < 2 ^ 63 := by
      unfold nanosOf wallOf epochOffset
      unfold pgInt64Min at low
      unfold pgInt64Max at high
      omega
    rw [encode_time reads encFlags _ seconds.1 seconds.2 (by omega), microsecondsOf_nanosOf encUtc, bytes]
  · intro sec nsec utcOffset low high fraction above below
    refine ⟨_, encode_time reads encFlags utcOffset low high fraction, ?_⟩
    rw [pgBinDecTimestamp_utc decUtc above below]
    simp only [Except.map, RbTime.instant_value, Except.ok.injEq, Option.some.injEq]
    unfold microsecondsOf nanosOf wallOf
    rw [encUtc, if_neg Bool.false_ne_true]
    omega

/-- The sample API in a time zone. -/
def sampleIn (zone : Zone) : CApi :=
  { CApi.sample with
    getlocal := fun
      | .time sec nsec _ => .ok (sec, nsec, zone.offset sec)
      | _ => rbRaise .noMethodError "undefined method 'getlocal'" }

theorem sampleIn_readsTimes (zone : Zone) : ReadsTimes (sampleIn zone) zone where
  timespec _ _ _ _ _ _ := rfl
  getlocal _ _ _ _ _ _ := rfl

theorem sampleIn_readsDates (zone : Zone) : ReadsDates (sampleIn zone) :=
  ⟨sample_readsDates.num2int, sample_readsDates.gregorian⟩

/-- The last microsecond before 2000. -/
theorem timestamp_round_trip_last :
    ∃ value, pgBinDecTimestamp ⟨fun _ => 0⟩ 0 (writeNbo 8 (-1)) 0 0 = .ok value ∧
      ((Enc.timestamp 0).encoder (sampleIn ⟨fun _ => 0⟩)).encode value = .ok (writeNbo 8 (-1)) :=
  (timestamp_round_trip (sampleIn_readsTimes ⟨fun _ => 0⟩) rfl rfl 0 0).1 _ rfl (by decide) (by decide)

section Dates

/-- What is written: a number of `k` bytes that none of the two infinities has, or an exception. -/
def ExactOrRefused (k : Nat) (exact infinity negInfinity : Int) : Outcome Bytes → Prop
  | .ok bytes => bytes.length = k ∧ readNbo bytes = exact ∧ readNbo bytes ≠ infinity ∧ readNbo bytes ≠ negInfinity
  | .error (.exn _ _) => True
  | .error _ => False

/-- The year that begins with the March in front of the date. -/
def marchYear (date : Date) : Int := if date.month > 2 then date.year else date.year - 1

/-- The leap days that truncated division counts for a year before -4800 are one too many, but for leap years. -/
theorem leaps_negative {year : Int} (negative : year < 0) :
    year.tdiv 4 - year.tdiv 100 + (year.tdiv 100).tdiv 4 =
      year / 4 - year / 100 + year / 400 + if Date.IsLeap year then 0 else 1 := by
  obtain ⟨n, rfl⟩ : ∃ n : Nat, year = -(n : Int) := ⟨year.natAbs, by omega⟩
  have hundreds : 0 ≤ (n : Int) / 100 := by omega
  rw [Int.neg_tdiv, Int.neg_tdiv, Int.neg_tdiv, Int.tdiv_eq_ediv_of_nonneg (Int.natCast_nonneg n),
    Int.tdiv_eq_ediv_of_nonneg (Int.natCast_nonneg n), Int.tdiv_eq_ediv_of_nonneg hundreds]
  by_cases leap : Date.IsLeap (-(n : Int))
  · rw [if_pos leap]
    obtain ⟨four, century⟩ := leap
    omega
  · rw [if_neg leap]
    have plain : -(n : Int) % 4 ≠ 0 ∨ -(n : Int) % 100 = 0 ∧ -(n : Int) % 400 ≠ 0 := by
      unfold Date.IsLeap at leap
      omega
    omega

variable {date : Date}

/-- The days since 2000-01-01. -/
def daysOf (date : Date) : Int := date.dayNumber - 10957

/-- What is written for a date whose day fits into 32 bits. -/
theorem date2j_near (valid : date.Valid) (low : -2147483648 ≤ daysOf date) (high : daysOf date < 2147483648) :
    int32 (date2j date.year date.month date.day - 2451545) =
      int32 (daysOf date + if -4800 ≤ marchYear date ∨ Date.IsLeap (marchYear date) then 0 else 1) := by
  have sum := dayNumber_shifted valid
  have bounds := shiftedMonth_bounds valid
  have shift : shiftedYear date = marchYear date + 4800 := by
    unfold shiftedYear marchYear
    split <;> omega
  have small : -2147483648 ≤ shiftedYear date ∧ shiftedYear date < 2147483648 := by
    unfold daysOf at low high
    omega
  have leap : Date.IsLeap (shiftedYear date) ↔ Date.IsLeap (marchYear date) := by
    rw [shift]
    unfold Date.IsLeap
    omega
  have leaps : (shiftedYear date).tdiv 4 - (shiftedYear date).tdiv 100 + ((shiftedYear date).tdiv 100).tdiv 4 =
      shiftedYear date / 4 - shiftedYear date / 100 + shiftedYear date / 400 +
        if -4800 ≤ marchYear date ∨ Date.IsLeap (marchYear date) then 0 else 1 := by
    by_cases nonneg : 0 ≤ shiftedYear date
    · rw [leaps_nonneg nonneg, if_pos (.inl (by omega)), Int.add_zero]
    · rw [leaps_negative (Int.lt_of_not_ge nonneg)]
      by_cases even : Date.IsLeap (marchYear date)
      · rw [if_pos (leap.2 even), if_pos (.inr even)]
      · rw [if_neg (mt leap.1 even), if_neg fun either => even (either.resolve_left (by omega))]
  rw [date2j_shifted valid small.1 small.2, leaps]
  unfold int32
  rw [Int.bmod_sub_bmod]
  congr 1
  unfold daysOf
  omega

theorem exactOrRefused_date (reads : ReadsDates api) (valid : date.Valid) :
    ExactOrRefused 4 (daysOf date) pgInt32Max pgInt32Min ((Enc.date.encoder api).encode date.value) ↔
      ¬(-2147483648 ≤ date.year ∧ date.year < 2147483648) ∨ pgInt32Min < daysOf date ∧ daysOf date < pgInt32Max ∧
        (-4800 ≤ marchYear date ∨ Date.IsLeap (marchYear date)) := by
  unfold pgInt32Max pgInt32Min
  by_cases fits : -2147483648 ≤ date.year ∧ date.year < 2147483648
  · have bounds := int32_bounds (date2j date.year date.month date.day - 2451545)
    have size : ((256 ^ 4 : Nat) : Int) = 4294967296 := by decide
    rw [encode_date reads valid fits.1 fits.2]
    unfold ExactOrRefused
    dsimp only
    rw [readNbo_writeNbo (by omega) (by omega), length_writeNbo]
    constructor
    · rintro ⟨-, exact', notMax, notMin⟩
      refine .inr ⟨by omega, by omega, ?_⟩
      by_contra wrong
      have written := date2j_near valid (by omega) (by omega)
      rw [if_neg wrong, exact'] at written
      -- the next day is another number, also in 32 bits
      have next := int32_bounds (daysOf date + 1)
      have within := int32_eq (n := daysOf date + 1)
      omega
    · rintro (outside | ⟨above, below, even⟩)
      · exact absurd fits outside
      · rw [date2j_near valid (by omega) (by omega), if_pos even, Int.add_zero, int32_eq (by omega) (by omega)]
        exact ⟨rfl, rfl, by omega, by omega⟩
  · obtain ⟨msg, raised⟩ := encode_date_raises reads fits
    rw [raised]
    exact iff_of_true trivial (.inl fits)

end Dates

theorem exactOrRefused_time (reads : ReadsTimes api zone) (flags : Nat) {sec : Int} {nsec : Nat} (utcOffset : Int)
    (low : -(2 ^ 63) ≤ sec) (high : sec < 2 ^ 63) (fraction : nsec < 1000000000) :
    ExactOrRefused 8 (microsecondsOf zone flags sec nsec) pgInt64Max pgInt64Min
        (((Enc.timestamp flags).encoder api).encode (.time sec nsec utcOffset)) ↔
      pgInt64Min < microsecondsOf zone flags sec nsec ∧ microsecondsOf zone flags sec nsec < pgInt64Max := by
  have size : ((256 ^ (7 + 1) : Nat) : Int) = 18446744073709551616 := by decide
  rw [encode_time reads flags utcOffset low high fraction]
  unfold ExactOrRefused pgInt64Max pgInt64Min
  dsimp only
  constructor
  · rintro ⟨length, exact', notMax, notMin⟩
    have bounds := readNbo_bounds (k := 7) length
    omega
  · rintro ⟨above, below⟩
    rw [readNbo_writeNbo (by rw [show 8 = 7 + 1 from rfl]; omega) (by rw [show 8 = 7 + 1 from rfl]; omega), length_writeNbo]
    exact ⟨rfl, rfl, by omega, by omega⟩

/-- **What the binary encoders of times and dates write is exact** exactly when its number fits in front of the
infinities, for dates also only from the year -4800 on or in a leap year, as `date2j` begins the years with March. -/
theorem exact_or_refused_iff (times : ReadsTimes api zone) (dates : ReadsDates api) :
    (∀ (flags : Nat) (sec : Int) (nsec : Nat) (utcOffset : Int), -(2 ^ 63) ≤ sec → sec < 2 ^ 63 → nsec < 1000000000 →
      (ExactOrRefused 8 (microsecondsOf zone flags sec nsec) pgInt64Max pgInt64Min
          (((Enc.timestamp flags).encoder api).encode (.time sec nsec utcOffset)) ↔
        pgInt64Min < microsecondsOf zone flags sec nsec ∧ microsecondsOf zone flags sec nsec < pgInt64Max)) ∧
    ∀ date : Date, date.Valid →
      (ExactOrRefused 4 (daysOf date) pgInt32Max pgInt32Min ((Enc.date.encoder api).encode date.value) ↔
        ¬(-2147483648 ≤ date.year ∧ date.year < 2147483648) ∨ pgInt32Min < daysOf date ∧ daysOf date < pgInt32Max ∧
          (-4800 ≤ marchYear date ∨ Date.IsLeap (marchYear date))) :=
  ⟨fun flags _ _ utcOffset low high fraction => exactOrRefused_time times flags utcOffset low high fraction,
    fun _ valid => exactOrRefused_date dates valid⟩

/-- Both are exact at the last moment of the year -1. -/
theorem exact_or_refused_last :
    ExactOrRefused 8 (microsecondsOf ⟨fun _ => 0⟩ 0 (-62167219201) 999999999) pgInt64Max pgInt64Min
        (((Enc.timestamp 0).encoder (sampleIn ⟨fun _ => 0⟩)).encode (.time (-62167219201) 999999999 0)) ∧
      ExactOrRefused 4 (daysOf ⟨-1, 12, 31⟩) pgInt32Max pgInt32Min
        ((Enc.date.encoder (sampleIn ⟨fun _ => 0⟩)).encode (Date.value ⟨-1, 12, 31⟩)) := by
  obtain ⟨times, dates⟩ := exact_or_refused_iff (sampleIn_readsTimes ⟨fun _ => 0⟩) (sampleIn_readsDates ⟨fun _ => 0⟩)
  refine ⟨(times 0 (-62167219201) 999999999 0 (by decide) (by decide) (by decide)).2 ?_, (dates ⟨-1, 12, 31⟩ ?_).2 ?_⟩
  · decide
  · exact ⟨by decide, by decide, by decide, by decide⟩
  · decide

/-- A time half a million years ahead is written as half a second before 2000, and the first of March of the year
-4801 as the second. -/
theorem inexact_samples :
    ((Enc.timestamp 0).encoder CApi.sample).encode (.time 18447690758509 0 0) =
        .ok (writeNbo 8 (-551616)) ∧
      ¬ExactOrRefused 8 (microsecondsOf ⟨fun _ => 0⟩ 0 18447690758509 0) pgInt64Max pgInt64Min
        (((Enc.timestamp 0).encoder CApi.sample).encode (.time 18447690758509 0 0)) ∧
      (Enc.date.encoder CApi.sample).encode (.date (-4801) 3 1) = .ok (writeNbo 4 (daysOf ⟨-4801, 3, 2⟩)) ∧
      ¬ExactOrRefused 4 (daysOf ⟨-4801, 3, 1⟩) pgInt32Max pgInt32Min
        ((Enc.date.encoder CApi.sample).encode (.date (-4801) 3 1)) := by
  have time : ((Enc.timestamp 0).encoder CApi.sample).encode (.time 18447690758509 0 0) = .ok (writeNbo 8 (-551616)) := by
    rfl
  have date : (Enc.date.encoder CApi.sample).encode (.date (-4801) 3 1) = .ok (writeNbo 4 (daysOf ⟨-4801, 3, 2⟩)) := by
    rfl
  refine ⟨time, ?_, date, ?_⟩
  · rw [time]
    rintro ⟨-, wrong, -⟩
    exact absurd wrong (by decide)
  · rw [date]
    rintro ⟨-, wrong, -⟩
    exact absurd wrong (by decide)

end RubyPg.Binary
