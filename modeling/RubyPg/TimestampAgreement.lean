import RubyPg.Text.TimestampForm
import RubyPg.Binary.Timestamp

/-!
# Text and binary timestamps

Both decoders applied to what the server sends for one timestamp. The text decoder converts
local times through `mktime`; the binary one builds the instant at which UTC clocks show the
time and takes off the offset of that `Time`, which is the right one only where the zone has
the same offset at both instants, and is 0 for a `Time` in UTC.
-/

namespace RubyPg
set_option autoImplicit false
open Text Binary

/-- The finite timestamps, from 4714-11-24 BC up to the year 294277. -/
structure FiniteTimestamp (timestamp : Int) : Prop where
  low : -211813488000000000 ≤ timestamp
  high : timestamp < 9223371331200000000

/-- The text form of a timestamp without zone. -/
def serverText (timestamp : Int) : Bytes :=
  stampText (Civil.ofSeconds (wallOf timestamp)) (timestamp % 1000000).toNat

/-- Both return a `Time`, of the same instant. -/
def SameInstant (a b : Outcome Value) : Prop :=
  ∃ n, a.map Value.instant = .ok (some n) ∧ b.map Value.instant = .ok (some n)

/-- Every finite timestamp has fields the text form has room for. -/
theorem FiniteTimestamp.printable {timestamp : Int} (finite : FiniteTimestamp timestamp) :
    Printable (Civil.ofSeconds (wallOf timestamp)) := by
  obtain ⟨low, high⟩ := finite
  have valid := Date.ofDayNumber_valid (wallOf timestamp / 86400)
  have short := Date.monthLength_le (Date.ofDayNumber (wallOf timestamp / 86400)).year
    (Date.ofDayNumber (wallOf timestamp / 86400)).month
  have days : -2440588 ≤ wallOf timestamp / 86400 ∧ wallOf timestamp / 86400 < 106762940 := by
    unfold wallOf epochOffset
    omega
  have yearLow : -4713 ≤ Date.yearOf (wallOf timestamp / 86400) := by
    refine Date.le_yearOf (Int.le_trans ?_ days.1)
    decide
  have yearHigh : Date.yearOf (wallOf timestamp / 86400) ≤ 294276 := by
    refine Date.yearOf_le (Int.lt_of_lt_of_le days.2 ?_)
    decide
  have month := valid.month_pos
  have month' := valid.month_le
  have day := valid.day_pos
  have day' := valid.day_le
  exact
    { year_low := Int.le_trans (by decide) yearLow
      year_high := Int.le_trans yearHigh (by decide)
      mon := by simp only [Civil.ofSeconds]; omega
      day := by simp only [Civil.ofSeconds]; omega
      hour := by simp only [Civil.ofSeconds]; omega
      min := by simp only [Civil.ofSeconds]; omega
      sec := by simp only [Civil.ofSeconds]; omega }

section Decoders

variable {lib : TimeLib} {zone : Zone} {timestamp t : Int}

/-- The conversion gives the instant that the zone, or UTC, has for the time. -/
theorem stampTime_instant (exact : lib.Exact zone) {wall : Int} (once : zone.Once wall t) (flags : Nat) {fsec : Nat}
    (small : fsec < 1000000) :
    stampTime lib flags ⟨Civil.ofSeconds wall, fsec * 1000, none⟩ =
      .ok ⟨(if dbLocal flags then t else wall) * 1000000000 + fsec * 1000, appMode flags⟩ := by
  have new : ∀ sec nsec : Int, rbTimeTimespecNew sec nsec (appMode flags) =
      .ok ⟨sec * 1000000000 + nsec, appMode flags⟩ := by
    intro sec nsec
    unfold appMode
    split <;> rfl
  have usec : (if (fsec : Int) * 1000 ≠ 0 then (Civil.ofSeconds wall).sec * 1000000 + ((fsec : Int) * 1000).tdiv 1000
      else (Civil.ofSeconds wall).sec * 1000000) = (Civil.ofSeconds wall).sec * 1000000 + fsec := by
    rw [Int.mul_tdiv_cancel _ (by decide)]
    split <;> omega
  have utc := exact.timeNewUtc wall fsec (by omega) (by omega)
  have loc := exact.timeNewLocal wall t fsec once (by omega) (by omega)
  unfold stampTime slowTime
  simp only [exact.timegm wall, exact.mktime wall t once, new, usec]
  by_cases db : dbLocal flags = true
  · simp only [db, if_true, loc]
    split <;> rfl
  · simp only [db, if_false, Bool.false_eq_true, utc]
    split <;> rfl

theorem pgTextDecTimestamp_instant (exact : lib.Exact zone) (finite : FiniteTimestamp timestamp)
    (once : zone.Once (wallOf timestamp) t) (flags : Nat) :
    (pgTextDecTimestamp lib zone flags (serverText timestamp)).map Value.instant =
      .ok (some ((if dbLocal flags then t else wallOf timestamp) * 1000000000 + timestamp % 1000000 * 1000)) := by
  have fsec : ((timestamp % 1000000).toNat : Int) = timestamp % 1000000 := by omega
  have converted := stampTime_instant exact once flags (show (timestamp % 1000000).toNat < 1000000 by omega)
  unfold pgTextDecTimestamp serverText
  rw [parseStamp_stampText finite.printable (by omega)]
  simp only [converted, bind, Except.bind, pure, Except.pure, Except.map, RbTime.instant_value]
  rw [fsec]

/-- **The decoders agree** exactly where the offset that the binary one takes off is the one the zone
has at the instant. -/
theorem timestamp_decoders_agree_iff (exact : lib.Exact zone) (finite : FiniteTimestamp timestamp)
    (once : zone.Once (wallOf timestamp) t) (flags : Nat) (tuple field : Int) :
    SameInstant (pgTextDecTimestamp lib zone flags (serverText timestamp))
        (pgBinDecTimestamp zone flags (writeNbo 8 timestamp) tuple field) ↔
      (dbLocal flags = true → zone.offset t = if appLocal flags then zone.offset (wallOf timestamp) else 0) := by
  have low : pgInt64Min < timestamp := Int.lt_of_lt_of_le (by decide) finite.low
  have high : timestamp < pgInt64Max := Int.lt_trans finite.high (by decide)
  have same : t + zone.offset t = wallOf timestamp := once.1
  unfold SameInstant
  rw [pgTextDecTimestamp_instant exact finite once flags, pgBinDecTimestamp_instant low high]
  simp only [Except.ok.injEq, Option.some.injEq, exists_eq_left']
  by_cases db : dbLocal flags = true
  · by_cases app : appLocal flags = true
    · simp only [db, app, if_true, true_implies]
      omega
    · simp only [db, app, if_true, if_false, Bool.false_eq_true, true_implies]
      omega
  · simp [db]

end Decoders

/-- A zone that never changes. -/
def Zone.fixed (offset : Int) : Zone := ⟨fun _ => offset⟩

/-- The seconds from 1970 to a date, an hour and a minute in UTC. -/
def secondsTo (year mon day hour min : Int) : Int :=
  (Date.mk year mon.toNat day).dayNumber * 86400 + hour * 3600 + min * 60

/-- libc and Ruby in such a zone. -/
def TimeLib.fixed (offset : Int) : TimeLib where
  timegm tm := secondsTo (tm.tmYear + 1900) (tm.tmMon + 1) tm.tmMday tm.tmHour tm.tmMin + tm.tmSec
  mktime tm := secondsTo (tm.tmYear + 1900) (tm.tmMon + 1) tm.tmMday tm.tmHour tm.tmMin + tm.tmSec - offset
  timeNew year mon day hour min usec utcOffset :=
    .ok ((secondsTo year mon day hour min - utcOffset.getD offset) * 1000000000 + usec * 1000)

theorem secondsTo_civil (wall : Int) :
    secondsTo (Civil.ofSeconds wall).year (Civil.ofSeconds wall).mon (Civil.ofSeconds wall).day
      (Civil.ofSeconds wall).hour (Civil.ofSeconds wall).min + (Civil.ofSeconds wall).sec = wall := by
  have date : (Date.mk (Civil.ofSeconds wall).year (Civil.ofSeconds wall).mon.toNat (Civil.ofSeconds wall).day) =
      Date.ofDayNumber (wall / 86400) := rfl
  rw [secondsTo, date, Date.dayNumber_ofDayNumber]
  simp only [Civil.ofSeconds]
  omega

theorem Zone.fixed_once {offset wall t : Int} : (Zone.fixed offset).Once wall t ↔ t = wall - offset := by
  simp only [Zone.Once, Zone.fixed]
  constructor
  · omega
  · intro equal
    exact ⟨by omega, by omega⟩

theorem TimeLib.fixed_exact (offset : Int) : (TimeLib.fixed offset).Exact (Zone.fixed offset) where
  timegm wall := by
    have seconds := secondsTo_civil wall
    simp only [fixed, Civil.tm, Int.sub_add_cancel]
    exact seconds
  mktime wall t once := by
    have seconds := secondsTo_civil wall
    simp only [fixed, Civil.tm, Int.sub_add_cancel, Zone.fixed_once.1 once]
    omega
  timeNewUtc wall usec _ _ := by
    have seconds := secondsTo_civil wall
    simp only [fixed, Option.getD_some, Except.ok.injEq]
    omega
  timeNewLocal wall t usec once _ _ := by
    have seconds := secondsTo_civil wall
    simp only [fixed, Option.getD_none, Except.ok.injEq, Zone.fixed_once.1 once]
    omega

/-- In a zone one hour ahead, local times shown as local times agree. -/
theorem timestamp_decoders_agree_local :
    SameInstant (pgTextDecTimestamp (TimeLib.fixed 3600) (Zone.fixed 3600) 3 (serverText 0))
      (pgBinDecTimestamp (Zone.fixed 3600) 3 (writeNbo 8 0) 0 0) :=
  (timestamp_decoders_agree_iff (TimeLib.fixed_exact 3600) ⟨by decide, by decide⟩ (Zone.fixed_once.2 rfl) 3 0 0).2
    fun _ => rfl

/-- Local times shown in UTC do not: the binary decoder takes off the offset of UTC. -/
theorem timestamp_decoders_differ_utc :
    (TimeLib.fixed 3600).Exact (Zone.fixed 3600) ∧ FiniteTimestamp 0 ∧
      (Zone.fixed 3600).Once (wallOf 0) (wallOf 0 - 3600) ∧
      (pgTextDecTimestamp (TimeLib.fixed 3600) (Zone.fixed 3600) 1 (serverText 0)).map Value.instant =
        .ok (some 946681200000000000) ∧
      (pgBinDecTimestamp (Zone.fixed 3600) 1 (writeNbo 8 0) 0 0).map Value.instant =
        .ok (some 946684800000000000) ∧
      ¬SameInstant (pgTextDecTimestamp (TimeLib.fixed 3600) (Zone.fixed 3600) 1 (serverText 0))
        (pgBinDecTimestamp (Zone.fixed 3600) 1 (writeNbo 8 0) 0 0) := by
  have exact := TimeLib.fixed_exact 3600
  have finite : FiniteTimestamp 0 := ⟨by decide, by decide⟩
  have once : (Zone.fixed 3600).Once (wallOf 0) (wallOf 0 - 3600) := Zone.fixed_once.2 rfl
  have text := pgTextDecTimestamp_instant exact finite once 1
  have binary := @pgBinDecTimestamp_instant (Zone.fixed 3600) 1 0 0 0 (by decide) (by decide)
  refine ⟨exact, finite, once, text, binary, ?_⟩
  rintro ⟨n, fromText, fromBinary⟩
  have instants := Except.ok.inj ((text.symm.trans fromText).trans (fromBinary.symm.trans binary))
  exact absurd instants (by decide)

end RubyPg
