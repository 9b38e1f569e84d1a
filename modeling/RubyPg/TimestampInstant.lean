import Mathlib.Data.Bool.AllAny
import RubyPg.TimestampAgreement
import RubyPg.Text.TimestampSyntax

/-!
# The instant of a text timestamp

What a timestamp denotes is an instant of the proleptic Gregorian calendar, to the nanosecond.
The decoder gives it on the fast path. `timegm` answers -1 for 1969-12-31 23:59:59, which is
also its error value, so that second takes the slow path, where the fraction is a number of
microseconds (`denotes_iff`).
-/

namespace RubyPg
set_option autoImplicit false
open Text

/-- `timegm` and `Time.new` compute the proleptic Gregorian calendar. -/
structure TimeLib.Gregorian (lib : TimeLib) : Prop where
  timegm : ∀ wall, lib.timegm (Civil.ofSeconds wall).tm = wall
  timeNew : ∀ wall usec offset, 0 ≤ usec → usec < 1000000 → -86400 < offset → offset < 86400 →
    let c := Civil.ofSeconds wall
    lib.timeNew c.year c.mon c.day c.hour c.min (c.sec * 1000000 + usec) (some offset) =
      .ok ((wall - offset) * 1000000000 + usec * 1000)

namespace Civil

/-- The fields of a date and time that exist. -/
structure Valid (c : Civil) : Prop where
  date : (Date.mk c.year c.mon.toNat c.day).Valid
  hour : 0 ≤ c.hour ∧ c.hour < 24
  min : 0 ≤ c.min ∧ c.min < 60
  sec : 0 ≤ c.sec ∧ c.sec < 60

/-- The seconds from 1970-01-01 00:00:00 on. -/
def seconds (c : Civil) : Int :=
  (Date.mk c.year c.mon.toNat c.day).dayNumber * 86400 + c.hour * 3600 + c.min * 60 + c.sec

theorem ofSeconds_seconds {c : Civil} (valid : c.Valid) : ofSeconds c.seconds = c := by
  obtain ⟨date, hour, min, sec⟩ := valid
  have month := date.month_pos
  have day : c.seconds / 86400 = (Date.mk c.year c.mon.toNat c.day).dayNumber := by
    unfold seconds
    omega
  have time : c.seconds % 86400 = c.hour * 3600 + c.min * 60 + c.sec := by
    unfold seconds
    omega
  have written := Date.ofDayNumber_dayNumber date
  rw [← day] at written
  have positive : ((c.mon.toNat : Nat) : Int) = c.mon := by
    simp only at month
    omega
  unfold ofSeconds
  rw [written]
  simp only [positive]
  rw [Civil.mk.injEq]
  refine ⟨rfl, rfl, rfl, ?_, ?_, ?_⟩ <;> omega

end Civil

namespace Text.StampSyntax

/-- Every field is in the range of the calendar. -/
structure InRange (st : StampSyntax) : Prop where
  civil : st.civil.Valid
  zone : ∀ z ∈ st.zone, z.hour.value < 24 ∧ ZoneSyntax.partValue z.minute < 60 ∧ ZoneSyntax.partValue z.second < 60

/-- The text or the flags say where the time is read from a clock. -/
def Placed (st : StampSyntax) (flags : Nat) : Prop := st.zone ≠ none ∨ dbLocal flags = false

/-- The distance from UTC. -/
def offset (st : StampSyntax) : Int := (st.zone.map ZoneSyntax.offset).getD 0

/-- The instant, in nanoseconds since 1970. -/
def instant (st : StampSyntax) : Int := (st.civil.seconds - st.offset) * 1000000000 + st.nanos

/-- The last second before 1970. -/
def lastSecond : Civil := ⟨1969, 12, 31, 23, 59, 59⟩

end Text.StampSyntax

/-- **What the decoder promises** for a string. -/
structure Denotes (lib : TimeLib) (zone : Zone) (flags : Nat) (val : Bytes) : Prop where
  instant : ∀ st : StampSyntax, st.text = val → st.InRange → st.Placed flags →
    (pgTextDecTimestamp lib zone flags val).map Value.instant = .ok (some st.instant)
  other : (¬∃ st : StampSyntax, st.text = val) → pgTextDecTimestamp lib zone flags val = .ok (.str val)

namespace Text.StampSyntax

theorem nanos_lt (st : StampSyntax) : st.nanos < 1000000000 := by
  have small := readDigits_lt st.fractionDigits
  have positive : 0 < 10 ^ st.fraction.length := Nat.pow_pos (by decide)
  apply (Nat.div_lt_iff_lt_mul positive).2
  rw [Nat.mul_comm]
  exact Nat.mul_lt_mul_of_pos_left small (by decide)

theorem partValue_nonneg (part : Option TwoDigits) : 0 ≤ ZoneSyntax.partValue part := by
  cases part with
  | none => exact Int.le_refl 0
  | some two => exact Int.natCast_nonneg _

/-- An offset is less than a day. -/
theorem InRange.offset_lt {st : StampSyntax} (inRange : st.InRange) {z : ZoneSyntax} (given : st.zone = some z) :
    -86400 < z.offset ∧ z.offset < 86400 := by
  obtain ⟨hour, minute, second⟩ := inRange.zone z given
  have hours : 0 ≤ z.hour.value := Int.natCast_nonneg _
  have minutes := partValue_nonneg z.minute
  have seconds := partValue_nonneg z.second
  unfold ZoneSyntax.offset
  split <;> omega

theorem seconds_lastSecond {st : StampSyntax} (inRange : st.InRange) :
    st.civil.seconds = -1 ↔ st.civil = lastSecond := by
  constructor
  · intro last
    have back := Civil.ofSeconds_seconds inRange.civil
    rw [last] at back
    exact back.symm.trans (by decide)
  · intro last
    rw [last]
    decide

variable {lib : TimeLib} {st : StampSyntax} {flags : Nat}

/-- The slow path gives the instant to the microsecond. -/
theorem slowTime_nanos (gregorian : lib.Gregorian) (inRange : st.InRange) (placed : st.Placed flags) :
    (slowTime lib flags st.stamp).map RbTime.nanos =
      .ok ((st.civil.seconds - st.offset) * 1000000000 + (st.nanos / 1000 * 1000 : Nat)) := by
  have small := st.nanos_lt
  have usec : (if st.stamp.nsec ≠ 0 then st.stamp.civil.sec * 1000000 + st.stamp.nsec.tdiv 1000
      else st.stamp.civil.sec * 1000000) = st.civil.sec * 1000000 + (st.nanos / 1000 : Nat) := by
    have nsec : st.stamp.nsec = st.nanos := rfl
    have sec : st.stamp.civil.sec = st.civil.sec := rfl
    have quotient : st.stamp.nsec.tdiv 1000 = (st.nanos / 1000 : Nat) := rfl
    rw [quotient, sec]
    split <;> omega
  have created := fun offset => gregorian.timeNew st.civil.seconds (st.nanos / 1000 : Nat) offset (by omega) (by omega)
  rw [Civil.ofSeconds_seconds inRange.civil] at created
  simp only at created
  have scaled : (st.nanos / 1000 * 1000 : Nat) = ((st.nanos / 1000 : Nat) : Int) * 1000 := by omega
  unfold slowTime
  simp only [usec]
  simp only [stamp]
  cases given : st.zone with
  | some z =>
    have bound := inRange.offset_lt given
    simp only [Option.map_some, created z.offset bound.1 bound.2, offset, given, Option.getD_some, scaled]
    rfl
  | none =>
    have utc : dbLocal flags = false := placed.resolve_left fun absent => absent given
    simp only [Option.map_none, utc, Bool.false_eq_true, if_false, created 0 (by decide) (by decide), offset, given,
      Option.getD_none, scaled]
    rfl

/-- **The conversion is exact on the fast path** and to the microsecond on the slow one. -/
theorem stampTime_nanos (gregorian : lib.Gregorian) (inRange : st.InRange) (placed : st.Placed flags) :
    (stampTime lib flags st.stamp).map RbTime.nanos = .ok ((st.civil.seconds - st.offset) * 1000000000 +
      if st.civil = lastSecond then ((st.nanos / 1000 * 1000 : Nat) : Int) else st.nanos) := by
  have slow := slowTime_nanos gregorian inRange placed
  have seconds := gregorian.timegm st.civil.seconds
  rw [Civil.ofSeconds_seconds inRange.civil] at seconds
  have last := seconds_lastSecond inRange
  unfold stampTime
  by_cases before : st.civil = lastSecond
  · rw [if_pos before]
    cases given : st.zone with
    | some z =>
      simp only [stamp, given, Option.map_some, seconds, last.2 before] at slow ⊢
      exact slow
    | none =>
      have utc : dbLocal flags = false := placed.resolve_left fun absent => absent given
      simp only [stamp, given, Option.map_none, utc, seconds, last.2 before] at slow ⊢
      exact slow
  · have fast : st.civil.seconds ≠ -1 := mt last.1 before
    rw [if_neg before]
    cases given : st.zone with
    | some z =>
      have bound := inRange.offset_lt given
      simp only [stamp, given, Option.map_some, seconds, ne_eq, fast, not_false_eq_true, if_true, offset,
        Option.getD_some, rbTimeTimespecNew, if_pos bound]
      rfl
    | none =>
      have utc : dbLocal flags = false := placed.resolve_left fun absent => absent given
      simp only [stamp, given, Option.map_none, utc, Bool.false_eq_true, if_false, seconds, ne_eq, fast,
        not_false_eq_true, if_true, offset, Option.getD_none]
      unfold appMode
      split
      · simp [rbTimeTimespecNew, Except.map, pure, Except.pure]
      · simp [rbTimeTimespecNew, Except.map, pure, Except.pure]

/-- The decoder on a timestamp. -/
theorem pgTextDecTimestamp_text (gregorian : lib.Gregorian) (zone : Zone) (inRange : st.InRange)
    (placed : st.Placed flags) :
    (pgTextDecTimestamp lib zone flags st.text).map Value.instant =
      .ok (some ((st.civil.seconds - st.offset) * 1000000000 +
        if st.civil = lastSecond then ((st.nanos / 1000 * 1000 : Nat) : Int) else st.nanos)) := by
  have converted := stampTime_nanos gregorian inRange placed
  unfold pgTextDecTimestamp
  rw [parseStamp_text]
  cases time : stampTime lib flags st.stamp with
  | error e =>
    rw [time] at converted
    cases converted
  | ok t =>
    rw [time] at converted
    have nanos : t.nanos = _ := Except.ok.inj converted
    simp only [bind, Except.bind, pure, Except.pure, time, Except.map, RbTime.instant_value, nanos]

end Text.StampSyntax

open Text.StampSyntax in
/-- **Every timestamp denotes its instant**, unless it is in the last second before 1970 with a fraction that is
no whole number of microseconds. -/
theorem denotes_iff {lib : TimeLib} (gregorian : lib.Gregorian) (zone : Zone) (flags : Nat) {val : Bytes}
    (noNul : Ascii.nul ∉ val) :
    Denotes lib zone flags val ↔
      ∀ st : StampSyntax, st.text = val → st.InRange → st.Placed flags → st.civil = lastSecond →
        st.nanos % 1000 = 0 := by
  constructor
  · intro denotes st text inRange placed last
    have promised := denotes.instant st text inRange placed
    have read := pgTextDecTimestamp_text gregorian zone inRange placed
    rw [text, promised, if_pos last] at read
    have same := Option.some.inj (Except.ok.inj read)
    unfold instant at same
    omega
  · intro whole
    constructor
    · intro st text inRange placed
      have read := pgTextDecTimestamp_text gregorian zone inRange placed
      rw [← text, read, instant]
      split
      · rename_i last
        have micros := whole st text inRange placed last
        rw [Nat.div_mul_cancel (Nat.dvd_of_mod_eq_zero micros)]
      · rfl
    · intro noSyntax
      unfold pgTextDecTimestamp
      cases taken : parseStamp val with
      | none => rfl
      | some read => exact absurd (syntax_of_parseStamp noNul taken) noSyntax

theorem TimeLib.fixed_gregorian (offset : Int) : (TimeLib.fixed offset).Gregorian where
  timegm := (TimeLib.fixed_exact offset).timegm
  timeNew wall usec offset' _ _ _ _ := by
    have seconds := secondsTo_civil wall
    simp only [fixed, Option.getD_some, Except.ok.injEq]
    omega

/-- The last second before 1970 with a fraction of microseconds is exact: `1969-12-31 23:59:59.123456+00`. -/
theorem denotes_micros :
    Denotes (TimeLib.fixed 0) (Zone.fixed 0) 0 [0x31, 0x39, 0x36, 0x39, 0x2d, 0x31, 0x32, 0x2d, 0x33, 0x31, 0x20, 0x32,
      0x33, 0x3a, 0x35, 0x39, 0x3a, 0x35, 0x39, 0x2e, 0x31, 0x32, 0x33, 0x34, 0x35, 0x36, 0x2b, 0x30, 0x30] := by
  apply (denotes_iff (TimeLib.fixed_gregorian 0) (Zone.fixed 0) 0 (by decide)).2
  intro st text _ _ _
  have read := parseStamp_text st
  rw [text] at read
  have nsec : (st.nanos : Int) = 123456000 := congrArg Stamp.nsec (Option.some.inj (read.symm.trans rfl))
  omega

/-- `1969-12-31 23:59:59.123456789+00`. -/
def lastNanos : Text.StampSyntax where
  year := [0x31, 0x39, 0x36, 0x39]
  month := ⟨0x31, 0x32, List.all_iff_forall_prop.1 (by decide)⟩
  day := ⟨0x33, 0x31, List.all_iff_forall_prop.1 (by decide)⟩
  hour := ⟨0x32, 0x33, List.all_iff_forall_prop.1 (by decide)⟩
  min := ⟨0x35, 0x39, List.all_iff_forall_prop.1 (by decide)⟩
  sec := ⟨0x35, 0x39, List.all_iff_forall_prop.1 (by decide)⟩
  fraction := [0x31, 0x32, 0x33, 0x34, 0x35, 0x36, 0x37, 0x38, 0x39]
  zone := some ⟨false, ⟨0x30, 0x30, List.all_iff_forall_prop.1 (by decide)⟩, none⟩
  beforeChrist := false
  yearDigits := List.all_iff_forall_prop.1 (by decide)
  yearLength := by decide
  yearPositive := by decide
  fractionDigits := List.all_iff_forall_prop.1 (by decide)

/-- The slow path loses the nanoseconds. -/
theorem last_nanos_lost :
    (TimeLib.fixed 0).Gregorian ∧ lastNanos.InRange ∧ lastNanos.Placed 0 ∧ lastNanos.instant = -876543211 ∧
      (pgTextDecTimestamp (TimeLib.fixed 0) (Zone.fixed 0) 0 lastNanos.text).map Value.instant =
        .ok (some (-876544000)) ∧
      ¬Denotes (TimeLib.fixed 0) (Zone.fixed 0) 0 lastNanos.text := by
  have gregorian := TimeLib.fixed_gregorian 0
  have inRange : lastNanos.InRange := by
    constructor
    · constructor
      · exact ⟨by decide, by decide, by decide, by decide⟩
      · decide
      · decide
      · decide
    · intro z given
      obtain rfl := Option.some.inj given
      decide
  have placed : lastNanos.Placed 0 := Or.inr rfl
  have read := Text.StampSyntax.pgTextDecTimestamp_text gregorian (Zone.fixed 0) inRange placed
  have micros : (lastNanos.civil.seconds - lastNanos.offset) * 1000000000 +
      ((lastNanos.nanos / 1000 * 1000 : Nat) : Int) = -876544000 := by decide +kernel
  have exact : lastNanos.instant = -876543211 := by decide +kernel
  rw [if_pos (by decide), micros] at read
  refine ⟨gregorian, inRange, placed, exact, read, ?_⟩
  intro denotes
  have promised := denotes.instant lastNanos rfl inRange placed
  rw [exact] at promised
  have same := Option.some.inj (Except.ok.inj (promised.symm.trans read))
  exact absurd same (by decide)

end RubyPg
