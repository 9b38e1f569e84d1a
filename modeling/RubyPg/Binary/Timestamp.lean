import RubyPg.Time
import RubyPg.Lib.Nbo

/-!
# Binary timestamps

`pg_bin_dec_timestamp` of `ext/pg_binary_decoder.c`.
-/

namespace RubyPg.Binary
set_option autoImplicit false

def pgInt64Max : Int := 0x7FFFFFFFFFFFFFFF

def pgInt64Min : Int := -0x7FFFFFFFFFFFFFFF - 1

/-- The seconds from 1970 to 2000. -/
def epochOffset : Int := 10957 * 24 * 3600

/-- `pg_bin_dec_timestamp`. Division and remainder truncate towards zero, so that the nanoseconds
of a time before 2000 are negative. -/
def pgBinDecTimestamp (zone : Zone) (flags : Nat) (val : Bytes) (tuple field : Int) : Outcome Value := do
  let len := val.length
  if len ≠ 8 then
    rbRaise .typeError s!"wrong data for timestamp converter in tuple {tuple} field {field} length {len}"
  else
    let timestamp := readNbo val
    if timestamp = pgInt64Max then pure (.str "infinity".toUTF8.toList)
    else if timestamp = pgInt64Min then pure (.str "-infinity".toUTF8.toList)
    else
      let sec := timestamp.tdiv 1000000 + epochOffset
      let nsec := timestamp.tmod 1000000 * 1000
      let t ← rbTimeTimespecNew sec nsec (appMode flags)
      let t := if dbLocal flags then t.minus (t.utcOffset zone) else t
      pure (t.value zone)

/-- The clock time of a timestamp, in seconds since 1970. -/
def wallOf (timestamp : Int) : Int := timestamp / 1000000 + epochOffset

/-- The nanoseconds of a timestamp since 1970, for clocks in UTC. -/
def nanosOf (timestamp : Int) : Int := wallOf timestamp * 1000000000 + timestamp % 1000000 * 1000

/-- The truncated seconds and the negative nanoseconds make up the same instant. -/
theorem pgBinDecTimestamp_time {zone : Zone} {flags : Nat} {timestamp tuple field : Int}
    (low : pgInt64Min < timestamp) (high : timestamp < pgInt64Max) :
    pgBinDecTimestamp zone flags (writeNbo 8 timestamp) tuple field =
      .ok ((if dbLocal flags then
        RbTime.minus ⟨nanosOf timestamp, appMode flags⟩ (RbTime.utcOffset zone ⟨nanosOf timestamp, appMode flags⟩)
      else ⟨nanosOf timestamp, appMode flags⟩).value zone) := by
  have read : readNbo (writeNbo 8 timestamp) = timestamp := by
    unfold pgInt64Min at low
    unfold pgInt64Max at high
    have size : ((256 ^ 8 : Nat) : Int) = 18446744073709551616 := by decide
    exact readNbo_writeNbo (by omega) (by omega)
  have nanos : (timestamp.tdiv 1000000 + epochOffset) * 1000000000 + timestamp.tmod 1000000 * 1000 = nanosOf timestamp := by
    have truncated := Int.mul_tdiv_add_tmod timestamp 1000000
    unfold nanosOf wallOf
    omega
  have stamped : rbTimeTimespecNew (timestamp.tdiv 1000000 + epochOffset) (timestamp.tmod 1000000 * 1000)
      (appMode flags) = .ok ⟨nanosOf timestamp, appMode flags⟩ := by
    rw [← nanos]
    unfold appMode
    split <;> rfl
  unfold pgBinDecTimestamp
  rw [length_writeNbo, if_neg (not_not.2 rfl), read]
  dsimp only
  rw [if_neg (Int.ne_of_lt high), if_neg (Int.ne_of_gt low), stamped]
  rfl

theorem pgBinDecTimestamp_utc {zone : Zone} {flags : Nat} {timestamp tuple field : Int} (utc : dbLocal flags = false)
    (low : pgInt64Min < timestamp) (high : timestamp < pgInt64Max) :
    pgBinDecTimestamp zone flags (writeNbo 8 timestamp) tuple field =
      .ok (RbTime.value zone ⟨nanosOf timestamp, appMode flags⟩) := by
  rw [pgBinDecTimestamp_time low high, if_neg (Bool.eq_false_iff.1 utc)]

/-- The binary decoder takes off the offset at the instant when UTC clocks show the time, or nothing
where the `Time` is in UTC. -/
theorem pgBinDecTimestamp_instant {zone : Zone} {flags : Nat} {timestamp tuple field : Int}
    (low : pgInt64Min < timestamp) (high : timestamp < pgInt64Max) :
    (pgBinDecTimestamp zone flags (writeNbo 8 timestamp) tuple field).map Value.instant =
      .ok (some (wallOf timestamp * 1000000000 + timestamp % 1000000 * 1000 -
        (if dbLocal flags then (if appLocal flags then zone.offset (wallOf timestamp) else 0) else 0)
          * 1000000000)) := by
  have second : nanosOf timestamp / 1000000000 = wallOf timestamp := by
    unfold nanosOf
    omega
  rw [pgBinDecTimestamp_time low high]
  simp only [Except.map, RbTime.instant_value, Except.ok.injEq, Option.some.injEq]
  unfold RbTime.minus RbTime.utcOffset appMode
  by_cases db : dbLocal flags = true
  · by_cases app : appLocal flags = true
    · simp only [db, app, second, if_true]
      rfl
    · simp only [db, app, if_true, if_false, Bool.false_eq_true]
      rfl
  · simp only [db, if_false, Bool.false_eq_true]
    unfold nanosOf
    omega

end RubyPg.Binary
