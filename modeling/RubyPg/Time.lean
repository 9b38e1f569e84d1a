import RubyPg.Value
import RubyPg.Lib.Calendar

/-!
# Times and time zones

What the timestamp decoders use of libc and of Ruby's `Time`. Instants are nanoseconds since
1970; a zone gives its offset from UTC at each second, so that every piecewise constant
offset is one. `timegm`, `mktime` and `Time.new` are the parameter `TimeLib`, and what is
assumed of them is `TimeLib.Exact`: they invert the calendar wherever it can be inverted.
-/

namespace RubyPg
set_option autoImplicit false

/-- A time zone: the offset from UTC in seconds, at each second since 1970. -/
structure Zone where
  offset : Int → Int

/-- `t` is the only instant at which the clocks of the zone show `wall`, which is written as the
second at which they show it in UTC. -/
def Zone.Once (zone : Zone) (wall t : Int) : Prop :=
  t + zone.offset t = wall ∧ ∀ t', t' + zone.offset t' = wall → t' = t

/-- `struct tm`, as far as it is filled in. -/
structure Tm where
  tmYear : Int
  tmMon : Int
  tmMday : Int
  tmHour : Int
  tmMin : Int
  tmSec : Int
deriving DecidableEq, Repr

/-- The fields of a date and time as they are written. -/
structure Civil where
  year : Int
  mon : Int
  day : Int
  hour : Int
  min : Int
  sec : Int
deriving DecidableEq, Repr

/-- `tm.tm_year = year - 1900`, `tm.tm_mon = mon - 1`. -/
def Civil.tm (c : Civil) : Tm where
  tmYear := c.year - 1900
  tmMon := c.mon - 1
  tmMday := c.day
  tmHour := c.hour
  tmMin := c.min
  tmSec := c.sec

/-- The date and time a clock shows `wall` seconds after 1970-01-01 00:00:00. -/
def Civil.ofSeconds (wall : Int) : Civil :=
  let date := Date.ofDayNumber (wall / 86400)
  { year := date.year
    mon := date.month
    day := date.day
    hour := wall % 86400 / 3600
    min := wall % 3600 / 60
    sec := wall % 60 }

/-- How a `Time` is shown. -/
inductive TimeMode where
  | utc
  | localtime
  | fixoff (offset : Int)
deriving DecidableEq, Repr

/-- A Ruby `Time`. -/
structure RbTime where
  nanos : Int
  mode : TimeMode
deriving DecidableEq, Repr

namespace RbTime

/-- `Time#utc_offset`. -/
def utcOffset (zone : Zone) (t : RbTime) : Int :=
  match t.mode with
  | .utc => 0
  | .localtime => zone.offset (t.nanos / 1000000000)
  | .fixoff offset => offset

/-- `Time#-` with a number of seconds. -/
def minus (t : RbTime) (seconds : Int) : RbTime := { t with nanos := t.nanos - seconds * 1000000000 }

/-- The object. -/
def value (zone : Zone) (t : RbTime) : Value :=
  .time (t.nanos / 1000000000) (t.nanos % 1000000000).toNat (t.utcOffset zone)

end RbTime

/-- `rb_time_timespec_new`. -/
def rbTimeTimespecNew (sec nsec : Int) (mode : TimeMode) : Outcome RbTime :=
  match mode with
  | .fixoff offset =>
    if -86400 < offset ∧ offset < 86400 then pure ⟨sec * 1000000000 + nsec, mode⟩
    else rbRaise .argumentError "utc_offset out of range"
  | _ => pure ⟨sec * 1000000000 + nsec, mode⟩

/-- The instant of a `Time` object, in nanoseconds. -/
def Value.instant : Value → Option Int
  | .time sec nsec _ => some (sec * 1000000000 + nsec)
  | _ => none

theorem RbTime.instant_value (zone : Zone) (t : RbTime) : (t.value zone).instant = some t.nanos := by
  unfold value Value.instant
  simp only [Option.some.injEq]
  omega

/-- The conversions that libc and Ruby do. `timeNew` is `Time.new` with the seconds in millionths,
and gives the instant. -/
structure TimeLib where
  timegm : Tm → Int
  mktime : Tm → Int
  timeNew : (year mon day hour min usec : Int) → Option Int → Outcome Int

/-- They invert the calendar: in UTC always, in the zone where the time on the clock exists once. -/
structure TimeLib.Exact (lib : TimeLib) (zone : Zone) : Prop where
  timegm : ∀ wall, lib.timegm (Civil.ofSeconds wall).tm = wall
  mktime : ∀ wall t, zone.Once wall t → lib.mktime (Civil.ofSeconds wall).tm = t
  timeNewUtc : ∀ wall usec, 0 ≤ usec → usec < 1000000 →
    let c := Civil.ofSeconds wall
    lib.timeNew c.year c.mon c.day c.hour c.min (c.sec * 1000000 + usec) (some 0) =
      .ok (wall * 1000000000 + usec * 1000)
  timeNewLocal : ∀ wall t usec, zone.Once wall t → 0 ≤ usec → usec < 1000000 →
    let c := Civil.ofSeconds wall
    lib.timeNew c.year c.mon c.day c.hour c.min (c.sec * 1000000 + usec) none =
      .ok (t * 1000000000 + usec * 1000)

/-- `PG_CODER_TIMESTAMP_DB_LOCAL`. -/
def dbLocal (flags : Nat) : Bool := flags &&& 0x1 != 0

/-- `PG_CODER_TIMESTAMP_APP_LOCAL`. -/
def appLocal (flags : Nat) : Bool := flags &&& 0x2 != 0

/-- `flags & PG_CODER_TIMESTAMP_APP_LOCAL ? INT_MAX : INT_MAX-1`. -/
def appMode (flags : Nat) : TimeMode := if appLocal flags then .localtime else .utc

end RubyPg
