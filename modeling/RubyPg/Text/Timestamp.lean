import RubyPg.Coder
import RubyPg.Time

/-!
# Text timestamps

`pg_text_dec_timestamp` of `ext/pg_text_decoder.c`, cut into its steps. The string is read as a
C string: behind its end there is a NUL.
-/

namespace RubyPg.Text
set_option autoImplicit false
open Ascii

/-- `str[i]`. -/
def charAt (str : Bytes) (i : Nat) : UInt8 := str.getD i nul

def charToDigit (c : UInt8) : Int := (c.toNat : Int) - 48

def str2ToInt (str : Bytes) : Int := charToDigit (charAt str 0) * 10 + charToDigit (charAt str 1)

/-- The loop of `parse_year`, with the number of digits it may still take. -/
def parseYearFrom (year : Int) : Nat → Bytes → Int × Bytes
  | 0, p => (year, p)
  | _ + 1, [] => (year, [])
  | i + 1, c :: p => if IsDigit c then parseYearFrom (10 * year + charToDigit c) i p else (year, c :: p)

/-- `parse_year`. -/
def parseYear (str : Bytes) : Int × Bytes := parseYearFrom 0 7 str

/-- `isdigit(str[i]) && isdigit(str[i+1])`. -/
def twoDigits (str : Bytes) (i : Nat) : Bool := decide (IsDigit (charAt str i)) && decide (IsDigit (charAt str (i + 1)))

/-- `-MM-DD hh:mm:ss` follows. -/
def hasFields (str : Bytes) : Bool :=
  charAt str 0 == minus && twoDigits str 1 && charAt str 3 == minus && twoDigits str 4 &&
    charAt str 6 == space && twoDigits str 7 && charAt str 9 == colon && twoDigits str 10 &&
    charAt str 12 == colon && twoDigits str 13

/-- The weights of the digits of a fraction, in nanoseconds. -/
def coef : List Int := [100000000, 10000000, 1000000, 100000, 10000, 1000, 100, 10, 1]

/-- The loop over the digits of a fraction. -/
def readNsec : List Int → Int → Bytes → Int × Bytes
  | c :: coefs, nsec, d :: str =>
    if IsDigit d then readNsec coefs (nsec + c * charToDigit d) str else (nsec, d :: str)
  | _, nsec, str => (nsec, str)

/-- The nano second part, up to 9 digits; smaller digits are consumed. -/
def parseNsec (str : Bytes) : Int × Bytes :=
  if charAt str 0 == dot && decide (IsDigit (charAt str 1)) then
    let (nsec, str) := readNsec coef 0 (str.drop 1)
    (nsec, str.dropWhile fun c => decide (IsDigit c))
  else (0, str)

/-- Minutes or seconds of an offset. -/
def parseZonePart (str : Bytes) : Int × Bytes :=
  if charAt str 0 == colon && twoDigits str 1 then (str2ToInt (str.drop 1), str.drop 3) else (0, str)

/-- The time zone: the offset if there is one. -/
def parseZone (str : Bytes) : Option Int × Bytes :=
  if (charAt str 0 == plus || charAt str 0 == minus) && twoDigits str 1 then
    let tzHour := str2ToInt (str.drop 1)
    let (tzMin, str') := parseZonePart (str.drop 3)
    let (tzSec, str') := parseZonePart str'
    let gmtOffset := tzHour * 3600 + tzMin * 60 + tzSec
    (some (if charAt str 0 == minus then -gmtOffset else gmtOffset), str')
  else (none, str)

/-- `" BC"` turns the year around. -/
def parseBc (year : Int) (str : Bytes) : Int × Bytes :=
  if charAt str 0 == space && charAt str 1 == 0x42 && charAt str 2 == 0x43 then (-year + 1, str.drop 3)
  else (year, str)

/-- What a timestamp says. -/
structure Stamp where
  civil : Civil
  nsec : Int
  gmtOffset : Option Int
deriving DecidableEq, Repr

/-- The scanning part of `pg_text_dec_timestamp`. -/
def parseStamp (val : Bytes) : Option Stamp :=
  let (year, str) := parseYear val
  if decide (0 < year) && hasFields str then
    let mon := str2ToInt (str.drop 1)
    let day := str2ToInt (str.drop 4)
    let hour := str2ToInt (str.drop 7)
    let min := str2ToInt (str.drop 10)
    let sec := str2ToInt (str.drop 13)
    let (nsec, str) := parseNsec (str.drop 15)
    let (gmtOffset, str) := parseZone str
    let (year, str) := parseBc year str
    if charAt str 0 == nul then some ⟨⟨year, mon, day, hour, min, sec⟩, nsec, gmtOffset⟩ else none
  else none

/-- The slow path of the conversion, through `Time.new`. -/
def slowTime (lib : TimeLib) (flags : Nat) (st : Stamp) : Outcome RbTime := do
  let c := st.civil
  let usec := if st.nsec ≠ 0 then c.sec * 1000000 + st.nsec.tdiv 1000 else c.sec * 1000000
  match st.gmtOffset with
  | some gmtOffset =>
    let res ← lib.timeNew c.year c.mon c.day c.hour c.min usec (some gmtOffset)
    pure ⟨res, .fixoff gmtOffset⟩
  | none =>
    let res ← lib.timeNew c.year c.mon c.day c.hour c.min usec (if dbLocal flags then none else some 0)
    pure ⟨res, appMode flags⟩

/-- The conversion to a `Time`: by `timegm` or `mktime`, unless these answer -1. -/
def stampTime (lib : TimeLib) (flags : Nat) (st : Stamp) : Outcome RbTime :=
  match st.gmtOffset with
  | some gmtOffset =>
    let time := lib.timegm st.civil.tm
    if time ≠ -1 then rbTimeTimespecNew (time - gmtOffset) st.nsec (.fixoff gmtOffset) else slowTime lib flags st
  | none =>
    let time := if dbLocal flags then lib.mktime st.civil.tm else lib.timegm st.civil.tm
    if time ≠ -1 then rbTimeTimespecNew time st.nsec (appMode flags) else slowTime lib flags st

/-- `pg_text_dec_timestamp`. -/
def pgTextDecTimestamp (lib : TimeLib) (zone : Zone) (flags : Nat) (val : Bytes) : Outcome Value :=
  match parseStamp val with
  | some st => do
    let t ← stampTime lib flags st
    pure (t.value zone)
  | none => pgTextDecString val

end RubyPg.Text
