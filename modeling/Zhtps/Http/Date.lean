import Zhtps.Http.ResponseHead

/-!
HTTP dates, after `parse` of `src/http/date.zig`, with the part of zeit that it and `formatDate` rest
on.

Months count from 1 and weekdays from Sunday, 0.  A failed assertion and an overflow of `u16` end the
program.
-/

namespace Zhtps

namespace Zeit

/-- `zeit.Weekday.name`; the short names are its first three bytes. -/
def longWeekdays : List Bytes :=
  ["Sunday", "Monday", "Tuesday", "Wednesday", "Thursday", "Friday", "Saturday"].map ascii

/-- `zeit.isLeapYear`. -/
def isLeapYear (year : Nat) : Bool :=
  let d := if year % 100 ≠ 0 then 4 else 16
  year &&& (d - 1) == 0

/-- `zeit.Month.lastDay`. -/
def lastDay (month year : Nat) : Nat :=
  if month = 2 then if isLeapYear year then 29 else 28
  else 30 ||| (month ^^^ (month >>> 3))

/-- `zeit.daysFromCivil` as the `i32` that it returns. -/
def days (year month day : Nat) : Int :=
  (BitVec.ofNat 32 (daysFromCivil year month day)).toInt

/-- `zeit.weekdayFromDays`. -/
def weekday (days : Int) : Nat := ((days + 4) % 7).toNat

/-- The fields of `zeit.Time` down to the second.  The others keep their defaults. -/
structure Time where
  year : Nat := 1970
  month : Nat := 1
  day : Nat := 1
  hour : Nat := 0
  minute : Nat := 0
  second : Nat := 0
  deriving DecidableEq, Repr

/-- `zeit.Time.instant`, in nanoseconds. -/
def Time.instant (time : Time) : Int :=
  days time.year time.month time.day * 86400000000000 + time.hour * 3600000000000 +
    time.minute * 60000000000 + time.second * 1000000000

/-- `zeit.Instant.unixTimestamp`. -/
def unixTimestamp (nanoseconds : Int) : Int := nanoseconds / 1000000000

/-- `zeit.Instant.time` of a Unix timestamp in UTC. -/
def time (arm : Bool) (seconds : Nat) : Time :=
  let date := civilFromDays arm (seconds / 86400)
  let rest := seconds % 86400
  { year := date.1
    month := date.2.1
    day := date.2.2
    hour := rest / 3600
    minute := (rest - rest / 3600 * 3600) / 60
    second := rest - rest / 3600 * 3600 - (rest - rest / 3600 * 3600) / 60 * 60 }

end Zeit

namespace Date

/-- The local variables of `parse`. -/
structure Parsed extends Zeit.Time where
  weekday : Nat
  deriving DecidableEq, Repr

/-- `bytes[start..stop]`. -/
def slice (bytes : Bytes) (start stop : Nat) : Bytes := (bytes.drop start).take (stop - start)

/-- `number`.  What `parseInt` reads is a `u16` here. -/
def number (bytes : Bytes) : Option Nat :=
  if bytes.all Ascii.isDigit then (Fmt.parseInt bytes 10).filter (· < 2 ^ 16) else none

def parseMonth (bytes : Bytes) : Option Nat :=
  (Zeit.months.findIdx? (· == bytes)).map (· + 1)

def parseWeekday (bytes : Bytes) (long : Bool) : Option Nat :=
  (if long then Zeit.longWeekdays else Zeit.weekdays).findIdx? (· == bytes)

/-- `parseTime`, of the hour, the minute and the second. -/
def parseTime (bytes : Bytes) : Option (Nat × Nat × Nat) :=
  if bytes[2]? ≠ some 58 ∨ bytes[5]? ≠ some 58 then none
  else do
    let hour ← number (slice bytes 0 2)
    let minute ← number (slice bytes 3 5)
    let second ← number (slice bytes 6 8)
    if 23 < hour ∨ 59 < minute ∨ 60 < second then none else some (hour, minute, second)

/-- The branch of `parse` for the dates that HTTP writes. -/
def parseImf (bytes : Bytes) : Option Parsed :=
  if slice bytes 3 5 ≠ ascii ", " ∨ bytes[7]? ≠ some 32 ∨ bytes[11]? ≠ some 32 ∨
      bytes[16]? ≠ some 32 ∨ bytes.drop 25 ≠ ascii " GMT" then none
  else do
    let weekday ← parseWeekday (slice bytes 0 3) false
    let day ← number (slice bytes 5 7)
    let month ← parseMonth (slice bytes 8 11)
    let year ← number (slice bytes 12 16)
    let (hour, minute, second) ← parseTime (slice bytes 17 25)
    some { weekday, day, month, year, hour, minute, second }

/-- The branch of `parse` for the dates of `asctime`. -/
def parseAsctime (bytes : Bytes) : Option Parsed :=
  if bytes[7]? ≠ some 32 ∨ bytes[10]? ≠ some 32 ∨ bytes[19]? ≠ some 32 then none
  else do
    let weekday ← parseWeekday (slice bytes 0 3) false
    let month ← parseMonth (slice bytes 4 7)
    let day ← number (if bytes[8]? = some 32 then slice bytes 9 10 else slice bytes 8 10)
    let year ← number (slice bytes 20 24)
    let (hour, minute, second) ← parseTime (slice bytes 11 19)
    some { weekday, day, month, year, hour, minute, second }

/-- What follows the weekday in a date of RFC 850; the year is the short one. -/
def parseRest (weekday : Nat) (rest : Bytes) : Option Parsed :=
  if rest.length ≠ 24 ∨ rest[1]? ≠ some 32 ∨ rest[4]? ≠ some 45 ∨ rest[8]? ≠ some 45 ∨
      rest[11]? ≠ some 32 ∨ rest.drop 20 ≠ ascii " GMT" then none
  else do
    let day ← number (slice rest 2 4)
    let month ← parseMonth (slice rest 5 8)
    let year ← number (slice rest 9 11)
    let (hour, minute, second) ← parseTime (slice rest 12 20)
    some { weekday, day, month, year, hour, minute, second }

/-- What the branch of `parse` for the dates of RFC 850 reads. -/
def parseRfc850 (bytes : Bytes) : Option Parsed := do
  let comma ← Mem.indexOfScalar bytes 44
  let weekday ← parseWeekday (bytes.take comma) true
  parseRest weekday (bytes.drop comma)

/-- `std.mem.order`. -/
def order : List Nat → List Nat → Ordering
  | [], [] => .eq
  | [], _ :: _ => .lt
  | _ :: _, [] => .gt
  | a :: as, b :: bs => (compare a b).then (order as bs)

/-- The time of a date as the array that `parse` compares. -/
def tuple (time : Zeit.Time) : List Nat :=
  [time.year, time.month, time.day, time.hour, time.minute, time.second]

/-- `cutoff`, fifty years from now. -/
def cutoff (arm : Bool) (now : Nat) : Zeit.Time :=
  let current := Zeit.time arm now
  let futureYear := current.year + 50
  { current with
    year := futureYear
    day := min current.day (Zeit.lastDay current.month futureYear) }

/-- The year of a date of RFC 850. -/
def chooseYear (arm : Bool) (now : Nat) (parsed : Parsed) : Option Nat :=
  let cutoff := cutoff arm now
  let year := cutoff.year / 100 * 100 + parsed.year
  if 2 ^ 16 ≤ cutoff.year ∨ 2 ^ 16 ≤ year then none
  else if order (tuple { parsed with year }.toTime) (tuple cutoff) = .gt then
    if year < 100 then none else some (year - 100)
  else some year

/-- The end of `parse`: the date has to be one of the calendar. -/
def finish (parsed : Parsed) : Option Int :=
  if parsed.year < 1601 ∨ 9999 < parsed.year ∨ parsed.day < 1 ∨
      Zeit.lastDay parsed.month parsed.year < parsed.day then none
  else if Zeit.weekday (Zeit.days parsed.year parsed.month parsed.day) ≠ parsed.weekday then none
  else some (Zeit.unixTimestamp parsed.toTime.instant)

/-- The times from which `parse` resolves years: `now` is before this one. -/
def limit : Int := Zeit.unixTimestamp { year := 9950 : Zeit.Time }.instant

/-- The times that `formatDate` can write are before this one. -/
def formatLimit : Int := Zeit.unixTimestamp { year := 10000 : Zeit.Time }.instant

/-- `date.parse`: `none` ends the program, and `some none` is an invalid date. -/
def parse (arm : Bool) (bytes : Bytes) (now : Nat) : Option (Option Int) :=
  if limit ≤ now then none
  else if bytes.length = 29 ∧ bytes[3]? = some 44 then some ((parseImf bytes).bind finish)
  else if bytes.length = 24 ∧ bytes[3]? = some 32 then some ((parseAsctime bytes).bind finish)
  else match parseRfc850 bytes with
    | none => some none
    | some parsed => (chooseYear arm now parsed).map fun year => finish { parsed with year }

example : parse false (ascii "Sunday, 06-Nov-94 08:49:37 GMT") 1789096284 =
    some (some 784111777) := by decide +kernel

end Date

end Zhtps
