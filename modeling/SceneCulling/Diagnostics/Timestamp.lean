/-!
# Timestamps

What a local clock shows at a moment, and its text. How far the clock is ahead of universal time
depends on where it stands, and is given with the moment. The calendar is Gregorian, also before
its introduction, and days have no leap seconds.
-/

namespace SceneCulling

/-- A day of the calendar. -/
structure Date where
  year : Int
  /-- From 1 to 12. -/
  month : Nat
  /-- From 1 on. -/
  day : Nat
deriving DecidableEq, Repr

namespace Date

/-- The date of a day counted from the first of January 1970.

Years are counted from the first of March, so that a leap day ends its year, and the
count starts with the year 0, which also starts a cycle of 400 years. In the cycle
every fourth year has a leap day, except for every hundredth. -/
def ofDays (days : Int) : Date :=
  let shifted := days + 719468
  let cycle := shifted.fdiv 146097
  let dayOfCycle := (shifted.fmod 146097).toNat
  let yearOfCycle :=
    (dayOfCycle - dayOfCycle / 1460 + dayOfCycle / 36524 - dayOfCycle / 146096) / 365
  let dayOfYear := dayOfCycle - (365 * yearOfCycle + yearOfCycle / 4 - yearOfCycle / 100)
  let monthFromMarch := (5 * dayOfYear + 2) / 153
  let day := dayOfYear - (153 * monthFromMarch + 2) / 5 + 1
  let year := yearOfCycle + cycle * 400
  if monthFromMarch < 10 then ⟨year, monthFromMarch + 3, day⟩
  else ⟨year + 1, monthFromMarch - 9, day⟩

end Date

/-- What a clock shows, in nanoseconds after it showed the start of 1970. -/
structure Timestamp where
  nanoseconds : Int
deriving DecidableEq, Repr

namespace Timestamp

/-- What a clock shows some time after the start of 1970 in universal time, if it is ahead of
universal time by `offset` seconds. -/
def ofSeconds (seconds : Int) (nanoseconds : Nat) (offset : Int := 0) : Timestamp :=
  ⟨(seconds + offset) * 1000000000 + nanoseconds⟩

/-- A number with zeros in front, up to the given count of digits. -/
def padded (width n : Nat) : String :=
  let digits := (toString n).toList
  String.ofList (List.replicate (width - digits.length) '0' ++ digits)

/-- Years of four digits are written plainly, all others with a sign. -/
def yearText (year : Int) : String :=
  if 0 ≤ year ∧ year ≤ 9999 then padded 4 year.toNat
  else (if year < 0 then "-" else "+") ++ padded 4 year.natAbs

/-- Date and time of day, with the milliseconds that have passed. -/
def text (t : Timestamp) : String :=
  let date := Date.ofDays (t.nanoseconds.fdiv 86400000000000)
  let milliseconds := (t.nanoseconds.fmod 86400000000000).toNat / 1000000
  let seconds := milliseconds / 1000
  let minutes := seconds / 60
  yearText date.year ++ "-" ++ padded 2 date.month ++ "-" ++ padded 2 date.day ++ " " ++
    padded 2 (minutes / 60) ++ ":" ++ padded 2 (minutes % 60) ++ ":" ++
    padded 2 (seconds % 60) ++ "." ++ padded 3 (milliseconds % 1000)

end Timestamp

end SceneCulling
