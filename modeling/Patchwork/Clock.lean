import Patchwork.Utf8

/-!
# Times

A time is a number of seconds since the beginning of 1970.  Written out it is a date of the
Gregorian calendar and a time of day.
-/

namespace Patchwork

abbrev Time := Int

/-- A date and a time of day. -/
structure CalendarTime where
  year : Int
  month : Nat
  day : Nat
  hour : Nat
  minute : Nat
  second : Nat
  deriving DecidableEq, Repr

namespace CalendarTime

/-- The date of a day counted from the first of January 1970.  Years are taken to begin in
March, so that a leap day is the last day of its year, in eras of 400 years of 146097 days. -/
def ofDays (days : Int) : Int × Nat × Nat :=
  let shifted := days + 719468
  let era := shifted / 146097
  let dayOfEra := (shifted % 146097).toNat
  let yearOfEra := (dayOfEra - dayOfEra / 1460 + dayOfEra / 36524 - dayOfEra / 146096) / 365
  let dayOfYear := dayOfEra - (365 * yearOfEra + yearOfEra / 4 - yearOfEra / 100)
  let monthFromMarch := (5 * dayOfYear + 2) / 153
  let day := dayOfYear - (153 * monthFromMarch + 2) / 5 + 1
  let month := if monthFromMarch < 10 then monthFromMarch + 3 else monthFromMarch - 9
  let year := era * 400 + yearOfEra + if month ≤ 2 then 1 else 0
  (year, month, day)

def ofTime (time : Time) : CalendarTime :=
  let (year, month, day) := ofDays (time / 86400)
  let seconds := (time % 86400).toNat
  ⟨year, month, day, seconds / 3600, seconds / 60 % 60, seconds % 60⟩

/-- A number with at least two digits. -/
def twoDigits (number : Nat) : Bytes :=
  if number < 10 then text "0" ++ decimal number else decimal number

/-- Year, month and day with hyphens between them. -/
def date (time : CalendarTime) : Bytes :=
  text (toString time.year) ++ text "-" ++ twoDigits time.month ++ text "-" ++ twoDigits time.day

/-- Hour, minute and second with colons between them. -/
def timeOfDay (time : CalendarTime) : Bytes :=
  twoDigits time.hour ++ text ":" ++ twoDigits time.minute ++ text ":" ++ twoDigits time.second

end CalendarTime

end Patchwork
