/-!
# Dates and instants

Dates of the proleptic Gregorian calendar, and instants as seconds since 1970 in universal time.
Days are counted in cycles of 400, 100, 4 and 1 years that start in March, so that a leap day is
the last day of its year.
-/

namespace MessageLayout.Calendar

structure Date where
  /-- The year, with a year zero before year one. -/
  year : Int
  month : Nat
  day : Nat
deriving DecidableEq, Repr

def isLeapYear (year : Int) : Bool :=
  year % 4 = 0 && (year % 100 ≠ 0 || year % 400 = 0)

def daysInMonth (year : Int) (month : Nat) : Nat :=
  match month with
  | 2 => if isLeapYear year then 29 else 28
  | 4 | 6 | 9 | 11 => 30
  | _ => 31

namespace Date

/-- Whether there is such a date, within the years that can be told apart. -/
def isValid (d : Date) : Bool :=
  -262143 ≤ d.year && d.year ≤ 262142 && 1 ≤ d.month && d.month ≤ 12 && 1 ≤ d.day
    && d.day ≤ daysInMonth d.year d.month

/-- The days from 1970-01-01 to the date. -/
def toDays (d : Date) : Int :=
  -- years and months are counted from March
  let year := if d.month ≤ 2 then d.year - 1 else d.year
  let month := if d.month ≤ 2 then d.month + 9 else d.month - 3
  let yearOfCycle := year % 400
  let dayOfYear : Int := (153 * month + 2) / 5 + d.day - 1
  year / 400 * 146097 + (yearOfCycle * 365 + yearOfCycle / 4 - yearOfCycle / 100) + dayOfYear
    - 719468

def ofDays (days : Int) : Date :=
  let n := days + 719468
  let dayOfCycle := n % 146097
  -- the last century of a cycle and the last year of four have one day more
  let century := min 3 (dayOfCycle / 36524)
  let dayOfCentury := dayOfCycle - century * 36524
  let four := dayOfCentury / 1461
  let dayOfFour := dayOfCentury % 1461
  let one := min 3 (dayOfFour / 365)
  let dayOfYear := (dayOfFour - one * 365).toNat
  let month := (5 * dayOfYear + 2) / 153
  let day := dayOfYear - (153 * month + 2) / 5 + 1
  let year := n / 146097 * 400 + century * 100 + four * 4 + one
  if month < 10 then ⟨year, month + 3, day⟩ else ⟨year + 1, month - 9, day⟩

/-- The day of the week of a day, counted from 1970-01-01; Monday is zero. -/
def weekdayOfDays (days : Int) : Nat :=
  ((days + 3) % 7).toNat

example : (⟨1970, 1, 1⟩ : Date).toDays = 0 ∧ ofDays 0 = ⟨1970, 1, 1⟩ := by decide

example : (⟨2000, 2, 29⟩ : Date).toDays = 11016 ∧ ofDays 11016 = ⟨2000, 2, 29⟩ := by decide

end Date

/-- An instant, as seconds since the start of 1970 in universal time. -/
structure Instant where
  seconds : Int
deriving DecidableEq, Repr

namespace Instant

def days (i : Instant) : Int :=
  i.seconds / 86400

def date (i : Instant) : Date :=
  .ofDays i.days

def secondOfDay (i : Instant) : Nat :=
  (i.seconds % 86400).toNat

def hour (i : Instant) : Nat :=
  i.secondOfDay / 3600

def minute (i : Instant) : Nat :=
  i.secondOfDay / 60 % 60

def second (i : Instant) : Nat :=
  i.secondOfDay % 60

def ofDate (d : Date) (secondOfDay : Int) : Instant :=
  ⟨d.toDays * 86400 + secondOfDay⟩

/-- The first and the last instant that can be told apart. -/
def least : Instant := ofDate ⟨-262143, 1, 1⟩ 0

def greatest : Instant := ofDate ⟨262142, 12, 31⟩ 86399

def ofSeconds? (n : Int) : Option Instant :=
  if least.seconds ≤ n && n ≤ greatest.seconds then some ⟨n⟩ else none

end Instant

end MessageLayout.Calendar
