import MessageLayout.Calendar.Date
import MessageLayout.Text.Name
import MessageLayout.Text.Numeral

/-!
# Fallback text of dates

A date is shown by a format with tokens in braces. `fallback` expands the tokens for an instant in
universal time; names that are no tokens stay as written. Tokens that would name a day relative to
today use the plain form.
-/

namespace MessageLayout.Calendar

def monthNames : List String :=
  ["January", "February", "March", "April", "May", "June", "July", "August", "September",
   "October", "November", "December"]

def weekdayNames : List String :=
  ["Monday", "Tuesday", "Wednesday", "Thursday", "Friday", "Saturday", "Sunday"]

def monthName (month : Nat) : List Char :=
  (monthNames.getD (month - 1) "").toList

def weekdayName (weekday : Nat) : List Char :=
  (weekdayNames.getD weekday "").toList

/-- A year in at least four digits, with a sign if it has more or is negative. -/
def yearText (year : Int) : List Char :=
  if year < 0 then '-' :: Text.padded 4 year.natAbs
  else if 9999 < year then '+' :: Text.ofNat year.natAbs
  else Text.padded 4 year.natAbs

def ordinal (day : Nat) : List Char :=
  let suffix :=
    if 11 ≤ day % 100 && day % 100 ≤ 13 then "th"
    else
      match day % 10 with
      | 1 => "st"
      | 2 => "nd"
      | 3 => "rd"
      | _ => "th"
  Text.ofNat day ++ suffix.toList

/-- The time of day on a clock of twelve hours, with the seconds if so asked. -/
def clock (i : Instant) (withSeconds : Bool) : List Char :=
  let hour := if i.hour % 12 = 0 then 12 else i.hour % 12
  Text.ofNat hour ++ ':' :: Text.padded 2 i.minute
    ++ (if withSeconds then ':' :: Text.padded 2 i.second else [])
    ++ (if 12 ≤ i.hour then " PM" else " AM").toList

def longDate (d : Date) : List Char :=
  monthName d.month ++ ' ' :: ordinal d.day ++ ", ".toList ++ Text.ofInt d.year

def expandToken? (i : Instant) (name : String) : Option (List Char) :=
  let d := i.date
  match name with
  | "date_num" =>
    some (yearText d.year ++ '-' :: Text.padded 2 d.month ++ '-' :: Text.padded 2 d.day)
  | "date_slash" =>
    some (Text.padded 2 d.month ++ '/' :: Text.padded 2 d.day ++ '/' :: yearText d.year)
  | "date" | "date_pretty" => some (longDate d)
  | "date_short" | "date_short_pretty" =>
    some ((monthName d.month).take 3 ++ ' ' :: Text.ofNat d.day ++ ", ".toList ++ yearText d.year)
  | "date_long" | "date_long_pretty" =>
    some (weekdayName (Date.weekdayOfDays i.days) ++ ", ".toList ++ longDate d)
  | "time" => some (clock i false)
  | "time_secs" => some (clock i true)
  | _ => none

def isTokenChar (c : Char) : Bool :=
  c.isLower || c = '_'

/-- The format with its tokens expanded for an instant. -/
def fallback (i : Instant) (format : List Char) : List Char :=
  match format with
  | [] => []
  | c :: s =>
    if c = '{' then
      match h : Text.scanName? isTokenChar '}' s with
      | some (name, rest) =>
        have := Text.length_lt_of_scanName? h
        (expandToken? i (String.ofList name)).getD ('{' :: name ++ ['}']) ++ fallback i rest
      | none => c :: fallback i s
    else c :: fallback i s
termination_by format.length
decreasing_by all_goals simp_all; try omega

end MessageLayout.Calendar
