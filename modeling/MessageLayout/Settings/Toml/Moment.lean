import MessageLayout.Calendar.Reader

/-!
# Dates and times in TOML

A date, a time of day or both, with a time zone or without, in one normal form: a `T` stands between
date and time, universal time is `Z`, and a fraction of a second has at most nine digits, the last
of which is not zero.
-/

namespace MessageLayout.Toml

open Calendar

/-- The text that was read at the start of `s`, given the rest. -/
def readPart (s rest : List Char) : List Char :=
  s.take (s.length - rest.length)

def readDate? (s : List Char) : Option (List Char × List Char) := do
  let (year, rest) ← scanFixed? 4 s
  let rest ← skip? '-' rest
  let (month, rest) ← scanFixed? 2 rest
  let rest ← skip? '-' rest
  let (day, rest) ← scanFixed? 2 rest
  if (Date.mk year month day).isValid then some (readPart s rest, rest) else none

def normalFraction (ds : List Char) : List Char :=
  let kept := ((ds.take 9).reverse.dropWhile (· = '0')).reverse
  if kept.isEmpty then [] else '.' :: kept

def readFraction? : List Char → Option (List Char × List Char)
  | '.' :: s =>
    let (ds, rest) := s.span Char.isDigit
    if ds.isEmpty then none else some (normalFraction ds, rest)
  | s => some ([], s)

def readTime? (s : List Char) : Option (List Char × List Char) := do
  let (hour, rest) ← scanFixed? 2 s
  let rest ← skip? ':' rest
  let (minute, rest) ← scanFixed? 2 rest
  let rest ← skip? ':' rest
  let (second, rest) ← scanFixed? 2 rest
  let time := readPart s rest
  let (fraction, rest) ← readFraction? rest
  if hour ≤ 23 && minute ≤ 59 && second ≤ 60 then some (time ++ fraction, rest) else none

/-- A time zone in normal form, which the whole text is to be; there may be none. -/
def readOffset? : List Char → Option (List Char)
  | [] => some []
  | ['Z'] | ['z'] => some ['Z']
  | sign :: s => do
    let (hours, rest) ← scanFixed? 2 s
    let rest ← skip? ':' rest
    let (minutes, rest) ← scanFixed? 2 rest
    if (sign = '+' || sign = '-') && rest.isEmpty && hours ≤ 23 && minutes ≤ 59 then
      some ((if hours = 0 && minutes = 0 then '+' else sign) :: s)
    else none

/-- The normal form of a date, a time of day or both. -/
def readMoment? (s : List Char) : Option (List Char) :=
  match readDate? s with
  | some (date, []) => some date
  | some (date, mark :: s) =>
    if mark = 'T' || mark = 't' || mark = ' ' then do
      let (time, rest) ← readTime? s
      some (date ++ 'T' :: time ++ (← readOffset? rest))
    else none
  | none =>
    match readTime? s with
    | some (time, []) => some time
    | _ => none

example : readMoment? "1979-05-27 07:32:00.500z".toList = some "1979-05-27T07:32:00.5Z".toList := by
  decide +kernel

example : readMoment? "07:32:00".toList = some "07:32:00".toList := by decide +kernel

example : readMoment? "1979-02-29".toList = none := by decide +kernel

end MessageLayout.Toml
