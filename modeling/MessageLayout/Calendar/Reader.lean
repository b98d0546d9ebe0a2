import MessageLayout.Calendar.Date
import MessageLayout.Decimal.Reader
import MessageLayout.Text.Blank

/-!
# Reading instants

An instant is written as a number of seconds, as a timestamp with a time zone, or as a date with an
optional time of day in universal time. `Instant.read?` tries the forms in this order.
-/

namespace MessageLayout.Calendar

/-- The parts of a date and a time that were read so far. -/
structure Reading where
  year : Int := 0
  month : Nat := 0
  day : Nat := 0
  hour : Nat := 0
  minute : Nat := 0
  /-- The second; sixty for a leap second. -/
  second : Nat := 0
deriving DecidableEq, Repr

namespace Reading

def date (r : Reading) : Date := ⟨r.year, r.month, r.day⟩

/-- The instant in universal time, if date and time of day exist. A leap second is the second before
it once more. -/
def toInstant? (r : Reading) : Option Instant :=
  if r.date.isValid && r.hour ≤ 23 && r.minute ≤ 59 && r.second ≤ 60 then
    some (.ofDate r.date (r.hour * 3600 + r.minute * 60 + min r.second 59 : Nat))
  else none

end Reading

/-- One part of a way to write a date and a time. -/
inductive Part where
  /-- The year: up to four digits, or any number of them behind a sign. -/
  | year
  | month
  | day
  | hour
  | minute
  | second
  | mark (c : Char)
  | blanks
deriving DecidableEq, Repr

/-- The number in the digits at the start of a text, of which at most `width` are taken, and the
rest. -/
def scanNumber? (width : Nat) (s : List Char) : Option (Nat × List Char) :=
  let ds := (s.take width).takeWhile Char.isDigit
  if ds.isEmpty then none else some (Text.valueOfDigits ds, s.drop ds.length)

def scanYear? : List Char → Option (Int × List Char)
  | '-' :: s => (scanNumber? s.length s).map fun (n, rest) => (-(n : Int), rest)
  | '+' :: s => (scanNumber? s.length s).map fun (n, rest) => ((n : Int), rest)
  | s => (scanNumber? 4 s).map fun (n, rest) => ((n : Int), rest)

/-- Reads one part at the start of a text. Blanks before a number are skipped. -/
def Part.read? (p : Part) (r : Reading) (s : List Char) : Option (Reading × List Char) :=
  let number (set : Nat → Reading) :=
    (scanNumber? 2 (s.dropWhile Text.isBlank)).map fun (n, rest) => (set n, rest)
  match p with
  | year =>
    (scanYear? (s.dropWhile Text.isBlank)).map fun (n, rest) => ({ r with year := n }, rest)
  | month => number fun n => { r with month := n }
  | day => number fun n => { r with day := n }
  | hour => number fun n => { r with hour := n }
  | minute => number fun n => { r with minute := n }
  | second => number fun n => { r with second := n }
  | mark c =>
    match s with
    | x :: rest => if x = c then some (r, rest) else none
    | [] => none
  | blanks => some (r, s.dropWhile Text.isBlank)

def readParts? : List Part → Reading → List Char → Option Reading
  | [], r, s => if s.isEmpty then some r else none
  | p :: ps, r, s =>
    match p.read? r s with
    | some (r, rest) => readParts? ps r rest
    | none => none

def dateParts : List Part := [.year, .mark '-', .month, .mark '-', .day]

def layouts : List (List Part) :=
  [dateParts ++ [.mark 'T', .hour, .mark ':', .minute, .mark ':', .second],
   dateParts ++ [.blanks, .hour, .mark ':', .minute, .mark ':', .second],
   dateParts ++ [.mark 'T', .hour, .mark ':', .minute],
   dateParts]

/-! ## Timestamps with a time zone -/

/-- The number in exactly `width` digits at the start of a text, and the rest. -/
def scanFixed? (width : Nat) (s : List Char) : Option (Nat × List Char) :=
  let ds := s.take width
  if ds.length = width then (Text.readNat? ds).map fun n => (n, s.drop width) else none

def skip? (c : Char) : List Char → Option (List Char)
  | x :: s => if x = c then some s else none
  | [] => none

/-- A time zone as seconds east of universal time, which the whole text is to be. -/
def readZone? : List Char → Option Int
  | ['Z'] | ['z'] => some 0
  | sign :: s => do
    let negative ←
      if sign = '+' then some false
      else if sign = '-' || sign = '\u2212' then some true
      else none
    let (hours, s) ← scanFixed? 2 s
    let s ← skip? ':' s
    let (minutes, s) ← scanFixed? 2 s
    if s.isEmpty && minutes ≤ 59 && hours ≤ 23 then
      let n : Int := (hours * 3600 + minutes * 60 : Nat)
      some (if negative then -n else n)
    else none
  | [] => none

def skipFraction? : List Char → Option (List Char)
  | '.' :: s => if (s.takeWhile Char.isDigit).isEmpty then none else some (s.dropWhile Char.isDigit)
  | s => some s

/-- The instant of a timestamp with a time zone: every field has its full width. -/
def readTimestamp? (s : List Char) : Option Instant := do
  let (year, s) ← scanFixed? 4 s
  let s ← skip? '-' s
  let (month, s) ← scanFixed? 2 s
  let s ← skip? '-' s
  let (day, s) ← scanFixed? 2 s
  let s ← (skip? 'T' s).or ((skip? 't' s).or (skip? ' ' s))
  let (hour, s) ← scanFixed? 2 s
  let s ← skip? ':' s
  let (minute, s) ← scanFixed? 2 s
  let s ← skip? ':' s
  let (second, s) ← scanFixed? 2 s
  let s ← skipFraction? s
  let zone ← readZone? s
  let wall ← Reading.toInstant? ⟨year, month, day, hour, minute, second⟩
  some ⟨wall.seconds - zone⟩

/-! ## Instants -/

/-- The whole seconds of a float, rounded down, if it is finite. -/
def wholeSeconds? (x : Float) : Option Int :=
  if x.isFinite then some x.floor.toInt64.toInt else none

/-- The instant that a text stands for. A number is always taken as seconds. -/
def Instant.read? (text : List Char) : Option Instant :=
  let s := Text.trim text
  match Decimal.readFloat? s with
  | some x => (wholeSeconds? x).bind Instant.ofSeconds?
  | none =>
    (readTimestamp? s).or (layouts.findSome? fun parts =>
      (readParts? parts {} s).bind Reading.toInstant?)

end MessageLayout.Calendar
