import MessageLayout.Text.Numeral

/-!
# Reading floats

A decimal number is read as the float nearest to it. The text has an optional sign, digits with an
optional point among or around them, and an optional exponent; infinity and NaN go by their names.
-/

namespace MessageLayout.Decimal

/-- The float nearest to `digits * 10 ^ exponent`, with a sign. Numbers far beyond the largest float
or below the smallest are settled without computing the power. -/
def toFloat (negative : Bool) (digits : List Char) (exponent : Int) : Float :=
  let ds := digits.dropWhile (· = '0')
  let size := exponent + ds.length
  let x :=
    if ds.isEmpty || size < -400 then 0.0
    else if 400 < size then 1.0 / 0.0
    else Float.ofScientific (Text.valueOfDigits ds) (exponent < 0) exponent.natAbs
  if negative then -x else x

def splitSign : List Char → Bool × List Char
  | '-' :: s => (true, s)
  | '+' :: s => (false, s)
  | s => (false, s)

def names : List (List Char × Float) :=
  [("inf".toList, 1.0 / 0.0), ("infinity".toList, 1.0 / 0.0), ("nan".toList, 0.0 / 0.0)]

/-- The exponent at the end of a number, which is zero if there is none. -/
def readExponent? : List Char → Option Int
  | [] => some 0
  | c :: s =>
    if c = 'e' || c = 'E' then
      let (negative, ds) := splitSign s
      (Text.readNat? ds).map fun n => if negative then -(n : Int) else n
    else none

def readFloat? (s : List Char) : Option Float :=
  let (negative, s) := splitSign s
  match names.lookup (s.map Char.toLower) with
  | some x => some (if negative then -x else x)
  | none => do
    let (whole, s) := s.span Char.isDigit
    let (fraction, s) := match s with
      | '.' :: s => s.span Char.isDigit
      | s => ([], s)
    if whole.isEmpty && fraction.isEmpty then none
    let exponent ← readExponent? s
    some (toFloat negative (whole ++ fraction) (exponent - fraction.length))

end MessageLayout.Decimal
