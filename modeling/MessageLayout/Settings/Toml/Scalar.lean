import MessageLayout.Decimal.Reader
import MessageLayout.Settings.Basic
import MessageLayout.Settings.Toml.Moment

/-!
# Plain values in TOML

A plain value is a word: a truth value, a whole number, a float, or a date with or without a time of
day, which is a setting as text. Digits may stand in groups with a low line between two of them.
-/

namespace MessageLayout.Toml

-- Powers are the core library's, also where an algebraic hierarchy offers others; a literal
-- exponent is given its type for that.
attribute [local instance (high)] instPowNat

def isWordChar (c : Char) : Bool :=
  c.isAlphanum || c = '_' || c = '+' || c = '-' || c = '.' || c = ':'

/-- The digits of a number in groups, without what stands between the groups. -/
def ungroup? (isDigit : Char → Bool) : List Char → Option (List Char)
  | [] => none
  | [d] => if isDigit d then some [d] else none
  | d :: '_' :: s => if isDigit d then (ungroup? isDigit s).map (d :: ·) else none
  | d :: s => if isDigit d then (ungroup? isDigit s).map (d :: ·) else none

/-- The digits of a decimal number, of which the first is zero only if it stands alone. -/
def readWhole? (s : List Char) : Option (List Char) :=
  match s with
  | '0' :: _ :: _ => none
  | s => ungroup? Char.isDigit s

def readInBase? (base : Nat) (s : List Char) : Option Setting := do
  let n := Text.valueInBase base (← ungroup? (Text.isDigitOf base) s)
  if n < 2 ^ (63 : Nat) then some (.int n) else none

def readInteger? : List Char → Option Setting
  | '0' :: 'x' :: s => readInBase? 16 s
  | '0' :: 'o' :: s => readInBase? 8 s
  | '0' :: 'b' :: s => readInBase? 2 s
  | s => do
    let (negative, s) := Decimal.splitSign s
    let n : Int := Text.valueOfDigits (← readWhole? s)
    let n := if negative then -n else n
    if Text.minInt64 ≤ n && n ≤ Text.maxInt64 then some (.int n) else none

def isExponentMark (c : Char) : Bool :=
  c = 'e' || c = 'E'

/-- The exponent that a text gives behind a float; without one it is zero. -/
def readExponent? : List Char → Option Int
  | [] => some 0
  | _ :: s => do
    let (negative, s) := Decimal.splitSign s
    let n : Int := Text.valueOfDigits (← ungroup? Char.isDigit s)
    some (if negative then -n else n)

/-- The float with the given digits before the point, after it, and the given exponent. Above the
greatest float there is none, but below the least there is negative infinity. -/
def floatOf? (negative : Bool) (whole fraction : List Char) (exponent : Int) : Option Setting :=
  let x := Decimal.toFloat negative (whole ++ fraction) (exponent - fraction.length)
  if x == 1.0 / 0.0 then none else some (.float x)

/-- A float, which has a point or an exponent or is one of the named ones. -/
def readFloat? (s : List Char) : Option Setting :=
  let (negative, s) := Decimal.splitSign s
  if s = "inf".toList then some (.float (if negative then -1.0 / 0.0 else 1.0 / 0.0))
  else if s = "nan".toList then some (.float (0.0 / 0.0))
  else do
    let (whole, s) := s.span fun c => c ≠ '.' && !isExponentMark c
    let whole ← readWhole? whole
    match s with
    | [] => none
    | '.' :: s =>
      let (fraction, s) := s.span fun c => !isExponentMark c
      floatOf? negative whole (← ungroup? Char.isDigit fraction) (← readExponent? s)
    | s => floatOf? negative whole [] (← readExponent? s)

def readWord? (s : List Char) : Option Setting :=
  if s = "true".toList then some (.bool true)
  else if s = "false".toList then some (.bool false)
  else
    ((readMoment? s).map fun t => Setting.str (String.ofList t)).or
      ((readFloat? s).or (readInteger? s))

/-- Whether a text goes on with a time of day behind a date and one space. -/
def continuesDate (date s : List Char) : Bool :=
  (readDate? date).any (·.2.isEmpty) && (s.drop 1).head?.any Char.isDigit && s.head? = some ' '

def readScalar? (s : List Char) : Option (Setting × List Char) := do
  let (word, rest) := s.span isWordChar
  if continuesDate word rest then
    let (time, rest) := (rest.drop 1).span isWordChar
    some (← readWord? (word ++ ' ' :: time), rest)
  else some (← readWord? word, rest)

end MessageLayout.Toml
