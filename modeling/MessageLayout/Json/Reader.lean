import MessageLayout.Json.Basic
import MessageLayout.Text.Numeral

/-!
# Reading JSON text

`Json.read?` reads one value with blanks around it. A whole number that fits 64 bits, with sign or
without, is read as such; any other number is read as a float, and so is `-0`. The value of a float
is found in two roundings: the leading digits that fit 64 bits as one float, then one
multiplication with or division by a power of ten.
-/

namespace MessageLayout.Json

-- Powers are the core library's, also where an algebraic hierarchy offers others; a literal
-- exponent is given its type for that.
attribute [local instance (high)] instPowNat

def skipBlanks (s : List Char) : List Char :=
  s.dropWhile fun c => c = ' ' || c = '\t' || c = '\n' || c = '\r'

def readUnit : List Char → Option (Nat × List Char)
  | a :: b :: c :: d :: s => do
    let a ← Text.hexDigit? a
    let b ← Text.hexDigit? b
    let c ← Text.hexDigit? c
    let d ← Text.hexDigit? d
    some (((a * 16 + b) * 16 + c) * 16 + d, s)
  | _ => none

/-- The character of an escape by number: one unit, or two units that form a surrogate pair. -/
def readUnits (s : List Char) : Option (Char × List Char) := do
  let (high, s) ← readUnit s
  if 0xD800 ≤ high && high < 0xDC00 then
    match s with
    | '\\' :: 'u' :: s => do
      let (low, s) ← readUnit s
      if 0xDC00 ≤ low && low < 0xE000 then
        some (Char.ofNat (0x10000 + (high - 0xD800) * 0x400 + (low - 0xDC00)), s)
      else none
    | _ => none
  else if 0xDC00 ≤ high && high < 0xE000 then none
  else some (Char.ofNat high, s)

def readEscape : List Char → Option (Char × List Char)
  | '"' :: s => some ('"', s)
  | '\\' :: s => some ('\\', s)
  | '/' :: s => some ('/', s)
  | 'b' :: s => some (Char.ofNat 8, s)
  | 'f' :: s => some (Char.ofNat 12, s)
  | 'n' :: s => some ('\n', s)
  | 'r' :: s => some ('\r', s)
  | 't' :: s => some ('\t', s)
  | 'u' :: s => readUnits s
  | _ => none

/-- The characters of a string up to its closing quotation mark, given the text behind the opening
one, and the rest. Each round takes at least one character, so the length bounds their number. -/
def readCharsBy : Nat → List Char → Option (List Char × List Char)
  | 0, _ => none
  | _ + 1, [] => none
  | _ + 1, '"' :: s => some ([], s)
  | fuel + 1, '\\' :: s => do
    let (c, s) ← readEscape s
    let (cs, s) ← readCharsBy fuel s
    some (c :: cs, s)
  | fuel + 1, c :: s => do
    if c.toNat < 32 then none
    let (cs, s) ← readCharsBy fuel s
    some (c :: cs, s)

def readString (s : List Char) : Option (String × List Char) := do
  let (cs, s) ← readCharsBy (s.length + 1) s
  some (String.ofList cs, s)

/-! ## Numbers -/

def powerOfTen (n : Nat) : Float :=
  Float.ofScientific 1 false n

/-- The float `digits * 10 ^ exponent`, rounded once for the digits and once for each step by a
power of ten; `none` if it is too large. A step goes down by at most `10 ^ 308`. -/
def scaleBy : Nat → Float → Int → Option Float
  | 0, _, _ => none
  | fuel + 1, x, exponent =>
    if exponent.natAbs ≤ 308 then
      if 0 ≤ exponent then
        let y := x * powerOfTen exponent.toNat
        if y.isFinite then some y else none
      else some (x / powerOfTen exponent.natAbs)
    else if x == 0 then some x
    else if 0 ≤ exponent then none
    else scaleBy fuel (x / powerOfTen 308) (exponent + 308)

/-- The leading digits of a number as one number below `2 ^ 64`, and how many digits follow. -/
def leadingDigits : Nat → List Char → Nat × Nat
  | n, [] => (n, 0)
  | n, d :: ds =>
    let next := 10 * n + (d.toNat - 48)
    if next < 2 ^ (64 : Nat) then leadingDigits next ds else (n, ds.length + 1)

def floatOf (negative : Bool) (whole fraction : List Char) (exponent : Int) : Option Json := do
  let (n, more) := leadingDigits 0 whole
  let (n, unread) := leadingDigits n fraction
  let places : Int := more - (fraction.length - unread : Nat)
  let x ← scaleBy 20 (UInt64.ofNat n).toFloat (Text.clampInt64 (places + exponent))
  some (.float (if negative then -x else x))

/-- The exponent of a number, given the text behind the letter: its sign, its digits, the rest. -/
def readExponent (s : List Char) : Option (Int × List Char) :=
  let (negative, s) := match s with
    | '-' :: s => (true, s)
    | '+' :: s => (false, s)
    | s => (false, s)
  let (ds, s) := s.span Char.isDigit
  if ds.isEmpty then none
  else
    let n : Int := Text.valueOfDigits ds
    some (if negative then -n else n, s)

def readNumber (negative : Bool) (s : List Char) : Option (Json × List Char) := do
  let (whole, s) := s.span Char.isDigit
  if whole.isEmpty || (whole.length > 1 && whole.head? == some '0') then none
  let (fraction?, s) := match s with
    | '.' :: s => let (ds, s) := s.span Char.isDigit; (some ds, s)
    | s => (none, s)
  if fraction? == some [] then none
  let (exponent?, s) ← match s with
    | 'e' :: s => do let (n, s) ← readExponent s; some (some n, s)
    | 'E' :: s => do let (n, s) ← readExponent s; some (some n, s)
    | s => some (none, s)
  let n := Text.valueOfDigits whole
  if fraction?.isNone && exponent?.isNone
      && n < (if negative then 2 ^ (63 : Nat) + 1 else 2 ^ (64 : Nat))
      && !(negative && n == 0) then
    some (.int (if negative then -(n : Int) else n), s)
  else
    let x ← floatOf negative whole (fraction?.getD []) (exponent?.getD 0)
    some (x, s)

/-! ## Values -/

def dropWord (word : String) (s : List Char) : Option (List Char) :=
  word.toList.isPrefixOf? s

mutual

/-- A value at the start of a text, and the rest. Every call within takes at least one character,
so the length of the text bounds the depth. -/
def readValueBy : Nat → List Char → Option (Json × List Char)
  | 0, _ => none
  | fuel + 1, s =>
    match skipBlanks s with
    | 'n' :: s => do some (.null, ← dropWord "ull" s)
    | 't' :: s => do some (.bool true, ← dropWord "rue" s)
    | 'f' :: s => do some (.bool false, ← dropWord "alse" s)
    | '"' :: s => do
      let (t, s) ← readString s
      some (.str t, s)
    | '[' :: s =>
      match skipBlanks s with
      | ']' :: s => some (.arr [], s)
      | s => do
        let (v, s) ← readValueBy fuel s
        let (vs, s) ← readItemsBy fuel s
        some (.arr (v :: vs), s)
    | '{' :: s =>
      match skipBlanks s with
      | '}' :: s => some (.obj ∅, s)
      | s => do
        let (e, s) ← readFieldBy fuel s
        let (es, s) ← readFieldsBy fuel s
        some (.obj (.ofList (e :: es)), s)
    | '-' :: s => readNumber true s
    | s => readNumber false s

def readItemsBy : Nat → List Char → Option (List Json × List Char)
  | 0, _ => none
  | fuel + 1, s =>
    match skipBlanks s with
    | ']' :: s => some ([], s)
    | ',' :: s => do
      let (v, s) ← readValueBy fuel s
      let (vs, s) ← readItemsBy fuel s
      some (v :: vs, s)
    | _ => none

def readFieldBy : Nat → List Char → Option ((String × Json) × List Char)
  | 0, _ => none
  | fuel + 1, s =>
    match skipBlanks s with
    | '"' :: s => do
      let (name, s) ← readString s
      match skipBlanks s with
      | ':' :: s =>
        let (v, s) ← readValueBy fuel s
        some ((name, v), s)
      | _ => none
    | _ => none

def readFieldsBy : Nat → List Char → Option (List (String × Json) × List Char)
  | 0, _ => none
  | fuel + 1, s =>
    match skipBlanks s with
    | '}' :: s => some ([], s)
    | ',' :: s => do
      let (e, s) ← readFieldBy fuel s
      let (es, s) ← readFieldsBy fuel s
      some (e :: es, s)
    | _ => none

end

def read? (text : String) : Option Json := do
  let s := text.toList
  let (v, rest) ← readValueBy (2 * s.length + 2) s
  if (skipBlanks rest).isEmpty then some v else none

end MessageLayout.Json
