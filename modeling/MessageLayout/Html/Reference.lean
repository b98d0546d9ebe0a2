import MessageLayout.Text.Numeral

/-!
# Character references

A reference is `&` with a name or a number, and usually a semicolon. All names but `apos` may also
stand without the semicolon; inside an attribute value only if no letter, digit or `=` follows. What
is no reference stands for itself.

Of the names of HTML only the six that fragments need are known, next to all numbers: `&copy;` stays
the text that it is, where HTML reads a copyright sign.
-/

namespace MessageLayout.Html.Reference

/-- The character that stands in for one that text cannot hold. -/
def replacement : Char := '\ufffd'

/-- The names that need no semicolon. -/
def looseNames : List (List Char × Char) :=
  [("amp".toList, '&'), ("lt".toList, '<'), ("gt".toList, '>'), ("quot".toList, '"'),
   ("nbsp".toList, '\u00a0'), ("AMP".toList, '&'), ("LT".toList, '<'), ("GT".toList, '>'),
   ("QUOT".toList, '"')]

/-- The names that a semicolon completes. -/
def names : List (List Char × Char) :=
  ("apos".toList, '\x27') :: looseNames

/-- The characters that the numbers 128 to 159 stand for; those without an entry stand for
themselves. -/
def legacyNumbers : List (Nat × Char) :=
  [(0x80, '\u20ac'), (0x82, '\u201a'), (0x83, '\u0192'), (0x84, '\u201e'), (0x85, '\u2026'),
   (0x86, '\u2020'), (0x87, '\u2021'), (0x88, '\u02c6'), (0x89, '\u2030'), (0x8A, '\u0160'),
   (0x8B, '\u2039'), (0x8C, '\u0152'), (0x8E, '\u017d'), (0x91, '\u2018'), (0x92, '\u2019'),
   (0x93, '\u201c'), (0x94, '\u201d'), (0x95, '\u2022'), (0x96, '\u2013'), (0x97, '\u2014'),
   (0x98, '\u02dc'), (0x99, '\u2122'), (0x9A, '\u0161'), (0x9B, '\u203a'), (0x9C, '\u0153'),
   (0x9E, '\u017e'), (0x9F, '\u0178')]

/-- The character of a number. Zero, surrogates and numbers beyond Unicode have none. -/
def ofNumber (n : Nat) : Char :=
  if n = 0 || !Nat.isValidChar n then replacement
  else (legacyNumbers.lookup n).getD (Char.ofNat n)

/-- Whether `c` continues a reference of which the text `seen` was read behind the `&`. -/
def continues (seen : List Char) (c : Char) : Bool :=
  match seen with
  | [] => c.isAlphanum || c == '#'
  | ['#'] => c.isDigit || c == 'x' || c == 'X'
  | '#' :: 'x' :: _ => Text.isDigitOf 16 c
  | '#' :: 'X' :: _ => Text.isDigitOf 16 c
  | '#' :: _ => c.isDigit
  | _ => c.isAlphanum

structure Reading where
  chars : List Char
  /-- Whether the character that ended it, a semicolon, belongs to it. -/
  takesNext : Bool
  /-- Whether it is a number without its semicolon. -/
  isLoose : Bool

def number? : List Char → Option Nat
  | 'x' :: ds | 'X' :: ds =>
    if ds.isEmpty then none else some (Text.valueInBase 16 ds)
  | ds => if ds.isEmpty then none else some (Text.valueOfDigits ds)

/-- The character of a name that needs no semicolon and starts the text, and the rest. -/
def looseName? (seen : List Char) : Option (Char × List Char) :=
  looseNames.findSome? fun (name, c) => (name.isPrefixOf? seen).map fun rest => (c, rest)

/-- Reads the reference with the longest text `seen` behind the `&`, ended by `next`. -/
def read (inAttribute : Bool) (seen : List Char) (next : Option Char) : Reading :=
  let literal : Reading := ⟨'&' :: seen, false, false⟩
  match seen with
  | '#' :: ds =>
    match number? ds with
    | some n => ⟨[ofNumber n], next == some ';', next != some ';'⟩
    | none => literal
  | _ =>
    match names.lookup seen with
    | some c =>
      if next == some ';' then ⟨[c], true, false⟩ else loose literal
    | none => loose literal
where
  loose (literal : Reading) : Reading :=
    match looseName? seen with
    | none => literal
    | some (c, rest) =>
      if inAttribute && (!rest.isEmpty || next == some '=') then literal
      else ⟨c :: rest, false, false⟩

end MessageLayout.Html.Reference
