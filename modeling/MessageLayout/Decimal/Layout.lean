import MessageLayout.Decimal.Shortest
import MessageLayout.Text.Numeral

/-!
# Layout of decimals

How a finite float is written: its shortest decimal, laid out as a `Layout` says. Three layouts are
in use: for numbers in JSON, for numbers that stand among text, and for numbers in error texts.
-/

namespace MessageLayout.Decimal

/-- The choices in which ways of writing a decimal differ. -/
structure Layout where
  /-- The least and the greatest power of ten of the leading digit that are written without an
  exponent, if they are bounded. -/
  leastPositional : Option Int
  greatestPositional : Option Int
  /-- Whether a whole number without exponent is marked by `.0`. -/
  marksWhole : Bool

/-- Numbers in JSON: without exponent from `0.00001` up to below `10 ^ 16`, and whole numbers end
in `.0`. -/
def Layout.json : Layout := ⟨some (-5), some 15, true⟩

/-- Numbers among text: never an exponent, and no mark on whole numbers. -/
def Layout.plain : Layout := ⟨none, none, false⟩

/-- Numbers in error texts: never an exponent, and whole numbers end in `.0`. -/
def Layout.marked : Layout := ⟨none, none, true⟩

/-- Whether a number whose leading digit stands for `10 ^ n` is written without an exponent. -/
def Layout.isPositional (l : Layout) (n : Int) : Bool :=
  l.leastPositional.all (· ≤ n) && l.greatestPositional.all (n ≤ ·)

def digitChars (d : Decimal) : List Char :=
  Text.ofNat d.digits

def leadingPower (d : Decimal) : Int :=
  d.exponent + d.digitChars.length - 1

def positional (marksWhole : Bool) (d : Decimal) : List Char :=
  let ds := d.digitChars
  if 0 ≤ d.exponent then
    ds ++ List.replicate d.exponent.toNat '0' ++ if marksWhole then ['.', '0'] else []
  else
    let places := (-d.exponent).toNat
    if places < ds.length then ds.take (ds.length - places) ++ '.' :: ds.drop (ds.length - places)
    else ['0', '.'] ++ List.replicate (places - ds.length) '0' ++ ds

/-- A decimal with one digit before the point, and a signed exponent. -/
def scientific (d : Decimal) : List Char :=
  let ds := d.digitChars
  let n := d.leadingPower
  ds.take 1 ++ (if ds.length ≤ 1 then [] else '.' :: ds.drop 1)
    ++ ['e', if n < 0 then '-' else '+'] ++ Text.ofNat n.natAbs

def Layout.write (l : Layout) (d : Decimal) : List Char :=
  if l.isPositional d.leadingPower then d.positional l.marksWhole else d.scientific

def Layout.writeFloat (l : Layout) (x : Float) : List Char :=
  (if signBit x then ['-'] else []) ++ l.write (ofFloat x)

example : Layout.json.write ⟨12345, -2⟩ = "123.45".toList := by decide

example : Layout.json.write ⟨1, 16⟩ = "1e+16".toList := by decide

example : Layout.json.write ⟨1, -7⟩ = "1e-7".toList := by decide

example : Layout.plain.write ⟨1, -7⟩ = "0.0000001".toList ∧ Layout.plain.write ⟨2, 0⟩ = ['2'] := by
  decide

end MessageLayout.Decimal
