/-!
# Shortest decimals

`Decimal.ofFloat` is the decimal with the fewest digits that reads back as a given finite float
and, of those, the nearest to it. A finite float is `m * 2 ^ q`; the reals that round to it form
an interval around it, and the grids of decimals with 1, 2, … digits are searched for a point of
that interval. If a grid has one, then so do the two neighbours of the float on it.
-/

namespace MessageLayout

-- Powers are the core library's, also where an algebraic hierarchy offers others; a literal
-- exponent is given its type for that.
attribute [local instance (high)] instPowNat

/-- A nonnegative decimal number: `digits * 10 ^ exponent`. -/
structure Decimal where
  digits : Nat
  exponent : Int
deriving DecidableEq, Repr

namespace Decimal

/-- A positive float as a whole number times a power of two. -/
structure Binary where
  /-- The whole number, below `2 ^ (53 : Nat)`. -/
  mantissa : Nat
  exponent : Int
  /-- Whether the next smaller float is only half a step away. -/
  atPowerOfTwo : Bool
deriving DecidableEq, Repr

def Binary.ofBits (bits : UInt64) : Binary :=
  let n : Nat := bits.toNat
  let fraction : Nat := n % 2 ^ (52 : Nat)
  let field : Nat := n / 2 ^ (52 : Nat) % 2 ^ (11 : Nat)
  if field = 0 then ⟨fraction, -1074, false⟩
  else ⟨2 ^ (52 : Nat) + fraction, (field : Int) - 1075, fraction = 0 && field ≠ 1⟩

/-- Whether `n` units of `10 ^ k` round to the float. The bounds of the interval are the midpoints
between the float and its neighbours, and belong to it if the mantissa is even. All is scaled by
four times the denominators of both powers. -/
def Binary.covers (b : Binary) (n : Nat) (k : Int) : Bool :=
  let scale := 2 ^ (-b.exponent).toNat * 10 ^ (-k).toNat
  let point := 4 * n * 10 ^ k.toNat * 2 ^ (-b.exponent).toNat
  let unit := 2 ^ b.exponent.toNat * 10 ^ (-k).toNat
  let upper := (4 * b.mantissa + 2) * unit
  let lower := (4 * b.mantissa - if b.atPowerOfTwo then 1 else 2) * unit
  let closed := b.mantissa % 2 == 0
  scale != 0 && if closed then lower ≤ point && point ≤ upper else lower < point && point < upper

def log10 (n : Nat) : Nat :=
  (Nat.toDigits 10 n).length - 1

def Binary.leading (b : Binary) : Int :=
  let num := b.mantissa * 2 ^ b.exponent.toNat
  let den := 2 ^ (-b.exponent).toNat
  if den ≤ num then log10 (num / den)
  else -((log10 ((den + num - 1) / num - 1) : Int) + 1)

/-- The decimal with `size` digits that is nearest to the float among those that round to it. -/
def Binary.onGrid? (b : Binary) (size : Nat) : Option Decimal :=
  let k := b.leading - (size : Int) + 1
  let num := b.mantissa * 2 ^ b.exponent.toNat * 10 ^ (-k).toNat
  let den := 2 ^ (-b.exponent).toNat * 10 ^ k.toNat
  let below := num / den
  let above := below + 1
  -- twice the distance from the lower neighbour against a whole step
  let twice := 2 * (num % den)
  let aboveIsNearer := den < twice || (den == twice && below % 2 == 1)
  let first := if aboveIsNearer then above else below
  let second := if aboveIsNearer then below else above
  if b.covers first k then some ⟨first, k⟩
  else if b.covers second k then some ⟨second, k⟩
  else none

/-- The decimal without zeros at its end; the zero has exponent zero. -/
def reduceBy : Nat → Decimal → Decimal
  | 0, d => d
  | fuel + 1, d =>
    if d.digits = 0 then ⟨0, 0⟩
    else if d.digits % 10 = 0 then reduceBy fuel ⟨d.digits / 10, d.exponent + 1⟩
    else d

/-- The shortest decimal that reads back as the finite float with these bits, and the nearest to
it of those; the sign is left out. Seventeen digits always suffice. -/
def ofBits (bits : UInt64) : Decimal :=
  let b := Binary.ofBits bits
  if b.mantissa = 0 then ⟨0, 0⟩
  else
    match (List.range 17).findSome? fun i => b.onGrid? (i + 1) with
    | some d => reduceBy 20 d
    | none => ⟨0, 0⟩

def ofFloat (x : Float) : Decimal :=
  ofBits x.toBits

end Decimal

/-- Whether the sign bit of a float is set; the negative zero has it too. -/
def signBit (x : Float) : Bool :=
  2 ^ (63 : Nat) ≤ x.toBits.toNat

end MessageLayout
