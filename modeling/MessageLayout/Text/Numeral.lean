/-!
# Numerals

Integers in ASCII decimal digits: writing them, and reading them within a range of machine words.
Digits of other bases up to sixteen are read as well.
-/

namespace MessageLayout.Text

-- Powers are the core library's, also where an algebraic hierarchy offers others; a literal
-- exponent is given its type for that.
attribute [local instance (high)] instPowNat

def ofNat (n : Nat) : List Char :=
  Nat.toDigits 10 n

def ofInt : Int → List Char
  | .ofNat n => ofNat n
  | .negSucc n => '-' :: ofNat (n + 1)

def padded (width n : Nat) : List Char :=
  List.leftpad width '0' (ofNat n)

def valueOfDigits (ds : List Char) : Nat :=
  ds.foldl (fun n d => 10 * n + (d.toNat - 48)) 0

def readNat? (s : List Char) : Option Nat :=
  if !s.isEmpty && s.all Char.isDigit then some (valueOfDigits s) else none

/-- The integer that digits after an optional sign stand for. -/
def readInt? : List Char → Option Int
  | '-' :: s => (readNat? s).map fun n => -(n : Int)
  | '+' :: s => (readNat? s).map Int.ofNat
  | s => (readNat? s).map Int.ofNat

def minInt64 : Int := -2 ^ (63 : Nat)

def maxInt64 : Int := 2 ^ (63 : Nat) - 1

def readInt64? (s : List Char) : Option Int := do
  let n ← readInt? s
  if minInt64 ≤ n && n ≤ maxInt64 then some n else none

/-- The integer, moved to the nearest one that fits 64 bits with sign. -/
def clampInt64 (n : Int) : Int :=
  max minInt64 (min n maxInt64)

/-- The integer of 64 bits with sign that has the same remainder modulo `2 ^ 64`. -/
def wrapInt64 (n : Nat) : Int :=
  Int.bmod n (2 ^ (64 : Nat))

theorem readNat?_ofNat (n : Nat) : readNat? (ofNat n) = some n := by
  have hd : (ofNat n).all Char.isDigit = true :=
    List.all_eq_true.mpr fun _ hc => Nat.isDigit_of_mem_toDigits (by decide) (by decide) hc
  have hne : (ofNat n).isEmpty = false := by
    simp [ofNat]
  have hv : valueOfDigits (ofNat n) = n := Nat.ofDigitChars_ten_toDigits
  simp [readNat?, hd, hne, hv]

/-! ## Other bases -/

def hexDigit? (c : Char) : Option Nat :=
  if c.isDigit then some (c.toNat - 48)
  else if 'a' ≤ c && c ≤ 'f' then some (c.toNat - 87)
  else if 'A' ≤ c && c ≤ 'F' then some (c.toNat - 55)
  else none

/-- Whether a character is a digit of the given base, which is at most sixteen. -/
def isDigitOf (base : Nat) (c : Char) : Bool :=
  (hexDigit? c).any (· < base)

def valueInBase (base : Nat) (ds : List Char) : Nat :=
  ds.foldl (fun n d => base * n + (hexDigit? d).getD 0) 0

example : valueInBase 16 "fF".toList = 255 ∧ valueInBase 2 "101".toList = 5 := by decide

end MessageLayout.Text
