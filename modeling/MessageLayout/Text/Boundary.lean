/-!
# Sets of characters

A set of characters as the code points at which it begins and ends, in turn and in order. A
character belongs to the set if an odd number of them do not lie behind it.
-/

namespace MessageLayout.Text

/-- Whether the set with the given beginnings and ends holds the code point `n`, where `inside`
says so for the code points before the first of them. -/
def isWithinFrom (n : Nat) : Bool → List Nat → Bool
  | inside, [] => inside
  | inside, b :: bounds => if n < b then inside else isWithinFrom n (!inside) bounds

def isWithin (bounds : List Nat) (c : Char) : Bool :=
  isWithinFrom c.toNat false bounds

example : isWithin [0x30, 0x3A] '0' = true ∧ isWithin [0x30, 0x3A] '9' = true := by decide

example : isWithin [0x30, 0x3A] '/' = false ∧ isWithin [0x30, 0x3A] ':' = false := by decide

end MessageLayout.Text
