/-!
# Character classes

A class of characters is given by the ranges of its code points, in increasing
order, so that a look-up stops at the first range beyond the character.
-/

namespace Arbor

/-- A class of characters, as the increasing list of its ranges of code
points, both ends included. -/
structure CharClass where
  /-- The ranges. -/
  ranges : List (Nat × Nat)

namespace CharClass

/-- Whether `n` lies in one of the increasing `ranges`. -/
def inRanges (n : Nat) : List (Nat × Nat) → Bool
  | [] => false
  | (lo, hi) :: rest => if n < lo then false else n ≤ hi || inRanges n rest

/-- Whether a character belongs to the class. -/
def contains (k : CharClass) (c : Char) : Bool := inRanges c.toNat k.ranges

end CharClass

end Arbor
