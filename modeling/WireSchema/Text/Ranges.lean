/-!
# Ranges of characters

A set of characters as a list of ranges of code points in increasing order.
-/

namespace WireSchema

/-- Whether a code point lies in one of the ranges, which increase. -/
def inRanges (n : Nat) : List (Nat × Nat) → Bool
  | [] => false
  | (low, high) :: rest =>
    if n < low then false else if n ≤ high then true else inRanges n rest

end WireSchema
