/-!
# Ranges of code points

A set of code points is a list of bounds in order: the first of a range, the first past it, the
first of the next range, and so on. A list of odd length leaves its last range open.
-/

namespace SimpleBinary

/-- Whether an odd number of the bounds is at or below `n`. -/
def inRanges : List Nat → Nat → Bool
  | [], _ => false
  | b :: bs, n => if b ≤ n then !inRanges bs n else false

end SimpleBinary
