/-!
# Runs of characters

A property of characters that is given by data is a list of runs: the first and the last code point
of each, in ascending order. The search stops at the first run that starts behind the character.
-/

namespace Suspension.Text

/-- Whether a code point lies in one of some runs in ascending order. -/
def inRanges (n : Nat) : List (Nat × Nat) → Bool
  | [] => false
  | (first, last) :: runs => if n < first then false else n ≤ last || inRanges n runs

end Suspension.Text
