/-!
# Code point ranges

A character class is a list of ranges of code points. The ranges of every table are ascending and
disjoint, so a search stops at the first range that starts beyond the character.
-/

namespace ReactiveFrames.Text

/-- `n` lies in one of the ascending ranges. -/
def inRanges : List (Nat × Nat) → Nat → Bool
  | [], _ => false
  | (lo, hi) :: rest, n => if n < lo then false else if n ≤ hi then true else inRanges rest n

end ReactiveFrames.Text
