/-!
Sets of code points given as ascending, disjoint ranges.
-/

namespace Triad.Text

/-- Inclusive ranges of code points, in ascending order. -/
abbrev Ranges := List (Nat × Nat)

/-- The search stops at the first range that starts beyond `n`. -/
def Ranges.contains : Ranges → Nat → Bool
  | [], _ => false
  | (low, high) :: rest, n => decide (low ≤ n) && (decide (n ≤ high) || Ranges.contains rest n)

end Triad.Text
