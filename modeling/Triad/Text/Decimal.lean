/-!
Decimal digits and the numbers they spell. Only the ten ASCII digits count here.
-/

namespace Triad.Text

def isDigit (c : Char) : Bool :=
  decide ('0' ≤ c) && decide (c ≤ '9')

def digitValue (c : Char) : Nat :=
  c.toNat - '0'.toNat

/-- The number that a run of digits spells, the empty run spelling zero. -/
def decimalValue (digits : List Char) : Nat :=
  digits.foldl (fun value c => 10 * value + digitValue c) 0

end Triad.Text
