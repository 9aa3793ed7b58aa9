import Triad.Binary64
import Triad.Text.Decimal

/-!
Numbers read from text: an optional sign, then digits with at most one point and an optional power
of ten, or one of the words for infinity and for no number. Digits are wanted on one side of the
point at least. The value is the nearest number to the decimal as written.
-/

namespace Triad.Binary64

open Triad.Text

/-- The number nearest to `digits * 10 ^ power`. Decimals beyond the range are told by the place of
their first digit, so that no large power is worked out for them. -/
def ofDecimal (negative : Bool) (digits : List Char) (power : Int) : Binary64 :=
  let digits := digits.dropWhile (· == '0')
  let value := decimalValue digits
  let place := power + digits.length
  if value = 0 then zero negative
  else if 400 < place then .infinite negative
  else if place < -400 then zero negative
  else if 0 ≤ power then ofRatio negative (value * Nat.pow 10 power.toNat) 1
  else ofRatio negative value (Nat.pow 10 (-power).toNat)

/-- A leading sign, and the rest. -/
def splitSign : List Char → Bool × List Char
  | '-' :: rest => (true, rest)
  | '+' :: rest => (false, rest)
  | text => (false, text)

/-- The power of ten behind a decimal, zero where none is written. -/
def readPower : List Char → Option Int
  | [] => some 0
  | mark :: rest =>
    if mark == 'e' || mark == 'E' then
      let (negative, digits) := splitSign rest
      if digits.isEmpty || !digits.all isDigit then none
      else
        let value : Int := decimalValue digits
        some (if negative then -value else value)
    else none

/-- The digits behind a point, and what follows them. -/
def readFraction : List Char → List Char × List Char
  | '.' :: rest => (rest.takeWhile isDigit, rest.dropWhile isDigit)
  | text => ([], text)

def readDecimal (negative : Bool) (text : List Char) : Option Binary64 :=
  let whole := text.takeWhile isDigit
  let (fraction, rest) := readFraction (text.dropWhile isDigit)
  if whole.isEmpty && fraction.isEmpty then none
  else (readPower rest).map fun power =>
    ofDecimal negative (whole ++ fraction) (power - fraction.length)

/-- The words are read in either case. -/
def readWord (negative : Bool) (text : List Char) : Option Binary64 :=
  let word := String.ofList (text.map Char.toLower)
  if word = "inf" ∨ word = "infinity" then some (.infinite negative)
  else if word = "nan" then some .nan
  else none

def ofChars? (text : List Char) : Option Binary64 :=
  let (negative, body) := splitSign text
  readDecimal negative body <|> readWord negative body

def ofString? (s : String) : Option Binary64 := ofChars? s.toList

end Triad.Binary64
