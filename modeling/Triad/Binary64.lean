/-!
Binary floating-point numbers of 64 bits, as exact values.

* `ofRatio` rounds a ratio of whole numbers to the nearest of them, a half to the even neighbour;
* `toWord` cuts the fraction off and keeps the result in the range of a signed 16-bit word.
-/

namespace Triad

/-- A finite number is `mantissa * 2 ^ exponent`, with a sign of its own since zero has one too.
The mantissa has 53 bits, or fewer at the least exponent. -/
inductive Binary64
  | nan
  | infinite (negative : Bool)
  | finite (negative : Bool) (mantissa : Nat) (exponent : Int)
  deriving DecidableEq, Repr

namespace Binary64

def minExponent : Int := -1074
def maxExponent : Int := 971

def zero (negative : Bool) : Binary64 := .finite negative 0 minExponent

/-- `n / d` to the nearest whole number, a half to the even neighbour. -/
def nearestEven (n d : Nat) : Nat :=
  let q := n / d
  let r := n % d
  if 2 * r < d then q
  else if d < 2 * r then q + 1
  else q + q % 2

/-- Numerator and denominator of `n / (d * 2 ^ e)`. -/
def scale (n d : Nat) (e : Int) : Nat × Nat :=
  if 0 ≤ e then (n, d * Nat.pow 2 e.toNat) else (n * Nat.pow 2 (-e).toNat, d)

/-- The `k` with `2 ^ k ≤ n / d < 2 ^ (k + 1)`, for `n` and `d` other than zero. -/
def floorLog (n d : Nat) : Int :=
  let k : Int := (n.log2 : Int) - (d.log2 : Int)
  let (a, b) := scale n d k
  if a < b then k - 1 else k

/-- The number nearest to `n / d`, with the given sign. -/
def ofRatio (negative : Bool) (n d : Nat) : Binary64 :=
  if n = 0 then zero negative
  else
    let e := max (floorLog n d - 52) minExponent
    let (a, b) := scale n d e
    let m := nearestEven a b
    let (m, e) := if m = Nat.pow 2 53 then (Nat.pow 2 52, e + 1) else (m, e)
    if maxExponent < e then .infinite negative else .finite negative m e

def ofNat (n : Nat) : Binary64 := ofRatio false n 1

def one : Binary64 := .finite false (Nat.pow 2 52) (-52)

def neg : Binary64 → Binary64
  | nan => nan
  | infinite s => infinite (!s)
  | finite s m e => finite (!s) m e

/-- Both zeros are zero. -/
def isZero : Binary64 → Bool
  | finite _ m _ => m == 0
  | _ => false

def isOne (x : Binary64) : Bool := x == one

def minWord : Int := -32768
def maxWord : Int := 32767

/-- The whole part as a signed 16-bit word: what lies outside goes to the nearer end of the range,
and no number at all goes to zero. -/
def toWord : Binary64 → Int
  | nan => 0
  | infinite s => if s then minWord else maxWord
  | finite s m e =>
    let whole : Nat := if 0 ≤ e then m * Nat.pow 2 e.toNat else m / Nat.pow 2 (-e).toNat
    max minWord (min maxWord (if s then -(whole : Int) else whole))

end Binary64

end Triad
