import Triad.Binary64

/-!
Numbers written as text: the fewest decimal digits that are read back as the same number, the
nearest of those to the exact value, and of two equally near the greater. They are written in
positions, without a power of ten, and whole numbers without a point.
-/

namespace Triad.Binary64

/-- The exact value of a number and the reals that are rounded to it, as numerators over one
denominator. -/
structure Interval where
  low : Nat
  value : Nat
  high : Nat
  denominator : Nat
  /-- Whether the ends belong to it: a half goes to the even mantissa. -/
  closed : Bool

/-- Half a step to either side, and a quarter below where the step itself changes. -/
def interval (m : Nat) (e : Int) : Interval :=
  let unit := if 2 ≤ e then Nat.pow 2 (e - 2).toNat else 1
  let below := if m = Nat.pow 2 52 ∧ minExponent < e then 1 else 2
  { low := (4 * m - below) * unit
    value := 4 * m * unit
    high := (4 * m + 2) * unit
    denominator := if 2 ≤ e then 1 else Nat.pow 2 (2 - e).toNat
    closed := m % 2 == 0 }

/-- The `k` with `10 ^ k ≤ n / d < 10 ^ (k + 1)`, for `n` and `d` other than zero. -/
def floorLogTen (n d : Nat) : Int :=
  if d ≤ n then (((Nat.toDigits 10 (n / d)).length : Int) - 1)
  else -((Nat.toDigits 10 ((d - 1) / n)).length : Int)

/-- The multiple of `10 ^ p` to write for the interval's value, if one lies in the interval. -/
def Interval.onGrid (i : Interval) (p : Int) : Option Nat :=
  let step := if 0 ≤ p then Nat.pow 10 p.toNat * i.denominator else i.denominator
  let factor := if 0 ≤ p then 1 else Nat.pow 10 (-p).toNat
  let inside (c : Nat) : Bool :=
    if i.closed then decide (i.low * factor ≤ c * step) && decide (c * step ≤ i.high * factor)
    else decide (i.low * factor < c * step) && decide (c * step < i.high * factor)
  let below := i.value * factor / step
  match inside below, inside (below + 1) with
  | true, true => some (if 2 * (i.value * factor % step) < step then below else below + 1)
  | true, false => some below
  | false, true => some (below + 1)
  | false, false => none

/-- The coarsest grid with a hit, among `n` grids from `10 ^ p` down. -/
def Interval.search (i : Interval) : Nat → Int → Option (Nat × Int)
  | 0, _ => none
  | n + 1, p =>
    match i.onGrid p with
    | some c => some (c, p)
    | none => i.search n (p - 1)

/-- Seventeen digits tell every number from its neighbours. -/
def shortest (m : Nat) (e : Int) : Nat × Int :=
  let i := interval m e
  (i.search 17 (floorLogTen i.value i.denominator)).getD (m, e)

/-- `digits * 10 ^ power` in positions. -/
def positional (digits : List Char) (power : Int) : List Char :=
  if 0 ≤ power then digits ++ List.replicate power.toNat '0'
  else
    let places := (-power).toNat
    if places < digits.length then
      digits.take (digits.length - places) ++ '.' :: digits.drop (digits.length - places)
    else '0' :: '.' :: List.replicate (places - digits.length) '0' ++ digits

/-- Zeros at the end of the digits go into the power. -/
def trimZeros (digits : List Char) (power : Int) : List Char × Int :=
  let kept := (digits.reverse.dropWhile (· == '0')).reverse
  (kept, power + (digits.length - kept.length : Nat))

def signed (negative : Bool) (text : List Char) : List Char :=
  if negative then '-' :: text else text

def toChars : Binary64 → List Char
  | nan => ['N', 'a', 'N']
  | infinite s => signed s ['i', 'n', 'f']
  | finite s m e =>
    if m = 0 then signed s ['0']
    else
      let (c, p) := shortest m e
      let (digits, power) := trimZeros (Nat.toDigits 10 c) p
      signed s (positional digits power)

def render (x : Binary64) : String := String.ofList x.toChars

end Triad.Binary64
