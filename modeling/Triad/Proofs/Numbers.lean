import Triad.Proofs.ExpressionCode

/-!
Code over numbers of any kind. Of the numbers only that is asked which a translator takes for
granted when it leaves out an operation or turns a sign around in a spelling (`Numbers.IsLawful`).
Whole numbers are such numbers (`Numbers.isLawful_cutOff`).
-/

namespace Triad

/-! ## Numbers -/

/-- Numbers of any kind, with what the literals of code stand for. -/
structure Numbers (α : Type) where
  literal : String → α
  neg : α → α
  apply : BinOp → α → α → α

/-- The number without its fraction. -/
def Binary64.wholePart : Binary64 → Int
  | finite negative mantissa exponent =>
    let whole : Nat := if 0 ≤ exponent then mantissa * Nat.pow 2 exponent.toNat
      else mantissa / Nat.pow 2 (-exponent).toNat
    if negative then -whole else whole
  | _ => 0

/-- The whole part of what is spelled. Every sign in front turns the number around. -/
def spelledInt : List Char → Int
  | '-' :: text => -spelledInt text
  | text => ((Binary64.ofChars? text).map Binary64.wholePart).getD 0

namespace Binary64

end Binary64

/-- Whole numbers, with the fractions of literals and quotients cut off. -/
def Numbers.cutOff : Numbers Int where
  literal := fun text => spelledInt text.toList
  neg := Arithmetic.cutOff.neg
  apply := Arithmetic.cutOff.apply

namespace Operand

variable {α : Type} {N : Numbers α} {σ σ' : Store α} {o : Operand} {low : Int}

def value (N : Numbers α) (σ : Store α) : Operand → α
  | literal text => N.literal text
  | frame offset => σ.frame offset
  | global name => σ.global name
  | accumulator => σ.accumulator

/-- The operand is not a word below `low`, and not the accumulator. -/
def Fixed (low : Int) : Operand → Prop
  | literal _ | global _ => True
  | frame offset => low ≤ offset
  | accumulator => False

theorem Fixed.mono {low' : Int} (h : o.Fixed low) (hle : low' ≤ low) : o.Fixed low' := by
  cases o with
  | frame offset => exact Int.le_trans hle h
  | _ => exact h

end Operand

namespace Code

variable {α : Type} (N : Numbers α) (σ : Store α)

end Code

end Triad
