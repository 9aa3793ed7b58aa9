import Triad.Binary64.Shortest

/-!
Types of values, the ways a parameter is passed, and the values of constants.
-/

namespace Triad

inductive ValueType
  | int
  | char
  | float
  | void
  | untyped
  deriving DecidableEq, Repr

/-- Bytes that a value of the type takes. -/
def ValueType.size : ValueType → Int
  | .int => 2
  | .char => 1
  | .float => 4
  | .void => 0
  | .untyped => 0

def ValueType.name : ValueType → String
  | .int => "int"
  | .char => "char"
  | .float => "float"
  | .void => "void"
  | .untyped => ""

inductive PassingMode
  | byValue
  | byReference
  | byOutput
  deriving DecidableEq, Repr

/-- The mode as it stands in front of a declaration, with its blank. -/
def PassingMode.text : PassingMode → String
  | .byValue => ""
  | .byReference => "ref "
  | .byOutput => "out "

inductive ConstantValue
  | int (value : Int)
  | float (value : Binary64)
  | char (value : Char)
  deriving DecidableEq, Repr

/-- The number that stands for the value in code: a character is its code point. -/
def ConstantValue.render : ConstantValue → String
  | .int v => toString v
  | .float v => v.render
  | .char c => toString c.toNat

def ConstantValue.neg : ConstantValue → ConstantValue
  | .int v => .int (-v)
  | .float v => .float v.neg
  | .char c => .char c

end Triad
