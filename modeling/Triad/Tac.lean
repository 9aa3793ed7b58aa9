import Triad.Binary64.Reading
import Triad.Text.WhiteSpace

/-!
Three-address code: operands, the operations on two of them, and instructions, with their text.
-/

namespace Triad

inductive BinOp
  | add
  | sub
  | mul
  | div
  | or
  | and
  deriving DecidableEq, Repr

def BinOp.ofLexeme? : String → Option BinOp
  | "+" => some .add
  | "-" => some .sub
  | "*" => some .mul
  | "/" => some .div
  | "||" => some .or
  | "&&" => some .and
  | _ => none

def BinOp.render : BinOp → String
  | .add => "+"
  | .sub => "-"
  | .mul => "*"
  | .div => "/"
  | .or => "|"
  | .and => "&"

/-- What an instruction reads or writes: a number as it is spelt, a slot of the frame, a variable of
a class, or the accumulator, where a method leaves its result. -/
inductive Operand
  | literal (text : String)
  | frame (offset : Int)
  | global (name : String)
  | accumulator
  deriving DecidableEq, Repr

/-- The text of a frame slot. -/
def frameSlot (offset : Int) : String :=
  if offset < 0 then s!"_BP{offset}" else s!"_BP+{offset}"

namespace Operand

def render : Operand → String
  | literal text => text
  | frame offset => frameSlot offset
  | global name => name
  | accumulator => "_AX"

def isLiteral : Operand → Bool
  | literal _ => true
  | _ => false

/-- The number that a literal spells, if it spells one. -/
def value? : Operand → Option Binary64
  | literal text => Binary64.ofString? text
  | _ => none

def isZero (o : Operand) : Bool := o.value?.any Binary64.isZero

def isOne (o : Operand) : Bool := o.value?.any Binary64.isOne

end Operand

inductive Instr
  | proc (name : String)
  | endp (name : String)
  | push (source : Operand)
  | call (name : String)
  | binary (dest left : Operand) (op : BinOp) (right : Operand)
  | assign (dest source : Operand)
  | negate (dest source : Operand)
  | readInt (dest : Operand)
  | writeInt (source : Operand)
  | writeStr (label : String)
  | writeLn
  | start (name : String)
  deriving DecidableEq, Repr

namespace Instr

/-- Instructions inside a procedure are indented. -/
def render : Instr → String
  | proc name => "PROC " ++ name
  | endp name => "ENDP " ++ name
  | push source => "  PUSH " ++ source.render
  | call name => "  CALL " ++ name
  | binary dest left op right =>
    "  " ++ dest.render ++ " = " ++ left.render ++ " " ++ op.render ++ " " ++ right.render
  | assign dest source => "  " ++ dest.render ++ " = " ++ source.render
  | negate dest source => "  " ++ dest.render ++ " = -" ++ source.render
  | readInt dest => "  RDI " ++ dest.render
  | writeInt source => "  WRI " ++ source.render
  | writeStr label => "  WRS " ++ label
  | writeLn => "  WRLN"
  | start name => "START " ++ name

/-- One is added to something other than a number. -/
def isIncrement : Instr → Bool
  | binary _ left .add right =>
    (right.isOne && !left.isLiteral) || (left.isOne && !right.isLiteral)
  | _ => false

/-- One is taken from something other than a number. -/
def isDecrement : Instr → Bool
  | binary _ left .sub right => right.isOne && !left.isLiteral
  | _ => false

end Instr

/-- A program in three-address code. -/
abbrev Code := List Instr

namespace Code

def render (code : Code) : String :=
  String.join (code.map fun i => i.render ++ "\n")

/-- The lines of the text without their indentation. -/
def lines (code : Code) : List String :=
  code.map fun i => Text.trim i.render

end Code

end Triad
