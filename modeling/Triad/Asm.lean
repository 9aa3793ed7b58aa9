import Triad.Log

/-!
Assembly for a 16-bit machine as data, line by line, with its text.
-/

namespace Triad.Asm

inductive Register
  | ax
  | bx
  | dx
  | bp
  | sp
  | ds
  | al
  | ah
  deriving DecidableEq, Repr

def Register.name : Register → String
  | .ax => "ax"
  | .bx => "bx"
  | .dx => "dx"
  | .bp => "bp"
  | .sp => "sp"
  | .ds => "ds"
  | .al => "al"
  | .ah => "ah"

/-- A literal is a number as three-address code spells it. A sized slot names its width, which an
instruction without a register needs. -/
inductive Arg
  | reg (register : Register)
  | literal (text : String)
  | number (value : Int)
  | hex (value : Nat)
  | slot (offset : Int)
  | sizedSlot (offset : Int)
  | label (name : String)
  | offsetOf (label : String)
  | dataSegment
  deriving DecidableEq, Repr

/-! ## Literals as immediates -/

/-- What becomes of a literal in an instruction. A machine word holds no fraction. -/
inductive Immediate
  | verbatim (text : String)
  | truncated (word : Int)
  | dropped
  deriving DecidableEq, Repr

def Immediate.ofLiteral (text : String) : Immediate :=
  if text.toList.contains '.' then
    match Binary64.ofString? text with
    | some x => .truncated x.toWord
    | none => .dropped
  else .verbatim text

def Immediate.render : Immediate → String
  | .verbatim text => text
  | .truncated word => toString word
  | .dropped => "0"

namespace Arg

def slotText (offset : Int) : String :=
  if offset < 0 then s!"[bp{offset}]" else s!"[bp+{offset}]"

def render : Arg → String
  | reg register => register.name
  | literal text => (Immediate.ofLiteral text).render
  | number value => toString value
  | hex value => String.ofList (Nat.toDigits 16 value) ++ "h"
  | slot offset => slotText offset
  | sizedSlot offset => "word ptr " ++ slotText offset
  | label name => name
  | offsetOf name => "OFFSET " ++ name
  | dataSegment => "@data"

/-- A literal that does not go in as it is spelt is warned of. -/
def records : Arg → List LogRecord
  | literal text =>
    match Immediate.ofLiteral text with
    | .verbatim _ => []
    | .truncated word => [.floatTruncated text word]
    | .dropped => [.literalDropped text]
  | _ => []

end Arg

inductive Op
  | mov (dest source : Arg)
  | add (dest source : Arg)
  | sub (dest source : Arg)
  | or (dest source : Arg)
  | and (dest source : Arg)
  | inc (dest : Arg)
  | dec (dest : Arg)
  | neg (dest : Arg)
  | imul (source : Arg)
  | cwd
  | idiv (source : Arg)
  | push (source : Arg)
  | pop (dest : Arg)
  | call (label : String)
  | ret (bytes : Int)
  | interrupt (number : Arg)
  deriving DecidableEq, Repr

namespace Op

def twoArgs (mnemonic : String) (dest source : Arg) : String :=
  mnemonic ++ " " ++ dest.render ++ ", " ++ source.render

def oneArg (mnemonic : String) (arg : Arg) : String :=
  mnemonic ++ " " ++ arg.render

def render : Op → String
  | mov dest source => twoArgs "mov" dest source
  | add dest source => twoArgs "add" dest source
  | sub dest source => twoArgs "sub" dest source
  | or dest source => twoArgs "or" dest source
  | and dest source => twoArgs "and" dest source
  | inc dest => oneArg "inc" dest
  | dec dest => oneArg "dec" dest
  | neg dest => oneArg "neg" dest
  | imul source => oneArg "imul" source
  | cwd => "cwd"
  | idiv source => oneArg "idiv" source
  | push source => oneArg "push" source
  | pop dest => oneArg "pop" dest
  | call label => "call " ++ label
  | ret bytes => if bytes = 0 then "ret" else s!"ret {bytes}"
  | interrupt number => oneArg "int" number

def args : Op → List Arg
  | mov dest source => [dest, source]
  | add dest source => [dest, source]
  | sub dest source => [dest, source]
  | or dest source => [dest, source]
  | and dest source => [dest, source]
  | inc dest => [dest]
  | dec dest => [dest]
  | neg dest => [dest]
  | imul source => [source]
  | idiv source => [source]
  | push source => [source]
  | pop dest => [dest]
  | interrupt number => [number]
  | _ => []

end Op

/-- A string is given by the pieces of it that lie between double quotes: the quote itself cannot
stand in a quoted piece and goes in as its code. -/
inductive Line
  | comment (text : String)
  | blank
  | directive (text : String)
  | string (label : String) (pieces : List String)
  | word (name : String)
  | procStart (label : String)
  | procEnd (label : String)
  | op (instr : Op)
  deriving DecidableEq, Repr

namespace Line

def quoted (piece : String) : String := "\"" ++ piece ++ "\""

def render : Line → String
  | comment text => "; " ++ text
  | blank => ""
  | directive text => "    " ++ text
  | string label pieces =>
    label ++ " DB " ++ ", 34, ".intercalate (pieces.map quoted) ++ ", '$'"
  | word name => name ++ " dw ?"
  | procStart label => label ++ " proc"
  | procEnd label => label ++ " endp"
  | op o => "    " ++ o.render

def records : Line → List LogRecord
  | op o => o.args.flatMap Arg.records
  | _ => []

end Line

/-- The text of an assembly file. -/
def render (lines : List Line) : String :=
  String.join (lines.map fun l => l.render ++ "\n")

end Triad.Asm
