import Triad.Asm
import Triad.Text.Split

/-!
Three-address code lowered to assembly. Arithmetic goes through the register `ax`, and products and
quotients through `bx` too, which is saved around them. Adding or taking away one, and operations
with zero or one that leave the other operand as it is, have shorter forms.
-/

namespace Triad.Asm

/-- The label of a procedure has no points. -/
def procLabel (name : String) : String :=
  String.ofList (name.toList.map fun c => if c == '.' then '_' else c)

def address : Operand → Arg
  | .literal text => .literal text
  | .frame offset => .slot offset
  | .global name => .label name
  | .accumulator => .reg .ax

/-- An operand beside which no register tells the width. -/
def sizedAddress : Operand → Arg
  | .frame offset => .sizedSlot offset
  | o => address o

/-! ## Arithmetic -/

/-- A move onto itself is left out. -/
def moveOps (dest source : Operand) : List Op :=
  if dest = source then []
  else if dest = .accumulator then [.mov (.reg .ax) (address source)]
  else if source = .accumulator then [.mov (address dest) (.reg .ax)]
  else [.mov (.reg .ax) (address source), .mov (address dest) (.reg .ax)]

def clearOps (dest : Operand) : List Op := [.mov (sizedAddress dest) (.number 0)]

/-- One step up or down, in place where the operand is its own destination. -/
def stepOps (dest left : Operand) (op : BinOp) (right : Operand) : List Op :=
  let step : Arg → Op := if op = .add then .inc else .dec
  let source := if right.isOne && !left.isLiteral then left else right
  if source = dest then [step (sizedAddress dest)]
  else [.mov (.reg .ax) (address source), step (.reg .ax), .mov (address dest) (.reg .ax)]

/-- An operation that `ax` does with any operand. -/
def directOps (op : Arg → Arg → Op) (dest left right : Operand) : List Op :=
  [.mov (.reg .ax) (address left), op (.reg .ax) (address right), .mov (address dest) (.reg .ax)]

/-- An operation that takes its second operand from `bx`. -/
def productOps (ops : List Op) (dest left right : Operand) : List Op :=
  [.push (.reg .bx), .mov (.reg .ax) (address left), .mov (.reg .bx) (address right)] ++ ops ++
    [.mov (address dest) (.reg .ax), .pop (.reg .bx)]

def plainOps (dest left : Operand) (op : BinOp) (right : Operand) : List Op :=
  match op with
  | .add => directOps .add dest left right
  | .sub => directOps .sub dest left right
  | .or => directOps .or dest left right
  | .and => directOps .and dest left right
  | .mul => productOps [.imul (.reg .bx)] dest left right
  | .div => productOps [.cwd, .idiv (.reg .bx)] dest left right

/-- The shorter form of an operation with zero or one, if it has one. -/
def shortOps? (dest left : Operand) (op : BinOp) (right : Operand) : Option (List Op) :=
  match op with
  | .add =>
    if right.isZero then some (moveOps dest left)
    else if left.isZero then some (moveOps dest right)
    else none
  | .sub => if right.isZero then some (moveOps dest left) else none
  | .mul =>
    if left.isZero || right.isZero then some (clearOps dest)
    else if right.isOne then some (moveOps dest left)
    else if left.isOne then some (moveOps dest right)
    else none
  | .div =>
    if left.isZero then some (clearOps dest)
    else if right.isOne then some (moveOps dest left)
    else none
  | .or => none
  | .and => none

def binaryOps (dest left : Operand) (op : BinOp) (right : Operand) : List Op :=
  let instr := Instr.binary dest left op right
  if instr.isIncrement || instr.isDecrement then stepOps dest left op right
  else (shortOps? dest left op right).getD (plainOps dest left op right)

def negateOps (dest source : Operand) : List Op :=
  [.mov (.reg .ax) (address source), .neg (.reg .ax), .mov (address dest) (.reg .ax)]

/-! ## Procedures -/

/-- The names before and behind the first point. -/
def splitName (name : String) : Option (String × String) :=
  match name.toList.dropWhile (· != '.') with
  | [] => none
  | _ :: rest => some (String.ofList (name.toList.takeWhile (· != '.')), String.ofList rest)

/-- The method that a procedure was made from. -/
def methodOf? (table : SymbolTable) (name : String) : Option Symbol := do
  let (className, method) ← splitName name
  table.findMethod className method

/-- Bytes of locals and of parameters, none where there is no such method. -/
def frameOf (table : SymbolTable) (name : String) : Int × Int :=
  match methodOf? table name with
  | some m => (m.sizeOfLocals, m.sizeOfParams)
  | none => (0, 0)

/-- Locals are reserved and given back only where there are any. -/
def enterLines (label : String) (locals : Int) : List Line :=
  [.procStart label, .op (.push (.reg .bp)), .op (.mov (.reg .bp) (.reg .sp))] ++
    if locals = 0 then [] else [.op (.sub (.reg .sp) (.number locals))]

def leaveLines (label : String) (locals params : Int) : List Line :=
  (if locals = 0 then [] else [.op (.add (.reg .sp) (.number locals))]) ++
    [.op (.pop (.reg .bp)), .op (.ret params), .procEnd label]

/-- The procedure that the system starts: it calls the entry and hands control back. -/
def startLines (entry : String) : List Line :=
  [.procStart "start",
   .op (.mov (.reg .ax) .dataSegment),
   .op (.mov (.reg .ds) (.reg .ax)),
   .op (.call (procLabel entry)),
   .op (.mov (.reg .al) (.number 0)),
   .op (.mov (.reg .ah) (.hex 0x4c)),
   .op (.interrupt (.hex 0x21)),
   .procEnd "start",
   .directive "end start"]

def lower (table : SymbolTable) : Instr → List Line
  | .proc name => enterLines (procLabel name) (frameOf table name).1
  | .endp name => leaveLines (procLabel name) (frameOf table name).1 (frameOf table name).2
  | .push source => [.op (.push (sizedAddress source))]
  | .call name => [.op (.call (procLabel name))]
  | .binary dest left op right => (binaryOps dest left op right).map .op
  | .assign dest source => (moveOps dest source).map .op
  | .negate dest source => (negateOps dest source).map .op
  | .readInt dest =>
    [.op (.push (.reg .bx)), .op (.call "readint"), .op (.mov (address dest) (.reg .bx)),
     .op (.pop (.reg .bx))]
  | .writeInt source => [.op (.mov (.reg .ax) (address source)), .op (.call "writeint")]
  | .writeStr label =>
    [.op (.push (.reg .dx)), .op (.mov (.reg .dx) (.offsetOf label)), .op (.call "writestr"),
     .op (.pop (.reg .dx))]
  | .writeLn => [.op (.call "writeln")]
  | .start entry => startLines entry

/-! ## The whole file -/

/-- The characters between the quotes of a literal. Text that does not both begin and end with a
character of one byte has none. -/
def bodyOf (text : String) : List Char :=
  match text.toList with
  | [] => []
  | first :: rest =>
    match rest.getLast? with
    | some last => if first.utf8Size = 1 ∧ last.utf8Size = 1 then rest.dropLast else []
    | none => []

def stringLine (e : PoolEntry) : Line :=
  .string e.label ((Text.split '"' (bodyOf e.text)).map String.ofList)

/-- The variables of all classes, each name once. -/
def globals (table : SymbolTable) : List String :=
  (((table.atDepth 1).filter fun s => s.entity.isVar).map Symbol.name).eraseDups

def headerLines (file : String) : List Line :=
  [.comment file, .directive ".model small", .directive ".586", .directive ".stack 100h", .blank]

def dataLines (table : SymbolTable) (pool : StringPool) : List Line :=
  [.comment "data segment", .directive ".data"] ++ pool.entries.map stringLine ++
    (globals table).map .word ++ [.blank]

def codeLines (table : SymbolTable) (code : Code) : List Line :=
  [.comment "code segment", .directive ".code", .directive "include io.asm"] ++
    code.flatMap (lower table)

/-- The assembly file of a program. -/
def program (table : SymbolTable) (pool : StringPool) (file : String) (code : Code) : List Line :=
  headerLines file ++ dataLines table pool ++ codeLines table code

/-- A procedure without a method record is warned of where it begins and where it ends. -/
def frameRecords (table : SymbolTable) : Instr → List LogRecord
  | .proc name => if (methodOf? table name).isNone then [.noMethod name] else []
  | .endp name => if (methodOf? table name).isNone then [.noMethod name] else []
  | _ => []

/-- What lowering has to say of a program. -/
def programRecords (table : SymbolTable) (code : Code) : List LogRecord :=
  code.flatMap fun i => frameRecords table i ++ (lower table i).flatMap Line.records

end Triad.Asm
