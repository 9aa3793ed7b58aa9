import Triad.Asm.Lowering
import Triad.Proofs.CodeSemantics

/-!
A 16-bit machine that runs the assembly of arithmetic. Slots of the frame and variables hold a word
each; what is pushed lies on a stack of its own.

An instruction runs only if it can be assembled: at most one of its operands lies in memory, and one
of them tells the width. Division stops the machine where the quotient does not fit.
-/

namespace Triad.Asm

abbrev Word := BitVec 16

structure Machine where
  ax : Word
  bx : Word
  dx : Word
  bp : Word
  sp : Word
  stack : List Word
  slots : Int → Word
  globals : String → Word

/-- A name that is a register, in either case, is never read as that of a variable. -/
def Register.ofName? (name : String) : Option Register :=
  [ax, bx, dx, bp, sp, ds, al, ah].find? fun r =>
    r.name.toList == name.toList.map Char.toLower

namespace Machine

/-- The parts of `ax` and the segment take no part in arithmetic. -/
def register (m : Machine) : Register → Option Word
  | .ax => some m.ax
  | .bx => some m.bx
  | .dx => some m.dx
  | .bp => some m.bp
  | .sp => some m.sp
  | _ => none

def setRegister (m : Machine) (v : Word) : Register → Option Machine
  | .ax => some { m with ax := v }
  | .bx => some { m with bx := v }
  | .dx => some { m with dx := v }
  | .bp => some { m with bp := v }
  | .sp => some { m with sp := v }
  | _ => none

def setSlot (m : Machine) (v : Word) (offset : Int) : Machine :=
  { m with slots := fun o => if o = offset then v else m.slots o }

def setGlobal (m : Machine) (v : Word) (name : String) : Machine :=
  { m with globals := fun n => if n = name then v else m.globals n }

end Machine

/-! ## Operands -/

def Immediate.word? : Immediate → Option Word
  | .verbatim text => (wholeNumber? text).map (BitVec.ofInt 16)
  | .truncated word => some (BitVec.ofInt 16 word)
  | .dropped => some 0

namespace Arg

def read (m : Machine) : Arg → Option Word
  | reg r => m.register r
  | literal text => (Immediate.ofLiteral text).word?
  | number value => some (BitVec.ofInt 16 value)
  | hex value => some (BitVec.ofNat 16 value)
  | slot offset => some (m.slots offset)
  | sizedSlot offset => some (m.slots offset)
  | label name =>
    match Register.ofName? name with
    | some r => m.register r
    | none => some (m.globals name)
  | _ => none

def write (m : Machine) (v : Word) : Arg → Option Machine
  | reg r => m.setRegister v r
  | slot offset => some (m.setSlot v offset)
  | sizedSlot offset => some (m.setSlot v offset)
  | label name =>
    match Register.ofName? name with
    | some r => m.setRegister v r
    | none => some (m.setGlobal v name)
  | _ => none

def isMemory : Arg → Bool
  | slot _ => true
  | sizedSlot _ => true
  | label name => (Register.ofName? name).isNone
  | _ => false

/-- Registers and declared variables have a width, and so has a slot that names it. -/
def hasWidth : Arg → Bool
  | reg _ => true
  | sizedSlot _ => true
  | label _ => true
  | _ => false

/-- Whether an instruction can have both operands. -/
def fit (dest source : Arg) : Bool :=
  !(dest.isMemory && source.isMemory) && (dest.hasWidth || source.hasWidth)

end Arg

/-! ## Instructions -/

namespace Machine

/-- The quotient of `dx` and `ax` together by a word, with the remainder; the machine stops where
the divisor is zero or the quotient takes more than a word. -/
def divide (m : Machine) (divisor : Word) : Option Machine :=
  let dividend : Int := m.dx.toInt * 65536 + m.ax.toNat
  let quotient := dividend.tdiv divisor.toInt
  if divisor = 0 ∨ quotient < -32768 ∨ 32768 ≤ quotient then none
  else
    some { m with
      ax := BitVec.ofInt 16 quotient
      dx := BitVec.ofInt 16 (dividend.tmod divisor.toInt) }

def multiply (m : Machine) (factor : Word) : Machine :=
  let product := m.ax.toInt * factor.toInt
  { m with
    ax := BitVec.ofInt 16 product
    dx := BitVec.ofInt 16 (product / 65536) }

/-- The sign of `ax` in every bit of `dx`. -/
def extend (m : Machine) : Machine :=
  { m with dx := if m.ax.toInt < 0 then BitVec.ofInt 16 (-1) else 0 }

def push (m : Machine) (v : Word) : Machine :=
  { m with sp := m.sp - 2, stack := v :: m.stack }

def pop (m : Machine) : Option (Word × Machine) :=
  match m.stack with
  | [] => none
  | v :: rest => some (v, { m with sp := m.sp + 2, stack := rest })

end Machine

namespace Op

def execTwo (m : Machine) (f : Word → Word → Word) (dest source : Arg) : Option Machine :=
  if dest.fit source then do dest.write m (f (← dest.read m) (← source.read m)) else none

def execOne (m : Machine) (f : Word → Word) (dest : Arg) : Option Machine :=
  if dest.hasWidth then do dest.write m (f (← dest.read m)) else none

/-- Calls, returns and interrupts take no part in arithmetic. -/
def exec (m : Machine) : Op → Option Machine
  | mov dest source => execTwo m (fun _ v => v) dest source
  | add dest source => execTwo m (· + ·) dest source
  | sub dest source => execTwo m (· - ·) dest source
  | or dest source => execTwo m (· ||| ·) dest source
  | and dest source => execTwo m (· &&& ·) dest source
  | inc dest => execOne m (· + 1) dest
  | dec dest => execOne m (· - 1) dest
  | neg dest => execOne m (- ·) dest
  | imul source => if source.hasWidth then (source.read m).map m.multiply else none
  | cwd => some m.extend
  | idiv source => if source.hasWidth then (source.read m).bind m.divide else none
  | push source =>
    if source.hasWidth || !source.isMemory then (source.read m).map m.push else none
  | pop dest => if dest.hasWidth then m.pop.bind fun (v, m) => dest.write m v else none
  | _ => none

def execAll (m : Machine) (ops : List Op) : Option Machine := ops.foldlM exec m

end Op

/-- The lines of a procedure's body; no other line can be run. -/
def Line.exec (m : Machine) : Line → Option Machine
  | op o => o.exec m
  | _ => none

def execLines (m : Machine) (lines : List Line) : Option Machine := lines.foldlM Line.exec m

theorem execLines_ops (m : Machine) (ops : List Op) :
    execLines m (ops.map .op) = Op.execAll m ops := by
  unfold execLines Op.execAll
  rw [List.foldlM_map]
  rfl

end Triad.Asm
