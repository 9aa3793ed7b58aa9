import Triad.State

/-!
Actions carried out one after another, up to the first fault. An action that finds too few values
does nothing; the actions of a program text never come to that.
-/

namespace Triad

namespace Action

/-- A method becomes known and its procedure begins. -/
def beginMethod (s : State) (line : Nat) (name : String) (returns : ValueType) :
    Except Fault State := do
  let declared ← s.declare line name (.newMethod returns)
  let procedure ← declared.qualifiedName s.symbols.nextId
  return { declared.emit (.proc procedure) with procedure := procedure }

/-- Arguments are pushed from the last to the first, and the call follows. -/
def emitCall (s : State) (arguments : List Operand) (target : String) : State :=
  (arguments.foldl (fun s o => s.emit (.push o)) s).emit (.call target)

def apply (s : State) : Action → Except Fault State
  | scan item => .ok (s.noteAll item.records)
  | usingName name => .ok (s.note (.usingName name))
  | openNamespace line name start => do
    let declared ← s.declare line name .space
    return { declared.note (.openNamespace name start) with parent := some s.symbols.nextId }
  | closeNamespace => .ok { s with parent := none }
  | openClass line name => { s with depth := s.depth + 1 }.declare line name .newClass
  | derive name base => .ok (s.note (.derives name base))
  | openClassBody => s.enterClassBody
  | closeClass => .ok s.leaveScope
  | declare line name entity => s.declare line name entity
  | openMethod line name returns => do
    let begun ← beginMethod s line name returns
    let isMain := name == "Main"
    return { begun with
      inMain := isMain
      entry := if isMain then some begun.procedure else begun.entry }
  | openConstructor line name => beginMethod s line name .void
  | openParams => s.enterParams
  | closeParams => .ok { s with inParams := false }
  | openBody => .ok { s with cursor := .locals }
  | sizeFrame =>
    match s.currentMethod with
    | some id => do
      let owner ← s.symbols.fetch id
      let size := s.symbols.depthSize s.depth
      return (s.note (.frameSize owner.name size)).modifySymbol (some id)
        fun m => { m with entity := m.entity.setLocals size }
    | none => .ok s
  | closeMethod => .ok { s.leaveScope.emit (.endp s.procedure) with inMain := false }
  | load line name => do
    let (id, resolved) ← s.resolve line name
    return resolved.pushOperand (← resolved.operandOf id)
  | literal text => .ok (s.pushOperand (.literal text))
  | negate =>
    match s.operands with
    | source :: rest => .ok ({ s with operands := rest }.negate source)
    | [] => .ok s
  | binary op =>
    match s.operands with
    | right :: left :: rest => .ok ({ s with operands := rest }.combine left op right)
    | _ => .ok s
  | target line name => do
    let (id, resolved) ← s.resolve line name
    if (← resolved.symbols.fetch id).entity.isConst then .error (.assignToConstant line name)
    else return resolved.pushOperand (← resolved.operandOf id)
  | assign op =>
    match s.operands with
    | source :: dest :: rest =>
      .ok ({ s with operands := rest }.emit (State.assignInstr dest op source))
    | _ => .ok s
  | call qualifier method count => do
    let target ← s.callTarget qualifier method
    return emitCall { s with operands := s.operands.drop count } (s.operands.take count) target
  | result => .ok (s.pushOperand .accumulator)
  | park =>
    let (dest, t) := s.newTemp
    .ok ((t.emit (.assign dest .accumulator)).pushOperand dest)
  | returnValue =>
    match s.operands with
    | value :: rest =>
      let used := { s with operands := rest }
      .ok (if s.inMain then used else used.emit (.assign .accumulator value))
    | [] => .ok s
  | read line name => do
    let id ← s.resolveTarget line .read name
    if (← s.symbols.fetch id).entity.isConst then .error (.assignToConstant line name)
    else return s.emit (.readInt (← s.operandOf id))
  | writeName line name => do
    let id ← s.resolveTarget line .write name
    return s.emit (.writeInt (← s.operandOf id))
  | writeNumber text => .ok (s.emit (.writeInt (.literal text)))
  | writeText lexeme =>
    let interned :=
      { s.noteAll (s.strings.internRecords lexeme) with strings := s.strings.intern lexeme }
    .ok (interned.emit (.writeStr (s.strings.entryFor lexeme).1.label))
  | writeLine => .ok (s.emit .writeLn)

end Action

namespace State

/-- The state after the actions, or before the first one that fails, with its fault. -/
def run (s : State) : List Action → State × Option Fault
  | [] => (s, none)
  | action :: rest =>
    match action.apply s with
    | .ok t => t.run rest
    | .error fault => (s, some fault)

end State

end Triad
