import Triad.Action
import Triad.Frame
import Triad.Log

/-!
What is known while a program is read: the records, the strings, the code written so far, and where
in the program the reading stands.
-/

namespace Triad

/-- A name that was used without a declaration. -/
structure Warning where
  line : Nat
  name : String
  deriving DecidableEq, Repr

/-- Depth 0 holds namespaces, depth 1 classes and their members, depth 2 the parameters and locals
of the open method. -/
structure State where
  symbols : SymbolTable
  strings : StringPool
  code : Array Instr
  warnings : Array Warning
  log : Array LogRecord
  depth : Nat
  cursor : FrameCursor
  /-- The record whose scope is open. -/
  parent : Option SymbolId
  /-- The record inserted last. -/
  current : Option SymbolId
  currentClass : Option SymbolId
  currentMethod : Option SymbolId
  inParams : Bool
  inMain : Bool
  /-- The full name of the open method. -/
  procedure : String
  /-- The full name of the last method called `Main`. -/
  entry : Option String
  /-- Values worked out but not used yet, the last one first. -/
  operands : List Operand

namespace State

def initial : State where
  symbols := .empty
  strings := .empty
  code := #[]
  warnings := #[]
  log := #[]
  depth := 0
  cursor := .classBody
  parent := none
  current := none
  currentClass := none
  currentMethod := none
  inParams := false
  inMain := false
  procedure := ""
  entry := none
  operands := []

def note (s : State) (r : LogRecord) : State :=
  { s with log := s.log.push r }

def noteAll (s : State) (records : List LogRecord) : State :=
  records.foldl note s

def emit (s : State) (i : Instr) : State :=
  { s.note (.emitted i) with code := s.code.push i }

def pushOperand (s : State) (o : Operand) : State :=
  { s with operands := o :: s.operands }

/-! ## Declarations -/

/-- Whether the open scope itself has a record of the name. -/
def declares (s : State) (name : String) : Bool :=
  (s.symbols.lookupSymbol name).any fun r => r.depth == s.depth && r.owner == s.parent

/-- Whether a declaration takes room in the open frame. Constants have no room, and what stands at
class level lies in no frame. -/
def takesSlot (s : State) (entity : Entity) : Bool :=
  !entity.isConst && decide (2 ≤ s.depth)

/-- The size of a declaration is charged to the owner: to its parameters while these are read, and
to its locals otherwise. -/
def charge (s : State) (entity : Entity) (owner : Symbol) : Symbol :=
  if entity.isConst then owner
  else if s.inParams then { owner with entity := owner.entity.addParam entity.size }
  else { owner with entity := owner.entity.growLocals entity.size }

/-- The place of a new parameter among those of its method, zero for anything else. -/
def locationOf (s : State) (entity : Entity) : Nat :=
  if s.inParams && !entity.isConst then
    match s.parent.bind s.symbols.get? with
    | some owner => (owner.entity.addParam entity.size).numParams
    | none => 0
  else 0

/-- The record of a declaration in the open scope. -/
def recordOf (s : State) (name : String) (entity : Entity) : Symbol :=
  { Symbol.new name (entity.setLocation (s.locationOf entity)) s.depth with
    owner := s.parent
    offset := if s.takesSlot entity then s.cursor.offset else 0 }

/-- A change of the record of a number, if there is a number. -/
def modifySymbol (s : State) (id : Option SymbolId) (f : Symbol → Symbol) : State :=
  match id with
  | some id => { s with symbols := s.symbols.modify id f }
  | none => s

/-- A new record in the open scope; its number becomes the current one. -/
def enroll (s : State) (name : String) (entity : Entity) : State :=
  let id := s.symbols.nextId
  let charged := { s with symbols := s.symbols.insert (s.recordOf name entity) }.modifySymbol
    s.parent (s.charge entity)
  { charged with
    cursor := if s.takesSlot entity then s.cursor.declare entity.size else s.cursor
    current := some id
    currentClass := if entity.isClass then some id else s.currentClass
    currentMethod := if entity.isMethod then some id else s.currentMethod }

/-- A scope declares a name once. -/
def declare (s : State) (line : Nat) (name : String) (entity : Entity) : Except Fault State :=
  if s.declares name then .error (.duplicate line name) else .ok (s.enroll name entity)

/-- The record of a new word in the frame, below all others. -/
def tempRecord (s : State) : Symbol :=
  let offset := s.symbols.minOffset - 2
  { Symbol.new (frameSlot offset) (.newVar .int) s.depth with
    owner := s.parent
    offset := offset }

/-- A new word in the frame, charged to the open method. -/
def newTemp (s : State) : Operand × State :=
  let enrolled :=
    { s with
      symbols := s.symbols.insert s.tempRecord
      current := some s.symbols.nextId }
  let grow (m : Symbol) : Symbol := { m with entity := m.entity.growLocals 2 }
  (.frame s.tempRecord.offset, enrolled.modifySymbol s.currentMethod grow)

/-! ## Names -/

/-- How code refers to a record: to a constant by its value, to a member of a class by its name, and
to all else by its slot. -/
def operandOf (s : State) (id : SymbolId) : Except Fault Operand := do
  let r ← s.symbols.fetch id
  match r.constantValue? with
  | some value => return .literal value.render
  | none => return if r.depth ≤ 1 then .global r.name else .frame r.offset

/-- The record of a name that is used as a value. A name without one gets a placeholder, and a
warning. -/
def resolve (s : State) (line : Nat) (name : String) : Except Fault (SymbolId × State) :=
  match s.symbols.lookup name with
  | some id => .ok (id, s)
  | none => do
    let warned :=
      { s.note (.undeclaredVariable line name) with warnings := s.warnings.push ⟨line, name⟩ }
    let declared ← warned.declare line name .placeholder
    return (s.symbols.nextId, declared)

/-- The record of a name that is read into or written out, which must have one. -/
def resolveTarget (s : State) (line : Nat) (access : Access) (name : String) :
    Except Fault SymbolId :=
  match s.symbols.lookup name with
  | some id => .ok id
  | none => .error (.undeclaredTarget line access name)

/-- The name of a record behind the name of its owner. -/
def qualifiedName (s : State) (id : SymbolId) : Except Fault String := do
  let r ← s.symbols.fetch id
  match s.symbols.ownerName? id with
  | some owner => return owner ++ "." ++ r.name
  | none => return r.name

/-- The procedure that a call goes to: the written class, else the class of the method found by the
name, else the open class. -/
def callTarget (s : State) (qualifier : Option String) (method : String) : Except Fault String := do
  match qualifier with
  | some className => return className ++ "." ++ method
  | none =>
    let inOpenClass :=
      match s.currentClass.bind s.symbols.get? with
      | some c => c.name ++ "." ++ method
      | none => method
    match s.symbols.lookup method with
    | some id =>
      if (← s.symbols.fetch id).entity.isMethod then s.qualifiedName id else return inOpenClass
    | none => return inOpenClass

/-! ## Scopes -/

/-- The scope of the method declared last, with the cursor at its parameters. -/
def enterParams (s : State) : Except Fault State :=
  match s.currentMethod with
  | some id => do
    let owner ← s.symbols.fetch id
    let entered :=
      { s with
        depth := s.depth + 1
        parent := some id
        cursor := .params
        inParams := true }
    return entered.note (.enterDepth (s.depth + 1) owner.name FrameCursor.params.offset)
  | none => .ok s

/-- The body of the class declared last. -/
def enterClassBody (s : State) : Except Fault State :=
  match s.currentClass with
  | some id => do
    let owner ← s.symbols.fetch id
    let entered := { s with parent := some id, cursor := .classBody }
    return entered.note (.openClassBody owner.name s.depth)
  | none => .ok s

/-- The list of what a record owns is written into the record. -/
def summarize (s : State) (id : Option SymbolId) : State :=
  match id with
  | some i =>
    let children := s.symbols.renderChildren i
    s.modifySymbol id fun r => { r with children := children }
  | none => s

/-- The records at the open depth go, and the scope around becomes the open one. -/
def closeScope (s : State) : State :=
  let parent := s.parent.bind s.symbols.get?
  let records := .leaveDepth s.depth (s.symbols.render s.depth) :: s.symbols.deleteRecords s.depth
  { s.noteAll records with
    symbols := s.symbols.deleteDepth s.depth
    cursor := s.cursor.restore ((parent.map Symbol.offset).getD 0)
    currentClass :=
      if s.parent.isSome && s.currentClass == s.parent then none else s.currentClass
    currentMethod := none
    depth := s.depth - 1
    parent := parent.bind Symbol.owner }

/-- A scope is left once its owner and the record inserted last know what they own. -/
def leaveScope (s : State) : State :=
  ((s.summarize s.parent).summarize s.current).closeScope

/-! ## Values -/

/-- The operand that an operation with zero or one leaves as it is. -/
def identity? (left : Operand) (op : BinOp) (right : Operand) : Option Operand :=
  match op with
  | .add => if right.isZero then some left else if left.isZero then some right else none
  | .sub => if right.isZero then some left else none
  | .mul => if right.isOne then some left else if left.isOne then some right else none
  | .div => if right.isOne then some left else none
  | .or => none
  | .and => none

/-- The result of an operation, in a new word unless the operation changes nothing. -/
def combine (s : State) (left : Operand) (op : BinOp) (right : Operand) : State :=
  match identity? left op right with
  | some same => s.pushOperand same
  | none =>
    let (dest, t) := s.newTemp
    (t.emit (.binary dest left op right)).pushOperand dest

/-- A number with the sign turned around in its spelling. -/
def negateText (text : String) : String :=
  match text.toList with
  | '-' :: digits => String.ofList digits
  | digits => String.ofList ('-' :: digits)

def negate (s : State) : Operand → State
  | .literal text => s.pushOperand (.literal (negateText text))
  | source =>
    let (dest, t) := s.newTemp
    (t.emit (.negate dest source)).pushOperand dest

/-- The instruction of an assignment, with the old value of the destination taken in by `op`. -/
def assignInstr (dest : Operand) (op : Option BinOp) (source : Operand) : Instr :=
  match op with
  | none => .assign dest source
  | some op =>
    match identity? dest op source with
    | some same => .assign dest same
    | none => .binary dest dest op source

end State

end Triad
