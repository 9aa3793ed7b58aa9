import Triad.ValueType

/-!
Records of declared names: what a name stands for and where it lies.
-/

namespace Triad

/-- The place of a record in the order of all insertions, counted from zero. -/
abbrev SymbolId := Nat

/-- What a name stands for. The location of a variable is its place in the list of parameters, and
zero for any other variable. A placeholder stands in for a name that was never declared. -/
inductive Entity
  | var (type : ValueType) (mode : PassingMode) (location : Nat)
  | const (type : ValueType) (value : ConstantValue)
  | method (returns : ValueType) (numParams : Nat) (sizeOfLocals sizeOfParams : Int)
  | classType (sizeOfLocals : Int)
  | space
  | placeholder
  deriving DecidableEq, Repr

namespace Entity

def newVar (type : ValueType) : Entity := var type .byValue 0

def newMethod (returns : ValueType) : Entity := method returns 0 0 0

def newClass : Entity := classType 0

/-- Bytes taken in a frame or in the data segment. A placeholder takes a word, so that every one
has its own slot. -/
def size : Entity → Int
  | var type _ _ => type.size
  | placeholder => ValueType.int.size
  | _ => 0

def name : Entity → String
  | var _ _ _ => "variable"
  | const _ _ => "constant"
  | method _ _ _ _ => "method"
  | classType _ => "class"
  | space => "namespace"
  | placeholder => "empty"

def isVar : Entity → Bool
  | var _ _ _ => true
  | _ => false

def isConst : Entity → Bool
  | const _ _ => true
  | _ => false

def isMethod : Entity → Bool
  | method _ _ _ _ => true
  | _ => false

def isClass : Entity → Bool
  | classType _ => true
  | _ => false

/-- More bytes of locals, for a class or a method. -/
def growLocals (bytes : Int) : Entity → Entity
  | method r n locals params => method r n (locals + bytes) params
  | classType locals => classType (locals + bytes)
  | e => e

def setLocals (bytes : Int) : Entity → Entity
  | method r n _ params => method r n bytes params
  | classType _ => classType bytes
  | e => e

/-- One more parameter, for a method. -/
def addParam (bytes : Int) : Entity → Entity
  | method r n locals params => method r (n + 1) locals (params + bytes)
  | e => e

def numParams : Entity → Nat
  | method _ n _ _ => n
  | _ => 0

def setLocation (location : Nat) : Entity → Entity
  | var type mode _ => var type mode location
  | e => e

end Entity

structure Symbol where
  name : String
  entity : Entity
  depth : Nat
  offset : Int
  size : Int
  owner : Option SymbolId
  /-- The list of what it owns, written when its scope was left. -/
  children : String
  deriving DecidableEq, Repr

namespace Symbol

def new (name : String) (entity : Entity) (depth : Nat) : Symbol :=
  ⟨name, entity, depth, 0, entity.size, none, ""⟩

def valueType (s : Symbol) : ValueType :=
  match s.entity with
  | .var type _ _ => type
  | .const type _ => type
  | .method returns _ _ _ => returns
  | _ => .untyped

def passingMode (s : Symbol) : PassingMode :=
  match s.entity with
  | .var _ mode _ => mode
  | _ => .byValue

def location (s : Symbol) : Nat :=
  match s.entity with
  | .var _ _ location => location
  | _ => 0

def sizeOfLocals (s : Symbol) : Int :=
  match s.entity with
  | .method _ _ locals _ => locals
  | .classType locals => locals
  | _ => s.size

def sizeOfParams (s : Symbol) : Int :=
  match s.entity with
  | .method _ _ _ params => params
  | _ => 0

def constantValue? (s : Symbol) : Option ConstantValue :=
  match s.entity with
  | .const _ value => some value
  | _ => none

/-- A type in front of a name, with a blank; nothing where there is no type. -/
def typed (type : ValueType) (name : String) : String :=
  if type = .untyped then name else type.name ++ " " ++ name

def describe (s : Symbol) : String :=
  match s.entity with
  | .var type mode _ => mode.text ++ typed type s.name ++ s!"\t//size:{s.size} offset:{s.offset}"
  | .const type value =>
    "const " ++ type.name ++ " " ++ s.name ++ s!"\t//size:{s.size} offset:{s.offset} value:" ++
      value.render
  | .method returns numParams locals _ =>
    typed returns s.name ++ s!"() \t//size:{locals} params:{numParams} offset:{s.offset}" ++
      s.children
  | .classType locals => "class " ++ s.name ++ s!" \t//size:{locals}" ++ s.children
  | _ => s.name ++ ", type:" ++ s.entity.name ++ s!" offset:{s.offset}"

/-- A record as the listing of its depth shows it. -/
def render (s : Symbol) : String :=
  if 0 < s.location then s.describe ++ s!" location:{s.location}" else s.describe

/-- A record as the summary of its owner shows it. -/
def renderAsChild (s : Symbol) : String :=
  let type := if 0 < s.valueType.size then s.valueType.name ++ " " else ""
  s.passingMode.text ++ type ++ s.name

end Symbol

end Triad
