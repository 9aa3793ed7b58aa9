import Triad.Parser

/-!
The grammar of programs, as parsers that call for actions.

    program    = using* (namespace | class*) end
    using      = "using" dotted ";"
    namespace  = "namespace" dotted "{" class* "}"
    class      = modifier* "class" name (":" dotted)? "{" member* "}"
    member     = modifier* (constants | constructor | method | variables)
    constants  = "const" type constant ("," constant)* ";"
    constant   = name "=" "-"? (number | decimal | literal)
    variables  = type name ("," name)* ";"
    method     = type name "(" params ")" body          the name of the class in a constructor
    params     = (mode type name ("," mode type name)*)?
    body       = "{" (constants | variables)* statement* ("return" expr? ";")? "}"
    statement  = (name assignop (call | expr) | call | read | write) ";"
    call       = name ("." name)? "(" (expr ("," expr)*)? ")"
    expr       = term (("+" | "-" | "||") term)*
    term       = factor (("*" | "/" | "&&") factor)*
    factor     = name | number | decimal | "(" expr ")" | "-" factor
-/

namespace Triad.Grammar

open Triad.Parser

/-! ## Expressions -/

/-- The operation at a token of one of the given kinds. -/
def operationAt (kinds : List Kind) (t : Token) : Option BinOp :=
  if t.kind ∈ kinds then BinOp.ofLexeme? t.lexeme else none

def chainWithin (kinds : List Kind) (operand : Parser Unit) : Nat → Parser Unit
  | 0 => return ()
  | n + 1 => do
    match operationAt kinds (← token) with
    | some op =>
      advance
      operand
      perform (.binary op)
      chainWithin kinds operand n
    | none => return ()

/-- Operands with operations of the given kinds between them, grouped from the left. -/
def chain (kinds : List Kind) (operand : Parser Unit) (n : Nat) : Parser Unit := do
  operand
  chainWithin kinds operand n

def exprOver (factor : Parser Unit) (n : Nat) : Parser Unit :=
  chain [.addOp, .signOp, .orOp] (chain [.mulOp, .andOp] factor n) n

def factorWithin : Nat → Parser Unit
  | 0 => mismatch "an identifier, number, ( or -"
  | n + 1 => do
    let t ← token
    match t.kind with
    | .identifier =>
      perform (.load t.line t.lexeme)
      advance
    | .number _ =>
      advance
      perform (.literal t.lexeme)
    | .decimal _ =>
      advance
      perform (.literal t.lexeme)
    | .leftParen =>
      advance
      exprOver (factorWithin n) n
      let _ ← expect .rightParen
    | .signOp =>
      advance
      factorWithin n
      perform .negate
    | _ => mismatch "an identifier, number, ( or -"

def expr : Parser Unit := do
  let n ← remaining
  exprOver (factorWithin n) n

/-! ## Statements -/

/-- A name with a point or a parenthesis behind it calls a method. -/
def atCall : Parser Bool := do
  if ← check .identifier then
    let next ← peek
    return next = .period || next = .leftParen
  else return false

def arguments : Parser Nat := do
  if ← check .rightParen then return 0
  else list expr

def call : Parser Unit := do
  let first ← expectName
  let qualified ← consume .period
  let method ← if qualified then expectName else pure first
  let _ ← expect .leftParen
  let count ← arguments
  let _ ← expect .rightParen
  perform (.call (if qualified then some first else none) method count)

/-- The operation that an assignment does with the old value, if the lexeme is an assignment that
can be done at all. -/
def assignmentOf? : String → Option (Option BinOp)
  | "=" => some none
  | "+=" => some (some .add)
  | "-=" => some (some .sub)
  | "*=" => some (some .mul)
  | "/=" => some (some .div)
  | _ => none

def assignment : Parser (Option BinOp) := do
  let t ← token
  if t.kind = .assignOp then
    match assignmentOf? t.lexeme with
    | some op =>
      advance
      return op
    | none => mismatch "=, +=, -=, *= or /="
  else mismatch Kind.assignOp.name

def assignStatement : Parser Unit := do
  if ← atCall then call
  else
    let t ← token
    perform (.target t.line t.lexeme)
    advance
    let op ← assignment
    if ← atCall then
      call
      perform (if op.isSome then .park else .result)
    else expr
    perform (.assign op)

def readItem : Parser Unit := do
  let t ← nameAhead
  perform (.read t.line t.lexeme)
  advance

def readStatement : Parser Unit := do
  let _ ← expect .kwRead
  let _ ← expect .leftParen
  let _ ← list readItem
  let _ ← expect .rightParen

def writeItem : Parser Unit := do
  let t ← token
  match t.kind with
  | .identifier => perform (.writeName t.line t.lexeme)
  | .number _ => perform (.writeNumber t.lexeme)
  | .decimal _ => perform (.writeNumber t.lexeme)
  | .literal _ => perform (.writeText t.lexeme)
  | _ => mismatch "an identifier, number or literal"
  advance

/-- Only a line may be written with nothing on it. -/
def writeStatement : Parser Unit := do
  let newline ← check .kwWriteln
  advance
  let _ ← expect .leftParen
  unless newline && (← check .rightParen) do
    let _ ← list writeItem
  let _ ← expect .rightParen
  if newline then perform .writeLine

def startsStatement (t : Token) : Bool :=
  t.kind ∈ [Kind.identifier, .kwRead, .kwWrite, .kwWriteln]

def statement : Parser Unit := do
  let t ← token
  match t.kind with
  | .identifier => assignStatement
  | .kwRead => readStatement
  | _ => writeStatement
  let _ ← expect .semicolon

/-! ## Declarations -/

def valueType : Parser ValueType := do
  match (← token).kind.valueType? with
  | some type =>
    advance
    return type
  | none => mismatch "a type"

def modifiers : Parser Unit := many (fun t => t.kind.isModifier) advance

/-- The value of a constant at the current token. A constant of type float takes a whole number as a
float; a literal gives its first character and takes no sign. -/
def constantValue (type : ValueType) (negative : Bool) : Parser ConstantValue := do
  let withSign (v : ConstantValue) := if negative then v.neg else v
  match (← token).kind with
  | .number n =>
    return withSign (if type = .float then .float (Binary64.ofNat n) else .int n)
  | .decimal x => return withSign (.float x)
  | .literal body =>
    if negative then mismatch "a constant value"
    else
      match body.toList with
      | c :: _ => return .char c
      | [] => mismatch "a character"
  | _ => mismatch "a constant value"

def constant (type : ValueType) : Parser Unit := do
  let name ← expectName
  let op ← expect .assignOp
  if op.lexeme = "=" then
    let negative ← consume .signOp
    let value ← constantValue type negative
    let t ← token
    perform (.declare t.line name (.const type value))
    advance
  else mismatch "="

def constants : Parser Unit := do
  let _ ← expect .kwConst
  let type ← valueType
  let _ ← list (constant type)
  let _ ← expect .semicolon

def variableItem (type : ValueType) : Parser Unit := do
  let t ← nameAhead
  perform (.declare t.line t.lexeme (.newVar type))
  advance

/-- The names behind a type. -/
def variableList (type : ValueType) : Parser Unit := do
  let _ ← list (variableItem type)
  let _ ← expect .semicolon

def param : Parser Unit := do
  let mode := (← token).kind.passingMode
  if mode != .byValue then advance
  let type ← valueType
  let t ← nameAhead
  perform (.declare t.line t.lexeme (.var type mode 0))
  advance

def params : Parser Unit := do
  let _ ← expect .leftParen
  perform .openParams
  unless ← check .rightParen do
    let _ ← list param
  let _ ← expect .rightParen
  perform .closeParams

def startsDeclaration (t : Token) : Bool :=
  t.kind = .kwConst || t.kind.isType

def declaration : Parser Unit := do
  if ← check .kwConst then constants
  else variableList (← valueType)

def returnStatement : Parser Unit := do
  let _ ← expect .kwReturn
  unless ← check .semicolon do
    expr
    perform .returnValue
  let _ ← expect .semicolon

/-- A body up to its closing brace. -/
def body : Parser Unit := do
  let _ ← expect .leftBrace
  perform .openBody
  many startsDeclaration declaration
  many startsStatement statement
  if ← check .kwReturn then returnStatement

/-- A method from its name on. -/
def method (returns : ValueType) : Parser Unit := do
  let t ← token
  perform (.openMethod t.line t.lexeme returns)
  advance
  params
  body
  let _ ← expect .rightBrace
  perform .closeMethod

def constructor : Parser Unit := do
  let t ← token
  perform (.openConstructor t.line t.lexeme)
  advance
  params
  body
  perform .sizeFrame
  let _ ← expect .rightBrace
  perform .closeMethod

/-- Whether the current token is a name, one that passes the test, and has a parenthesis behind
it. -/
def atSignature (test : String → Bool) : Parser Bool := do
  let t ← token
  if t.kind = .identifier && test t.lexeme then
    return (← peek) = .leftParen
  else return false

def member (className : String) : Parser Unit := do
  modifiers
  if ← check .kwConst then constants
  else if ← atSignature (· == className) then constructor
  else
    let type ← valueType
    if ← atSignature (fun _ => true) then method type
    else variableList type

def startsMember (className : String) (t : Token) : Bool :=
  t.kind.isModifier || t.kind.isType || t.kind = .kwConst ||
    (t.kind = .identifier && t.lexeme == className)

/-! ## Programs -/

def classDeclaration : Parser Unit := do
  modifiers
  let _ ← expect .kwClass
  let t ← nameAhead
  perform (.openClass t.line t.lexeme)
  advance
  if ← consume .colon then
    perform (.derive t.lexeme (← dottedName))
  let _ ← expect .leftBrace
  perform .openClassBody
  many (startsMember t.lexeme) (member t.lexeme)
  let _ ← expect .rightBrace
  perform .closeClass

def startsClass (t : Token) : Bool :=
  t.kind.isModifier || t.kind = .kwClass

def classes : Parser Unit := many startsClass classDeclaration

def usingDirective : Parser Unit := do
  let _ ← expect .kwUsing
  perform (.usingName (← dottedName))
  let _ ← expect .semicolon

def namespaceBlock : Parser Unit := do
  let _ ← expect .kwNamespace
  let start := (← token).line
  let name ← dottedName
  let t ← token
  perform (.openNamespace t.line name start)
  let _ ← expect .leftBrace
  classes
  let _ ← expect .rightBrace
  perform .closeNamespace

def program : Parser Unit := do
  many (fun t => t.kind = .kwUsing) usingDirective
  if ← check .kwNamespace then namespaceBlock
  else classes
  expectEnd

/-- The actions that a whole text calls for, and its first fault of form, if it has one. -/
def parse (scan : Scan) : List Action × Option Fault :=
  let parsed := (do advance; program : Parser Unit) (Cursor.start scan)
  match parsed.result with
  | .ok _ => (parsed.actions, none)
  | .error fault => (parsed.actions, some fault)

end Triad.Grammar
