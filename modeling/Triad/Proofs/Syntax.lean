import Triad.Action

/-!
The grammar of programs, as types of trees. A tree has a part for each symbol on the right-hand side
of its production, down to the tokens, so that `tokens` spells it out again: a list of tokens is
derivable if a tree spells it. `actions` is what a tree calls for.
-/

namespace Triad.Syntax

/-! ## Tokens -/

abbrev Tok (kind : Kind) : Type := { t : Token // t.kind = kind }

def isNumeric : Kind → Bool
  | .number _ => true
  | .decimal _ => true
  | _ => false

/-- A number or a decimal. -/
abbrev Numeric : Type := { t : Token // isNumeric t.kind = true }

/-- A literal and its body. -/
structure Literal where
  token : Token
  body : String
  spelled : token.kind = .literal body

/-- One of the operators of a table, with what the table says it means. -/
structure Operator {α : Type} (table : List (Kind × String × α)) where
  token : Token
  meaning : α
  listed : (token.kind, token.lexeme, meaning) ∈ table

def addops : List (Kind × String × BinOp) :=
  [(.addOp, "+", .add), (.signOp, "-", .sub), (.orOp, "||", .or)]

def mulops : List (Kind × String × BinOp) :=
  [(.mulOp, "*", .mul), (.mulOp, "/", .div), (.andOp, "&&", .and)]

/-- What an assignment does with the old value. -/
def assignops : List (Kind × String × Option BinOp) :=
  [(.assignOp, "=", none), (.assignOp, "+=", some .add), (.assignOp, "-=", some .sub),
   (.assignOp, "*=", some .mul), (.assignOp, "/=", some .div)]

structure TypeName where
  token : Token
  type : ValueType
  named : token.kind.valueType? = some type

abbrev Modifier : Type := { t : Token // t.kind.isModifier = true }

/-! ## Repetition -/

/-- One phrase or more, with commas between them. -/
structure Listed (α : Type) where
  first : α
  more : List (Tok .comma × α)

namespace Listed

variable {α : Type}

def toList (l : Listed α) : List α := l.first :: l.more.map Prod.snd

def tokens (spell : α → List Token) (l : Listed α) : List Token :=
  spell l.first ++ l.more.flatMap fun (comma, x) => comma.1 :: spell x

end Listed

/-- A name, or several with points between them. -/
structure Dotted where
  first : Tok .identifier
  more : List (Tok .period × Tok .identifier)

namespace Dotted

def tokens (d : Dotted) : List Token :=
  d.first.1 :: d.more.flatMap fun (period, name) => [period.1, name.1]

def text (d : Dotted) : String :=
  d.more.foldl (fun name part => name ++ "." ++ part.2.1.lexeme) d.first.1.lexeme

end Dotted

/-! ## Expressions -/

inductive Rank
  | factor
  | term
  | expr

/-- Operators of one rank group from the left, and those of a term before those of an expression. -/
inductive Expr : Rank → Type
  | name (t : Tok .identifier) : Expr .factor
  | numeral (t : Numeric) : Expr .factor
  | paren (left : Tok .leftParen) (e : Expr .expr) (right : Tok .rightParen) : Expr .factor
  | minus (sign : Tok .signOp) (f : Expr .factor) : Expr .factor
  | ofFactor (f : Expr .factor) : Expr .term
  | product (t : Expr .term) (op : Operator mulops) (f : Expr .factor) : Expr .term
  | ofTerm (t : Expr .term) : Expr .expr
  | sum (e : Expr .expr) (op : Operator addops) (t : Expr .term) : Expr .expr

namespace Expr

def tokens {r : Rank} : Expr r → List Token
  | name t => [t.1]
  | numeral t => [t.1]
  | paren left e right => left.1 :: e.tokens ++ [right.1]
  | minus sign f => sign.1 :: f.tokens
  | ofFactor f => f.tokens
  | product t op f => t.tokens ++ op.token :: f.tokens
  | ofTerm t => t.tokens
  | sum e op t => e.tokens ++ op.token :: t.tokens

def actions {r : Rank} : Expr r → List Action
  | name t => [.load t.1.line t.1.lexeme]
  | numeral t => [.literal t.1.lexeme]
  | paren _ e _ => e.actions
  | minus _ f => f.actions ++ [.negate]
  | ofFactor f => f.actions
  | product t op f => t.actions ++ f.actions ++ [.binary op.meaning]
  | ofTerm t => t.actions
  | sum e op t => e.actions ++ t.actions ++ [.binary op.meaning]

end Expr

/-! ## Statements -/

structure Call where
  name : Tok .identifier
  member : Option (Tok .period × Tok .identifier)
  left : Tok .leftParen
  arguments : Option (Listed (Expr .expr))
  right : Tok .rightParen

namespace Call

def argumentList (c : Call) : List (Expr .expr) :=
  c.arguments.toList.flatMap Listed.toList

/-- The class and the method that are called. -/
def target (c : Call) : Option String × String :=
  match c.member with
  | some (_, method) => (some c.name.1.lexeme, method.1.lexeme)
  | none => (none, c.name.1.lexeme)

def tokens (c : Call) : List Token :=
  c.name.1 :: (c.member.toList.flatMap fun (period, method) => [period.1, method.1]) ++
    c.left.1 :: (c.arguments.toList.flatMap (Listed.tokens Expr.tokens)) ++ [c.right.1]

def actions (c : Call) : List Action :=
  c.argumentList.flatMap Expr.actions ++
    [.call c.target.1 c.target.2 c.argumentList.length]

end Call

inductive WriteItem
  | name (t : Tok .identifier)
  | numeral (t : Numeric)
  | literal (t : Literal)

namespace WriteItem

def token : WriteItem → Token
  | name t => t.1
  | numeral t => t.1
  | literal t => t.token

def action : WriteItem → Action
  | name t => .writeName t.1.line t.1.lexeme
  | numeral t => .writeNumber t.1.lexeme
  | literal t => .writeText t.token.lexeme

end WriteItem

/-- What an assignment takes its value from. -/
inductive Source
  | call (c : Call)
  | expr (e : Expr .expr)

namespace Source

def tokens : Source → List Token
  | call c => c.tokens
  | expr e => e.tokens

/-- The result of a call stays in place only for a plain assignment. -/
def actions (op : Option BinOp) : Source → List Action
  | call c => c.actions ++ [if op.isSome then .park else .result]
  | expr e => e.actions

end Source

inductive Statement
  | assign (target : Tok .identifier) (op : Operator assignops) (source : Source)
  | call (c : Call)
  | read (keyword : Tok .kwRead) (left : Tok .leftParen) (names : Listed (Tok .identifier))
      (right : Tok .rightParen)
  | write (keyword : Tok .kwWrite) (left : Tok .leftParen) (items : Listed WriteItem)
      (right : Tok .rightParen)
  /-- Only a line may be written with nothing on it. -/
  | writeln (keyword : Tok .kwWriteln) (left : Tok .leftParen) (items : Option (Listed WriteItem))
      (right : Tok .rightParen)

namespace Statement

def tokens : Statement → List Token
  | assign target op source => target.1 :: op.token :: source.tokens
  | call c => c.tokens
  | read keyword left names right =>
    keyword.1 :: left.1 :: names.tokens (fun t => [t.1]) ++ [right.1]
  | write keyword left items right =>
    keyword.1 :: left.1 :: items.tokens (fun i => [i.token]) ++ [right.1]
  | writeln keyword left items right =>
    keyword.1 :: left.1 :: items.toList.flatMap (Listed.tokens fun i => [i.token]) ++ [right.1]

def actions : Statement → List Action
  | assign target op source =>
    .target target.1.line target.1.lexeme :: source.actions op.meaning ++ [.assign op.meaning]
  | call c => c.actions
  | read _ _ names _ => names.toList.map fun t => .read t.1.line t.1.lexeme
  | write _ _ items _ => items.toList.map WriteItem.action
  | writeln _ _ items _ =>
    (items.toList.flatMap fun l => l.toList.map WriteItem.action) ++ [.writeLine]

end Statement

/-! ## Declarations -/

/-- The value of a constant. A sign stands before numbers only, and a literal is not empty. -/
inductive ConstantWord
  | numeral (sign : Option (Tok .signOp)) (t : Numeric)
  | literal (t : Literal) (first : Char) (rest : List Char) (body : t.body.toList = first :: rest)

namespace ConstantWord

/-- The token of the value itself. -/
def token : ConstantWord → Token
  | numeral _ t => t.1
  | literal t _ _ _ => t.token

def sign : ConstantWord → Option (Tok .signOp)
  | numeral sign _ => sign
  | literal _ _ _ _ => none

def tokens (w : ConstantWord) : List Token := w.sign.toList.map Subtype.val ++ [w.token]

/-- A constant of type float takes a whole number as a float. -/
def numericValue (type : ValueType) : Kind → ConstantValue
  | .number n => if type = .float then .float (Binary64.ofNat n) else .int n
  | .decimal x => .float x
  | _ => .int 0

def value (type : ValueType) : ConstantWord → ConstantValue
  | numeral none t => numericValue type t.1.kind
  | numeral (some _) t => (numericValue type t.1.kind).neg
  | literal _ first _ _ => .char first

end ConstantWord

structure Constant where
  name : Tok .identifier
  equals : { t : Token // t.kind = .assignOp ∧ t.lexeme = "=" }
  word : ConstantWord

namespace Constant

def tokens (c : Constant) : List Token := c.name.1 :: c.equals.1 :: c.word.tokens

def action (type : ValueType) (c : Constant) : Action :=
  .declare c.word.token.line c.name.1.lexeme (.const type (c.word.value type))

end Constant

inductive Declaration
  | constants (keyword : Tok .kwConst) (type : TypeName) (items : Listed Constant)
      (semicolon : Tok .semicolon)
  | vars (type : TypeName) (names : Listed (Tok .identifier)) (semicolon : Tok .semicolon)

namespace Declaration

def tokens : Declaration → List Token
  | constants keyword type items semicolon =>
    keyword.1 :: type.token :: items.tokens Constant.tokens ++ [semicolon.1]
  | vars type names semicolon =>
    type.token :: names.tokens (fun t => [t.1]) ++ [semicolon.1]

def actions : Declaration → List Action
  | constants _ type items _ => items.toList.map (Constant.action type.type)
  | vars type names _ =>
    names.toList.map fun t => .declare t.1.line t.1.lexeme (.newVar type.type)

end Declaration

structure Param where
  mode : Option { t : Token // t.kind.passingMode ≠ .byValue }
  type : TypeName
  name : Tok .identifier

namespace Param

def passingMode (p : Param) : PassingMode :=
  (p.mode.map fun t => t.1.kind.passingMode).getD .byValue

def tokens (p : Param) : List Token :=
  p.mode.toList.map Subtype.val ++ [p.type.token, p.name.1]

def action (p : Param) : Action :=
  .declare p.name.1.line p.name.1.lexeme (.var p.type.type p.passingMode 0)

end Param

/-! ## Methods -/

structure Return where
  keyword : Tok .kwReturn
  value : Option (Expr .expr)
  semicolon : Tok .semicolon

namespace Return

def tokens (r : Return) : List Token :=
  r.keyword.1 :: r.value.toList.flatMap Expr.tokens ++ [r.semicolon.1]

def actions (r : Return) : List Action :=
  r.value.toList.flatMap fun e => e.actions ++ [.returnValue]

end Return

structure Body where
  declarations : List Declaration
  statements : List (Statement × Tok .semicolon)
  returns : Option Return

namespace Body

def tokens (b : Body) : List Token :=
  b.declarations.flatMap Declaration.tokens ++
    (b.statements.flatMap fun (s, semicolon) => s.tokens ++ [semicolon.1]) ++
    b.returns.toList.flatMap Return.tokens

def actions (b : Body) : List Action :=
  b.declarations.flatMap Declaration.actions ++
    (b.statements.flatMap fun s => s.1.actions) ++
    b.returns.toList.flatMap Return.actions

end Body

/-- A method or a constructor from its name on. -/
structure Routine where
  name : Tok .identifier
  left : Tok .leftParen
  params : Option (Listed Param)
  right : Tok .rightParen
  leftBrace : Tok .leftBrace
  body : Body
  rightBrace : Tok .rightBrace

namespace Routine

def tokens (r : Routine) : List Token :=
  r.name.1 :: r.left.1 :: r.params.toList.flatMap (Listed.tokens Param.tokens) ++
    r.right.1 :: r.leftBrace.1 :: r.body.tokens ++ [r.rightBrace.1]

def paramActions (r : Routine) : List Action :=
  r.params.toList.flatMap fun l => l.toList.map Param.action

/-- What comes between the name and the body. -/
def heading (r : Routine) : List Action :=
  .openParams :: r.paramActions ++ [.closeParams, .openBody]

end Routine

/-- A member of the class of the given name, without modifiers. -/
inductive MemberCore (className : String)
  | declaration (d : Declaration)
  | constructor (r : Routine) (named : r.name.1.lexeme = className)
  | method (type : TypeName) (r : Routine)

namespace MemberCore

variable {className : String}

def tokens : MemberCore className → List Token
  | declaration d => d.tokens
  | constructor r _ => r.tokens
  | method type r => type.token :: r.tokens

def actions : MemberCore className → List Action
  | declaration d => d.actions
  | constructor r _ =>
    .openConstructor r.name.1.line r.name.1.lexeme :: r.heading ++ r.body.actions ++
      [.sizeFrame, .closeMethod]
  | method type r =>
    .openMethod r.name.1.line r.name.1.lexeme type.type :: r.heading ++ r.body.actions ++
      [.closeMethod]

end MemberCore

structure Member (className : String) where
  modifiers : List Modifier
  core : MemberCore className

def Member.tokens {className : String} (m : Member className) : List Token :=
  m.modifiers.map Subtype.val ++ m.core.tokens

/-! ## Programs -/

structure ClassDecl where
  modifiers : List Modifier
  keyword : Tok .kwClass
  name : Tok .identifier
  base : Option (Tok .colon × Dotted)
  left : Tok .leftBrace
  members : List (Member name.1.lexeme)
  right : Tok .rightBrace

namespace ClassDecl

def tokens (c : ClassDecl) : List Token :=
  c.modifiers.map Subtype.val ++ c.keyword.1 :: c.name.1 ::
    (c.base.toList.flatMap fun (colon, base) => colon.1 :: base.tokens) ++
    c.left.1 :: c.members.flatMap Member.tokens ++ [c.right.1]

/-- What comes before the members. -/
def heading (c : ClassDecl) : List Action :=
  .openClass c.name.1.line c.name.1.lexeme ::
    (c.base.toList.map fun base => .derive c.name.1.lexeme base.2.text) ++ [.openClassBody]

def actions (c : ClassDecl) : List Action :=
  c.heading ++ (c.members.flatMap fun m => m.core.actions) ++ [.closeClass]

end ClassDecl

structure Using where
  keyword : Tok .kwUsing
  name : Dotted
  semicolon : Tok .semicolon

def Using.tokens (u : Using) : List Token :=
  u.keyword.1 :: u.name.tokens ++ [u.semicolon.1]

/-- The classes of a program, in a namespace or in none. -/
inductive Block
  | spaced (keyword : Tok .kwNamespace) (name : Dotted) (left : Tok .leftBrace)
      (classes : List ClassDecl) (right : Tok .rightBrace)
  | bare (classes : List ClassDecl)

namespace Block

def tokens : Block → List Token
  | spaced keyword name left classes right =>
    keyword.1 :: name.tokens ++ left.1 :: classes.flatMap ClassDecl.tokens ++ [right.1]
  | bare classes => classes.flatMap ClassDecl.tokens

def actions : Block → List Action
  | spaced _ name left classes _ =>
    .openNamespace left.1.line name.text name.first.1.line :: classes.flatMap ClassDecl.actions ++
      [.closeNamespace]
  | bare classes => classes.flatMap ClassDecl.actions

end Block

structure Program where
  usings : List Using
  block : Block
  ending : Tok .eof

namespace Program

def tokens (p : Program) : List Token :=
  p.usings.flatMap Using.tokens ++ p.block.tokens ++ [p.ending.1]

def actions (p : Program) : List Action :=
  (p.usings.map fun u => .usingName u.name.text) ++ p.block.actions

end Program

end Triad.Syntax
