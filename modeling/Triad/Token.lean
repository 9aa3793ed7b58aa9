import Triad.ValueType

/-!
Tokens: the kinds of them, the reserved words and the symbols.
-/

namespace Triad

/-- A number, a decimal and a literal carry what they stand for. -/
inductive Kind
  | kwClass | kwIf | kwNew | kwForeach | kwConst | kwFloat | kwNull | kwIn
  | kwPublic | kwPrivate | kwReturn | kwThis | kwUsing | kwChar | kwElse | kwInt
  | kwStatic | kwNamespace | kwVoid | kwRef | kwOut | kwRead | kwWrite | kwWriteln
  | relOp | condOp | notOp | addOp | signOp | mulOp | assignOp
  | orOp | bitOrOp | andOp | bitAndOp
  | leftParen | rightParen | leftBrace | rightBrace | leftBracket | rightBracket
  | comma | colon | semicolon | period
  | number (value : Nat)
  | decimal (value : Binary64)
  | literal (body : String)
  | identifier | comment | unknown | eof
  deriving DecidableEq, Repr

structure Token where
  kind : Kind
  lexeme : String
  line : Nat
  deriving DecidableEq, Repr

namespace Kind

def name : Kind → String
  | kwClass => "class"
  | kwIf => "if"
  | kwNew => "new"
  | kwForeach => "foreach"
  | kwConst => "const"
  | kwFloat => "float"
  | kwNull => "null"
  | kwIn => "in"
  | kwPublic => "public"
  | kwPrivate => "private"
  | kwReturn => "return"
  | kwThis => "this"
  | kwUsing => "using"
  | kwChar => "char"
  | kwElse => "else"
  | kwInt => "int"
  | kwStatic => "static"
  | kwNamespace => "namespace"
  | kwVoid => "void"
  | kwRef => "ref"
  | kwOut => "out"
  | kwRead => "read"
  | kwWrite => "write"
  | kwWriteln => "writeln"
  | relOp => "relop"
  | condOp => "condop"
  | notOp => "unarynot"
  | addOp => "addop"
  | signOp => "signop"
  | mulOp => "mulop"
  | assignOp => "assignop"
  | orOp => "orop"
  | bitOrOp => "borop"
  | andOp => "andop"
  | bitAndOp => "bandop"
  | leftParen => "lparen"
  | rightParen => "rparen"
  | leftBrace => "lbrace"
  | rightBrace => "rbrace"
  | leftBracket => "lbracket"
  | rightBracket => "rbracket"
  | comma => "comma"
  | colon => "colon"
  | semicolon => "semicolon"
  | period => "period"
  | number _ => "number"
  | decimal _ => "numfloat"
  | literal _ => "literal"
  | identifier => "identifier"
  | comment => "comment"
  | unknown => "unknown"
  | eof => "eof"

/-- The reserved words, each the name of its own kind. -/
def reserved : List Kind :=
  [kwClass, kwIf, kwNew, kwForeach, kwConst, kwFloat, kwNull, kwIn,
   kwPublic, kwPrivate, kwReturn, kwThis, kwUsing, kwChar, kwElse, kwInt,
   kwStatic, kwNamespace, kwVoid, kwRef, kwOut, kwRead, kwWrite, kwWriteln]

def ofWord (word : String) : Kind :=
  (reserved.find? fun k => k.name == word).getD identifier

/-- Symbols made of two characters. -/
def ofPair : Char → Char → Option Kind
  | '<', '=' => some relOp
  | '>', '=' => some relOp
  | '=', '=' => some condOp
  | '!', '=' => some condOp
  | '+', '=' => some assignOp
  | '-', '=' => some assignOp
  | '*', '=' => some assignOp
  | '/', '=' => some assignOp
  | '%', '=' => some assignOp
  | '&', '&' => some andOp
  | '|', '|' => some orOp
  | _, _ => none

/-- Symbols made of one character; any other character is of no known kind. -/
def ofSymbol : Char → Kind
  | '<' => relOp
  | '>' => relOp
  | '!' => notOp
  | '+' => addOp
  | '-' => signOp
  | '*' => mulOp
  | '/' => mulOp
  | '=' => assignOp
  | '&' => bitAndOp
  | '|' => bitOrOp
  | '(' => leftParen
  | ')' => rightParen
  | '{' => leftBrace
  | '}' => rightBrace
  | '[' => leftBracket
  | ']' => rightBracket
  | ',' => comma
  | ':' => colon
  | ';' => semicolon
  | '.' => period
  | _ => unknown

def isModifier : Kind → Bool
  | kwPublic => true
  | kwPrivate => true
  | kwStatic => true
  | _ => false

/-- The type that a type name stands for. -/
def valueType? : Kind → Option ValueType
  | kwInt => some .int
  | kwFloat => some .float
  | kwChar => some .char
  | kwVoid => some .void
  | _ => none

def isType (k : Kind) : Bool := k.valueType?.isSome

def passingMode : Kind → PassingMode
  | kwRef => .byReference
  | kwOut => .byOutput
  | _ => .byValue

end Kind

end Triad
