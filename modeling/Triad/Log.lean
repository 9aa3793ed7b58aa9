import Triad.StringPool
import Triad.SymbolTable
import Triad.Tac
import Triad.Token.Scanner

/-!
The log: what happened, in order, each record with a level. The name of the file joins only in the
message.
-/

namespace Triad

inductive Level
  | warn
  | info
  | debug
  | trace
  deriving DecidableEq, Repr

def Level.name : Level → String
  | .warn => "WARN"
  | .info => "INFO"
  | .debug => "DEBUG"
  | .trace => "TRACE"

/-- A level takes in those that are more severe. -/
def Level.rank : Level → Nat
  | .warn => 0
  | .info => 1
  | .debug => 2
  | .trace => 3

inductive LogRecord
  | unterminatedLiteral (line : Nat) (quote : Char)
  | token (token : Token)
  | undeclaredVariable (line : Nat) (name : String)
  | floatTruncated (literal : String) (word : Int)
  | literalDropped (literal : String)
  | noMethod (name : String)
  | usingName (name : String)
  | openNamespace (name : String) (line : Nat)
  | derives (name base : String)
  | openClassBody (name : String) (depth : Nat)
  | enterDepth (depth : Nat) (owner : String) (offset : Int)
  | leaveDepth (depth : Nat) (table : String)
  | deletedSymbols (count depth : Nat)
  | frameSize (name : String) (size : Int)
  | interned (text label : String)
  | emitted (instr : Instr)
  | compiled (lines : Nat) (entry : String)
  deriving DecidableEq, Repr

namespace LogRecord

def level : LogRecord → Level
  | unterminatedLiteral _ _ => .warn
  | undeclaredVariable _ _ => .warn
  | floatTruncated _ _ => .warn
  | literalDropped _ => .warn
  | noMethod _ => .warn
  | compiled _ _ => .info
  | token _ => .trace
  | emitted _ => .trace
  | _ => .debug

/-- The warning that also goes into the result of a compilation. -/
def undeclaredText (file : String) (line : Nat) (name : String) : String :=
  s!"{file}:{line}: undeclared variable {name}"

def message (file : String) : LogRecord → String
  | unterminatedLiteral line quote =>
    s!"{file}:{line}: unterminated literal, expecting " ++ String.singleton quote
  | token t => s!"{file}:{t.line} " ++ t.kind.name ++ " '" ++ t.lexeme ++ "'"
  | undeclaredVariable line name => undeclaredText file line name
  | floatTruncated literal word => s!"float literal {literal} truncated to {word}"
  | literalDropped literal => s!"cannot lower literal {literal}, using 0"
  | noMethod name => s!"no method record for {name}, assuming an empty frame"
  | usingName name => "using " ++ name
  | openNamespace name line => s!"namespace {name} at line {line}"
  | derives name base => s!"{name} derives from {base}"
  | openClassBody name depth => s!"class body of {name} at depth {depth}"
  | enterDepth depth owner offset =>
    s!"enter depth {depth} owned by {owner}, next offset {offset}"
  | leaveDepth depth table => s!"leaving depth {depth}\n{table}"
  | deletedSymbols count depth => s!"deleted {count} symbol(s) at depth {depth}"
  | frameSize name size => s!"{name} frame size {size}"
  | interned text label => s!"interned {text} as {label}"
  | emitted instr => instr.render
  | compiled lines entry => s!"{file}: {lines} TAC lines, entry {entry}"

def render (file : String) (r : LogRecord) : String :=
  r.level.name ++ " " ++ r.message file

/-- Whether a log kept at `level` shows the record. -/
def isShownAt (level : Level) (r : LogRecord) : Bool :=
  decide (r.level.rank ≤ level.rank)

end LogRecord

/-- What the scanner has to say of a token; the end of the text goes unsaid. -/
def Scanned.records (s : Scanned) : List LogRecord :=
  let warning :=
    match s.missingQuote with
    | some quote => [.unterminatedLiteral s.token.line quote]
    | none => []
  if s.token.kind = .eof then [] else warning ++ [.token s.token]

/-- Only a literal that is new to the pool is spoken of. -/
def StringPool.internRecords (pool : StringPool) (literal : String) : List LogRecord :=
  match pool.entryFor literal with
  | (e, true) => [.interned e.text e.label]
  | (_, false) => []

/-- Leaving one of the two outermost depths goes unsaid, as it removes nothing. -/
def SymbolTable.deleteRecords (t : SymbolTable) (depth : Nat) : List LogRecord :=
  if depth < 2 then [] else [.deletedSymbols (t.size - (t.deleteDepth depth).size) depth]

end Triad
