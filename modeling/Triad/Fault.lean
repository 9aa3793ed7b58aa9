/-!
What stops the reading of a program. A fault names the line it was met on; the name of the file
joins it only in the message.
-/

namespace Triad

inductive Access
  | read
  | write
  deriving DecidableEq, Repr

def Access.name : Access → String
  | .read => "read"
  | .write => "write"

inductive Fault
  | mismatch (line : Nat) (expected found : String)
  | duplicate (line : Nat) (name : String)
  | undeclaredTarget (line : Nat) (access : Access) (name : String)
  | malformedNumber (line : Nat) (lexeme : String)
  | assignToConstant (line : Nat) (name : String)
  | missingMain
  /-- A record was asked for after its removal. No program text leads here. -/
  | deletedSymbol (id : Nat)
  deriving DecidableEq, Repr

def Fault.line? : Fault → Option Nat
  | .mismatch line _ _ => some line
  | .duplicate line _ => some line
  | .undeclaredTarget line _ _ => some line
  | .malformedNumber line _ => some line
  | .assignToConstant line _ => some line
  | .missingMain => none
  | .deletedSymbol _ => none

def Fault.message (file : String) : Fault → String
  | .mismatch line expected found => s!"{file}:{line}: expecting {expected} but found {found}"
  | .duplicate line name => s!"{file}:{line}: duplicate symbol \"{name}\""
  | .undeclaredTarget line access name =>
    let verb := access.name
    s!"{file}:{line}: attempt to {verb} undeclared variable {name}"
  | .malformedNumber line lexeme => s!"{file}:{line}: \"{lexeme}\" is an invalid number"
  | .assignToConstant line name => s!"{file}:{line}: cannot assign to constant \"{name}\""
  | .missingMain => s!"Main() not found in {file}"
  | .deletedSymbol id => s!"symbol SymbolId({id}) has been deleted"

end Triad
