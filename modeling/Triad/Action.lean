import Triad.Symbol
import Triad.Tac
import Triad.Token.Scanner

/-!
What reading a program calls for, step by step: declarations, the opening and closing of scopes, and
instructions to be written. Expressions come in postfix order, each operand before the operation on
it. An action that can fail carries the line to blame.
-/

namespace Triad

inductive Action
  /-- The scanner gave a token, a comment or the mark of the end. -/
  | scan (item : Scanned)
  | usingName (name : String)
  /-- A namespace whose name starts on line `start`. -/
  | openNamespace (line : Nat) (name : String) (start : Nat)
  | closeNamespace
  | openClass (line : Nat) (name : String)
  | derive (name base : String)
  | openClassBody
  | closeClass
  /-- A variable, a constant or a parameter of the open scope. -/
  | declare (line : Nat) (name : String) (entity : Entity)
  | openMethod (line : Nat) (name : String) (returns : ValueType)
  | openConstructor (line : Nat) (name : String)
  | openParams
  | closeParams
  | openBody
  /-- The frame of a constructor holds all that was declared at its depth. -/
  | sizeFrame
  | closeMethod
  /-- The value of a name. -/
  | load (line : Nat) (name : String)
  | literal (text : String)
  | negate
  | binary (op : BinOp)
  /-- The name that an assignment is to change. -/
  | target (line : Nat) (name : String)
  /-- The assignment of the last value to the target below it, after `op` with its own value. -/
  | assign (op : Option BinOp)
  /-- The call of a method with the last `count` values. -/
  | call (qualifier : Option String) (method : String) (count : Nat)
  /-- The result of the call just made, where it was left. -/
  | result
  /-- The result of the call just made, moved to a place of its own. -/
  | park
  | returnValue
  | read (line : Nat) (name : String)
  | writeName (line : Nat) (name : String)
  | writeNumber (text : String)
  | writeText (literal : String)
  | writeLine
  deriving DecidableEq, Repr

end Triad
