import Triad.Command

/-!
The arguments of the command line: one source, and options in any order around it.
-/

namespace Triad.Command

/-- Status after arguments that make no sense. -/
def usageStatus : Nat := 2

def usage : String :=
  "usage: triad INPUT [--tac PATH] [--asm PATH] [--symbols] [-v]...\n"

/-- Options with the source still to be named. -/
structure Given where
  input : Option String
  tac : Option String
  asm : Option String
  symbols : Bool
  verbosity : Nat

def Given.none : Given := ⟨.none, .none, .none, false, 0⟩

/-- The number of a run such as `-vv`. -/
def verbosityOf (argument : String) : Nat :=
  match argument.toList with
  | '-' :: flags => if flags.all (· == 'v') then flags.length else 0
  | _ => 0

def Given.setInput (g : Given) (argument : String) : Except String Given :=
  if g.input.isSome then .error s!"unexpected argument '{argument}'"
  else .ok { g with input := some argument }

def Given.collect (g : Given) : List String → Except String Given
  | [] => .ok g
  | "--tac" :: path :: rest => { g with tac := some path }.collect rest
  | "--asm" :: path :: rest => { g with asm := some path }.collect rest
  | argument :: rest =>
    if argument = "--symbols" then { g with symbols := true }.collect rest
    else if argument = "--verbose" then { g with verbosity := g.verbosity + 1 }.collect rest
    else if 0 < verbosityOf argument then
      { g with verbosity := g.verbosity + verbosityOf argument }.collect rest
    else if argument ≠ "-" ∧ argument.startsWith "-" then
      .error s!"unexpected argument '{argument}'"
    else do
      let named ← g.setInput argument
      named.collect rest

def Options.ofArguments (arguments : List String) : Except String Options := do
  let g ← Given.none.collect arguments
  match g.input with
  | some input => return ⟨input, g.tac, g.asm, g.symbols, g.verbosity⟩
  | none => .error "the source is missing"

end Triad.Command
