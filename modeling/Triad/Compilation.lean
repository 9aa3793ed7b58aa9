import Triad.Asm.Lowering
import Triad.Grammar
import Triad.Run

/-!
Programs compiled: three-address code, the records that outlive the reading, the strings, and the
assembly made of them. Nothing comes out of a program with a fault but the fault and the log.
-/

namespace Triad

structure Compilation where
  code : Code
  symbols : SymbolTable
  strings : StringPool
  /-- The full name of the method to start with. -/
  entry : String
  warnings : List Warning

namespace Compilation

/-- The assembly file, with `file` named in its head. -/
def assembly (c : Compilation) (file : String) : String :=
  Asm.render (Asm.program c.symbols c.strings file c.code)

/-- What lowering to assembly has to say. -/
def assemblyRecords (c : Compilation) : List LogRecord :=
  Asm.programRecords c.symbols c.code

/-- The two outermost depths of the table, and the strings. -/
def symbolReport (c : Compilation) : String :=
  c.symbols.render 0 ++ "\n" ++ c.symbols.render 1 ++ "\n" ++ c.strings.render

def warningTexts (c : Compilation) (file : String) : List String :=
  c.warnings.map fun w => LogRecord.undeclaredText file w.line w.name

end Compilation

/-- The outcome of a compilation with the log made on the way. -/
structure Report where
  log : List LogRecord
  result : Except Fault Compilation

/-- A program that was read to its end is complete if it has an entry. -/
def State.finish (s : State) : Report :=
  match s.entry with
  | none => ⟨s.log.toList, .error .missingMain⟩
  | some entry =>
    let done := s.emit (.start entry)
    { log := done.log.toList
      result := .ok
        { code := done.code.toList
          symbols := done.symbols
          strings := done.strings
          entry := entry
          warnings := done.warnings.toList } }

/-- The faults of form and of meaning come in the order of the text, and the first one counts. -/
def report (source : String) : Report :=
  let (actions, formFault) := Grammar.parse (Scanner.ofString source).scan
  match State.initial.run actions with
  | (s, some fault) => ⟨s.log.toList, .error fault⟩
  | (s, none) =>
    match formFault with
    | some fault => ⟨s.log.toList, .error fault⟩
    | none => s.finish

def compile (source : String) : Except Fault Compilation := (report source).result

end Triad
