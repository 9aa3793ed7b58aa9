import Triad.Compilation

/-!
The command line: what is read, what is written where, and with which status the program ends.
Files are reached through a function given by the caller.
-/

namespace Triad.Command

structure Options where
  /-- The path of the source, or `-` for the standard input. -/
  input : String
  tac : Option String
  asm : Option String
  symbols : Bool
  verbosity : Nat
  deriving DecidableEq, Repr

/-- The name of the source in messages. -/
def Options.fileName (o : Options) : String :=
  if o.input = "-" then "<stdin>" else o.input

/-- The level that the log is shown at. -/
def Options.level (o : Options) : Level :=
  match o.verbosity with
  | 0 => .warn
  | 1 => .info
  | 2 => .debug
  | _ => .trace

/-- Status after a fault. -/
def fatalStatus : Nat := 42

def missingFile : String := "No such file or directory (os error 2)"

def invalidText : String := "stream did not contain valid UTF-8"

/-- How the program ends, with the log and all that it prints. -/
structure Ended where
  status : Nat
  stdout : String
  stderr : String
  log : List LogRecord

def failed (message : String) (log : List LogRecord) : Ended :=
  ⟨fatalStatus, "", "error: " ++ message ++ "\n", log⟩

/-- The source as text, without the white space at its end. -/
def sourceText (bytes : ByteArray) : Except String String :=
  match String.fromUTF8? bytes with
  | some text => .ok (Text.trimEnd text)
  | none => .error invalidText

/-- A file to write, and what its making has to say. -/
structure OutputFile where
  path : String
  content : String
  records : List LogRecord

/-- The files in the order of writing: the code, then the assembly. -/
def Options.files (o : Options) (c : Compilation) : List OutputFile :=
  (o.tac.map fun path => ⟨path, c.code.render, []⟩).toList ++
    (o.asm.map fun path => ⟨path, c.assembly o.fileName, c.assemblyRecords⟩).toList

/-- Code goes to the standard output if no file was asked for. -/
def Options.printed (o : Options) (c : Compilation) : String :=
  (if o.tac.isNone && o.asm.isNone then c.code.render else "") ++
    if o.symbols then c.symbolReport else ""

/-- Writes files up to the first failure, whose message is the result. -/
def writeFiles {m : Type → Type} [Monad m] (write : String → String → m (Option String)) :
    List OutputFile → m (List LogRecord × Option String)
  | [] => return ([], none)
  | file :: rest => do
    match ← write file.path file.content with
    | some message => return (file.records, some message)
    | none =>
      let (records, failure) ← writeFiles write rest
      return (file.records ++ records, failure)

/-- The whole program on a source that was read, or on the message of a failure to read it. The
function `write` puts a text into the file at a path, or gives the message of its failure. -/
def run {m : Type → Type} [Monad m] (write : String → String → m (Option String)) (o : Options)
    (input : Except String ByteArray) : m Ended := do
  match input.bind sourceText with
  | .error message => return failed message []
  | .ok source =>
    let r := report source
    match r.result with
    | .error fault => return failed (fault.message o.fileName) r.log
    | .ok c =>
      let (records, failure) ← writeFiles write (o.files c)
      let log := r.log ++ .compiled c.code.length c.entry :: records
      match failure with
      | some message => return failed message log
      | none => return ⟨0, o.printed c, "", log⟩

end Triad.Command
