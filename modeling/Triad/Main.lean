import Triad.Command.Arguments

/-!
The program: reads the source, writes the files that were asked for, and prints.
-/

namespace Triad.Command

def ioMessage : IO.Error → String
  | .noFileOrDirectory .. => missingFile
  | e => toString e

def readInput (o : Options) : IO (Except String ByteArray) := do
  try
    if o.input = "-" then return .ok (← (← IO.getStdin).readBinToEnd)
    else return .ok (← IO.FS.readBinFile o.input)
  catch e => return .error (ioMessage e)

def writeOutput (path content : String) : IO (Option String) := do
  try
    IO.FS.writeFile path content
    return none
  catch e => return some (ioMessage e)

end Triad.Command

open Triad Triad.Command in
def main (arguments : List String) : IO UInt32 := do
  match Options.ofArguments arguments with
  | .error message =>
    IO.eprint ("error: " ++ message ++ "\n" ++ usage)
    return usageStatus.toUInt32
  | .ok o =>
    let ended ← run writeOutput o (← readInput o)
    for r in ended.log.filter (·.isShownAt o.level) do
      IO.eprintln (r.render o.fileName)
    IO.print ended.stdout
    IO.eprint ended.stderr
    return ended.status.toUInt32
