import Triad.Command
import Triad.Text.Split

/-!
A directory kept in memory, for running the program without a disk. It holds files and no
directories, and files can be put into the directories above it. A file is one file however its
path is spelt.
-/

namespace Triad.Command

/-- Each file by its place: the steps up from the directory, if any, and its name. -/
structure Directory where
  files : List (List String × String)
  deriving DecidableEq, Repr

namespace Directory

def empty : Directory := ⟨[]⟩

/-- The steps that a path is made of. -/
def steps (path : String) : List String :=
  (Text.split '/' path.toList).map String.ofList

/-- A step that stays where it is. -/
def isIdle (step : String) : Bool := step == "" || step == "."

/-- The place of a file, none if its path leads through a directory that is not there, names no
file, or starts from the root. -/
def place? (path : String) : Option (List String) :=
  let folders := (steps path).dropLast
  let name := (steps path).getLastD ""
  let upward := folders.filter fun step => !isIdle step
  if folders.head? == some "" || isIdle name || name == ".." then none
  else if upward.all (· == "..") then some (upward ++ [name])
  else none

def read? (d : Directory) (path : String) : Option String :=
  (place? path).bind fun place => d.files.lookup place

/-- A file that is there already is replaced. -/
def write? (d : Directory) (path content : String) : Option Directory :=
  (place? path).map fun place => ⟨(place, content) :: d.files.filter (·.1 != place)⟩

end Directory

/-- Writing as `run` wants it. -/
def writeInMemory (path content : String) : StateM Directory (Option String) := fun d =>
  match d.write? path content with
  | some written => (none, written)
  | none => (some missingFile, d)

end Triad.Command
