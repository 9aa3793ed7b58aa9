/-!
The pool of string literals: every text is kept once, under a label that counts the entries before
it. The empty literal is kept as one blank, since the assembler takes no empty string.
-/

namespace Triad

structure PoolEntry where
  label : String
  /-- The literal with its quotes. -/
  text : String
  deriving DecidableEq, Repr

structure StringPool where
  entries : List PoolEntry
  deriving DecidableEq, Repr

namespace StringPool

def empty : StringPool := ⟨[]⟩

def size (pool : StringPool) : Nat := pool.entries.length

def isEmpty (pool : StringPool) : Bool := pool.entries.isEmpty

/-- The text that a literal is kept as. -/
def normalize (literal : String) : String :=
  if literal = "\"\"" then "\" \"" else literal

def labelOf (n : Nat) : String := s!"_S{n}"

def find? (pool : StringPool) (text : String) : Option PoolEntry :=
  pool.entries.find? fun e => e.text == text

def lookup (pool : StringPool) (label : String) : Option PoolEntry :=
  pool.entries.find? fun e => e.label == label

/-- The entry of a literal, and whether it is a new one. -/
def entryFor (pool : StringPool) (literal : String) : PoolEntry × Bool :=
  let text := normalize literal
  match pool.find? text with
  | some e => (e, false)
  | none => (⟨labelOf pool.size, text⟩, true)

def intern (pool : StringPool) (literal : String) : StringPool :=
  match pool.entryFor literal with
  | (_, false) => pool
  | (e, true) => ⟨pool.entries ++ [e]⟩

def render (pool : StringPool) : String :=
  "Name  Value\n----  -----\n" ++
    String.join (pool.entries.map fun e => e.label ++ "   " ++ e.text ++ "\n")

end StringPool

end Triad
