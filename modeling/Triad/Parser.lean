import Triad.Action
import Triad.Cursor

/-!
Parsers: they move a cursor on and list the actions that the tokens call for, also those before a
fault. Loops are bounded by the number of tokens that remain, which no loop can use up before it
stands at the end of the text.
-/

namespace Triad

/-- The actions called for, and the value with the new cursor, or a fault. -/
structure Parsed (α : Type) where
  actions : List Action
  result : Except Fault (α × Cursor)

def Parser (α : Type) : Type := Cursor → Parsed α

namespace Parser

protected def pure {α : Type} (a : α) : Parser α := fun c => ⟨[], .ok (a, c)⟩

protected def bind {α β : Type} (p : Parser α) (f : α → Parser β) : Parser β := fun c =>
  match p c with
  | ⟨actions, .error fault⟩ => ⟨actions, .error fault⟩
  | ⟨actions, .ok (a, c')⟩ =>
    let later := f a c'
    ⟨actions ++ later.actions, later.result⟩

instance : Monad Parser where
  pure := Parser.pure
  bind := Parser.bind

theorem bind_error {α β : Type} {p : Parser α} {f : α → Parser β} {c : Cursor}
    {actions : List Action} {fault : Fault} (h : p c = ⟨actions, .error fault⟩) :
    (p >>= f) c = ⟨actions, .error fault⟩ := by
  change Parser.bind p f c = _
  rw [Parser.bind, h]

theorem bind_ok {α β : Type} {p : Parser α} {f : α → Parser β} {c c' : Cursor}
    {actions : List Action} {a : α} (h : p c = ⟨actions, .ok (a, c')⟩) :
    (p >>= f) c = ⟨actions ++ (f a c').actions, (f a c').result⟩ := by
  change Parser.bind p f c = _
  rw [Parser.bind, h]

/-! ## Single tokens -/

def token : Parser Token := fun c => ⟨[], .ok (c.current, c)⟩

def perform (action : Action) : Parser Unit := fun c => ⟨[action], .ok ((), c)⟩

def fail {α : Type} (fault : Fault) : Parser α := fun _ => ⟨[], .error fault⟩

def advance : Parser Unit := fun c =>
  match c.advance with
  | (scanned, .ok c') => ⟨scanned.map .scan, .ok ((), c')⟩
  | (scanned, .error fault) => ⟨scanned.map .scan, .error fault⟩

def peek : Parser Kind := fun c =>
  match c.peek with
  | (scanned, .ok (kind, c')) => ⟨scanned.map .scan, .ok (kind, c')⟩
  | (scanned, .error fault) => ⟨scanned.map .scan, .error fault⟩

def remaining : Parser Nat := fun c => ⟨[], .ok (c.remaining, c)⟩

/-- A token as a fault names it. -/
def foundText (kind : Kind) : String :=
  if kind = .eof then "end of file" else kind.name

def mismatch {α : Type} (expected : String) : Parser α := do
  let t ← token
  fail (.mismatch t.line expected (foundText t.kind))

def check (kind : Kind) : Parser Bool := do
  let t ← token
  return t.kind = kind

/-- Passes the current token if it is of the kind. -/
def consume (kind : Kind) : Parser Bool := do
  if ← check kind then
    advance
    return true
  else return false

/-- Passes the current token, which must be of the kind. -/
def expect (kind : Kind) : Parser Token := do
  let t ← token
  if t.kind = kind then
    advance
    return t
  else mismatch kind.name

/-- The end of the text is not passed. -/
def expectEnd : Parser Unit := do
  let t ← token
  if t.kind = .eof then return ()
  else mismatch Kind.eof.name

def expectName : Parser String := do
  let t ← expect .identifier
  return t.lexeme

/-- The current token, which must be a name and is not passed yet. -/
def nameAhead : Parser Token := do
  let t ← token
  if t.kind = .identifier then return t
  else mismatch Kind.identifier.name

/-! ## Repetition -/

def manyWithin (test : Token → Bool) (item : Parser Unit) : Nat → Parser Unit
  | 0 => return ()
  | n + 1 => do
    if test (← token) then
      item
      manyWithin test item n
    else return ()

/-- `item` as long as the current token passes the test. -/
def many (test : Token → Bool) (item : Parser Unit) : Parser Unit := do
  manyWithin test item (← remaining)

def listWithin (item : Parser Unit) : Nat → Parser Nat
  | 0 => do
    item
    return 1
  | n + 1 => do
    item
    if ← consume .comma then
      return (← listWithin item n) + 1
    else return 1

/-- One `item` or more with commas between them; the value is their number. -/
def list (item : Parser Unit) : Parser Nat := do
  listWithin item (← remaining)

def dottedWithin (name : String) : Nat → Parser String
  | 0 => return name
  | n + 1 => do
    if ← consume .period then
      dottedWithin (name ++ "." ++ (← expectName)) n
    else return name

/-- A name, or several with points between them. -/
def dottedName : Parser String := do
  let name ← expectName
  dottedWithin name (← remaining)

end Parser

end Triad
