import Triad.Fault
import Triad.Symbol

/-!
The table of records. A record is found by its name through chains, one for each hash value, the
newest record first, so that an inner declaration hides an outer one. Records are numbered in the
order of their insertion; a removed record leaves its number unused.
-/

namespace Triad

/-- Number of chains. -/
def chainCount : Nat := 211

/-- One character more: the hash moves up by four bits, and what reaches the top four bits is folded
back into the low end. -/
def hashStep (h : UInt32) (c : Char) : UInt32 :=
  let h := (h <<< 4) + c.val
  let top := h &&& 0xf0000000
  if top = 0 then h else (h ^^^ (top >>> 24)) ^^^ top

/-- The chain that a name belongs to. -/
def chainOf (name : String) : Fin chainCount :=
  let h := (name.toList.foldl hashStep 0).toNat
  ⟨h % chainCount, Nat.mod_lt h (by decide)⟩

/-- A record, and the next older one of its chain. -/
structure Entry where
  symbol : Symbol
  next : Option SymbolId
  deriving DecidableEq, Repr

/-- A chain starts at its head and follows the links through the arena. -/
structure SymbolTable where
  /-- Every record by its number, `none` after its removal. -/
  arena : Array (Option Entry)
  heads : Vector (Option SymbolId) chainCount

namespace SymbolTable

def empty : SymbolTable := ⟨#[], Vector.replicate chainCount none⟩

def entryAt? (t : SymbolTable) (id : SymbolId) : Option Entry :=
  t.arena[id]?.join

def get? (t : SymbolTable) (id : SymbolId) : Option Symbol :=
  (t.entryAt? id).map Entry.symbol

def isLive (t : SymbolTable) (id : SymbolId) : Bool := (t.get? id).isSome

/-- The record of a number that is held to be live. -/
def fetch (t : SymbolTable) (id : SymbolId) : Except Fault Symbol :=
  match t.get? id with
  | some s => .ok s
  | none => .error (.deletedSymbol id)

/-- The number that the next record gets. -/
def nextId (t : SymbolTable) : SymbolId := t.arena.size

/-- The new record becomes the head of its chain. -/
def insert (t : SymbolTable) (s : Symbol) : SymbolTable :=
  { arena := t.arena.push (some ⟨s, t.heads.get (chainOf s.name)⟩)
    heads := t.heads.set (chainOf s.name) (some t.nextId) }

/-- A change of a live record that keeps its name; a removed one stays removed. -/
def modify (t : SymbolTable) (id : SymbolId) (f : Symbol → Symbol) : SymbolTable :=
  { t with arena := t.arena.modify id (Option.map fun e => { e with symbol := f e.symbol }) }

/-- The first record of the name within so many links from a place in a chain. -/
def findWithin (t : SymbolTable) (name : String) : Nat → Option SymbolId → Option SymbolId
  | n + 1, some id =>
    match t.entryAt? id with
    | some e => if e.symbol.name == name then some id else t.findWithin name n e.next
    | none => none
  | _, _ => none

/-- The newest live record of a name. No chain is longer than the arena. -/
def lookup (t : SymbolTable) (name : String) : Option SymbolId :=
  t.findWithin name t.nextId (t.heads.get (chainOf name))

def lookupSymbol (t : SymbolTable) (name : String) : Option Symbol :=
  (t.lookup name).bind t.get?

/-! ## Leaving a depth -/

/-- Past the records deeper than `depth`: the last of them, and the place behind it. -/
def passDeeper (t : SymbolTable) (depth : Nat) :
    Nat → Option SymbolId → Option SymbolId → Option SymbolId × Option SymbolId
  | n + 1, last, some id =>
    match t.entryAt? id with
    | some e =>
      if depth < e.symbol.depth then t.passDeeper depth n (some id) e.next else (last, some id)
    | none => (last, some id)
  | _, last, place => (last, place)

def remove (t : SymbolTable) (id : SymbolId) : SymbolTable :=
  { t with arena := t.arena.setIfInBounds id none }

/-- Without the records at `depth` that follow each other from a place on, and the place behind
them. -/
def removeRun (depth : Nat) : Nat → SymbolTable → Option SymbolId → SymbolTable × Option SymbolId
  | n + 1, t, some id =>
    match t.entryAt? id with
    | some e =>
      if e.symbol.depth = depth then removeRun depth n (t.remove id) e.next else (t, some id)
    | none => (t, some id)
  | _, t, place => (t, place)

/-- The chain goes on at `place` behind its record `last`, or starts there. -/
def relink (t : SymbolTable) (chain : Fin chainCount) (last place : Option SymbolId) :
    SymbolTable :=
  match last with
  | some id => { t with arena := t.arena.modify id (Option.map fun e => { e with next := place }) }
  | none => { t with heads := t.heads.set chain place }

/-- One chain without the records at `depth` that come first once the deeper ones at its head are
passed over. -/
def purge (depth : Nat) (t : SymbolTable) (chain : Fin chainCount) : SymbolTable :=
  let (last, first) := t.passDeeper depth t.nextId none (t.heads.get chain)
  let (purged, rest) := removeRun depth t.nextId t first
  purged.relink chain last rest

/-- The two outermost depths are never left. -/
def deleteDepth (t : SymbolTable) (depth : Nat) : SymbolTable :=
  if depth < 2 then t else (List.finRange chainCount).foldl (purge depth) t

/-! ## Views -/

/-- The live records with their numbers, in the order of insertion. -/
def toList (t : SymbolTable) : List (SymbolId × Symbol) :=
  t.arena.toList.zipIdx.filterMap fun (e, id) => e.map fun e => (id, e.symbol)

def symbols (t : SymbolTable) : List Symbol := t.toList.map Prod.snd

def size (t : SymbolTable) : Nat := t.toList.length

def isEmpty (t : SymbolTable) : Bool := t.size == 0

/-- The least offset of a live record, or zero if none lies below the base. -/
def minOffset (t : SymbolTable) : Int :=
  t.symbols.foldl (fun least s => min least s.offset) 0

def atDepth (t : SymbolTable) (depth : Nat) : List Symbol :=
  t.symbols.filter fun s => s.depth == depth

/-- Bytes of all live records at a depth. -/
def depthSize (t : SymbolTable) (depth : Nat) : Int :=
  (t.atDepth depth).foldr (fun s total => s.size + total) 0

def childrenOf (t : SymbolTable) (owner : SymbolId) : List Symbol :=
  t.symbols.filter fun s => s.owner == some owner

/-- The name of the owner, if the record and its owner are live. -/
def ownerName? (t : SymbolTable) (id : SymbolId) : Option String := do
  let s ← t.get? id
  let owner ← s.owner
  let o ← t.get? owner
  return o.name

/-- The first method of that name whose owner has the name of the class. -/
def findMethod (t : SymbolTable) (className name : String) : Option Symbol :=
  let isWanted (r : SymbolId × Symbol) : Bool :=
    r.2.entity.isMethod && r.2.name == name && t.ownerName? r.1 == some className
  (t.toList.find? isWanted).map Prod.snd

def renderChildren (t : SymbolTable) (owner : SymbolId) : String :=
  "\n" ++ String.join ((t.childrenOf owner).map fun s => " => " ++ s.renderAsChild ++ "\n")

/-- The listing of one depth. -/
def render (t : SymbolTable) (depth : Nat) : String :=
  s!"Symbol Table - Depth {depth}\n----------------------\n" ++
    String.join ((t.atDepth depth).map fun s => s.render ++ "\n")

end SymbolTable

end Triad
