import Triad.Token.Scanner

/-!
A place among the tokens of a text, with one token of lookahead. Comments are passed over, but what
was scanned on the way is told, so that the order of scanning stays visible.
-/

namespace Triad

structure Cursor where
  current : Token
  /-- The token behind the current one, once it was asked for. -/
  peeked : Option Token
  rest : List Scanned
  ending : Ending
  deriving Repr

namespace Cursor

/-- Before the first token. -/
def start (scan : Scan) : Cursor := ⟨Scanner.eofToken 1, none, scan.items, scan.ending⟩

/-- The next token that is no comment: all that is scanned, and the token with what follows it.
Beyond the end of the text the mark of the end is scanned again and again. -/
def pull (ending : Ending) : List Scanned → List Scanned × Except Fault (Token × List Scanned)
  | [] =>
    match ending with
    | .eof line => ([⟨Scanner.eofToken line, none⟩], .ok (Scanner.eofToken line, []))
    | .broken fault => ([], .error fault)
  | item :: rest =>
    if item.token.kind = .comment then
      let (scanned, result) := pull ending rest
      (item :: scanned, result)
    else ([item], .ok (item.token, rest))

def advance (c : Cursor) : List Scanned × Except Fault Cursor :=
  match c.peeked with
  | some token => ([], .ok { c with current := token, peeked := none })
  | none =>
    match pull c.ending c.rest with
    | (scanned, .ok (token, rest)) => (scanned, .ok { c with current := token, rest := rest })
    | (scanned, .error fault) => (scanned, .error fault)

/-- The kind of the token behind the current one. -/
def peek (c : Cursor) : List Scanned × Except Fault (Kind × Cursor) :=
  match c.peeked with
  | some token => ([], .ok (token.kind, c))
  | none =>
    match pull c.ending c.rest with
    | (scanned, .ok (token, rest)) =>
      (scanned, .ok (token.kind, { c with peeked := some token, rest := rest }))
    | (scanned, .error fault) => (scanned, .error fault)

/-- An upper bound on the tokens that can still be passed, the current one included. -/
def remaining (c : Cursor) : Nat :=
  c.rest.length + (if c.peeked.isSome then 1 else 0) + 1

end Cursor

end Triad
