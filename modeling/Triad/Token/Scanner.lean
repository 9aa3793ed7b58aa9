import Triad.Binary64.Reading
import Triad.Fault
import Triad.Text.WhiteSpace
import Triad.Text.Word
import Triad.Token

/-!
A text cut into tokens, one at a time, with the lines counted on the way.

`Scanner.next` gives the next token and goes on behind it, also behind a malformed number and at
the end of the text; `Scanner.scan` takes all tokens up to the end or to the first fault.
-/

namespace Triad

open Triad.Text

/-- The token at the head of a text and what follows it. A malformed number has no kind. -/
structure Head where
  kind : Option Kind
  lexeme : List Char
  /-- The quote that a literal was to end with, if its line ended first. -/
  missingQuote : Option Char
  rest : List Char

namespace Head

/-- Everything up to the end of the line. -/
def comment (text : List Char) : Head :=
  ⟨some .comment, text.takeWhile (· != '\n'), none, text.dropWhile (· != '\n')⟩

def word (text : List Char) : Head :=
  let lexeme := text.takeWhile continuesWord
  ⟨some (.ofWord (String.ofList lexeme)), lexeme, none, text.dropWhile continuesWord⟩

def inNumber (c : Char) : Bool := isDigit c || c == '.'

def maxNumber : Nat := 2147483647

/-- What a run of digits and points stands for: no point makes a number, which has an upper bound,
and one point makes a decimal. -/
def numberKind (run : List Char) : Option Kind :=
  match run.count '.' with
  | 0 => if decimalValue run ≤ maxNumber then some (.number (decimalValue run)) else none
  | 1 => (Binary64.ofChars? run).map .decimal
  | _ => none

def number (text : List Char) : Head :=
  let run := text.takeWhile inNumber
  ⟨numberKind run, run, none, text.dropWhile inNumber⟩

/-- A literal ends at its quote or at the end of the line; its lexeme has both quotes anyway. -/
def literal (quote : Char) (text : List Char) : Head :=
  let inBody (c : Char) : Bool := c != quote && c != '\n'
  let body := text.takeWhile inBody
  let kind := some (.literal (String.ofList body))
  let lexeme := quote :: body ++ [quote]
  match text.dropWhile inBody with
  | [] => ⟨kind, lexeme, some quote, []⟩
  | c :: rest =>
    if c == quote then ⟨kind, lexeme, none, rest⟩ else ⟨kind, lexeme, some quote, c :: rest⟩

def symbol (c : Char) : List Char → Head
  | [] => ⟨some (.ofSymbol c), [c], none, []⟩
  | d :: rest =>
    match Kind.ofPair c d with
    | some kind => ⟨some kind, [c, d], none, rest⟩
    | none => ⟨some (.ofSymbol c), [c], none, d :: rest⟩

/-- The token that starts with `c`, which is no white space. -/
def read (c : Char) (rest : List Char) : Head :=
  if c == '/' && rest.head? == some '/' then comment (c :: rest)
  else if isDigit c then number (c :: rest)
  else if opensWord c then word (c :: rest)
  else if c == '"' || c == '\'' then literal c rest
  else symbol c rest

end Head

structure Scanned where
  token : Token
  missingQuote : Option Char
  deriving DecidableEq, Repr

/-- The text still to be cut, and the line it starts on. -/
structure Scanner where
  rest : List Char
  line : Nat

namespace Scanner

def ofString (source : String) : Scanner := ⟨source.toList, 1⟩

/-- Past the white space at the head of the text. -/
def skip : List Char → Nat → Scanner
  | [], line => ⟨[], line⟩
  | c :: rest, line =>
    if c == '\n' then skip rest (line + 1)
    else if isWhiteSpace c then skip rest line
    else ⟨c :: rest, line⟩

def eofToken (line : Nat) : Token := ⟨.eof, "", line⟩

def next (s : Scanner) : Except Fault Scanned × Scanner :=
  match skip s.rest s.line with
  | ⟨[], line⟩ => (.ok ⟨eofToken line, none⟩, ⟨[], line⟩)
  | ⟨c :: rest, line⟩ =>
    let head := Head.read c rest
    let lexeme := String.ofList head.lexeme
    match head.kind with
    | some kind => (.ok ⟨⟨kind, lexeme, line⟩, head.missingQuote⟩, ⟨head.rest, line⟩)
    | none => (.error (.malformedNumber line lexeme), ⟨head.rest, line⟩)

end Scanner

/-! ## Every token takes a piece of the text -/

private theorem length_dropWhile_le (p : Char → Bool) (text : List Char) :
    (text.dropWhile p).length ≤ text.length :=
  (List.dropWhile_sublist p).length_le

private theorem length_dropWhile_lt {p : Char → Bool} {c : Char} (h : p c = true)
    (rest : List Char) : ((c :: rest).dropWhile p).length < (c :: rest).length := by
  rw [List.dropWhile_cons_of_pos h]
  exact Nat.lt_succ_of_le (length_dropWhile_le p rest)

theorem Head.length_rest_read_lt (c : Char) (rest : List Char) :
    (Head.read c rest).rest.length < (c :: rest).length := by
  unfold Head.read
  split
  · rename_i h
    simp only [Bool.and_eq_true, beq_iff_eq] at h
    exact length_dropWhile_lt (p := (· != '\n')) (by simp [h.1]) rest
  split
  · rename_i h
    exact length_dropWhile_lt (p := Head.inNumber) (by simp [Head.inNumber, h]) rest
  split
  · rename_i h
    refine length_dropWhile_lt (p := continuesWord) ?_ rest
    simp only [opensWord, Bool.or_eq_true, beq_iff_eq] at h
    rcases h with h | h <;> simp [continuesWord, h]
  split
  · have h := length_dropWhile_le (fun d => d != c && d != '\n') rest
    simp only [Head.literal]
    split
    · simp
    · rename_i heq
      rw [heq] at h
      split
      · exact Nat.lt_succ_of_le (Nat.le_of_succ_le h)
      · exact Nat.lt_succ_of_le h
  · cases rest with
    | nil => simp [Head.symbol]
    | cons d rest =>
      simp only [Head.symbol]
      split
      · simp only [List.length_cons]
        omega
      · exact Nat.lt_succ_self _

theorem Scanner.length_rest_skip_le (text : List Char) (line : Nat) :
    (Scanner.skip text line).rest.length ≤ text.length := by
  induction text generalizing line with
  | nil => simp [Scanner.skip]
  | cons c rest ih =>
    simp only [Scanner.skip]
    split
    · exact Nat.le_succ_of_le (ih _)
    split
    · exact Nat.le_succ_of_le (ih _)
    · simp

theorem Scanner.length_rest_next_lt {s s' : Scanner} {item : Scanned}
    (h : s.next = (.ok item, s')) (hk : item.token.kind ≠ .eof) :
    s'.rest.length < s.rest.length := by
  have hs := Scanner.length_rest_skip_le s.rest s.line
  unfold Scanner.next at h
  split at h
  · cases h
    exact absurd rfl hk
  · rename_i c rest line heq
    rw [heq] at hs
    have hr := Head.length_rest_read_lt c rest
    dsimp only at h
    split at h
    · cases h
      exact Nat.lt_of_lt_of_le hr hs
    · cases h

/-! ## All tokens of a text -/

/-- How a text came to its end: on a line, or with a fault. -/
inductive Ending
  | eof (line : Nat)
  | broken (fault : Fault)
  deriving DecidableEq, Repr

/-- The tokens of a text in order, without the one that marks the end. -/
structure Scan where
  items : List Scanned
  ending : Ending
  deriving DecidableEq, Repr

def Scanner.scan (s : Scanner) : Scan :=
  match _h : s.next with
  | (.error fault, _) => ⟨[], .broken fault⟩
  | (.ok item, s') =>
    if _hk : item.token.kind = .eof then ⟨[], .eof item.token.line⟩
    else
      let later := s'.scan
      ⟨item :: later.items, later.ending⟩
termination_by s.rest.length
decreasing_by exact Scanner.length_rest_next_lt _h _hk

/-- The tokens of a text, the last one marking its end. -/
def Scan.tokens (s : Scan) : Except Fault (List Token) :=
  match s.ending with
  | .eof line => .ok (s.items.map Scanned.token ++ [Scanner.eofToken line])
  | .broken fault => .error fault

def tokenize (source : String) : Except Fault (List Token) :=
  (Scanner.ofString source).scan.tokens

end Triad
