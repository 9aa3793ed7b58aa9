import Mathlib.Data.List.TakeWhile
import Triad.Cursor

/-!
The tokens that a cursor goes through. A cursor stands before a list of tokens, comments left out,
if advancing drops the head of the list and peeking looks behind it; beyond the list comes the mark
of the end, again and again. Tokens cut from a text are spelled as their kind says.
-/

namespace Triad

open Triad.Text

/-! ## Spelling -/

/-- The lexeme is one that the scanner gives to the kind. Only the kinds whose meaning is read off
the lexeme are bound to a spelling. -/
def Token.WellSpelled (t : Token) : Prop :=
  match t.kind with
  | .addOp => t.lexeme = "+"
  | .signOp => t.lexeme = "-"
  | .mulOp => t.lexeme = "*" ∨ t.lexeme = "/"
  | .orOp => t.lexeme = "||"
  | .andOp => t.lexeme = "&&"
  | .number n =>
    t.lexeme.toList ≠ [] ∧ (∀ c ∈ t.lexeme.toList, isDigit c = true) ∧
      decimalValue t.lexeme.toList = n
  | .identifier => ∀ c ∈ t.lexeme.toList, continuesWord c = true
  | _ => True

namespace Head

theorem wellSpelled_number {run : List Char} {kind : Kind} {line : Nat} (hne : run ≠ [])
    (hrun : ∀ c ∈ run, inNumber c = true) (h : numberKind run = some kind) :
    Token.WellSpelled ⟨kind, String.ofList run, line⟩ := by
  unfold numberKind at h
  split at h
  · rename_i hcount
    split at h
    · cases h
      have hdigits : ∀ c ∈ run, isDigit c = true := by
        intro c hc
        have hdot : c ≠ '.' := by
          rintro rfl
          exact List.count_eq_zero.mp hcount hc
        have := hrun c hc
        simpa [inNumber, hdot] using this
      simpa [Token.WellSpelled] using ⟨hne, hdigits⟩
    · cases h
  · obtain ⟨x, _, rfl⟩ := Option.map_eq_some_iff.mp h
    trivial
  · cases h

theorem ofWord_cases (word : String) :
    Kind.ofWord word = .identifier ∨ Kind.ofWord word ∈ Kind.reserved := by
  unfold Kind.ofWord
  cases h : Kind.reserved.find? fun k => k.name == word with
  | none => exact .inl rfl
  | some k => exact .inr (List.mem_of_find?_eq_some h)

theorem wellSpelled_word {word : List Char} {line : Nat}
    (hword : ∀ c ∈ word, continuesWord c = true) :
    Token.WellSpelled ⟨.ofWord (String.ofList word), String.ofList word, line⟩ := by
  rcases ofWord_cases (String.ofList word) with h | h
  · rw [h]
    simpa [Token.WellSpelled] using hword
  · generalize Kind.ofWord (String.ofList word) = kind at h
    simp only [Kind.reserved, List.mem_cons, List.not_mem_nil, or_false] at h
    rcases h with rfl | rfl | rfl | rfl | rfl | rfl | rfl | rfl | rfl | rfl | rfl | rfl | rfl |
      rfl | rfl | rfl | rfl | rfl | rfl | rfl | rfl | rfl | rfl | rfl <;> trivial

theorem wellSpelled_pair {c d : Char} {kind : Kind} {line : Nat} (h : Kind.ofPair c d = some kind) :
    Token.WellSpelled ⟨kind, String.ofList [c, d], line⟩ := by
  unfold Kind.ofPair at h
  split at h <;> cases h <;> trivial

theorem wellSpelled_single (c : Char) (line : Nat) :
    Token.WellSpelled ⟨.ofSymbol c, String.ofList [c], line⟩ := by
  unfold Kind.ofSymbol
  split <;> first | trivial | exact .inl rfl | exact .inr rfl

theorem wellSpelled_symbol {c : Char} {rest : List Char} {kind : Kind} {line : Nat}
    (h : (symbol c rest).kind = some kind) :
    Token.WellSpelled ⟨kind, String.ofList (symbol c rest).lexeme, line⟩ := by
  unfold symbol at h ⊢
  split
  · cases h
    exact wellSpelled_single c line
  · dsimp only at h ⊢
    split <;> rename_i heq <;> rw [heq] at h <;> cases h
    · exact wellSpelled_pair heq
    · exact wellSpelled_single c line

theorem kind_literal (quote : Char) (text : List Char) :
    ∃ body, (literal quote text).kind = some (.literal body) := by
  unfold literal
  dsimp only
  split
  · exact ⟨_, rfl⟩
  · split <;> exact ⟨_, rfl⟩

theorem wellSpelled_read {c : Char} {rest : List Char} {kind : Kind} {line : Nat}
    (h : (read c rest).kind = some kind) :
    Token.WellSpelled ⟨kind, String.ofList (read c rest).lexeme, line⟩ := by
  unfold read at h ⊢
  split
  · rename_i hcomment
    rw [if_pos hcomment] at h
    cases h
    trivial
  rename_i hcomment
  rw [if_neg hcomment] at h
  split
  · rename_i hdigit
    rw [if_pos hdigit] at h
    have hne : (c :: rest).takeWhile inNumber ≠ [] := by
      rw [List.takeWhile_cons_of_pos (by simp [inNumber, hdigit])]
      exact List.cons_ne_nil _ _
    exact wellSpelled_number hne (fun _ => List.mem_takeWhile_imp) h
  rename_i hdigit
  rw [if_neg hdigit] at h
  split
  · rename_i hword
    rw [if_pos hword] at h
    cases h
    exact wellSpelled_word fun _ => List.mem_takeWhile_imp
  rename_i hword
  rw [if_neg hword] at h
  split
  · rename_i hquote
    rw [if_pos hquote] at h
    obtain ⟨body, hbody⟩ := kind_literal c rest
    cases hbody.symm.trans h
    trivial
  · rename_i hquote
    rw [if_neg hquote] at h
    exact wellSpelled_symbol h

end Head

namespace Scanner

theorem wellSpelled_next {s s' : Scanner} {item : Scanned} (h : s.next = (.ok item, s')) :
    item.token.WellSpelled := by
  unfold next at h
  split at h
  · cases h
    trivial
  · dsimp only at h
    split at h
    · rename_i hkind
      cases h
      exact Head.wellSpelled_read hkind
    · cases h

/-- What is scanned is well spelled and does not mark the end. -/
theorem mem_scan (s : Scanner) :
    ∀ item ∈ s.scan.items, item.token.WellSpelled ∧ item.token.kind ≠ .eof := by
  fun_induction scan s with
  | case1 => simp
  | case2 => simp
  | case3 s item s' hnext hkind later ih =>
    intro other hother
    rcases List.mem_cons.mp hother with rfl | hother
    · exact ⟨wellSpelled_next hnext, hkind⟩
    · exact ih other hother

theorem error_of_next {s s' : Scanner} {fault : Fault} (h : s.next = (.error fault, s')) :
    ∃ line lexeme, fault = .malformedNumber line lexeme := by
  unfold next at h
  split at h
  · cases h
  · dsimp only at h
    split at h
    · cases h
    · cases h
      exact ⟨_, _, rfl⟩

/-- Only a number can break a text. -/
theorem broken_scan {s : Scanner} {fault : Fault} (h : s.scan.ending = .broken fault) :
    ∃ line lexeme, fault = .malformedNumber line lexeme := by
  fun_induction scan s with
  | case1 s fault' s' hnext =>
    cases h
    exact error_of_next hnext
  | case2 => cases h
  | case3 s item s' hnext hkind later ih => exact ih h

end Scanner

/-! ## Standing before tokens -/

/-- The tokens of scanned items without the comments. -/
def significant (items : List Scanned) : List Token :=
  (items.map Scanned.token).filter fun t => t.kind ≠ .comment

namespace Cursor

/-- The cursor has the tokens before it, and then the end of the text on the given line. -/
structure Stands (c : Cursor) (line : Nat) (ts : List Token) : Prop where
  ending : c.ending = .eof line
  current : c.current = ts.headD (Scanner.eofToken line)
  behind : (c.peeked = none ∧ significant c.rest = ts.tail) ∨
    (c.peeked = some (ts.tail.headD (Scanner.eofToken line)) ∧ significant c.rest = ts.tail.tail)
  spelled : ∀ t ∈ ts, t.WellSpelled ∧ t.kind ≠ .eof

/-- The next token is the first one that is no comment. -/
theorem pull_eof (line : Nat) (items : List Scanned) :
    ∃ scanned rest,
      pull (.eof line) items =
        (scanned, .ok ((significant items).headD (Scanner.eofToken line), rest)) ∧
      significant rest = (significant items).tail := by
  induction items with
  | nil => exact ⟨_, _, rfl, rfl⟩
  | cons item items ih =>
    by_cases h : item.token.kind = .comment
    · obtain ⟨scanned, rest, hpull, hrest⟩ := ih
      have hsig : significant (item :: items) = significant items := by simp [significant, h]
      exact ⟨item :: scanned, rest, by rw [pull, if_pos h, hpull, hsig], by rw [hrest, hsig]⟩
    · have hsig : significant (item :: items) = item.token :: significant items := by
        simp [significant, h]
      exact ⟨[item], items, by rw [pull, if_neg h, hsig]; rfl, by rw [hsig]; rfl⟩

theorem Stands.tail_spelled {c : Cursor} {line : Nat} {ts : List Token} (h : c.Stands line ts) :
    ∀ t ∈ ts.tail, t.WellSpelled ∧ t.kind ≠ .eof :=
  fun t ht => h.spelled t (List.mem_of_mem_tail ht)

theorem Stands.advance {c : Cursor} {line : Nat} {ts : List Token} (h : c.Stands line ts) :
    ∃ scanned c', c.advance = (scanned, .ok c') ∧ c'.Stands line ts.tail := by
  unfold Cursor.advance
  rcases h.behind with ⟨hpeeked, hrest⟩ | ⟨hpeeked, hrest⟩
  · obtain ⟨scanned, rest, hpull, hbehind⟩ := pull_eof line c.rest
    rw [hpeeked, h.ending, hpull, hrest]
    exact ⟨_, _, rfl, ⟨rfl, rfl, .inl ⟨rfl, by rw [hbehind, hrest]⟩, h.tail_spelled⟩⟩
  · rw [hpeeked]
    exact ⟨_, _, rfl, ⟨h.ending, rfl, .inl ⟨rfl, hrest⟩, h.tail_spelled⟩⟩

theorem Stands.peek {c : Cursor} {line : Nat} {ts : List Token} (h : c.Stands line ts) :
    ∃ scanned c',
      c.peek = (scanned, .ok ((ts.tail.headD (Scanner.eofToken line)).kind, c')) ∧
      c'.Stands line ts := by
  unfold Cursor.peek
  rcases h.behind with ⟨hpeeked, hrest⟩ | ⟨hpeeked, hrest⟩
  · obtain ⟨scanned, rest, hpull, hbehind⟩ := pull_eof line c.rest
    rw [hpeeked, h.ending, hpull, hrest]
    exact ⟨_, _, rfl, ⟨rfl, h.current, .inr ⟨rfl, by rw [hbehind, hrest]⟩, h.spelled⟩⟩
  · rw [hpeeked]
    exact ⟨_, _, rfl, ⟨h.ending, h.current, .inr ⟨hpeeked, hrest⟩, h.spelled⟩⟩

theorem Stands.length_le_remaining {c : Cursor} {line : Nat} {ts : List Token}
    (h : c.Stands line ts) : ts.length ≤ c.remaining := by
  have hrest : (significant c.rest).length ≤ c.rest.length := by
    have := List.length_filter_le (fun t : Token => t.kind ≠ .comment) (c.rest.map Scanned.token)
    rwa [List.length_map] at this
  unfold remaining
  rcases h.behind with ⟨hpeeked, hsig⟩ | ⟨hpeeked, hsig⟩ <;>
    rw [hsig] at hrest <;> simp [hpeeked] at hrest ⊢ <;> omega

/-- The first advance brings a cursor before all tokens of the text. -/
theorem advance_start {scan : Scan} {line : Nat} (hend : scan.ending = .eof line)
    (hitems : ∀ item ∈ scan.items, item.token.WellSpelled ∧ item.token.kind ≠ .eof) :
    ∃ scanned c', (start scan).advance = (scanned, .ok c') ∧
      c'.Stands line (significant scan.items) := by
  obtain ⟨scanned, rest, hpull, hbehind⟩ := pull_eof line scan.items
  unfold Cursor.advance start
  dsimp only
  rw [hend, hpull]
  refine ⟨_, _, rfl, rfl, rfl, .inl ⟨rfl, hbehind⟩, ?_⟩
  intro t ht
  obtain ⟨item, hitem, rfl⟩ := List.mem_map.mp (List.mem_filter.mp ht).1
  exact hitems item hitem

end Cursor

end Triad
