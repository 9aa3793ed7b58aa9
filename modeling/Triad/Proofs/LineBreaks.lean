import Triad.Proofs.TrailingSpace

/-!
A line break between two texts. No token goes over the end of a line, not even a comment or a literal
without its quote, so that the tokens of two texts with a line break between them are the tokens of
the first and then those of the second, on lines further down. Main statement:
`tokenize_append_newline`.
-/

namespace Triad

open Triad.Text

/-! ## A line break behind a token -/

namespace Head

variable {more : List Char}

theorem comment_append_newline (text : List Char) :
    comment (text ++ '\n' :: more) =
      { comment text with rest := (comment text).rest ++ '\n' :: more } := by
  obtain ⟨htake, hdrop⟩ := run_append (p := (· != '\n')) text ('\n' :: more) (.inr (by simp))
  rw [comment, comment, htake, hdrop]

theorem literal_append_newline {quote : Char} (hquote : quote ≠ '\n') (text : List Char) :
    literal quote (text ++ '\n' :: more) =
      { literal quote text with rest := (literal quote text).rest ++ '\n' :: more } := by
  obtain ⟨htake, hdrop⟩ := run_append (p := fun c => c != quote && c != '\n') text ('\n' :: more)
    (.inr (by simp))
  rw [literal, literal, htake, hdrop]
  cases text.dropWhile (fun c => c != quote && c != '\n') with
  | nil => simp [hquote.symm]
  | cons c rest =>
    dsimp only [List.cons_append]
    split <;> rfl

theorem read_append_newline {c : Char} (hc : isWhiteSpace c = false) (rest : List Char) :
    read c (rest ++ '\n' :: more) =
      { read c rest with rest := (read c rest).rest ++ '\n' :: more } := by
  have hbreak : c ≠ '\n' := by
    rintro rfl
    rw [isWhiteSpace_newline] at hc
    cases hc
  have hfirst : ∀ d ∈ ('\n' :: more).head?, isWhiteSpace d = true := by
    rintro _ ⟨⟩
    exact isWhiteSpace_newline
  unfold read
  rw [opensComment_append hfirst]
  split
  · exact comment_append_newline (c :: rest)
  split
  · exact number_append hfirst (c :: rest)
  split
  · exact word_append hfirst (c :: rest)
  split
  · exact literal_append_newline hbreak rest
  · exact symbol_append hfirst c rest

end Head

/-! ## The same tokens on other lines -/

/-- The same fault, met so many lines further down. -/
def Fault.later (n : Nat) : Fault → Fault
  | .mismatch line expected found => .mismatch (line + n) expected found
  | .duplicate line name => .duplicate (line + n) name
  | .undeclaredTarget line access name => .undeclaredTarget (line + n) access name
  | .malformedNumber line lexeme => .malformedNumber (line + n) lexeme
  | .assignToConstant line name => .assignToConstant (line + n) name
  | .missingMain => .missingMain
  | .deletedSymbol id => .deletedSymbol id

/-- The same token, so many lines further down. -/
def Token.later (n : Nat) (t : Token) : Token := { t with line := t.line + n }

def Ending.later (n : Nat) : Ending → Ending
  | .eof line => .eof (line + n)
  | .broken fault => .broken (fault.later n)

def Scan.later (n : Nat) (s : Scan) : Scan :=
  ⟨s.items.map fun item => { item with token := item.token.later n }, s.ending.later n⟩

theorem Scan.tokens_later (n : Nat) (s : Scan) :
    (s.later n).tokens = (s.tokens.map (List.map (Token.later n))).mapError (Fault.later n) := by
  obtain ⟨items, ending⟩ := s
  cases ending with
  | eof line => simp [Scan.later, Ending.later, Scan.tokens, Except.map, Except.mapError,
      Scanner.eofToken, Token.later]
  | broken fault => rfl

theorem Scanner.scan_later (text : List Char) (line n : Nat) :
    (⟨text, line + n⟩ : Scanner).scan = (⟨text, line⟩ : Scanner).scan.later n := by
  induction text, line using text_induction with
  | white text line hwhite =>
    rw [scan_of_white hwhite, scan_of_white hwhite, Nat.add_right_comm]
    rfl
  | malformed blank c rest line hblank hc hkind =>
    rw [scan_of_malformed hblank hc hkind, scan_of_malformed hblank hc hkind, Nat.add_right_comm]
    rfl
  | token blank c rest line kind hblank hc hkind ih =>
    rw [scan_of_token hblank hc hkind, scan_of_token hblank hc hkind, Nat.add_right_comm]
    dsimp only
    rw [ih]
    rfl

/-! ## A line break behind a text -/

/-- A text ends on the line that its line breaks lead to. -/
theorem Woven.last_eq {line last : Nat} {text : List Char} {items : List Scanned}
    (h : Woven line text items last) : last = line + text.count '\n' := by
  induction h with
  | blank => rfl
  | @item line last blank piece rest item items white cut onLine later ih =>
    have hpiece : piece.count '\n' = 0 := List.count_eq_zero.mpr cut.unbroken
    rw [ih, onLine, List.count_append, List.count_append, hpiece]
    omega

namespace Scan

/-- One scan and then another from the next line on, if the first comes to the end of its text. -/
def followedBy (first : Scan) (second : Nat → Scan) : Scan :=
  match first.ending with
  | .eof last => ⟨first.items ++ (second (last + 1)).items, (second (last + 1)).ending⟩
  | .broken _ => first

theorem followedBy_cons (item : Scanned) (first : Scan) (second : Nat → Scan) :
    (⟨item :: first.items, first.ending⟩ : Scan).followedBy second =
      ⟨item :: (first.followedBy second).items, (first.followedBy second).ending⟩ := by
  obtain ⟨items, ending⟩ := first
  cases ending <;> rfl

end Scan

/-- Only what is behind the white space counts. -/
theorem Scanner.scan_of_skip {s s' : Scanner} (h : skip s.rest s.line = skip s'.rest s'.line) :
    s.scan = s'.scan := by
  have hnext : s.next = s'.next := by
    unfold next
    rw [h]
  unfold scan
  rw [hnext]

/-- A text behind a line break is scanned as if it stood alone, from the line it starts on. -/
theorem Scanner.scan_append_newline (text more : List Char) (line : Nat) :
    (⟨text ++ '\n' :: more, line⟩ : Scanner).scan =
      (⟨text, line⟩ : Scanner).scan.followedBy fun start => (⟨more, start⟩ : Scanner).scan := by
  induction text, line using text_induction with
  | white text line hwhite =>
    rw [scan_of_white hwhite]
    refine scan_of_skip ?_
    rw [skip_append_white hwhite, skip, if_pos (beq_self_eq_true _)]
  | malformed blank c rest line hblank hc hkind =>
    have hread := @Head.read_append_newline more c hc rest
    have hkind' : (Head.read c (rest ++ '\n' :: more)).kind = none := by rw [hread, hkind]
    rw [List.append_assoc, List.cons_append, scan_of_malformed hblank hc hkind,
      scan_of_malformed hblank hc hkind', hread]
    rfl
  | token blank c rest line kind hblank hc hkind ih =>
    have hread := @Head.read_append_newline more c hc rest
    have hkind' : (Head.read c (rest ++ '\n' :: more)).kind = some kind := by rw [hread, hkind]
    rw [List.append_assoc, List.cons_append, scan_of_token hblank hc hkind,
      scan_of_token hblank hc hkind', hread]
    dsimp only
    rw [ih, Scan.followedBy_cons]

/-! ## The tokens of two texts -/

namespace Scan

theorem tokens_followedBy_eof {first : Scan} {last : Nat} (h : first.ending = .eof last)
    (second : Nat → Scan) :
    (first.followedBy second).tokens =
      (second (last + 1)).tokens.map (first.items.map Scanned.token ++ ·) := by
  unfold followedBy tokens
  rw [h]
  dsimp only
  split <;> simp [Except.map]

theorem followedBy_broken {first : Scan} {fault : Fault} (h : first.ending = .broken fault)
    (second : Nat → Scan) : first.followedBy second = first := by
  unfold followedBy
  rw [h]

end Scan

/-- Two texts that can be cut into tokens have, with a line break between them, the tokens of the
first without the mark of its end and then those of the second, as many lines further down as the
first text and the line break take. A fault of the second text moves down in the same way, and a
fault of the first is the fault of both, whatever the second is. -/
theorem tokenize_append_newline (a b : String) :
    (∀ as bs, tokenize a = .ok as → tokenize b = .ok bs → ∃ ts,
      as = ts ++ [Scanner.eofToken (1 + a.toList.count '\n')] ∧ (∀ t ∈ ts, t.kind ≠ .eof) ∧
      tokenize (a ++ "\n" ++ b) = .ok (ts ++ bs.map (Token.later (1 + a.toList.count '\n')))) ∧
    (∀ as fault, tokenize a = .ok as → tokenize b = .error fault →
      tokenize (a ++ "\n" ++ b) = .error (fault.later (1 + a.toList.count '\n'))) ∧
    ∀ fault, tokenize a = .error fault → tokenize (a ++ "\n" ++ b) = .error fault := by
  have hscan : (Scanner.ofString (a ++ "\n" ++ b)).scan =
      (Scanner.ofString a).scan.followedBy fun start => (⟨b.toList, start⟩ : Scanner).scan := by
    unfold Scanner.ofString
    rw [String.toList_append, String.toList_append, List.append_assoc]
    exact Scanner.scan_append_newline _ _ _
  have hitems := (Scanner.ofString a).mem_scan
  unfold tokenize
  rw [hscan]
  cases hending : (Scanner.ofString a).scan.ending with
  | eof last =>
    have hlast : last = 1 + a.toList.count '\n' := (Scanner.woven_scan _ hending).last_eq
    have hfirst : (Scanner.ofString a).scan.tokens = .ok
        ((Scanner.ofString a).scan.items.map Scanned.token ++ [Scanner.eofToken last]) := by
      rw [Scan.tokens, hending]
    rw [Scan.tokens_followedBy_eof hending, Nat.add_comm last, Scanner.scan_later,
      Scan.tokens_later, ← hlast, hfirst]
    refine ⟨?_, ?_, nofun⟩
    · rintro as bs ⟨⟩ hb
      refine ⟨_, rfl, ?_, by rw [Scanner.ofString] at hb; rw [hb]; rfl⟩
      rintro t ht
      obtain ⟨item, hitem, rfl⟩ := List.mem_map.mp ht
      exact (hitems item hitem).2
    · rintro as fault - hb
      rw [Scanner.ofString] at hb
      rw [hb]
      rfl
  | broken fault =>
    have hfirst : (Scanner.ofString a).scan.tokens = .error fault := by rw [Scan.tokens, hending]
    rw [Scan.followedBy_broken hending, hfirst]
    exact ⟨nofun, nofun, fun _ h => h⟩

/-- A literal that lacks its quote ends with its line, and so does a comment. -/
theorem tokenize_append_newline_unterminated :
    tokenize ("x = 'a\n// b" ++ "\n" ++ "'; y") = .ok [⟨.identifier, "x", 1⟩, ⟨.assignOp, "=", 1⟩,
      ⟨.literal "a", "'a'", 1⟩, ⟨.comment, "// b", 2⟩, ⟨.literal "; y", "'; y'", 3⟩,
      ⟨.eof, "", 3⟩] ∧
    tokenize ("x = 'a\n// b" ++ "\n" ++ "1.2.3") = .error (.malformedNumber 3 "1.2.3") ∧
    tokenize ("1.2.3" ++ "\n" ++ "'; y") = .error (.malformedNumber 1 "1.2.3") := by
  have hfirst : tokenize "x = 'a\n// b" = .ok ([⟨.identifier, "x", 1⟩, ⟨.assignOp, "=", 1⟩,
      ⟨.literal "a", "'a'", 1⟩, ⟨.comment, "// b", 2⟩] ++ [⟨.eof, "", 2⟩]) := by decide +kernel
  have hsecond : tokenize "'; y" = .ok [⟨.literal "; y", "'; y'", 1⟩, ⟨.eof, "", 1⟩] := by
    decide +kernel
  have hfault : tokenize "1.2.3" = .error (.malformedNumber 1 "1.2.3") := by decide +kernel
  have hcount : 1 + "x = 'a\n// b".toList.count '\n' = 2 := by decide +kernel
  obtain ⟨ts, hts, -, hboth⟩ := (tokenize_append_newline _ _).1 _ _ hfirst hsecond
  have hbroken := (tokenize_append_newline _ _).2.1 _ _ hfirst hfault
  rw [hcount] at hboth hbroken
  rw [← List.append_inj_left' hts rfl] at hboth
  exact ⟨hboth, hbroken, (tokenize_append_newline _ _).2.2 _ hfault⟩

end Triad
