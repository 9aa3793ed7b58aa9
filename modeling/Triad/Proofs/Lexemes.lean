import Triad.Proofs.TokenStream

/-!
What the scanner takes from a text. Each call takes white space and then the piece that the token
stands for, and nothing else, also where the piece is a malformed number. Main statement:
`scanning_loses_nothing`, that calls in a row go through the whole text and count its lines, and that
the tokens of a text, with white space between them, spell the text.
-/

namespace Triad

open Triad.Text

/-- The part of the text that the token stands for. A quote that is missing from the text is missing
from the part too. -/
def Head.piece (h : Head) : List Char :=
  if h.missingQuote.isSome then h.lexeme.dropLast else h.lexeme

/-- The token is cut from the piece of a text that `rest` follows. A literal may lack its closing
quote where the line ends. -/
structure Scanned.CutFrom (item : Scanned) (piece rest : List Char) : Prop where
  first : ∃ c more, piece = c :: more ∧ isWhiteSpace c = false
  unbroken : '\n' ∉ piece
  spelled : item.missingQuote = none ∧ item.token.lexeme.toList = piece ∨
    ∃ quote body, item.missingQuote = some quote ∧ item.token.kind = .literal body ∧
      item.token.lexeme.toList = piece ++ [quote] ∧ ∀ c ∈ rest.head?, c = '\n'

theorem isWhiteSpace_newline : isWhiteSpace '\n' = true := by decide

/-! ## One token -/

namespace Head

/-- What there is to say of a head: the text is its piece and what follows, and the piece has no
line break and starts with the character that the head was read from. -/
structure Cuts (h : Head) (c : Char) (text : List Char) : Prop where
  split : h.piece ++ h.rest = text
  first : ∃ more, h.piece = c :: more
  unbroken : '\n' ∉ h.piece
  missing : ∀ quote ∈ h.missingQuote, (∃ body, h.kind = some (.literal body)) ∧
    h.lexeme = h.piece ++ [quote] ∧ ∀ d ∈ h.rest.head?, d = '\n'

/-- A head that takes the longest run of a class of characters, one without line breaks. -/
theorem cuts_run {p : Char → Bool} (hbreak : p '\n' = false) {kind : Option Kind} {c : Char}
    {rest : List Char} (hc : p c = true) :
    Cuts ⟨kind, (c :: rest).takeWhile p, none, (c :: rest).dropWhile p⟩ c (c :: rest) where
  split := List.takeWhile_append_dropWhile
  first := ⟨rest.takeWhile p, List.takeWhile_cons_of_pos hc⟩
  unbroken := by
    intro hmem
    rw [List.mem_takeWhile_imp hmem] at hbreak
    cases hbreak
  missing := nofun

theorem cuts_comment (rest : List Char) : Cuts (comment ('/' :: rest)) '/' ('/' :: rest) :=
  cuts_run rfl rfl

theorem cuts_number {c : Char} (hc : isDigit c = true) (rest : List Char) :
    Cuts (number (c :: rest)) c (c :: rest) :=
  cuts_run (by decide) (by simp [inNumber, hc])

theorem cuts_word {c : Char} (hc : opensWord c = true) (rest : List Char) :
    Cuts (word (c :: rest)) c (c :: rest) := by
  refine cuts_run (by decide +kernel) ?_
  simp only [opensWord, Bool.or_eq_true, beq_iff_eq] at hc
  rcases hc with hc | hc <;> simp [continuesWord, hc]

/-- A literal ends at its quote, or without it at the end of the line or of the text. -/
theorem literal_cases (quote : Char) (text : List Char) :
    ∃ body rest, (∀ c ∈ body, c ≠ quote ∧ c ≠ '\n') ∧
      (text = body ++ quote :: rest ∧ literal quote text =
          ⟨some (.literal (String.ofList body)), quote :: body ++ [quote], none, rest⟩ ∨
        text = body ++ rest ∧ (∀ c ∈ rest.head?, c ≠ quote ∧ c = '\n') ∧ literal quote text =
          ⟨some (.literal (String.ofList body)), quote :: body ++ [quote], some quote, rest⟩) := by
  have hsplit := List.takeWhile_append_dropWhile (p := fun c => c != quote && c != '\n') (l := text)
  have hbody : ∀ c ∈ text.takeWhile (fun c => c != quote && c != '\n'), c ≠ quote ∧ c ≠ '\n' := by
    intro c hc
    simpa using List.mem_takeWhile_imp hc
  have hstop := List.head?_dropWhile_not (fun c => c != quote && c != '\n') text
  unfold literal
  dsimp only
  generalize text.takeWhile (fun c => c != quote && c != '\n') = body at hsplit hbody ⊢
  generalize text.dropWhile (fun c => c != quote && c != '\n') = behind at hsplit hstop ⊢
  subst hsplit
  cases behind with
  | nil => exact ⟨body, [], hbody, .inr ⟨rfl, nofun, rfl⟩⟩
  | cons c rest =>
    by_cases hc : c = quote
    · subst hc
      exact ⟨body, rest, hbody, .inl ⟨rfl, if_pos (beq_self_eq_true c)⟩⟩
    · refine ⟨body, c :: rest, hbody, .inr ⟨rfl, ?_, if_neg (by simpa using hc)⟩⟩
      rintro _ ⟨⟩
      exact ⟨hc, by simpa [hc] using hstop⟩

theorem cuts_literal {quote : Char} (hquote : quote ≠ '\n') (text : List Char) :
    Cuts (literal quote text) quote (quote :: text) := by
  obtain ⟨body, rest, hbody, hcases⟩ := literal_cases quote text
  have hunclosed : '\n' ∉ quote :: body := by
    intro hmem
    rcases List.mem_cons.mp hmem with hmem | hmem
    · exact hquote hmem.symm
    · exact (hbody _ hmem).2 rfl
  rcases hcases with ⟨htext, hhead⟩ | ⟨htext, hend, hhead⟩
  · rw [hhead, htext]
    refine ⟨by simp [piece], ⟨body ++ [quote], rfl⟩, ?_, nofun⟩
    intro hmem
    rcases List.mem_append.mp hmem with hmem | hmem
    · exact hunclosed hmem
    · exact hquote (List.mem_singleton.mp hmem).symm
  · have hpiece : Head.piece ⟨some (.literal (String.ofList body)), quote :: body ++ [quote],
        some quote, rest⟩ = quote :: body := List.dropLast_concat
    rw [hhead, htext]
    refine ⟨by rw [hpiece]; rfl, ⟨body, hpiece⟩, by rw [hpiece]; exact hunclosed, ?_⟩
    rintro _ ⟨⟩
    exact ⟨⟨_, rfl⟩, by rw [hpiece], fun d hd => (hend d hd).2⟩

theorem second_of_pair {c d : Char} {kind : Kind} (h : Kind.ofPair c d = some kind) :
    d ∈ ['=', '&', '|'] := by
  unfold Kind.ofPair at h
  split at h <;> first | decide | cases h

theorem cuts_symbol {c : Char} (hc : c ≠ '\n') (rest : List Char) :
    Cuts (symbol c rest) c (c :: rest) := by
  have hnone {p : Char → Prop} : ∀ quote ∈ (none : Option Char), p quote :=
    fun quote hquote => absurd hquote (Option.not_mem_none quote)
  cases rest with
  | nil => exact ⟨rfl, ⟨[], rfl⟩, by simpa [symbol, piece] using hc.symm, hnone⟩
  | cons d rest =>
    simp only [symbol]
    split
    · rename_i kind hpair
      have hd : d ≠ '\n' := by
        rintro rfl
        exact absurd (second_of_pair hpair) (by decide)
      refine ⟨rfl, ⟨[d], rfl⟩, ?_, hnone⟩
      simpa [piece] using ⟨hc.symm, hd.symm⟩
    · exact ⟨rfl, ⟨[], rfl⟩, by simpa [piece] using hc.symm, hnone⟩

theorem cuts_read {c : Char} (hc : isWhiteSpace c = false) (rest : List Char) :
    Cuts (read c rest) c (c :: rest) := by
  have hbreak : c ≠ '\n' := by
    rintro rfl
    rw [isWhiteSpace_newline] at hc
    cases hc
  unfold read
  split
  · rename_i hcomment
    simp only [Bool.and_eq_true, beq_iff_eq] at hcomment
    rw [hcomment.1]
    exact cuts_comment rest
  split
  · exact cuts_number ‹_› rest
  split
  · exact cuts_word ‹_› rest
  split
  · exact cuts_literal hbreak rest
  · exact cuts_symbol hbreak rest

theorem Cuts.cutFrom {h : Head} {c : Char} {text : List Char} (hcuts : h.Cuts c text)
    (hc : isWhiteSpace c = false) {kind : Kind} (hkind : h.kind = some kind) (line : Nat) :
    Scanned.CutFrom ⟨⟨kind, String.ofList h.lexeme, line⟩, h.missingQuote⟩ h.piece h.rest where
  first := by
    obtain ⟨more, hmore⟩ := hcuts.first
    exact ⟨c, more, hmore, hc⟩
  unbroken := hcuts.unbroken
  spelled := by
    cases hmissing : h.missingQuote with
    | none => exact .inl ⟨rfl, by simp [piece, hmissing]⟩
    | some quote =>
      obtain ⟨⟨body, hbody⟩, hlexeme, hend⟩ := hcuts.missing quote hmissing
      cases hkind.symm.trans hbody
      exact .inr ⟨quote, body, rfl, rfl, by simpa using hlexeme, hend⟩

end Head

/-! ## One call -/

namespace Scanner

theorem skip_eq (text : List Char) (line : Nat) :
    skip text line =
      ⟨text.dropWhile isWhiteSpace, line + (text.takeWhile isWhiteSpace).count '\n'⟩ := by
  induction text generalizing line with
  | nil => rfl
  | cons c rest ih =>
    rw [skip]
    by_cases hbreak : c = '\n'
    · subst hbreak
      rw [if_pos (beq_self_eq_true _), ih, List.dropWhile_cons_of_pos isWhiteSpace_newline,
        List.takeWhile_cons_of_pos isWhiteSpace_newline, List.count_cons_self, Nat.add_assoc,
        Nat.add_comm 1]
    · rw [if_neg (by simpa using hbreak)]
      cases hc : isWhiteSpace c with
      | true =>
        rw [if_pos rfl, ih, List.dropWhile_cons_of_pos hc, List.takeWhile_cons_of_pos hc,
          List.count_cons_of_ne hbreak]
      | false =>
        rw [if_neg Bool.false_ne_true, List.dropWhile_cons_of_neg (by simp [hc]),
          List.takeWhile_cons_of_neg (by simp [hc])]
        rfl

/-- What a call tells of a piece that stands on a line: at the end of the text there is none, and a
piece that is a malformed number is told of as a fault. -/
inductive Told (line : Nat) (piece rest : List Char) : Except Fault Scanned → Prop
  | ending (empty : piece = []) (done : rest = []) : Told line piece rest (.ok ⟨eofToken line, none⟩)
  | token {item : Scanned} (onLine : item.token.line = line) (notEof : item.token.kind ≠ .eof)
      (cut : item.CutFrom piece rest) : Told line piece rest (.ok item)
  | malformed (first : ∃ c more, piece = c :: more ∧ isWhiteSpace c = false)
      (unbroken : '\n' ∉ piece) :
      Told line piece rest (.error (.malformedNumber line (String.ofList piece)))

/-- A call takes white space and a piece from the text, and counts the lines in them. -/
structure Takes (s : Scanner) (blank piece : List Char) : Prop where
  text : s.rest = blank ++ piece ++ s.next.2.rest
  white : ∀ c ∈ blank, isWhiteSpace c = true
  line : s.next.2.line = s.line + blank.count '\n'
  told : Told (s.line + blank.count '\n') piece s.next.2.rest s.next.1

end Scanner

namespace Head

theorem kind_symbol_ne_eof (c : Char) (rest : List Char) : (symbol c rest).kind ≠ some .eof := by
  have hsingle : ∀ d, Kind.ofSymbol d ≠ .eof := by
    intro d
    unfold Kind.ofSymbol
    split <;> nofun
  cases rest with
  | nil => simpa [symbol] using hsingle c
  | cons d rest =>
    simp only [symbol]
    split
    · rename_i kind hpair
      rintro ⟨⟩
      unfold Kind.ofPair at hpair
      split at hpair <;> cases hpair
    · simpa using hsingle c

/-- The end of a text is told of by no character. -/
theorem kind_read_ne_eof (c : Char) (rest : List Char) : (read c rest).kind ≠ some .eof := by
  unfold read
  split
  · nofun
  split
  · simp only [number, numberKind]
    split
    · split <;> nofun
    · simp
    · nofun
  split
  · simp only [word, ne_eq, Option.some.injEq]
    intro heof
    rcases ofWord_cases (String.ofList ((c :: rest).takeWhile continuesWord)) with hword | hword
    · rw [heof] at hword
      cases hword
    · rw [heof] at hword
      exact absurd hword (by decide)
  split
  · obtain ⟨body, hbody⟩ := kind_literal c rest
    rw [hbody]
    nofun
  · exact kind_symbol_ne_eof c rest

end Head

namespace Scanner

variable {s : Scanner} {line : Nat} {c : Char} {rest : List Char}

theorem next_of_end (h : skip s.rest s.line = ⟨[], line⟩) :
    s.next = (.ok ⟨eofToken line, none⟩, ⟨[], line⟩) := by
  unfold next
  rw [h]

theorem next_of_kind (h : skip s.rest s.line = ⟨c :: rest, line⟩) {kind : Kind}
    (hkind : (Head.read c rest).kind = some kind) :
    s.next = (.ok ⟨⟨kind, String.ofList (Head.read c rest).lexeme, line⟩,
      (Head.read c rest).missingQuote⟩, ⟨(Head.read c rest).rest, line⟩) := by
  unfold next
  rw [h]
  dsimp only
  rw [hkind]

theorem next_of_malformed (h : skip s.rest s.line = ⟨c :: rest, line⟩)
    (hkind : (Head.read c rest).kind = none) :
    s.next = (.error (.malformedNumber line (String.ofList (Head.read c rest).lexeme)),
      ⟨(Head.read c rest).rest, line⟩) := by
  unfold next
  rw [h]
  dsimp only
  rw [hkind]

theorem exists_takes (s : Scanner) : ∃ blank piece, s.Takes blank piece := by
  refine ⟨s.rest.takeWhile isWhiteSpace, ?_⟩
  have hsplit := List.takeWhile_append_dropWhile (p := isWhiteSpace) (l := s.rest)
  have hwhite : ∀ c ∈ s.rest.takeWhile isWhiteSpace, isWhiteSpace c = true :=
    fun _ => List.mem_takeWhile_imp
  have hstop := List.head?_dropWhile_not isWhiteSpace s.rest
  have hskip := skip_eq s.rest s.line
  generalize s.rest.takeWhile isWhiteSpace = blank at hsplit hwhite hskip ⊢
  generalize s.rest.dropWhile isWhiteSpace = behind at hsplit hstop hskip
  cases behind with
  | nil =>
    have hnext := next_of_end hskip
    refine ⟨[], ?_, hwhite, by rw [hnext], by rw [hnext]; exact .ending rfl rfl⟩
    rw [hnext, ← hsplit]
    simp
  | cons c rest =>
    have hc : isWhiteSpace c = false := by simpa using hstop
    have hcuts := Head.cuts_read hc rest
    refine ⟨(Head.read c rest).piece, ?_⟩
    cases hkind : (Head.read c rest).kind with
    | some kind =>
      have hnext := next_of_kind hskip hkind
      refine ⟨?_, hwhite, by rw [hnext], ?_⟩
      · rw [hnext, List.append_assoc, hcuts.split, hsplit]
      · rw [hnext]
        refine .token rfl ?_ (hcuts.cutFrom hc hkind _)
        rintro rfl
        exact Head.kind_read_ne_eof c rest hkind
    | none =>
      have hnext := next_of_malformed hskip hkind
      have hpiece : (Head.read c rest).piece = (Head.read c rest).lexeme := by
        cases hmissing : (Head.read c rest).missingQuote with
        | none => simp [Head.piece, hmissing]
        | some quote =>
          obtain ⟨⟨body, hbody⟩, -⟩ := hcuts.missing quote hmissing
          cases hkind.symm.trans hbody
      refine ⟨?_, hwhite, by rw [hnext], ?_⟩
      · rw [hnext, List.append_assoc, hcuts.split, hsplit]
      · obtain ⟨more, hmore⟩ := hcuts.first
        rw [hnext, ← hpiece]
        exact .malformed ⟨c, more, hmore, hc⟩ hcuts.unbroken

/-! ## Calls in a row -/

/-- The scanner after so many calls, whatever they have told. -/
def after (source : String) : Nat → Scanner
  | 0 => ofString source
  | n + 1 => (after source n).next.2

/-- The number of characters behind the scanner. -/
def index (source : String) (s : Scanner) : Nat := source.length - s.rest.length

/-- The scanner stands behind the consumed part of the text and has counted its lines. -/
structure Past (source : String) (consumed : List Char) (s : Scanner) : Prop where
  text : source.toList = consumed ++ s.rest
  line : s.line = 1 + consumed.count '\n'

theorem Told.unbroken {piece : List Char} {result : Except Fault Scanned}
    (h : Told line piece rest result) : '\n' ∉ piece := by
  cases h with
  | ending empty => rw [empty]; exact List.not_mem_nil
  | token _ _ cut => exact cut.unbroken
  | malformed _ unbroken => exact unbroken

theorem Takes.past {source : String} {consumed blank piece : List Char}
    (htakes : s.Takes blank piece) (h : Past source consumed s) :
    Past source (consumed ++ blank ++ piece) s.next.2 where
  text := by
    rw [h.text, htakes.text]
    simp
  line := by
    have hpiece : piece.count '\n' = 0 := List.count_eq_zero.mpr htakes.told.unbroken
    rw [htakes.line, h.line, List.count_append, List.count_append, hpiece]
    omega

theorem Past.index_eq {source : String} {consumed : List Char} (h : Past source consumed s) :
    s.index source = consumed.length := by
  have hlength := congrArg List.length h.text
  rw [List.length_append, String.length_toList] at hlength
  unfold index
  omega

theorem exists_past (source : String) (n : Nat) :
    ∃ consumed, Past source consumed (after source n) := by
  induction n with
  | zero => exact ⟨[], rfl, rfl⟩
  | succ n ih =>
    obtain ⟨consumed, h⟩ := ih
    obtain ⟨blank, piece, htakes⟩ := exists_takes (after source n)
    exact ⟨_, htakes.past h⟩

end Scanner

/-! ## All tokens of a text -/

/-- The text, whose first line has the given number, is made of the tokens in order, with white space
before, between and behind them, and ends on line `last`. -/
inductive Woven : Nat → List Char → List Scanned → Nat → Prop
  | blank {line : Nat} {text : List Char} (white : ∀ c ∈ text, isWhiteSpace c = true) :
      Woven line text [] (line + text.count '\n')
  | item {line last : Nat} {blank piece rest : List Char} {item : Scanned} {items : List Scanned}
      (white : ∀ c ∈ blank, isWhiteSpace c = true) (cut : item.CutFrom piece rest)
      (onLine : item.token.line = line + blank.count '\n')
      (later : Woven item.token.line rest items last) :
      Woven line (blank ++ piece ++ rest) (item :: items) last

theorem Scanner.woven_scan (s : Scanner) {last : Nat} (h : s.scan.ending = .eof last) :
    Woven s.line s.rest s.scan.items last := by
  fun_induction scan s with
  | case1 => cases h
  | case2 s item s' hnext hkind =>
    obtain ⟨blank, piece, htakes⟩ := exists_takes s
    have htold := htakes.told
    have htext := htakes.text
    rw [hnext] at htold htext
    cases htold with
    | ending empty done =>
      rw [empty, done, List.append_nil, List.append_nil] at htext
      cases h
      rw [htext]
      exact .blank htakes.white
    | token _ notEof => exact absurd hkind notEof
  | case3 s item s' hnext hkind later ih =>
    obtain ⟨blank, piece, htakes⟩ := exists_takes s
    have htold := htakes.told
    have htext := htakes.text
    have hline := htakes.line
    rw [hnext] at htold htext hline
    cases htold with
    | ending => exact absurd rfl hkind
    | token onLine _ cut =>
      rw [htext]
      refine .item htakes.white cut onLine ?_
      rw [onLine, ← hline]
      exact ih h

/-- No token is empty. -/
theorem Woven.lexeme_ne_nil {line last : Nat} {text : List Char} {items : List Scanned}
    (h : Woven line text items last) : ∀ item ∈ items, item.token.lexeme.toList ≠ [] := by
  induction h with
  | blank => exact fun item hitem => absurd hitem List.not_mem_nil
  | item _ cut _ _ ih =>
    refine List.forall_mem_cons.mpr ⟨?_, ih⟩
    obtain ⟨c, more, rfl, -⟩ := cut.first
    rcases cut.spelled with ⟨-, hlexeme⟩ | ⟨quote, body, -, -, hlexeme, -⟩ <;> simp [hlexeme]

/-- Whatever the calls before it told, a call takes white space and a piece from the text, the piece
only if the text goes on, and it counts lines and names the line of the piece by the line breaks
before. The tokens of a text that has no malformed number, with white space between them, are the
text. -/
theorem scanning_loses_nothing (source : String) :
    (∀ n, ∃ consumed blank piece,
      source.toList = consumed ++ blank ++ piece ++ (Scanner.after source (n + 1)).rest ∧
      (∀ c ∈ blank, isWhiteSpace c = true) ∧
      (Scanner.after source n).index source = consumed.length ∧
      (Scanner.after source (n + 1)).index source = (consumed ++ blank ++ piece).length ∧
      (Scanner.after source (n + 1)).index source ≤ source.length ∧
      (Scanner.after source n).line = 1 + consumed.count '\n' ∧
      Scanner.Told (1 + (consumed ++ blank).count '\n') piece (Scanner.after source (n + 1)).rest
        (Scanner.after source n).next.1) ∧
    ∀ tokens, tokenize source = .ok tokens → ∃ items last,
      tokens = items.map Scanned.token ++ [Scanner.eofToken last] ∧
      Woven 1 source.toList items last := by
  refine ⟨fun n => ?_, fun tokens htokens => ?_⟩
  · obtain ⟨consumed, hpast⟩ := Scanner.exists_past source n
    obtain ⟨blank, piece, htakes⟩ := Scanner.exists_takes (Scanner.after source n)
    have hnext := htakes.past hpast
    have htold := htakes.told
    rw [hpast.line, Nat.add_assoc, ← List.count_append] at htold
    exact ⟨consumed, blank, piece, hnext.text, htakes.white, hpast.index_eq, hnext.index_eq,
      Nat.sub_le _ _, hpast.line, htold⟩
  · unfold tokenize Scan.tokens at htokens
    split at htokens
    · rename_i last hending
      cases htokens
      exact ⟨_, last, rfl, Scanner.woven_scan _ hending⟩
    · cases htokens

/-- A literal without its quote and a comment, both at the end of a line. -/
theorem scanning_loses_nothing_unterminated :
    ∃ tokens, tokenize " x\n= 'a b\n 2.5 // 'c \n\n" = .ok tokens ∧ ∃ items last,
      tokens = items.map Scanned.token ++ [Scanner.eofToken last] ∧
      Woven 1 " x\n= 'a b\n 2.5 // 'c \n\n".toList items last :=
  have htokens : tokenize " x\n= 'a b\n 2.5 // 'c \n\n" = .ok
      [⟨.identifier, "x", 1⟩, ⟨.assignOp, "=", 2⟩, ⟨.literal "a b", "'a b'", 2⟩,
        ⟨.decimal (.ofRatio false 5 2), "2.5", 3⟩, ⟨.comment, "// 'c ", 3⟩, ⟨.eof, "", 5⟩] := by
    decide +kernel
  ⟨_, htokens, (scanning_loses_nothing _).2 _ htokens⟩

end Triad
