import Triad.Proofs.LineBreaks

/-!
Tokens written out, each on a line of its own. Whatever the scanner took for a token it takes for
the same token where nothing else is around: a symbol of one character has no second one to go on
with, a slash no other slash behind it, and a literal that lacked its quote has got it. Main
statements: `Head.read_lexeme` for one token, and `tokenize_printed` for all tokens of a text.
-/

namespace Triad

open Triad.Text

/-! ## One lexeme -/

namespace Head

/-- A run that was taken from a text is taken whole. -/
theorem run_takeWhile (p : Char → Bool) (text : List Char) :
    (text.takeWhile p).takeWhile p = text.takeWhile p ∧ (text.takeWhile p).dropWhile p = [] := by
  have hall : ∀ c ∈ text.takeWhile p, p c = true := fun _ => List.mem_takeWhile_imp
  exact ⟨List.takeWhile_eq_self_iff.mpr hall, List.dropWhile_eq_nil_iff.mpr hall⟩

theorem comment_lexeme (text : List Char) :
    comment (comment text).lexeme = { comment text with rest := [] } := by
  obtain ⟨htake, hdrop⟩ := run_takeWhile (· != '\n') text
  simp only [comment, htake, hdrop]

theorem number_lexeme (text : List Char) :
    number (number text).lexeme = { number text with rest := [] } := by
  obtain ⟨htake, hdrop⟩ := run_takeWhile inNumber text
  simp only [number, htake, hdrop]

theorem word_lexeme (text : List Char) :
    word (word text).lexeme = { word text with rest := [] } := by
  obtain ⟨htake, hdrop⟩ := run_takeWhile continuesWord text
  simp only [word, htake, hdrop]

/-- A literal with both quotes is read up to the second one. -/
theorem literal_closed {quote : Char} {body : List Char}
    (hbody : ∀ c ∈ body, c ≠ quote ∧ c ≠ '\n') :
    literal quote (body ++ [quote]) =
      ⟨some (.literal (String.ofList body)), quote :: body ++ [quote], none, []⟩ := by
  have hall : ∀ c ∈ body, (c != quote && c != '\n') = true := by
    intro c hc
    simpa using hbody c hc
  simp only [literal, List.takeWhile_append_of_pos hall, List.dropWhile_append_of_pos hall]
  simp

theorem literal_lexeme (quote : Char) (text : List Char) :
    ∃ more, (literal quote text).lexeme = quote :: more ∧
      literal quote more = { literal quote text with missingQuote := none, rest := [] } := by
  obtain ⟨body, rest, hbody, ⟨-, hhead⟩ | ⟨-, -, hhead⟩⟩ := literal_cases quote text
  · exact ⟨body ++ [quote], by rw [hhead]; rfl, by rw [hhead, literal_closed hbody]⟩
  · exact ⟨body ++ [quote], by rw [hhead]; rfl, by rw [hhead, literal_closed hbody]⟩

/-- What goes on behind a symbol is no second slash. -/
theorem symbol_lexeme (c : Char) (rest : List Char) :
    ∃ more, (symbol c rest).lexeme = c :: more ∧ more.head? ≠ some '/' ∧
      symbol c more = { symbol c rest with missingQuote := none, rest := [] } := by
  cases rest with
  | nil => exact ⟨[], rfl, by simp, rfl⟩
  | cons d rest =>
    cases hpair : Kind.ofPair c d with
    | none => exact ⟨[], by simp [symbol, hpair], by simp, by simp [symbol, hpair]⟩
    | some kind =>
      have hd : d ≠ '/' := by
        rintro rfl
        exact absurd (second_of_pair hpair) (by decide)
      exact ⟨[d], by simp [symbol, hpair], by simpa using hd, by simp [symbol, hpair]⟩

/-- The lexeme of a token, read on its own, is the token again. -/
theorem read_lexeme (c : Char) (rest : List Char) :
    ∃ more, (read c rest).lexeme = c :: more ∧
      read c more = { read c rest with missingQuote := none, rest := [] } := by
  by_cases hcomment : (c == '/' && rest.head? == some '/') = true
  · have hboth : c = '/' ∧ rest.head? = some '/' := by simpa using hcomment
    obtain ⟨rfl, hhead⟩ := hboth
    obtain ⟨rest, rfl⟩ : ∃ more, rest = '/' :: more := by
      cases rest with
      | nil => cases hhead
      | cons d rest => exact ⟨rest, by rw [Option.some.inj hhead]⟩
    refine ⟨'/' :: rest.takeWhile (· != '\n'), ?_, ?_⟩
    · rw [read, if_pos hcomment]
      rfl
    · have hagain := comment_lexeme ('/' :: '/' :: rest)
      simp only [read, if_pos hcomment]
      exact hagain
  -- from here on the token is told by its first character
  have hread : ∀ {more : List Char}, c ≠ '/' ∨ more.head? ≠ some '/' → read c more =
      if isDigit c then number (c :: more) else if opensWord c then word (c :: more)
      else if c == '"' || c == '\'' then literal c more else symbol c more := by
    intro more hne
    rw [read, if_neg]
    simpa [imp_iff_not_or] using hne
  rw [hread (by simpa [imp_iff_not_or] using hcomment)]
  by_cases hdigit : isDigit c = true
  · have hslash : c ≠ '/' := by
      rintro rfl
      exact absurd hdigit (by decide)
    have hfirst : (number (c :: rest)).lexeme = c :: rest.takeWhile inNumber :=
      List.takeWhile_cons_of_pos (by simp [inNumber, hdigit])
    refine ⟨rest.takeWhile inNumber, by rw [if_pos hdigit, hfirst], ?_⟩
    rw [hread (.inl hslash), if_pos hdigit, if_pos hdigit, ← hfirst]
    exact number_lexeme (c :: rest)
  by_cases hword : opensWord c = true
  · have hslash : c ≠ '/' := by
      rintro rfl
      exact absurd hword (by decide +kernel)
    have hcontinues : continuesWord c = true := by
      simp only [opensWord, Bool.or_eq_true, beq_iff_eq] at hword
      rcases hword with hletter | hunderscore <;> simp [continuesWord, *]
    have hfirst : (word (c :: rest)).lexeme = c :: rest.takeWhile continuesWord :=
      List.takeWhile_cons_of_pos hcontinues
    refine ⟨rest.takeWhile continuesWord, by rw [if_neg hdigit, if_pos hword, hfirst], ?_⟩
    rw [hread (.inl hslash), if_neg hdigit, if_pos hword, if_neg hdigit, if_pos hword, ← hfirst]
    exact word_lexeme (c :: rest)
  by_cases hquote : (c == '"' || c == '\'') = true
  · have hslash : c ≠ '/' := by
      rintro rfl
      cases hquote
    obtain ⟨more, hlexeme, hagain⟩ := literal_lexeme c rest
    refine ⟨more, ?_, ?_⟩
    · rw [if_neg hdigit, if_neg hword, if_pos hquote, hlexeme]
    · rw [hread (.inl hslash)]
      simp only [if_neg hdigit, if_neg hword, if_pos hquote, hagain]
  · obtain ⟨more, hlexeme, hslash, hagain⟩ := symbol_lexeme c rest
    refine ⟨more, ?_, ?_⟩
    · rw [if_neg hdigit, if_neg hword, if_neg hquote, hlexeme]
    · rw [hread (.inr hslash)]
      simp only [if_neg hdigit, if_neg hword, if_neg hquote, hagain]

end Head

/-! ## Tokens on lines -/

/-- A token but for its line. Its kind carries the value of a number and the body of a literal. -/
def Token.content (t : Token) : Kind × String := (t.kind, t.lexeme)

/-- Every lexeme with a line break behind it. -/
def printed (tokens : List Token) : String :=
  String.join (tokens.map fun t => t.lexeme ++ "\n")

/-- The lexeme is read as the token where it stands alone. -/
def Token.StandsAlone (t : Token) : Prop :=
  ∃ c more, t.lexeme.toList = c :: more ∧ isWhiteSpace c = false ∧
    Head.read c more = ⟨some t.kind, c :: more, none, []⟩

/-- The tokens one below the other from a line on. -/
def relined (line : Nat) : List Token → List Token
  | [] => []
  | t :: tokens => { t with line := line } :: relined (line + 1) tokens

theorem content_relined (line : Nat) (tokens : List Token) :
    (relined line tokens).map Token.content = tokens.map Token.content := by
  induction tokens generalizing line with
  | nil => rfl
  | cons t tokens ih => exact congrArg (t.content :: ·) (ih (line + 1))

theorem line_relined (line : Nat) (tokens : List Token) :
    (relined line tokens).map Token.line = List.range' line tokens.length := by
  induction tokens generalizing line with
  | nil => rfl
  | cons t tokens ih => exact congrArg (line :: ·) (ih (line + 1))

theorem length_relined (line : Nat) (tokens : List Token) :
    (relined line tokens).length = tokens.length := by
  have hlines := congrArg List.length (line_relined line tokens)
  simpa using hlines

namespace Scanner

theorem standsAlone_next {s s' : Scanner} {item : Scanned} (h : s.next = (.ok item, s'))
    (hkind : item.token.kind ≠ .eof) : item.token.StandsAlone := by
  have hstop := List.head?_dropWhile_not isWhiteSpace s.rest
  have hskip := skip_eq s.rest s.line
  cases hbehind : s.rest.dropWhile isWhiteSpace with
  | nil =>
    rw [hbehind] at hskip
    rw [next_of_end hskip] at h
    cases h
    exact absurd rfl hkind
  | cons c rest =>
    rw [hbehind] at hskip hstop
    obtain ⟨more, hlexeme, hagain⟩ := Head.read_lexeme c rest
    cases hread : (Head.read c rest).kind with
    | none =>
      rw [next_of_malformed hskip hread] at h
      cases h
    | some kind =>
      rw [next_of_kind hskip hread] at h
      cases h
      refine ⟨c, more, by rw [String.toList_ofList, hlexeme], by simpa using hstop, ?_⟩
      simp only [hagain, hread, hlexeme]

theorem standsAlone_scan (s : Scanner) : ∀ item ∈ s.scan.items, item.token.StandsAlone := by
  fun_induction scan s with
  | case1 => simp
  | case2 => simp
  | case3 s item s' hnext hkind later ih =>
    exact List.forall_mem_cons.mpr ⟨standsAlone_next hnext hkind, ih⟩

/-- A token that stands alone is all that there is to scan. -/
theorem scan_lexeme {t : Token} (h : t.StandsAlone) (line : Nat) :
    (⟨t.lexeme.toList, line⟩ : Scanner).scan = ⟨[⟨{ t with line := line }, none⟩], .eof line⟩ := by
  obtain ⟨c, more, hlexeme, hc, hread⟩ := h
  have hnone : ∀ d ∈ ([] : List Char), isWhiteSpace d = true :=
    fun _ hd => absurd hd List.not_mem_nil
  have hscan := scan_of_token hnone hc (congrArg Head.kind hread) line
  have hend := scan_of_white hnone line
  have hspelled : String.ofList (c :: more) = t.lexeme := by rw [← hlexeme, String.ofList_toList]
  rw [List.nil_append] at hscan
  rw [hlexeme, hscan, hread]
  simp only [List.count_nil, Nat.add_zero] at hend ⊢
  rw [hend, hspelled]

/-- Tokens that stand alone come back from the lines that they are written on. -/
theorem scan_printed {tokens : List Token} (h : ∀ t ∈ tokens, t.StandsAlone) (line : Nat) :
    (⟨tokens.flatMap (fun t => t.lexeme.toList ++ ['\n']) ++ ['\n'], line⟩ : Scanner).scan =
      ⟨(relined line tokens).map fun t => ⟨t, none⟩, .eof (line + tokens.length + 1)⟩ := by
  induction tokens generalizing line with
  | nil => exact scan_of_white (by simpa using isWhiteSpace_newline) line
  | cons t tokens ih =>
    obtain ⟨ht, hlater⟩ := List.forall_mem_cons.mp h
    have htext : (t :: tokens).flatMap (fun t => t.lexeme.toList ++ ['\n']) ++ ['\n'] =
        t.lexeme.toList ++
          '\n' :: (tokens.flatMap (fun t => t.lexeme.toList ++ ['\n']) ++ ['\n']) := by
      simp
    have hlast : line + 1 + tokens.length + 1 = line + (t :: tokens).length + 1 := by
      rw [List.length_cons]
      omega
    rw [htext, scan_append_newline, scan_lexeme ht]
    simp only [Scan.followedBy]
    rw [ih hlater (line + 1), hlast]
    rfl

end Scanner

theorem toList_printed (tokens : List Token) :
    (printed tokens).toList = tokens.flatMap fun t => t.lexeme.toList ++ ['\n'] := by
  unfold printed
  induction tokens with
  | nil => rfl
  | cons t tokens ih =>
    rw [List.map_cons, String.join_cons, String.toList_append, ih, String.toList_append]
    rfl

/-- The tokens of a text, written out with a line break behind each, are the tokens of what is
written: the same kinds and lexemes in the same order, then the end, each token on the line that it
was written on. -/
theorem tokenize_printed {source : String} {tokens : List Token}
    (h : tokenize source = .ok tokens) :
    ∃ again, tokenize (printed tokens) = .ok again ∧
      again.map Token.content = tokens.map Token.content ∧
      ∃ ts, again = ts ++ [Scanner.eofToken (tokens.length + 1)] ∧ (∀ t ∈ ts, t.kind ≠ .eof) ∧
        ts.map Token.line = List.range' 1 ts.length := by
  have hitems := (Scanner.ofString source).mem_scan
  have halone := (Scanner.ofString source).standsAlone_scan
  unfold tokenize Scan.tokens at h
  split at h
  · rename_i last hending
    cases h
    generalize hts : (Scanner.ofString source).scan.items.map Scanned.token = ts
    have hstands : ∀ t ∈ ts, t.StandsAlone := by
      rw [← hts]
      exact List.forall_mem_map.mpr halone
    have hkinds : ∀ t ∈ ts, t.kind ≠ .eof := by
      rw [← hts]
      exact List.forall_mem_map.mpr fun item hitem => (hitems item hitem).2
    have htext : (printed (ts ++ [Scanner.eofToken last])).toList =
        ts.flatMap (fun t => t.lexeme.toList ++ ['\n']) ++ ['\n'] := by
      rw [toList_printed, List.flatMap_append]
      rfl
    have hlength : 1 + ts.length + 1 = (ts ++ [Scanner.eofToken last]).length + 1 := by
      rw [List.length_append, List.length_singleton, Nat.add_comm 1]
    have hscan : tokenize (printed (ts ++ [Scanner.eofToken last])) =
        .ok (relined 1 ts ++
          [Scanner.eofToken ((ts ++ [Scanner.eofToken last]).length + 1)]) := by
      rw [tokenize, Scanner.ofString, htext, Scanner.scan_printed hstands, hlength]
      simp [Scan.tokens, Function.comp_def]
    refine ⟨_, hscan, ?_, relined 1 ts, rfl, ?_, ?_⟩
    · rw [List.map_append, List.map_append, content_relined]
      rfl
    · intro t ht
      have hcontent : t.content ∈ ts.map Token.content := by
        rw [← content_relined 1 ts]
        exact List.mem_map_of_mem ht
      obtain ⟨t', ht', hsame⟩ := List.mem_map.mp hcontent
      rw [← show t'.kind = t.kind from congrArg Prod.fst hsame]
      exact hkinds t' ht'
    · rw [line_relined, length_relined]
  · cases h

/-- Symbols that stand close together, literals without their quotes, a sign of no known kind. -/
theorem tokenize_printed_glued :
    ∃ tokens again, tokenize "&&&/=/'a\n\"b'// c\n1.5x_2€//" = .ok tokens ∧
      printed tokens = "&&\n&\n/=\n/\n'a'\n\"b'// c\"\n1.5\nx_2\n€\n//\n\n" ∧
      tokenize (printed tokens) = .ok again ∧
      again.map Token.content = tokens.map Token.content := by
  have htokens : tokenize "&&&/=/'a\n\"b'// c\n1.5x_2€//" = .ok
      [⟨.andOp, "&&", 1⟩, ⟨.bitAndOp, "&", 1⟩, ⟨.assignOp, "/=", 1⟩, ⟨.mulOp, "/", 1⟩,
        ⟨.literal "a", "'a'", 1⟩, ⟨.literal "b'// c", "\"b'// c\"", 2⟩,
        ⟨.decimal (.ofRatio false 3 2), "1.5", 3⟩, ⟨.identifier, "x_2", 3⟩, ⟨.unknown, "€", 3⟩,
        ⟨.comment, "//", 3⟩, ⟨.eof, "", 3⟩] := by decide +kernel
  obtain ⟨again, hagain, hsame, -⟩ := tokenize_printed htokens
  exact ⟨_, again, htokens, by decide +kernel, hagain, hsame⟩

end Triad
