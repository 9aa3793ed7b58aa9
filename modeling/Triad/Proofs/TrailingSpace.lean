import Triad.Proofs.Lexemes

/-!
White space at the end of a text. No token but a comment and a literal without its quote takes it in,
so that the tokens of a text without it are the same, comments apart, unless the text ends in such a
literal. Main statement: `scan_append_white`.
-/

namespace Triad

open Triad.Text

/-! ## White space ends numbers and words -/

namespace Text

/-- The code points of ranges, one by one. -/
def Ranges.codes : Ranges → List Nat
  | [] => []
  | (low, high) :: rest => List.range' low (high + 1 - low) ++ Ranges.codes rest

theorem Ranges.mem_codes {ranges : Ranges} {n : Nat} (h : ranges.contains n = true) :
    n ∈ ranges.codes := by
  induction ranges with
  | nil => cases h
  | cons range ranges ih =>
    simp only [contains, Bool.and_eq_true, Bool.or_eq_true, decide_eq_true_eq] at h
    rw [codes, List.mem_append, List.mem_range'_1]
    rcases h with ⟨hlow, hhigh | hlater⟩
    · exact .inl (by omega)
    · exact .inr (ih hlater)

/-- A test that fails on each code point of white space fails on white space. -/
theorem eq_false_of_isWhiteSpace {p : Char → Bool}
    (hp : ∀ n ∈ whiteSpaceRanges.codes, p (Char.ofNat n) = false) {c : Char}
    (h : isWhiteSpace c = true) : p c = false := by
  have hcode := hp c.toNat (Ranges.mem_codes h)
  rwa [Char.ofNat_toNat] at hcode

end Text

namespace Head

theorem inNumber_of_isWhiteSpace {c : Char} (h : isWhiteSpace c = true) : inNumber c = false :=
  eq_false_of_isWhiteSpace (by decide) h

theorem continuesWord_of_isWhiteSpace {c : Char} (h : isWhiteSpace c = true) :
    continuesWord c = false :=
  eq_false_of_isWhiteSpace (by decide +kernel) h

/-- No white space ends a symbol of two characters or opens a comment. -/
theorem not_second_of_isWhiteSpace {c : Char} (h : isWhiteSpace c = true) :
    c ∉ ['=', '&', '|'] ++ ['/'] := by
  have hsecond := eq_false_of_isWhiteSpace (p := fun c => (['=', '&', '|'] ++ ['/']).elem c)
    (by decide) h
  simpa using hsecond

/-! ## White space behind a token -/

/-- What is added to a text does not go into a run that stops before it or cannot go on with it. -/
theorem run_append {p : Char → Bool} (text more : List Char)
    (h : text.dropWhile p ≠ [] ∨ ∀ c ∈ more.head?, p c = false) :
    (text ++ more).takeWhile p = text.takeWhile p ∧
      (text ++ more).dropWhile p = text.dropWhile p ++ more := by
  induction text with
  | nil =>
    cases more with
    | nil => exact ⟨rfl, rfl⟩
    | cons c rest =>
      have hc : ¬ p c = true := by
        rcases h with hstop | hnot
        · exact absurd rfl hstop
        · simp [hnot c rfl]
      exact ⟨List.takeWhile_cons_of_neg hc, List.dropWhile_cons_of_neg hc⟩
  | cons c text ih =>
    by_cases hc : p c = true
    · rw [List.dropWhile_cons_of_pos hc] at h
      simpa [hc] using ih h
    · simp [hc]

section

variable {more : List Char} (hmore : ∀ c ∈ more.head?, isWhiteSpace c = true)
include hmore

theorem number_append (text : List Char) :
    number (text ++ more) = { number text with rest := (number text).rest ++ more } := by
  obtain ⟨htake, hdrop⟩ := run_append text more
    (.inr fun c hc => inNumber_of_isWhiteSpace (hmore c hc))
  rw [number, number, htake, hdrop]

theorem word_append (text : List Char) :
    word (text ++ more) = { word text with rest := (word text).rest ++ more } := by
  obtain ⟨htake, hdrop⟩ := run_append text more
    (.inr fun c hc => continuesWord_of_isWhiteSpace (hmore c hc))
  rw [word, word, htake, hdrop]

theorem symbol_append (c : Char) (rest : List Char) :
    symbol c (rest ++ more) = { symbol c rest with rest := (symbol c rest).rest ++ more } := by
  cases rest with
  | cons d rest =>
    simp only [symbol, List.cons_append]
    split <;> rfl
  | nil =>
    cases more with
    | nil => rfl
    | cons d more =>
      have hpair : Kind.ofPair c d = none := by
        cases hkind : Kind.ofPair c d with
        | none => rfl
        | some kind =>
          exact absurd (List.mem_append_left _ (second_of_pair hkind))
            (not_second_of_isWhiteSpace (hmore d rfl))
      simp [symbol, hpair]

theorem opensComment_append (c : Char) (rest : List Char) :
    (c == '/' && (rest ++ more).head? == some '/') = (c == '/' && rest.head? == some '/') := by
  cases rest with
  | cons d rest => rfl
  | nil =>
    cases more with
    | nil => rfl
    | cons d more =>
      have hd : d ≠ '/' := by
        rintro rfl
        exact not_second_of_isWhiteSpace (hmore '/' rfl) (by decide)
      simp [hd]

end

/-- What white space behind the text makes of its first token. -/
inductive Trailed (blank : List Char) (h h' : Head) : Prop
  | apart (same : h' = { h with rest := h.rest ++ blank })
  | comment (rest : h.rest = []) (white : ∀ c ∈ h'.rest, isWhiteSpace c = true)
      (kind : h.kind = some .comment) (kind' : h'.kind = some .comment)
  | literal {body body' : String} (rest : h.rest = [])
      (white : ∀ c ∈ h'.rest, isWhiteSpace c = true)
      (kind : h.kind = some (.literal body)) (kind' : h'.kind = some (.literal body'))

variable {blank : List Char}

theorem mem_dropWhile_white (hblank : ∀ c ∈ blank, isWhiteSpace c = true) (p : Char → Bool) :
    ∀ c ∈ blank.dropWhile p, isWhiteSpace c = true :=
  fun c hc => hblank c ((List.dropWhile_sublist p).mem hc)

theorem dropWhile_append_of_nil {p : Char → Bool} {text : List Char} (h : text.dropWhile p = []) :
    (text ++ blank).dropWhile p = blank.dropWhile p := by
  simp [List.dropWhile_append, h]

theorem trailed_comment (hblank : ∀ c ∈ blank, isWhiteSpace c = true) (text : List Char) :
    Trailed blank (comment text) (comment (text ++ blank)) := by
  by_cases hrest : text.dropWhile (· != '\n') = []
  · refine .comment hrest ?_ rfl rfl
    rw [comment, dropWhile_append_of_nil hrest]
    exact mem_dropWhile_white hblank _
  · obtain ⟨htake, hdrop⟩ := run_append text blank (.inl hrest)
    exact .apart (by rw [comment, comment, htake, hdrop])

theorem trailed_literal (hblank : ∀ c ∈ blank, isWhiteSpace c = true) (quote : Char)
    (text : List Char) :
    Trailed blank (literal quote text) (literal quote (text ++ blank)) := by
  by_cases hrest : text.dropWhile (fun c => c != quote && c != '\n') = []
  · obtain ⟨body, hbody⟩ := kind_literal quote text
    obtain ⟨body', hbody'⟩ := kind_literal quote (text ++ blank)
    refine .literal ?_ ?_ hbody hbody'
    · rw [literal, hrest]
    · have hwhite := mem_dropWhile_white hblank (fun c => c != quote && c != '\n')
      rw [literal, dropWhile_append_of_nil hrest]
      split
      · exact fun c hc => absurd hc List.not_mem_nil
      · rename_i c rest hc
        rw [hc] at hwhite
        split
        · exact fun d hd => hwhite d (List.mem_cons_of_mem c hd)
        · exact hwhite
  · obtain ⟨htake, hdrop⟩ := run_append text blank (.inl hrest)
    refine .apart ?_
    rw [literal, literal, htake, hdrop]
    cases hc : text.dropWhile (fun c => c != quote && c != '\n') with
    | nil => exact absurd hc hrest
    | cons c rest =>
      dsimp only [List.cons_append]
      split <;> rfl

theorem trailed_read (hblank : ∀ c ∈ blank, isWhiteSpace c = true) (c : Char) (rest : List Char) :
    Trailed blank (read c rest) (read c (rest ++ blank)) := by
  have hfirst : ∀ d ∈ blank.head?, isWhiteSpace d = true :=
    fun d hd => hblank d (List.mem_of_mem_head? hd)
  unfold read
  rw [opensComment_append hfirst]
  split
  · exact trailed_comment hblank (c :: rest)
  split
  · exact .apart (number_append hfirst (c :: rest))
  split
  · exact .apart (word_append hfirst (c :: rest))
  split
  · exact trailed_literal hblank c rest
  · exact .apart (symbol_append hfirst c rest)

end Head

/-! ## White space behind a text -/

namespace Scanner

variable {s s' : Scanner}

theorem scan_of_error {fault : Fault} (h : s.next = (.error fault, s')) :
    s.scan = ⟨[], .broken fault⟩ := by
  rw [scan]
  split
  · rename_i hnext
    rw [h] at hnext
    cases hnext
    rfl
  · rename_i hnext
    rw [h] at hnext
    cases hnext

theorem scan_of_item {item : Scanned} (h : s.next = (.ok item, s')) (hkind : item.token.kind ≠ .eof) :
    s.scan = ⟨item :: s'.scan.items, s'.scan.ending⟩ := by
  rw [scan]
  split
  · rename_i hnext
    rw [h] at hnext
    cases hnext
  · rename_i hnext
    rw [h] at hnext
    cases hnext
    rw [dif_neg hkind]

theorem skip_append_white {blank : List Char} (h : ∀ c ∈ blank, isWhiteSpace c = true)
    (text : List Char) (line : Nat) :
    skip (blank ++ text) line = skip text (line + blank.count '\n') := by
  rw [skip_eq, skip_eq, List.dropWhile_append_of_pos h, List.takeWhile_append_of_pos h,
    List.count_append, Nat.add_assoc]

theorem skip_of_not_white {c : Char} (h : isWhiteSpace c = false) (rest : List Char) (line : Nat) :
    skip (c :: rest) line = ⟨c :: rest, line⟩ := by
  rw [skip_eq, List.dropWhile_cons_of_neg (by simp [h]), List.takeWhile_cons_of_neg (by simp [h])]
  rfl

theorem scan_of_white {text : List Char} (h : ∀ c ∈ text, isWhiteSpace c = true) (line : Nat) :
    (⟨text, line⟩ : Scanner).scan = ⟨[], .eof (line + text.count '\n')⟩ := by
  have hskip := skip_eq text line
  rw [List.dropWhile_eq_nil_iff.mpr h, List.takeWhile_eq_self_iff.mpr h] at hskip
  rw [scan]
  split
  · rename_i hnext
    rw [next_of_end hskip] at hnext
    cases hnext
  · rename_i hnext
    rw [next_of_end hskip] at hnext
    cases hnext
    rfl

section

variable {blank : List Char} {c : Char} (hblank : ∀ d ∈ blank, isWhiteSpace d = true)
  (hc : isWhiteSpace c = false)
include hblank hc

theorem skip_blank_cons (rest : List Char) (line : Nat) :
    skip (blank ++ c :: rest) line = ⟨c :: rest, line + blank.count '\n'⟩ := by
  rw [skip_append_white hblank, skip_of_not_white hc]

theorem scan_of_malformed {rest : List Char} (hkind : (Head.read c rest).kind = none) (line : Nat) :
    (⟨blank ++ c :: rest, line⟩ : Scanner).scan = ⟨[], .broken (.malformedNumber
      (line + blank.count '\n') (String.ofList (Head.read c rest).lexeme))⟩ :=
  scan_of_error (next_of_malformed (skip_blank_cons hblank hc rest line) hkind)

theorem scan_of_token {rest : List Char} {kind : Kind} (hkind : (Head.read c rest).kind = some kind)
    (line : Nat) :
    (⟨blank ++ c :: rest, line⟩ : Scanner).scan =
      let later := (⟨(Head.read c rest).rest, line + blank.count '\n'⟩ : Scanner).scan
      ⟨⟨⟨kind, String.ofList (Head.read c rest).lexeme, line + blank.count '\n'⟩,
        (Head.read c rest).missingQuote⟩ :: later.items, later.ending⟩ := by
  have hne : kind ≠ .eof := by
    rintro rfl
    exact Head.kind_read_ne_eof c rest hkind
  exact scan_of_item (next_of_kind (skip_blank_cons hblank hc rest line) hkind) hne

end

/-- A text is white space, or white space before a malformed number or before a token, behind which
the text goes on. -/
theorem text_induction {P : List Char → Nat → Prop}
    (white : ∀ text line, (∀ c ∈ text, isWhiteSpace c = true) → P text line)
    (malformed : ∀ blank c rest line, (∀ d ∈ blank, isWhiteSpace d = true) →
      isWhiteSpace c = false → (Head.read c rest).kind = none → P (blank ++ c :: rest) line)
    (token : ∀ blank c rest line kind, (∀ d ∈ blank, isWhiteSpace d = true) →
      isWhiteSpace c = false → (Head.read c rest).kind = some kind →
      P (Head.read c rest).rest (line + blank.count '\n') → P (blank ++ c :: rest) line)
    (text : List Char) (line : Nat) : P text line := by
  induction hlength : text.length using Nat.strong_induction_on generalizing text line with
  | _ length ih =>
    subst hlength
    have hsplit := List.takeWhile_append_dropWhile (p := isWhiteSpace) (l := text)
    have hblank : ∀ c ∈ text.takeWhile isWhiteSpace, isWhiteSpace c = true :=
      fun _ => List.mem_takeWhile_imp
    have hstop := List.head?_dropWhile_not isWhiteSpace text
    generalize text.takeWhile isWhiteSpace = blank at hsplit hblank
    generalize text.dropWhile isWhiteSpace = behind at hsplit hstop
    subst hsplit
    cases behind with
    | nil => exact white _ line (by simpa using hblank)
    | cons c rest =>
      have hc : isWhiteSpace c = false := by simpa using hstop
      cases hkind : (Head.read c rest).kind with
      | none => exact malformed blank c rest line hblank hc hkind
      | some kind =>
        have hshort := Head.length_rest_read_lt c rest
        refine token blank c rest line kind hblank hc hkind (ih _ ?_ _ _ rfl)
        rw [List.length_append]
        omega

end Scanner

namespace Scan

/-- The same tokens but for the comments, and both texts come to an end or both break. -/
structure Matches (a b : Scan) : Prop where
  tokens : significant a.items = significant b.items
  ending : (∃ line, a.ending = .eof line) ↔ ∃ line, b.ending = .eof line

/-- The last token, comments apart, is a literal. -/
def EndsInLiteral (scan : Scan) : Prop :=
  ∃ ts t body, significant scan.items = ts ++ [t] ∧ t.kind = .literal body

/-- What the second scan is to the first, if only white space was added to the text. -/
def Outlasts (a b : Scan) : Prop := a.Matches b ∨ a.EndsInLiteral ∧ b.EndsInLiteral

theorem significant_cons (item : Scanned) (items : List Scanned) :
    significant (item :: items) = significant [item] ++ significant items :=
  List.filter_append (p := fun t : Token => t.kind ≠ .comment) [item.token] _

/-- The same token before both. -/
theorem Outlasts.cons {a b : Scan} (h : a.Outlasts b) (item : Scanned) :
    (⟨item :: a.items, a.ending⟩ : Scan).Outlasts ⟨item :: b.items, b.ending⟩ := by
  have hlater : ∀ {c : Scan}, c.EndsInLiteral → (⟨item :: c.items, c.ending⟩ : Scan).EndsInLiteral := by
    rintro c ⟨ts, t, body, htokens, hkind⟩
    refine ⟨significant [item] ++ ts, t, body, ?_, hkind⟩
    rw [significant_cons, htokens, List.append_assoc]
  rcases h with h | ⟨ha, hb⟩
  · refine .inl ⟨?_, h.ending⟩
    rw [significant_cons, significant_cons item b.items, h.tokens]
  · exact .inr ⟨hlater ha, hlater hb⟩

end Scan

/-- White space behind a text adds no token to it, and changes at most a comment or a literal at its
end. -/
theorem Scanner.scan_append_white {blank : List Char} (hblank : ∀ c ∈ blank, isWhiteSpace c = true)
    (text : List Char) (line : Nat) :
    (⟨text, line⟩ : Scanner).scan.Outlasts (⟨text ++ blank, line⟩ : Scanner).scan := by
  induction text, line using text_induction with
  | white text line hwhite =>
    rw [scan_of_white hwhite, scan_of_white fun c hc =>
      (List.mem_append.mp hc).elim (hwhite c) (hblank c)]
    exact .inl ⟨rfl, ⟨fun _ => ⟨_, rfl⟩, fun _ => ⟨_, rfl⟩⟩⟩
  | malformed before c rest line hbefore hc hkind =>
    rw [List.append_assoc, List.cons_append, scan_of_malformed hbefore hc hkind]
    cases Head.trailed_read hblank c rest with
    | apart same =>
      have hkind' : (Head.read c (rest ++ blank)).kind = none := by rw [same, hkind]
      rw [scan_of_malformed hbefore hc hkind', same]
      exact .inl ⟨rfl, .rfl⟩
    | comment _ _ hcomment => cases hkind.symm.trans hcomment
    | literal _ _ hliteral => cases hkind.symm.trans hliteral
  | token before c rest line kind hbefore hc hkind ih =>
    rw [List.append_assoc, List.cons_append]
    cases Head.trailed_read hblank c rest with
    | apart same =>
      have hkind' : (Head.read c (rest ++ blank)).kind = some kind := by rw [same, hkind]
      rw [scan_of_token hbefore hc hkind, scan_of_token hbefore hc hkind', same]
      exact ih.cons _
    | comment hend hwhite hcomment hcomment' =>
      rw [scan_of_token hbefore hc hcomment, scan_of_token hbefore hc hcomment',
        scan_of_white hwhite, hend, scan_of_white fun c hc => absurd hc List.not_mem_nil]
      exact .inl ⟨rfl, ⟨fun _ => ⟨_, rfl⟩, fun _ => ⟨_, rfl⟩⟩⟩
    | literal hend hwhite hliteral hliteral' =>
      rw [scan_of_token hbefore hc hliteral, scan_of_token hbefore hc hliteral',
        scan_of_white hwhite, hend, scan_of_white fun c hc => absurd hc List.not_mem_nil]
      exact .inr ⟨⟨[], _, _, rfl, rfl⟩, ⟨[], _, _, rfl, rfl⟩⟩

end Triad
