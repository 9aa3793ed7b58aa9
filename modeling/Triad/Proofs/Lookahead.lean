import Triad.Proofs.Acceptance
import Triad.Proofs.LineBreaks

/-!
Lookahead over the tokens of a text. A cursor answers any row of calls, to move on or to look ahead,
as the plain list of tokens without comments would, with the mark of the end standing at all places
behind the last one; so does a reader that takes each token from the text only when it is wanted.
Main statement: `lookahead_replies`.
-/

namespace Triad

/-! ## Calls and replies -/

inductive Request
  | advance
  | peek
  deriving DecidableEq, Repr

/-- Moving on is answered by the new current token, looking ahead by a kind. -/
inductive Reply
  | current (t : Token)
  | ahead (kind : Kind)
  deriving DecidableEq, Repr

/-- What can be moved on along tokens, and can look one token ahead. -/
structure Lookahead (σ : Type) where
  current : σ → Token
  advance : σ → Except Fault σ
  peek : σ → Except Fault (Kind × σ)

namespace Lookahead

variable {σ : Type}

def reply (l : Lookahead σ) (s : σ) : Request → Except Fault (Reply × σ)
  | .advance => (l.advance s).map fun s' => (.current (l.current s'), s')
  | .peek => (l.peek s).map fun p => (.ahead p.1, p.2)

/-- The replies to calls in a row, or the fault of the first one that fails. -/
def replies (l : Lookahead σ) (s : σ) : List Request → Except Fault (List Reply)
  | [] => .ok []
  | call :: calls => do
    let p ← l.reply s call
    let later ← l.replies p.2 calls
    return p.1 :: later

end Lookahead

/-- The token at a place. The last one stands at all places behind it too. -/
def tokenAt (tokens : List Token) (n : Nat) : Token :=
  tokens.getD n (tokens.getLastD (Scanner.eofToken 1))

/-- The replies that a list of tokens wants, with the token at place `n` the current one. -/
def wantedReplies (tokens : List Token) (n : Nat) : List Request → List Reply
  | [] => []
  | .advance :: calls => .current (tokenAt tokens (n + 1)) :: wantedReplies tokens (n + 1) calls
  | .peek :: calls => .ahead (tokenAt tokens (n + 1)).kind :: wantedReplies tokens n calls

/-! ## Simulation -/

namespace Lookahead

/-- Both have a value, and the values are related, or both have the same fault. -/
inductive Agree {α β : Type} (R : α → β → Prop) : Except Fault α → Except Fault β → Prop
  | ok {a : α} {b : β} (h : R a b) : Agree R (.ok a) (.ok b)
  | fault (f : Fault) : Agree R (.error f) (.error f)

theorem Agree.map {α β γ δ : Type} {R : α → β → Prop} {S : γ → δ → Prop} {f : α → γ} {g : β → δ}
    {x : Except Fault α} {y : Except Fault β} (h : Agree R x y)
    (hmap : ∀ a b, R a b → S (f a) (g b)) : Agree S (x.map f) (y.map g) := by
  cases h with
  | ok h => exact .ok (hmap _ _ h)
  | fault f => exact .fault f

variable {σ τ : Type}

/-- One call keeps the relation and is answered alike on both sides. -/
structure Simulates (l : Lookahead σ) (m : Lookahead τ) (R : σ → τ → Prop) : Prop where
  current : ∀ s t, R s t → l.current s = m.current t
  advance : ∀ s t, R s t → Agree R (l.advance s) (m.advance t)
  peek : ∀ s t, R s t → Agree (fun p q => p.1 = q.1 ∧ R p.2 q.2) (l.peek s) (m.peek t)

variable {l : Lookahead σ} {m : Lookahead τ} {R : σ → τ → Prop}

theorem Simulates.reply (h : Simulates l m R) {s : σ} {t : τ} (hst : R s t) (call : Request) :
    Agree (fun p q => p.1 = q.1 ∧ R p.2 q.2) (l.reply s call) (m.reply t call) := by
  cases call with
  | advance =>
    exact (h.advance s t hst).map fun a b hab => ⟨congrArg Reply.current (h.current a b hab), hab⟩
  | peek => exact (h.peek s t hst).map fun p q hpq => ⟨congrArg Reply.ahead hpq.1, hpq.2⟩

theorem Simulates.replies (h : Simulates l m R) {s : σ} {t : τ} (hst : R s t) (calls : List Request) :
    l.replies s calls = m.replies t calls := by
  induction calls generalizing s t with
  | nil => rfl
  | cons call calls ih =>
    have hstep := h.reply hst call
    simp only [Lookahead.replies]
    generalize l.reply s call = x at hstep ⊢
    generalize m.reply t call = y at hstep ⊢
    cases hstep with
    | ok hab =>
      simp only [Except.bind, bind]
      rw [ih hab.2, hab.1]
    | fault f => rfl

end Lookahead

/-! ## Three ways along the tokens -/

/-- Places in a list of tokens. -/
def Lookahead.ofTokens (tokens : List Token) : Lookahead Nat where
  current := tokenAt tokens
  advance := fun n => .ok (n + 1)
  peek := fun n => .ok ((tokenAt tokens (n + 1)).kind, n)

theorem Lookahead.replies_ofTokens (tokens : List Token) (n : Nat) (calls : List Request) :
    (ofTokens tokens).replies n calls = .ok (wantedReplies tokens n calls) := by
  induction calls generalizing n with
  | nil => rfl
  | cons call calls ih =>
    cases call with
    | advance =>
      change ((ofTokens tokens).replies (n + 1) calls >>= fun later => _) = _
      rw [ih]
      rfl
    | peek =>
      change ((ofTokens tokens).replies n calls >>= fun later => _) = _
      rw [ih]
      rfl

def Cursor.lookahead : Lookahead Cursor where
  current := Cursor.current
  advance := fun c => c.advance.2
  peek := fun c => c.peek.2

namespace Scanner

def atComment (s : Scanner) : Bool :=
  s.next.1.toOption.any fun item => item.token.kind = .comment

theorem next_of_atComment {s : Scanner} (h : s.atComment = true) :
    ∃ item, s.next = (.ok item, s.next.2) ∧ item.token.kind = .comment := by
  unfold atComment at h
  cases hnext : s.next.1 with
  | error fault => simp [hnext, Except.toOption] at h
  | ok item =>
    refine ⟨item, Prod.ext hnext rfl, ?_⟩
    simpa [hnext, Except.toOption] using h

/-- The next token that is no comment, with the text behind it. -/
def nextSignificant (s : Scanner) : Except Fault (Token × Scanner) :=
  if _h : s.atComment = true then s.next.2.nextSignificant
  else s.next.1.map fun item => (item.token, s.next.2)
termination_by s.rest.length
decreasing_by
  obtain ⟨item, hnext, hkind⟩ := next_of_atComment _h
  exact length_rest_next_lt hnext (by rw [hkind]; simp)

end Scanner

/-- A place in a text, with the token behind the current one once it was asked for. -/
structure Reader where
  current : Token
  peeked : Option Token
  scanner : Scanner

namespace Reader

def ofString (source : String) : Reader := ⟨Scanner.eofToken 1, none, .ofString source⟩

def advance : Reader → Except Fault Reader
  | ⟨_, some token, scanner⟩ => .ok ⟨token, none, scanner⟩
  | ⟨_, none, scanner⟩ => scanner.nextSignificant.map fun p => ⟨p.1, none, p.2⟩

def peek : Reader → Except Fault (Kind × Reader)
  | ⟨current, some token, scanner⟩ => .ok (token.kind, ⟨current, some token, scanner⟩)
  | ⟨current, none, scanner⟩ =>
    scanner.nextSignificant.map fun p => (p.1.kind, ⟨current, some p.1, p.2⟩)

def lookahead : Lookahead Reader := ⟨current, advance, peek⟩

end Reader

/-! ## The cursor against the list -/

theorem tokenAt_append (ts : List Token) (last : Token) (n : Nat) :
    tokenAt (ts ++ [last]) n = (ts.drop n).headD last := by
  rw [tokenAt, List.getLastD_concat, List.headD_eq_head?_getD, List.head?_drop]
  by_cases h : n < ts.length
  · simp [List.getD, List.getElem?_append_left h]
  · have hle : ts.length ≤ n := Nat.le_of_not_lt h
    rw [List.getElem?_eq_none hle, List.getD, List.getElem?_append_right hle]
    cases n - ts.length <;> rfl

theorem Cursor.simulates_ofTokens (line : Nat) (ts : List Token) :
    Cursor.lookahead.Simulates (.ofTokens (ts ++ [Scanner.eofToken line]))
      fun c n => c.Stands line (ts.drop n) where
  current := by
    intro c n h
    exact h.current.trans (tokenAt_append ts _ n).symm
  advance := by
    intro c n h
    obtain ⟨scanned, c', hadvance, hstands⟩ := h.advance
    rw [List.tail_drop] at hstands
    change Lookahead.Agree _ c.advance.2 _
    rw [hadvance]
    exact .ok hstands
  peek := by
    intro c n h
    obtain ⟨scanned, c', hpeek, hstands⟩ := h.peek
    change Lookahead.Agree _ c.peek.2 _
    rw [hpeek]
    refine .ok ⟨?_, hstands⟩
    rw [tokenAt_append, List.tail_drop]

/-! ## The reader against the cursor -/

namespace Scanner

/-- At the end of a text the mark of the end is read, and read again. -/
theorem scan_of_eof {s s' : Scanner} {item : Scanned} (h : s.next = (.ok item, s'))
    (hkind : item.token.kind = .eof) :
    item.token = eofToken s'.line ∧ s.scan = ⟨[], .eof s'.line⟩ ∧ s'.scan = ⟨[], .eof s'.line⟩ := by
  cases hskip : skip s.rest s.line with
  | mk rest line =>
    cases rest with
    | nil =>
      rw [next_of_end hskip] at h
      cases h
      have hend : (⟨[], line⟩ : Scanner).scan = ⟨[], .eof line⟩ :=
        scan_of_white (fun c hc => absurd hc List.not_mem_nil) line
      have hsame : s.scan = (⟨[], line⟩ : Scanner).scan := scan_of_skip hskip
      exact ⟨rfl, hsame.trans hend, hend⟩
    | cons c rest =>
      cases hread : (Head.read c rest).kind with
      | none =>
        rw [next_of_malformed hskip hread] at h
        cases h
      | some kind =>
        rw [next_of_kind hskip hread] at h
        cases h
        exact absurd (hread.trans (congrArg some hkind)) (Head.kind_read_ne_eof c rest)

theorem nextSignificant_of_comment {s s' : Scanner} {item : Scanned} (h : s.next = (.ok item, s'))
    (hkind : item.token.kind = .comment) : s.nextSignificant = s'.nextSignificant := by
  rw [nextSignificant, dif_pos (by simp [atComment, h, Except.toOption, hkind]), h]

theorem nextSignificant_of_item {s s' : Scanner} {item : Scanned} (h : s.next = (.ok item, s'))
    (hkind : item.token.kind ≠ .comment) : s.nextSignificant = .ok (item.token, s') := by
  rw [nextSignificant, dif_neg (by simp [atComment, h, Except.toOption, hkind]), h]
  rfl

theorem nextSignificant_of_error {s s' : Scanner} {fault : Fault}
    (h : s.next = (.error fault, s')) : s.nextSignificant = .error fault := by
  rw [nextSignificant, dif_neg (by simp [atComment, h, Except.toOption]), h]
  rfl

/-- The next token among those scanned ahead is the next one taken from the text, and what was
scanned behind it is what the text behind it holds. -/
theorem pull_scan (s : Scanner) :
    Lookahead.Agree (fun p q => p.1 = q.1 ∧ q.2.scan = ⟨p.2, s.scan.ending⟩)
      (Cursor.pull s.scan.ending s.scan.items).2 s.nextSignificant := by
  induction hlength : s.rest.length using Nat.strong_induction_on generalizing s with
  | _ length ih =>
    subst hlength
    obtain ⟨s', hs'⟩ : ∃ s', s.next.2 = s' := ⟨_, rfl⟩
    cases hresult : s.next.1 with
    | error fault =>
      have hnext : s.next = (.error fault, s') := Prod.ext hresult hs'
      rw [scan_of_error hnext, nextSignificant_of_error hnext]
      exact .fault fault
    | ok item =>
      have hnext : s.next = (.ok item, s') := Prod.ext hresult hs'
      by_cases heof : item.token.kind = .eof
      · obtain ⟨htoken, hscan, hscan'⟩ := scan_of_eof hnext heof
        rw [hscan, nextSignificant_of_item hnext (by rw [heof]; simp)]
        exact .ok ⟨htoken.symm, hscan'⟩
      · have hscan := scan_of_item hnext heof
        rw [hscan]
        by_cases hcomment : item.token.kind = .comment
        · -- The comment is passed on both sides, and the text behind it is shorter.
          rw [nextSignificant_of_comment hnext hcomment, Cursor.pull, if_pos hcomment]
          exact ih _ (length_rest_next_lt hnext heof) s' rfl
        · rw [nextSignificant_of_item hnext hcomment, Cursor.pull, if_neg hcomment]
          exact .ok ⟨rfl, rfl⟩

end Scanner

namespace Cursor

theorem advance_of_none (current : Token) (rest : List Scanned) (ending : Ending) :
    (⟨current, none, rest, ending⟩ : Cursor).advance.2 =
      (pull ending rest).2.map fun p => ⟨p.1, none, p.2, ending⟩ := by
  simp only [advance]
  split <;> rename_i h <;> rw [h] <;> rfl

theorem peek_of_none (current : Token) (rest : List Scanned) (ending : Ending) :
    (⟨current, none, rest, ending⟩ : Cursor).peek.2 =
      (pull ending rest).2.map fun p => (p.1.kind, ⟨current, some p.1, p.2, ending⟩) := by
  simp only [peek]
  split <;> rename_i h <;> rw [h] <;> rfl

end Cursor

/-- The cursor that has scanned ahead what the reader still has to take from the text. -/
def Reader.scanAhead (r : Reader) : Cursor :=
  ⟨r.current, r.peeked, r.scanner.scan.items, r.scanner.scan.ending⟩

theorem Cursor.simulates_reader :
    Cursor.lookahead.Simulates Reader.lookahead fun c r => c = r.scanAhead where
  current := by
    rintro _ r rfl
    rfl
  advance := by
    rintro _ ⟨current, peeked, scanner⟩ rfl
    cases peeked with
    | some token => exact .ok rfl
    | none =>
      change Lookahead.Agree _ (Cursor.advance ⟨_, none, _, _⟩).2 _
      rw [advance_of_none]
      refine scanner.pull_scan.map fun p q hpq => ?_
      rw [Reader.scanAhead, hpq.2, hpq.1]
  peek := by
    rintro _ ⟨current, peeked, scanner⟩ rfl
    cases peeked with
    | some token => exact .ok ⟨rfl, rfl⟩
    | none =>
      change Lookahead.Agree _ (Cursor.peek ⟨_, none, _, _⟩).2 _
      rw [peek_of_none]
      refine scanner.pull_scan.map fun p q hpq => ⟨congrArg Token.kind hpq.1, ?_⟩
      rw [Reader.scanAhead, hpq.2, hpq.1]

/-- A new reader has its first token when a new cursor has. -/
theorem Reader.advance_ofString {source : String} {c : Cursor}
    (h : (Cursor.start (Scanner.ofString source).scan).advance.2 = .ok c) :
    ∃ r, (Reader.ofString source).advance = .ok r ∧ c = r.scanAhead := by
  have hagree := Cursor.simulates_reader.advance _ (Reader.ofString source) rfl
  change Lookahead.Agree _ (Cursor.start (Scanner.ofString source).scan).advance.2
    (Reader.ofString source).advance at hagree
  rw [h] at hagree
  generalize (Reader.ofString source).advance = result at hagree ⊢
  cases hagree with
  | ok hsame => exact ⟨_, rfl, hsame⟩

/-- A new cursor and a new reader stand at the first token, and answer all calls as the tokens of
the text without the comments want it. -/
theorem lookahead_replies {source : String} {tokens : List Token}
    (h : tokenize source = .ok tokens) :
    ∃ c r, (Cursor.start (Scanner.ofString source).scan).advance.2 = .ok c ∧
      (Reader.ofString source).advance = .ok r ∧
      c.current = tokenAt (withoutComments tokens) 0 ∧
      r.current = tokenAt (withoutComments tokens) 0 ∧
      ∀ calls,
        Cursor.lookahead.replies c calls = .ok (wantedReplies (withoutComments tokens) 0 calls) ∧
        Reader.lookahead.replies r calls = .ok (wantedReplies (withoutComments tokens) 0 calls) := by
  obtain ⟨line, hending, htokens⟩ := withoutComments_tokens h
  obtain ⟨scanned, c, hadvance, hstands⟩ :=
    Cursor.advance_start hending (Scanner.mem_scan (Scanner.ofString source))
  have hcursor : (Cursor.start (Scanner.ofString source).scan).advance.2 = .ok c := by rw [hadvance]
  obtain ⟨r, hreader, hsame⟩ := Reader.advance_ofString hcursor
  have hlist := Cursor.simulates_ofTokens line (significant (Scanner.ofString source).scan.items)
  rw [← htokens] at hlist
  have hcurrent := hlist.current c 0 hstands
  refine ⟨c, r, hcursor, hreader, hcurrent, ?_, fun calls => ?_⟩
  · exact (Cursor.simulates_reader.current c r hsame).symm.trans hcurrent
  · have hreplies := (hlist.replies hstands calls).trans
      (Lookahead.replies_ofTokens (withoutComments tokens) 0 calls)
    exact ⟨hreplies, (Cursor.simulates_reader.replies hsame calls).symm.trans hreplies⟩

/-- Comments are passed over, looking twice changes nothing, and the end stays the end. -/
theorem lookahead_replies_comments :
    ∃ c r, (Cursor.start (Scanner.ofString "a // b\n1 // c").scan).advance.2 = .ok c ∧
      (Reader.ofString "a // b\n1 // c").advance = .ok r ∧
      c.current = ⟨.identifier, "a", 1⟩ ∧ r.current = ⟨.identifier, "a", 1⟩ ∧
      let calls := [.peek, .peek, .advance, .advance, .peek, .advance]
      let replies := [.ahead (.number 1), .ahead (.number 1), .current ⟨.number 1, "1", 2⟩,
        .current ⟨.eof, "", 2⟩, .ahead .eof, .current ⟨.eof, "", 2⟩]
      Cursor.lookahead.replies c calls = .ok replies ∧
        Reader.lookahead.replies r calls = .ok replies := by
  have htokens : tokenize "a // b\n1 // c" = .ok [⟨.identifier, "a", 1⟩, ⟨.comment, "// b", 1⟩,
      ⟨.number 1, "1", 2⟩, ⟨.comment, "// c", 2⟩, ⟨.eof, "", 2⟩] := by decide +kernel
  obtain ⟨c, r, hc, hr, hcurrent, hfirst, hreplies⟩ := lookahead_replies htokens
  exact ⟨c, r, hc, hr, hcurrent, hfirst, hreplies _⟩

end Triad
