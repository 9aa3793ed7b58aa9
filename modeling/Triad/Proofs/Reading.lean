import Triad.Parser
import Triad.Proofs.Syntax
import Triad.Proofs.TokenStream

/-!
How parsers are reasoned about. `Leads` says what holds if a parser succeeds, and `Runs` that it
does succeed, both in terms of the tokens that the cursor stands before and the tokens left behind.
What the scanner tells on the way is left out of the actions.
-/

namespace Triad

def Action.isScan : Action → Bool
  | scan _ => true
  | _ => false

/-- The actions but for those of the scanner. -/
def quiet (actions : List Action) : List Action := actions.filter fun a => !a.isScan

theorem quiet_cons_scan {a : Action} (h : a.isScan = true) (actions : List Action) :
    quiet (a :: actions) = quiet actions := by
  simp [quiet, h]

theorem quiet_cons {a : Action} (h : ¬ a.isScan = true) (actions : List Action) :
    quiet (a :: actions) = a :: quiet actions := by
  simp [quiet, h]

@[simp] theorem quiet_append (as bs : List Action) : quiet (as ++ bs) = quiet as ++ quiet bs :=
  List.filter_append ..

@[simp] theorem quiet_scans (items : List Scanned) : quiet (items.map .scan) = [] := by
  simp [quiet, Action.isScan]

/-- The kind of the first token, or of the mark of the end. -/
def headKind : List Token → Kind
  | [] => .eof
  | t :: _ => t.kind

@[simp] theorem headKind_cons (t : Token) (ts : List Token) : headKind (t :: ts) = t.kind := rfl

@[simp] theorem kind_headD (ts : List Token) (line : Nat) :
    (ts.headD (Scanner.eofToken line)).kind = headKind ts := by
  cases ts <;> rfl

theorem exists_cons_of_headKind {ts : List Token} {kind : Kind} (h : headKind ts = kind)
    (hkind : kind ≠ .eof) : ∃ t rest, ts = t :: rest ∧ t.kind = kind := by
  cases ts with
  | nil => exact absurd h.symm hkind
  | cons t rest => exact ⟨t, rest, rfl, h⟩

namespace Parser

variable {α β : Type} {line : Nat} {ts rest mid : List Token}

/-- If the parser succeeds before the tokens, its value, its actions and the tokens left are as `Q`
says. -/
def Leads (line : Nat) (p : Parser α) (ts : List Token)
    (Q : α → List Action → List Token → Prop) : Prop :=
  ∀ c : Cursor, c.Stands line ts → ∀ a c', (p c).result = .ok (a, c') →
    ∃ rest, c'.Stands line rest ∧ Q a (quiet (p c).actions) rest

/-- Before the tokens `ts` the parser succeeds, with that value and those actions, and leaves
`rest`. -/
def Runs (line : Nat) (p : Parser α) (ts : List Token) (a : α) (actions : List Action)
    (rest : List Token) : Prop :=
  ∀ c : Cursor, c.Stands line ts →
    ∃ c', (p c).result = .ok (a, c') ∧ quiet (p c).actions = actions ∧ c'.Stands line rest

/-! ## What success leads to -/

section Leads

variable {p : Parser α} {f : α → Parser β} {Q : β → List Action → List Token → Prop}

theorem Leads.mono {P R : α → List Action → List Token → Prop} (h : Leads line p ts P)
    (himp : ∀ a acts rest, P a acts rest → R a acts rest) : Leads line p ts R := by
  intro c hc a c' hok
  obtain ⟨rest, hrest, hP⟩ := h c hc a c' hok
  exact ⟨rest, hrest, himp _ _ _ hP⟩

theorem leads_spelled {P : α → List Action → List Token → Prop}
    (h : (∀ t ∈ ts, t.WellSpelled ∧ t.kind ≠ .eof) → Leads line p ts P) : Leads line p ts P :=
  fun c hc => h hc.spelled c hc

theorem Leads.bind {P : α → List Action → List Token → Prop} (hp : Leads line p ts P)
    (hf : ∀ a acts mid, P a acts mid →
      Leads line (f a) mid fun b acts' rest => Q b (acts ++ acts') rest) :
    Leads line (p >>= f) ts Q := by
  intro c hc b c' hok
  rcases hpc : p c with ⟨acts, fault | ⟨a, c₁⟩⟩
  · rw [bind_error hpc] at hok
    cases hok
  · rw [bind_ok hpc] at hok ⊢
    obtain ⟨mid, hmid, hP⟩ := hp c hc a c₁ (by rw [hpc])
    obtain ⟨rest, hrest, hQ⟩ := hf a _ mid hP c₁ hmid b c' hok
    rw [hpc] at hQ
    exact ⟨rest, hrest, by simpa using hQ⟩

theorem leads_pure {a : α} {P : α → List Action → List Token → Prop} (h : P a [] ts) :
    Leads line (pure a) ts P := by
  intro c hc b c' hok
  cases hok
  exact ⟨ts, hc, h⟩

theorem leads_fail {fault : Fault} {P : α → List Action → List Token → Prop} :
    Leads line (fail fault) ts P := by
  intro c hc b c' hok
  cases hok

theorem leads_perform {action : Action} {P : Unit → List Action → List Token → Prop}
    (hquiet : action.isScan = false) (h : P () [action] ts) :
    Leads line (perform action) ts P := by
  intro c hc b c' hok
  cases hok
  exact ⟨ts, hc, by simpa [perform, quiet, hquiet] using h⟩

theorem leads_perform_bind {action : Action} {f : Unit → Parser β}
    (hquiet : action.isScan = false)
    (h : Leads line (f ()) ts fun b acts rest => Q b (action :: acts) rest) :
    Leads line (perform action >>= f) ts Q := by
  refine Leads.bind (P := fun _ acts mid => acts = [action] ∧ mid = ts)
    (leads_perform hquiet ⟨rfl, rfl⟩) ?_
  rintro _ _ _ ⟨rfl, rfl⟩
  exact h

theorem leads_token_bind {f : Token → Parser β}
    (h : Leads line (f (ts.headD (Scanner.eofToken line))) ts Q) :
    Leads line (token >>= f) ts Q := by
  refine Leads.bind (P := fun t acts mid =>
    t = ts.headD (Scanner.eofToken line) ∧ acts = [] ∧ mid = ts) ?_ ?_
  · intro c hc b c' hok
    cases hok
    exact ⟨ts, hc, hc.current, rfl, rfl⟩
  · rintro _ _ _ ⟨rfl, rfl, rfl⟩
    exact h

theorem leads_mismatch {expected : String} {P : α → List Action → List Token → Prop} :
    Leads line (mismatch expected) ts P :=
  leads_token_bind leads_fail

theorem leads_mismatch_bind {expected : String} : Leads line (mismatch expected >>= f) ts Q :=
  Leads.bind (P := fun _ _ _ => False) leads_mismatch fun _ _ _ h => h.elim

theorem leads_advance {P : Unit → List Action → List Token → Prop} (h : P () [] ts.tail) :
    Leads line advance ts P := by
  intro c hc b c' hok
  obtain ⟨scanned, c₁, hadv, hc₁⟩ := hc.advance
  unfold advance at hok ⊢
  rw [hadv] at hok ⊢
  cases hok
  exact ⟨ts.tail, hc₁, by simpa using h⟩

theorem leads_advance_bind {f : Unit → Parser β} (h : Leads line (f ()) ts.tail Q) :
    Leads line (advance >>= f) ts Q := by
  refine Leads.bind (P := fun _ acts mid => acts = [] ∧ mid = ts.tail)
    (leads_advance ⟨rfl, rfl⟩) ?_
  rintro _ _ _ ⟨rfl, rfl⟩
  exact h

theorem leads_peek_bind {f : Kind → Parser β} (h : Leads line (f (headKind ts.tail)) ts Q) :
    Leads line (peek >>= f) ts Q := by
  refine Leads.bind (P := fun kind acts mid => kind = headKind ts.tail ∧ acts = [] ∧ mid = ts)
    ?_ ?_
  · intro c hc b c' hok
    obtain ⟨scanned, c₁, hpeek, hc₁⟩ := hc.peek
    unfold peek at hok ⊢
    rw [hpeek] at hok ⊢
    cases hok
    exact ⟨ts, hc₁, kind_headD .., by simp⟩
  · rintro _ _ _ ⟨rfl, rfl, rfl⟩
    exact h

theorem leads_remaining_bind {f : Nat → Parser β} (h : ∀ n, Leads line (f n) ts Q) :
    Leads line (remaining >>= f) ts Q := by
  refine Leads.bind (P := fun _ acts mid => acts = [] ∧ mid = ts) ?_ ?_
  · intro c hc b c' hok
    cases hok
    exact ⟨ts, hc, rfl, rfl⟩
  · rintro n _ _ ⟨rfl, rfl⟩
    exact h n

theorem leads_check_bind {kind : Kind} {f : Bool → Parser β}
    (h : Leads line (f (decide (headKind ts = kind))) ts Q) :
    Leads line (check kind >>= f) ts Q := by
  refine Leads.bind
    (P := fun b acts mid => b = decide (headKind ts = kind) ∧ acts = [] ∧ mid = ts) ?_ ?_
  · exact leads_token_bind (leads_pure ⟨by rw [kind_headD], rfl, rfl⟩)
  · rintro _ _ _ ⟨rfl, rfl, rfl⟩
    exact h

theorem leads_expect_bind {kind : Kind} {f : Token → Parser β} (hkind : kind ≠ .eof)
    (h : ∀ t rest, ts = t :: rest → t.kind = kind → Leads line (f t) rest Q) :
    Leads line (expect kind >>= f) ts Q := by
  refine Leads.bind (P := fun t acts mid => ts = t :: mid ∧ t.kind = kind ∧ acts = []) ?_ ?_
  · refine leads_token_bind ?_
    split
    · rename_i hk
      rw [kind_headD] at hk
      obtain ⟨t, rest, rfl, ht⟩ := exists_cons_of_headKind hk hkind
      exact leads_advance_bind (leads_pure ⟨rfl, ht, rfl⟩)
    · exact leads_mismatch
  · rintro t _ rest ⟨hts, ht, rfl⟩
    exact h t rest hts ht

theorem leads_expectName_bind {f : String → Parser β}
    (h : ∀ t rest, ts = t :: rest → t.kind = .identifier → Leads line (f t.lexeme) rest Q) :
    Leads line (expectName >>= f) ts Q := by
  refine Leads.bind
    (P := fun name acts mid =>
      ∃ t, ts = t :: mid ∧ t.kind = .identifier ∧ name = t.lexeme ∧ acts = [])
    ?_ ?_
  · exact leads_expect_bind (by decide) fun t rest hts ht =>
      leads_pure ⟨t, hts, ht, rfl, rfl⟩
  · rintro _ _ rest ⟨t, hts, ht, rfl, rfl⟩
    exact h t rest hts ht

theorem leads_nameAhead_bind {f : Token → Parser β}
    (h : ∀ t rest, ts = t :: rest → t.kind = .identifier → Leads line (f t) ts Q) :
    Leads line (nameAhead >>= f) ts Q := by
  refine Leads.bind (P := fun t acts mid =>
    mid = ts ∧ acts = [] ∧ ∃ rest, ts = t :: rest ∧ t.kind = .identifier) ?_ ?_
  · refine leads_token_bind ?_
    split
    · rename_i hk
      rw [kind_headD] at hk
      obtain ⟨t, rest, rfl, ht⟩ := exists_cons_of_headKind hk (by decide)
      exact leads_pure ⟨rfl, rfl, rest, rfl, ht⟩
    · exact leads_mismatch
  · rintro t _ _ ⟨rfl, rfl, rest, hts, ht⟩
    exact h t rest hts ht

theorem leads_consume_bind {kind : Kind} {f : Bool → Parser β} (hkind : kind ≠ .eof)
    (hyes : ∀ t rest, ts = t :: rest → t.kind = kind → Leads line (f true) rest Q)
    (hno : Leads line (f false) ts Q) : Leads line (consume kind >>= f) ts Q := by
  refine Leads.bind (P := fun b acts mid => acts = [] ∧
    ((b = true ∧ ∃ t, ts = t :: mid ∧ t.kind = kind) ∨ (b = false ∧ mid = ts))) ?_ ?_
  · refine leads_check_bind ?_
    split
    · rename_i hk
      obtain ⟨t, rest, rfl, ht⟩ := exists_cons_of_headKind (of_decide_eq_true hk) hkind
      exact leads_advance_bind (leads_pure ⟨rfl, .inl ⟨rfl, t, rfl, ht⟩⟩)
    · exact leads_pure ⟨rfl, .inr ⟨rfl, rfl⟩⟩
  · rintro _ _ rest ⟨rfl, ⟨rfl, t, hts, ht⟩ | ⟨rfl, rfl⟩⟩
    · exact hyes t rest hts ht
    · exact hno

end Leads

/-! ## Success -/

section Runs

variable {p : Parser α} {b : β} {acts acts₁ acts₂ : List Action}

theorem Runs.cast {a : α} {ts' : List Token} (hts : ts' = ts) (hacts : acts₁ = acts₂)
    (h : Runs line p ts a acts₂ rest) : Runs line p ts' a acts₁ rest := by
  subst hts hacts
  exact h

theorem Runs.bind {f : α → Parser β} {a : α} (hp : Runs line p ts a acts₁ mid)
    (hf : Runs line (f a) mid b acts₂ rest) :
    Runs line (p >>= f) ts b (acts₁ ++ acts₂) rest := by
  intro c hc
  obtain ⟨c₁, hok₁, rfl, hc₁⟩ := hp c hc
  obtain ⟨c₂, hok₂, rfl, hc₂⟩ := hf c₁ hc₁
  have hpc : p c = ⟨(p c).actions, .ok (a, c₁)⟩ := by rw [← hok₁]
  refine ⟨c₂, ?_, ?_, hc₂⟩
  · rw [bind_ok hpc]
    exact hok₂
  · rw [bind_ok hpc]
    exact quiet_append ..

theorem runs_pure {a : α} : Runs line (pure a) ts a [] ts :=
  fun c hc => ⟨c, rfl, rfl, hc⟩

theorem runs_perform {action : Action} (hquiet : action.isScan = false) :
    Runs line (perform action) ts () [action] ts :=
  fun c hc => ⟨c, rfl, by simp [perform, quiet, hquiet], hc⟩

theorem runs_perform_bind {action : Action} {f : Unit → Parser β}
    (hquiet : action.isScan = false) (h : Runs line (f ()) ts b acts rest) :
    Runs line (perform action >>= f) ts b (action :: acts) rest :=
  (runs_perform hquiet).bind h

theorem runs_token_bind {f : Token → Parser β}
    (h : Runs line (f (ts.headD (Scanner.eofToken line))) ts b acts rest) :
    Runs line (token >>= f) ts b acts rest := by
  have htoken : Runs line token ts (ts.headD (Scanner.eofToken line)) [] ts :=
    fun c hc => ⟨c, by rw [← hc.current]; rfl, rfl, hc⟩
  exact htoken.bind h

theorem runs_advance : Runs line advance ts () [] ts.tail := by
  intro c hc
  obtain ⟨scanned, c', hadv, hc'⟩ := hc.advance
  unfold advance
  rw [hadv]
  exact ⟨c', rfl, quiet_scans scanned, hc'⟩

theorem runs_advance_bind {f : Unit → Parser β} (h : Runs line (f ()) ts.tail b acts rest) :
    Runs line (advance >>= f) ts b acts rest :=
  runs_advance.bind h

theorem runs_peek_bind {f : Kind → Parser β} (h : Runs line (f (headKind ts.tail)) ts b acts rest) :
    Runs line (peek >>= f) ts b acts rest := by
  have hpeek : Runs line peek ts (headKind ts.tail) [] ts := by
    intro c hc
    obtain ⟨scanned, c', hpeek, hc'⟩ := hc.peek
    unfold peek
    rw [hpeek, kind_headD]
    exact ⟨c', rfl, quiet_scans scanned, hc'⟩
  exact hpeek.bind h

/-- There are at least as many steps as tokens. -/
theorem runs_remaining_bind {f : Nat → Parser β}
    (h : ∀ n, ts.length ≤ n → Runs line (f n) ts b acts rest) :
    Runs line (remaining >>= f) ts b acts rest := by
  intro c hc
  obtain ⟨c', hok, hacts, hc'⟩ := h c.remaining hc.length_le_remaining c hc
  have hrem : remaining c = ⟨[], .ok (c.remaining, c)⟩ := rfl
  exact ⟨c', by rw [bind_ok hrem]; exact hok, by rw [bind_ok hrem]; exact hacts, hc'⟩

theorem runs_check_bind {kind : Kind} {f : Bool → Parser β}
    (h : Runs line (f (decide (headKind ts = kind))) ts b acts rest) :
    Runs line (check kind >>= f) ts b acts rest := by
  have hcheck : Runs line (check kind) ts (decide (headKind ts = kind)) [] ts :=
    runs_token_bind (by rw [kind_headD]; exact runs_pure)
  exact hcheck.bind h

theorem runs_expect_bind {kind : Kind} {f : Token → Parser β} {t : Token} (ht : t.kind = kind)
    (h : Runs line (f t) ts b acts rest) : Runs line (expect kind >>= f) (t :: ts) b acts rest := by
  have hexpect : Runs line (expect kind) (t :: ts) t [] ts := by
    refine runs_token_bind ?_
    rw [List.headD_cons, if_pos ht]
    exact runs_advance_bind runs_pure
  exact hexpect.bind h

theorem runs_expectName_bind {f : String → Parser β} {t : Token} (ht : t.kind = .identifier)
    (h : Runs line (f t.lexeme) ts b acts rest) :
    Runs line (expectName >>= f) (t :: ts) b acts rest := by
  have hname : Runs line expectName (t :: ts) t.lexeme [] ts := runs_expect_bind ht runs_pure
  exact hname.bind h

theorem runs_nameAhead_bind {f : Token → Parser β} {t : Token} (ht : t.kind = .identifier)
    (h : Runs line (f t) (t :: ts) b acts rest) :
    Runs line (nameAhead >>= f) (t :: ts) b acts rest := by
  have hname : Runs line nameAhead (t :: ts) t [] (t :: ts) := by
    refine runs_token_bind ?_
    rw [List.headD_cons, if_pos ht]
    exact runs_pure
  exact hname.bind h

theorem runs_consume_yes {kind : Kind} {f : Bool → Parser β} {t : Token} (ht : t.kind = kind)
    (h : Runs line (f true) ts b acts rest) :
    Runs line (consume kind >>= f) (t :: ts) b acts rest := by
  have hconsume : Runs line (consume kind) (t :: ts) true [] ts := by
    refine runs_check_bind ?_
    rw [headKind_cons, if_pos (decide_eq_true ht)]
    exact runs_advance_bind runs_pure
  exact hconsume.bind h

theorem runs_consume_no {kind : Kind} {f : Bool → Parser β} (hts : headKind ts ≠ kind)
    (h : Runs line (f false) ts b acts rest) : Runs line (consume kind >>= f) ts b acts rest := by
  have hconsume : Runs line (consume kind) ts false [] ts := by
    refine runs_check_bind ?_
    rw [if_neg (by simpa using hts)]
    exact runs_pure
  exact hconsume.bind h

end Runs

/-! ## Repetition -/

section Repetition

open Triad.Syntax

variable {X : Type} {spell : X → List Token} {call : X → List Action} {item : Parser Unit}

theorem leads_many {test : Token → Bool}
    (hitem : ∀ ts, test (ts.headD (Scanner.eofToken line)) = true →
      Leads line item ts fun _ acts rest => ∃ x, ts = spell x ++ rest ∧ acts = call x) :
    Leads line (many test item) ts fun _ acts rest =>
      ∃ xs : List X, ts = xs.flatMap spell ++ rest ∧ acts = xs.flatMap call := by
  refine leads_remaining_bind fun n => ?_
  induction n generalizing ts with
  | zero => exact leads_pure ⟨[], rfl, rfl⟩
  | succ n ih =>
    refine leads_token_bind ?_
    split
    · rename_i htest
      refine (hitem ts htest).bind ?_
      rintro _ _ mid ⟨x, rfl, rfl⟩
      refine ih.mono ?_
      rintro _ _ rest ⟨xs, rfl, rfl⟩
      exact ⟨x :: xs, by simp, by simp⟩
    · exact leads_pure ⟨[], rfl, rfl⟩

/-- The loop stops at the token behind the last phrase, and not before: every phrase takes a token,
so the steps suffice. -/
theorem runs_many {test : Token → Bool} (xs : List X)
    (hitem : ∀ x ∈ xs, ∀ rest, Runs line item (spell x ++ rest) () (call x) rest)
    (htest : ∀ x ∈ xs, ∃ t ts, spell x = t :: ts ∧ test t = true)
    (hstop : test (rest.headD (Scanner.eofToken line)) = false) :
    Runs line (many test item) (xs.flatMap spell ++ rest) () (xs.flatMap call) rest := by
  refine runs_remaining_bind fun n hn => ?_
  induction n generalizing xs with
  | zero =>
    cases xs with
    | nil => exact runs_pure
    | cons x xs =>
      obtain ⟨t, ts, hx, -⟩ := htest x (List.mem_cons_self ..)
      simp [hx] at hn
  | succ n ih =>
    refine runs_token_bind ?_
    cases xs with
    | nil =>
      rw [List.flatMap_nil, List.nil_append, if_neg (by rw [hstop]; exact Bool.false_ne_true)]
      exact runs_pure
    | cons x xs =>
      obtain ⟨t, ts, hx, ht⟩ := htest x (List.mem_cons_self ..)
      have hhead :
          test (((x :: xs).flatMap spell ++ rest).headD (Scanner.eofToken line)) = true := by
        simpa [hx] using ht
      rw [if_pos hhead, List.flatMap_cons, List.flatMap_cons, List.append_assoc]
      refine (hitem x (List.mem_cons_self ..) _).bind (ih xs ?_ ?_ ?_)
      · exact fun y hy => hitem y (List.mem_cons_of_mem x hy)
      · exact fun y hy => htest y (List.mem_cons_of_mem x hy)
      · simp only [List.flatMap_cons, hx, List.cons_append, List.length_cons,
          List.length_append] at hn ⊢
        omega

theorem leads_list
    (hitem : ∀ ts, Leads line item ts fun _ acts rest =>
      ∃ x, ts = spell x ++ rest ∧ acts = call x) :
    Leads line (list item) ts fun count acts rest =>
      ∃ l : Listed X, ts = l.tokens spell ++ rest ∧ acts = l.toList.flatMap call ∧
        count = l.toList.length := by
  refine leads_remaining_bind fun n => ?_
  induction n generalizing ts with
  | zero =>
    refine (hitem ts).bind ?_
    rintro _ _ mid ⟨x, rfl, rfl⟩
    exact leads_pure ⟨⟨x, []⟩, by simp [Listed.tokens], by simp [Listed.toList], rfl⟩
  | succ n ih =>
    refine (hitem ts).bind ?_
    rintro _ _ mid ⟨x, rfl, rfl⟩
    refine leads_consume_bind (by decide) ?_ ?_
    · rintro comma rest rfl hcomma
      refine ih.bind ?_
      rintro _ _ rest ⟨l, rfl, rfl, rfl⟩
      refine leads_pure ⟨⟨x, (⟨comma, hcomma⟩, l.first) :: l.more⟩, ?_, ?_, rfl⟩
      · simp [Listed.tokens]
      · simp [Listed.toList]
    · exact leads_pure ⟨⟨x, []⟩, by simp [Listed.tokens], by simp [Listed.toList], rfl⟩

/-- A list ends at a token that is no comma, and a phrase of it is read before a comma and at the
end. -/
theorem runs_list (l : Listed X) (hend : headKind rest ≠ .comma)
    (hitem : ∀ x ts, headKind ts = .comma ∨ ts = rest →
      Runs line item (spell x ++ ts) () (call x) ts) :
    Runs line (list item) (l.tokens spell ++ rest) l.toList.length (l.toList.flatMap call)
      rest := by
  refine runs_remaining_bind fun n hn => ?_
  obtain ⟨first, more⟩ := l
  induction more generalizing first n with
  | nil =>
    have hfirst := hitem first rest (.inr rfl)
    cases n with
    | zero =>
      exact Runs.cast (by simp [Listed.tokens]) (by simp [Listed.toList]) (hfirst.bind runs_pure)
    | succ n =>
      exact Runs.cast (by simp [Listed.tokens]) (by simp [Listed.toList])
        (hfirst.bind (runs_consume_no hend runs_pure))
  | cons next more ih =>
    obtain ⟨comma, second⟩ := next
    cases n with
    | zero => simp [Listed.tokens] at hn
    | succ n =>
      have hlen : (Listed.tokens spell ⟨second, more⟩ ++ rest).length ≤ n := by
        simp only [Listed.tokens, List.flatMap_cons, List.length_append, List.length_cons] at hn ⊢
        omega
      have hfirst := hitem first (comma.1 :: (Listed.tokens spell ⟨second, more⟩ ++ rest))
        (.inl comma.2)
      exact Runs.cast (by simp [Listed.tokens]) (by simp [Listed.toList])
        (hfirst.bind (runs_consume_yes comma.2 ((ih n second hlen).bind runs_pure)))

theorem leads_dottedName :
    Leads line dottedName ts fun name acts rest =>
      ∃ d : Dotted, ts = d.tokens ++ rest ∧ acts = [] ∧ name = d.text := by
  refine leads_expectName_bind ?_
  rintro first ts rfl hfirst
  refine leads_remaining_bind fun n => ?_
  have hmore : ∀ name, Leads line (dottedWithin name n) ts fun text acts rest =>
      ∃ more : List (Tok .period × Tok .identifier),
        ts = (more.flatMap fun part => [part.1.1, part.2.1]) ++ rest ∧ acts = [] ∧
        text = more.foldl (fun name part => name ++ "." ++ part.2.1.lexeme) name := by
    induction n generalizing ts with
    | zero => exact fun name => leads_pure ⟨[], rfl, rfl, rfl⟩
    | succ n ih =>
      intro name
      refine leads_consume_bind (by decide) ?_ (leads_pure ⟨[], rfl, rfl, rfl⟩)
      rintro period ts rfl hperiod
      refine leads_expectName_bind ?_
      rintro next ts rfl hnext
      refine (ih ts (name ++ "." ++ next.lexeme)).mono ?_
      rintro _ _ rest ⟨more, rfl, rfl, rfl⟩
      exact ⟨(⟨period, hperiod⟩, ⟨next, hnext⟩) :: more, by simp, rfl, rfl⟩
  refine (hmore first.lexeme).mono ?_
  rintro _ _ rest ⟨more, rfl, rfl, rfl⟩
  exact ⟨⟨⟨first, hfirst⟩, more⟩, rfl, rfl, rfl⟩

theorem runs_dottedName (d : Dotted) (hend : headKind rest ≠ .period) :
    Runs line dottedName (d.tokens ++ rest) d.text [] rest := by
  obtain ⟨first, more⟩ := d
  refine runs_expectName_bind first.2 (runs_remaining_bind fun n hn => ?_)
  unfold Dotted.text
  dsimp only
  generalize first.1.lexeme = name
  change (more.flatMap (fun part => [part.1.1, part.2.1]) ++ rest).length ≤ n at hn
  change Runs line (dottedWithin name n)
    (more.flatMap (fun part => [part.1.1, part.2.1]) ++ rest) _ _ _
  induction more generalizing name n with
  | nil =>
    cases n with
    | zero => exact runs_pure
    | succ n => exact runs_consume_no hend runs_pure
  | cons next more ih =>
    obtain ⟨period, part⟩ := next
    cases n with
    | zero => simp at hn
    | succ n =>
      refine runs_consume_yes period.2 (runs_expectName_bind part.2 (ih n _ ?_))
      simp only [List.flatMap_cons, List.cons_append, List.length_cons] at hn
      exact Nat.le_of_succ_le (Nat.le_of_succ_le_succ hn)

end Repetition

end Parser

end Triad
