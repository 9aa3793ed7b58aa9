import Triad.Proofs.ExpressionReading

/-!
Statements are read exactly as the grammar derives them: the parser of each phrase leads to a tree
of the phrase that spells what was read, and runs through every tree of the phrase, with the actions
of the tree in both cases. A name starts a call if a point or a parenthesis stands behind it, which
no expression before a semicolon does.
-/

namespace Triad.Grammar

open Triad.Parser Triad.Syntax

variable {line : Nat} {ts rest : List Token}

/-! ## Calls -/

theorem exists_tokens_expr {r : Rank} (e : Expr r) :
    ∃ t ts, e.tokens = t :: ts ∧
      (t.kind = .identifier ∨ isNumeric t.kind = true ∨ t.kind = .leftParen ∨
        t.kind = .signOp) := by
  induction e with
  | name t => exact ⟨t.1, [], rfl, .inl t.2⟩
  | numeral t => exact ⟨t.1, [], rfl, .inr (.inl t.2)⟩
  | paren left e right _ => exact ⟨left.1, _, rfl, .inr (.inr (.inl left.2))⟩
  | minus sign f _ => exact ⟨sign.1, _, rfl, .inr (.inr (.inr sign.2))⟩
  | ofFactor f ih => exact ih
  | product t op f iht _ =>
    obtain ⟨u, us, hu, hkind⟩ := iht
    exact ⟨u, us ++ op.token :: f.tokens, by rw [Expr.tokens, hu]; rfl, hkind⟩
  | ofTerm t ih => exact ih
  | sum e op t ihe _ =>
    obtain ⟨u, us, hu, hkind⟩ := ihe
    exact ⟨u, us ++ op.token :: t.tokens, by rw [Expr.tokens, hu]; rfl, hkind⟩

theorem headKind_expr_ne {r : Rank} (e : Expr r) {kind : Kind}
    (h : kind ∈ [Kind.rightParen, .semicolon]) : headKind (e.tokens ++ ts) ≠ kind := by
  obtain ⟨t, us, he, hkind⟩ := exists_tokens_expr e
  rw [he, List.cons_append, headKind_cons]
  rintro rfl
  simp only [List.mem_cons, List.not_mem_nil, or_false] at h
  rcases h with h | h <;> rw [h] at hkind <;> simp [isNumeric] at hkind

theorem leads_arguments :
    Leads line arguments ts fun count acts rest =>
      ∃ a : Option (Listed (Expr .expr)),
        ts = a.toList.flatMap (Listed.tokens Expr.tokens) ++ rest ∧
        acts = (a.toList.flatMap Listed.toList).flatMap Expr.actions ∧
        count = (a.toList.flatMap Listed.toList).length := by
  refine leads_check_bind ?_
  split
  · exact leads_pure ⟨none, rfl, rfl, rfl⟩
  · refine (leads_list fun _ => leads_expr).mono ?_
    rintro _ _ rest ⟨l, rfl, rfl, rfl⟩
    exact ⟨some l, by simp, by simp, by simp⟩

theorem runs_arguments (a : Option (Listed (Expr .expr))) (hend : headKind rest = .rightParen) :
    Runs line arguments (a.toList.flatMap (Listed.tokens Expr.tokens) ++ rest)
      (a.toList.flatMap Listed.toList).length
      ((a.toList.flatMap Listed.toList).flatMap Expr.actions) rest := by
  refine runs_check_bind ?_
  cases a with
  | none =>
    rw [Option.toList_none, List.flatMap_nil, List.nil_append, if_pos (decide_eq_true hend)]
    exact runs_pure
  | some l =>
    rw [Option.toList_some, List.flatMap_singleton, List.flatMap_singleton]
    have hhead : headKind (l.tokens Expr.tokens ++ rest) ≠ .rightParen := by
      rw [Listed.tokens, List.append_assoc]
      exact headKind_expr_ne l.first (by decide)
    rw [if_neg (by simpa using hhead)]
    refine runs_list l (by rw [hend]; decide) fun e ts hts => runs_expr e ?_
    rcases hts with hts | rfl
    · simp [EndsExpr, hts]
    · simp [EndsExpr, hend]

/-- A call from its parenthesis on. -/
def callTail (qualifier : Option String) (method : String) : Parser Unit := do
  let _ ← expect .leftParen
  let count ← arguments
  let _ ← expect .rightParen
  perform (.call qualifier method count)

theorem leads_callTail (qualifier : Option String) (method : String) :
    Leads line (callTail qualifier method) ts fun _ acts rest =>
      ∃ (left : Tok .leftParen) (a : Option (Listed (Expr .expr))) (right : Tok .rightParen),
        ts = left.1 :: a.toList.flatMap (Listed.tokens Expr.tokens) ++ right.1 :: rest ∧
        acts = (a.toList.flatMap Listed.toList).flatMap Expr.actions ++
          [.call qualifier method (a.toList.flatMap Listed.toList).length] := by
  refine leads_expect_bind (by decide) ?_
  rintro left ts rfl hleft
  refine leads_arguments.bind ?_
  rintro _ _ mid ⟨a, rfl, rfl, rfl⟩
  refine leads_expect_bind (by decide) ?_
  rintro right rest rfl hright
  exact leads_perform rfl ⟨⟨left, hleft⟩, a, ⟨right, hright⟩, rfl, rfl⟩

theorem leads_call :
    Leads line call ts fun _ acts rest => ∃ c : Call, ts = c.tokens ++ rest ∧ acts = c.actions := by
  refine leads_expectName_bind ?_
  rintro name ts rfl hname
  refine leads_consume_bind (by decide) ?_ ?_
  · rintro period ts rfl hperiod
    refine leads_expectName_bind ?_
    rintro method ts rfl hmethod
    refine (leads_callTail (some name.lexeme) method.lexeme).mono ?_
    rintro _ _ rest ⟨left, a, right, rfl, rfl⟩
    exact ⟨⟨⟨name, hname⟩, some (⟨period, hperiod⟩, ⟨method, hmethod⟩), left, a, right⟩,
      by simp [Call.tokens], rfl⟩
  · refine (leads_callTail none name.lexeme).mono ?_
    rintro _ _ rest ⟨left, a, right, rfl, rfl⟩
    exact ⟨⟨⟨name, hname⟩, none, left, a, right⟩, by simp [Call.tokens], rfl⟩

theorem runs_call (c : Call) : Runs line call (c.tokens ++ rest) () c.actions rest := by
  obtain ⟨name, member, left, a, right⟩ := c
  have hright : headKind (right.1 :: rest) = .rightParen := right.2
  have htail : ∀ qualifier method, Runs line (callTail qualifier method)
      (left.1 :: (a.toList.flatMap (Listed.tokens Expr.tokens) ++ right.1 :: rest)) ()
      ((a.toList.flatMap Listed.toList).flatMap Expr.actions ++
        [.call qualifier method (a.toList.flatMap Listed.toList).length]) rest :=
    fun qualifier method => runs_expect_bind left.2
      ((runs_arguments a hright).bind (runs_expect_bind right.2 (runs_perform rfl)))
  cases member with
  | none =>
    refine Runs.cast (by simp [Call.tokens]) rfl (runs_expectName_bind name.2
      (runs_consume_no ?_ (htail none name.1.lexeme)))
    rw [headKind_cons, left.2]
    decide
  | some member =>
    exact Runs.cast (by simp [Call.tokens]) rfl (runs_expectName_bind name.2
      (runs_consume_yes member.1.2 (runs_expectName_bind member.2.2
        (htail (some name.1.lexeme) member.2.1.lexeme))))

/-- A name and a point or a parenthesis. -/
def startsCall (ts : List Token) : Bool :=
  decide (headKind ts = .identifier) &&
    (decide (headKind ts.tail = .period) || decide (headKind ts.tail = .leftParen))

theorem leads_atCall_bind {β : Type} {f : Bool → Parser β}
    {Q : β → List Action → List Token → Prop} (h : Leads line (f (startsCall ts)) ts Q) :
    Leads line (atCall >>= f) ts Q := by
  refine Leads.bind (P := fun b acts mid => b = startsCall ts ∧ acts = [] ∧ mid = ts) ?_ ?_
  · refine leads_check_bind ?_
    split
    · rename_i hname
      refine leads_peek_bind (leads_pure ⟨?_, rfl, rfl⟩)
      rw [startsCall, hname, Bool.true_and]
    · rename_i hname
      refine leads_pure ⟨?_, rfl, rfl⟩
      rw [startsCall, Bool.eq_false_iff.mpr hname, Bool.false_and]
  · rintro _ _ _ ⟨rfl, rfl, rfl⟩
    exact h

theorem runs_atCall_bind {β : Type} {f : Bool → Parser β} {b : β} {acts : List Action}
    (h : Runs line (f (startsCall ts)) ts b acts rest) :
    Runs line (atCall >>= f) ts b acts rest := by
  have hatCall : Runs line atCall ts (startsCall ts) [] ts := by
    refine runs_check_bind ?_
    unfold startsCall
    split
    · rename_i hname
      rw [hname, Bool.true_and]
      exact runs_peek_bind runs_pure
    · rename_i hname
      rw [Bool.eq_false_iff.mpr hname, Bool.false_and]
      exact runs_pure
  exact hatCall.bind h

theorem startsCall_call (c : Call) (ts : List Token) : startsCall (c.tokens ++ ts) = true := by
  obtain ⟨name, member, left, a, right⟩ := c
  cases member with
  | none => simp [startsCall, Call.tokens, name.2, left.2]
  | some member => simp [startsCall, Call.tokens, name.2, member.1.2]

/-- An expression does not start as a call, unless a call could go on behind it. -/
theorem startsCall_expr {r : Rank} (e : Expr r)
    (hts : headKind ts ≠ .period ∧ headKind ts ≠ .leftParen) :
    startsCall (e.tokens ++ ts) = false := by
  have hop : ∀ {table : List (Kind × String × BinOp)} {kinds : List Kind} (op : Operator table),
      Tabulates table kinds → Kind.period ∉ kinds → Kind.leftParen ∉ kinds → ∀ us,
      headKind (op.token :: us) ≠ .period ∧ headKind (op.token :: us) ≠ .leftParen := by
    intro table kinds op htable hperiod hparen us
    have hmem := htable.kind _ _ op.listed
    exact ⟨fun h => hperiod (h ▸ hmem), fun h => hparen (h ▸ hmem)⟩
  induction e generalizing ts with
  | name t => simp [startsCall, Expr.tokens, hts.1, hts.2]
  | numeral t =>
    have hkind : t.1.kind ≠ .identifier := by
      intro h
      have := t.2
      rw [h] at this
      cases this
    simp [startsCall, Expr.tokens, hkind]
  | paren left e right _ => simp [startsCall, Expr.tokens, left.2]
  | minus sign f _ => simp [startsCall, Expr.tokens, sign.2]
  | ofFactor f ih => exact ih hts
  | product t op f iht _ =>
    rw [Expr.tokens, List.append_assoc]
    exact iht (hop op tabulates_mulops (by decide) (by decide) _)
  | ofTerm t ih => exact ih hts
  | sum e op t ihe _ =>
    rw [Expr.tokens, List.append_assoc]
    exact ihe (hop op tabulates_addops (by decide) (by decide) _)

/-! ## Statements -/

theorem assignmentOf?_eq_some_iff (lexeme : String) (op : Option BinOp) :
    assignmentOf? lexeme = some op ↔ (Kind.assignOp, lexeme, op) ∈ assignops := by
  unfold assignmentOf? assignops
  split <;> simp_all [eq_comm]

theorem leads_assignment :
    Leads line assignment ts fun op acts rest =>
      ∃ o : Operator assignops, ts = o.token :: rest ∧ acts = [] ∧ op = o.meaning := by
  refine leads_token_bind ?_
  split
  · rename_i hkind
    rw [kind_headD] at hkind
    obtain ⟨t, ts, rfl, ht⟩ := exists_cons_of_headKind hkind (by decide)
    rw [List.headD_cons]
    split
    · rename_i op hop
      have hlisted := (assignmentOf?_eq_some_iff t.lexeme op).mp hop
      exact leads_advance_bind (leads_pure ⟨⟨t, op, ht ▸ hlisted⟩, rfl, rfl, rfl⟩)
    · exact leads_mismatch
  · exact leads_mismatch

theorem kind_assignop (op : Operator assignops) : op.token.kind = .assignOp := by
  have h := op.listed
  simp only [assignops, List.mem_cons, Prod.mk.injEq, List.not_mem_nil, or_false] at h
  rcases h with h | h | h | h | h <;> exact h.1

theorem runs_assignment (op : Operator assignops) :
    Runs line assignment (op.token :: rest) op.meaning [] rest := by
  have hlisted : (Kind.assignOp, op.token.lexeme, op.meaning) ∈ assignops :=
    kind_assignop op ▸ op.listed
  refine runs_token_bind ?_
  rw [List.headD_cons, if_pos (kind_assignop op), (assignmentOf?_eq_some_iff _ _).mpr hlisted]
  exact runs_advance_bind runs_pure

theorem leads_assignStatement (hname : headKind ts = .identifier) :
    Leads line assignStatement ts fun _ acts rest =>
      ∃ s : Statement, ts = s.tokens ++ rest ∧ acts = s.actions := by
  refine leads_atCall_bind ?_
  split
  · refine leads_call.mono ?_
    rintro _ _ rest ⟨c, rfl, rfl⟩
    exact ⟨.call c, rfl, rfl⟩
  · obtain ⟨t, ts, rfl, ht⟩ := exists_cons_of_headKind hname (by decide)
    refine leads_token_bind (leads_perform_bind rfl (leads_advance_bind
      (leads_assignment.bind ?_)))
    rintro _ _ _ ⟨op, rfl, rfl, rfl⟩
    refine leads_atCall_bind ?_
    split
    · refine leads_call.bind ?_
      rintro _ _ mid ⟨c, rfl, rfl⟩
      refine leads_perform_bind (by split <;> rfl) (leads_perform rfl
        ⟨.assign ⟨t, ht⟩ op (.call c), rfl, ?_⟩)
      simp [Statement.actions, Source.actions]
    · refine leads_expr.bind ?_
      rintro _ _ mid ⟨e, rfl, rfl⟩
      exact leads_perform rfl ⟨.assign ⟨t, ht⟩ op (.expr e), rfl, rfl⟩

theorem runs_assignStatement_assign (target : Tok .identifier) (op : Operator assignops)
    (source : Source) (hend : headKind rest = .semicolon) :
    Runs line assignStatement ((Statement.assign target op source).tokens ++ rest) ()
      (Statement.assign target op source).actions rest := by
  have hstart : startsCall ((Statement.assign target op source).tokens ++ rest) = false := by
    simp [startsCall, Statement.tokens, kind_assignop op]
  have hsource : Runs line (do
      if ← atCall then
        call
        perform (if op.meaning.isSome then .park else .result)
      else expr
      perform (.assign op.meaning)) (source.tokens ++ rest) ()
      (source.actions op.meaning ++ [.assign op.meaning]) rest := by
    refine runs_atCall_bind ?_
    cases source with
    | call c =>
      rw [Source.tokens, startsCall_call c rest]
      exact Runs.cast rfl (by simp [Source.actions]) ((runs_call c).bind
        (runs_perform_bind (by split <;> rfl) (runs_perform rfl)))
    | expr e =>
      rw [Source.tokens, startsCall_expr e (by rw [hend]; decide)]
      exact (runs_expr e (by rw [EndsExpr, hend]; decide)).bind (runs_perform rfl)
  refine runs_atCall_bind ?_
  rw [hstart]
  exact runs_token_bind (runs_perform_bind rfl (runs_advance_bind
    ((runs_assignment op).bind hsource)))

theorem runs_assignStatement_call (c : Call) :
    Runs line assignStatement (c.tokens ++ rest) () c.actions rest := by
  refine runs_atCall_bind ?_
  rw [startsCall_call c rest]
  exact runs_call c

theorem leads_readItem :
    Leads line readItem ts fun _ acts rest =>
      ∃ t : Tok .identifier, ts = [t.1] ++ rest ∧ acts = [.read t.1.line t.1.lexeme] := by
  refine leads_nameAhead_bind ?_
  rintro t rest rfl ht
  exact leads_perform_bind rfl (leads_advance ⟨⟨t, ht⟩, rfl, rfl⟩)

theorem runs_readItem (t : Tok .identifier) :
    Runs line readItem ([t.1] ++ rest) () [.read t.1.line t.1.lexeme] rest :=
  runs_nameAhead_bind t.2 (runs_perform_bind rfl runs_advance)

theorem leads_readStatement :
    Leads line readStatement ts fun _ acts rest =>
      ∃ s : Statement, ts = s.tokens ++ rest ∧ acts = s.actions := by
  refine leads_expect_bind (by decide) ?_
  rintro keyword ts rfl hkeyword
  refine leads_expect_bind (by decide) ?_
  rintro left ts rfl hleft
  refine (leads_list fun _ => leads_readItem).bind ?_
  rintro _ _ mid ⟨names, rfl, rfl, -⟩
  refine leads_expect_bind (by decide) ?_
  rintro right rest rfl hright
  exact leads_pure ⟨.read ⟨keyword, hkeyword⟩ ⟨left, hleft⟩ names ⟨right, hright⟩,
    by simp [Statement.tokens], (List.append_nil _).trans List.map_eq_flatMap.symm⟩

theorem leads_writeItem :
    Leads line writeItem ts fun _ acts rest =>
      ∃ i : WriteItem, ts = [i.token] ++ rest ∧ acts = [i.action] := by
  refine leads_token_bind ?_
  cases ts with
  | nil => exact leads_mismatch_bind
  | cons t ts =>
    rw [List.headD_cons]
    split
    · rename_i hkind
      exact leads_perform_bind rfl (leads_advance ⟨.name ⟨t, hkind⟩, rfl, rfl⟩)
    · rename_i value hkind
      exact leads_perform_bind rfl
        (leads_advance ⟨.numeral ⟨t, by rw [hkind]; rfl⟩, rfl, rfl⟩)
    · rename_i value hkind
      exact leads_perform_bind rfl
        (leads_advance ⟨.numeral ⟨t, by rw [hkind]; rfl⟩, rfl, rfl⟩)
    · rename_i body hkind
      exact leads_perform_bind rfl (leads_advance ⟨.literal ⟨t, body, hkind⟩, rfl, rfl⟩)
    · exact leads_mismatch_bind

theorem runs_writeItem (i : WriteItem) :
    Runs line writeItem ([i.token] ++ rest) () [i.action] rest := by
  refine runs_token_bind ?_
  rw [List.singleton_append, List.headD_cons]
  cases i with
  | name t =>
    have hkind : (WriteItem.name t).token.kind = .identifier := t.2
    rw [hkind]
    exact runs_perform_bind rfl runs_advance
  | numeral t =>
    rcases numeric_cases t with ⟨n, hn⟩ | ⟨x, hx⟩
    · have hkind : (WriteItem.numeral t).token.kind = .number n := hn
      rw [hkind]
      exact runs_perform_bind rfl runs_advance
    · have hkind : (WriteItem.numeral t).token.kind = .decimal x := hx
      rw [hkind]
      exact runs_perform_bind rfl runs_advance
  | literal t =>
    have hkind : (WriteItem.literal t).token.kind = .literal t.body := t.spelled
    rw [hkind]
    exact runs_perform_bind rfl runs_advance

/-- The end of a write statement, with the actions of its items before it. -/
theorem leads_writeTail {newline : Bool} {Q : Unit → List Action → List Token → Prop}
    (h : ∀ right rest, ts = right :: rest → right.kind = .rightParen →
      Q () (if newline then [.writeLine] else []) rest) :
    Leads line (do
      let _ ← expect .rightParen
      if newline then perform .writeLine) ts Q := by
  refine leads_expect_bind (by decide) fun right rest hts hright => ?_
  have hQ := h right rest hts hright
  cases newline with
  | true => exact leads_perform rfl hQ
  | false => exact leads_pure hQ

theorem leads_writeStatement (hkind : headKind ts = .kwWrite ∨ headKind ts = .kwWriteln) :
    Leads line writeStatement ts fun _ acts rest =>
      ∃ s : Statement, ts = s.tokens ++ rest ∧ acts = s.actions := by
  refine leads_check_bind ?_
  rcases hkind with hkind | hkind <;> rw [hkind] <;>
    obtain ⟨keyword, ts, rfl, hkeyword⟩ := exists_cons_of_headKind hkind (by decide) <;>
    refine leads_advance_bind (leads_expect_bind (by decide) fun left ts hts hleft => ?_) <;>
    obtain rfl : _ = left :: ts := hts <;>
    refine leads_check_bind ?_
  · refine (leads_list fun _ => leads_writeItem).bind ?_
    rintro _ _ mid ⟨items, rfl, rfl, -⟩
    refine leads_writeTail ?_
    rintro right rest rfl hright
    exact ⟨.write ⟨keyword, hkeyword⟩ ⟨left, hleft⟩ items ⟨right, hright⟩,
      by simp [Statement.tokens], by simp [Statement.actions, List.map_eq_flatMap]⟩
  · dsimp only
    split
    · refine leads_writeTail ?_
      rintro right rest rfl hright
      exact ⟨.writeln ⟨keyword, hkeyword⟩ ⟨left, hleft⟩ none ⟨right, hright⟩, rfl, rfl⟩
    · refine (leads_list fun _ => leads_writeItem).bind ?_
      rintro _ _ mid ⟨items, rfl, rfl, -⟩
      refine leads_writeTail ?_
      rintro right rest rfl hright
      exact ⟨.writeln ⟨keyword, hkeyword⟩ ⟨left, hleft⟩ (some items) ⟨right, hright⟩,
        by simp [Statement.tokens], by simp [Statement.actions, List.map_eq_flatMap]⟩

theorem runs_writeTail {newline : Bool} (right : Tok .rightParen) :
    Runs line (do
      let _ ← expect .rightParen
      if newline then perform .writeLine) (right.1 :: rest) ()
      (if newline then [.writeLine] else []) rest := by
  refine runs_expect_bind right.2 ?_
  cases newline with
  | true => exact runs_perform rfl
  | false => exact runs_pure

theorem runs_writeItems (items : Listed WriteItem) (right : Tok .rightParen) :
    Runs line (list writeItem) (items.tokens (fun i => [i.token]) ++ right.1 :: rest)
      items.toList.length (items.toList.map WriteItem.action) (right.1 :: rest) := by
  rw [List.map_eq_flatMap]
  exact runs_list items (by rw [headKind_cons, right.2]; decide) fun i ts _ => runs_writeItem i

theorem headKind_writeItems (items : Listed WriteItem) (ts : List Token) :
    headKind (items.tokens (fun i => [i.token]) ++ ts) ≠ .rightParen := by
  have htoken : items.first.token.kind ≠ .rightParen := by
    cases items.first with
    | name t => simp [WriteItem.token, t.2]
    | numeral t => rcases numeric_cases t with ⟨n, hn⟩ | ⟨x, hx⟩ <;> simp [WriteItem.token, *]
    | literal t => simp [WriteItem.token, t.spelled]
  exact htoken

theorem runs_writeStatement_write (keyword : Tok .kwWrite) (left : Tok .leftParen)
    (items : Listed WriteItem) (right : Tok .rightParen) :
    Runs line writeStatement ((Statement.write keyword left items right).tokens ++ rest) ()
      (Statement.write keyword left items right).actions rest := by
  have htokens : (Statement.write keyword left items right).tokens ++ rest =
      keyword.1 :: left.1 :: (items.tokens (fun i => [i.token]) ++ right.1 :: rest) := by
    simp [Statement.tokens]
  rw [htokens]
  refine runs_check_bind ?_
  rw [headKind_cons, keyword.2]
  exact Runs.cast rfl (List.append_nil _).symm (runs_advance_bind (runs_expect_bind left.2
    (runs_check_bind ((runs_writeItems items right).bind (runs_writeTail right)))))

theorem runs_writeStatement_writeln (keyword : Tok .kwWriteln) (left : Tok .leftParen)
    (items : Option (Listed WriteItem)) (right : Tok .rightParen) :
    Runs line writeStatement ((Statement.writeln keyword left items right).tokens ++ rest) ()
      (Statement.writeln keyword left items right).actions rest := by
  have htokens : (Statement.writeln keyword left items right).tokens ++ rest =
      keyword.1 :: left.1 ::
        (items.toList.flatMap (Listed.tokens fun i => [i.token]) ++ right.1 :: rest) := by
    simp [Statement.tokens]
  rw [htokens]
  refine runs_check_bind ?_
  rw [headKind_cons, keyword.2]
  refine runs_advance_bind (runs_expect_bind left.2 (runs_check_bind ?_))
  cases items with
  | none =>
    have hright : headKind (right.1 :: rest) = .rightParen := right.2
    rw [Option.toList_none, List.flatMap_nil, List.nil_append, hright]
    exact runs_writeTail right
  | some items =>
    rw [Option.toList_some, List.flatMap_singleton,
      decide_eq_false (headKind_writeItems items (right.1 :: rest))]
    exact Runs.cast rfl (by simp [Statement.actions])
      ((runs_writeItems items right).bind (runs_writeTail right))

theorem runs_readStatement (keyword : Tok .kwRead) (left : Tok .leftParen)
    (names : Listed (Tok .identifier)) (right : Tok .rightParen) :
    Runs line readStatement ((Statement.read keyword left names right).tokens ++ rest) ()
      (Statement.read keyword left names right).actions rest := by
  have htokens : (Statement.read keyword left names right).tokens ++ rest =
      keyword.1 :: left.1 :: (names.tokens (fun t => [t.1]) ++ right.1 :: rest) := by
    simp [Statement.tokens]
  have hnames : headKind (right.1 :: rest) ≠ .comma := by
    rw [headKind_cons, right.2]
    decide
  rw [htokens]
  refine runs_expect_bind keyword.2 (runs_expect_bind left.2 (Runs.cast rfl ?_
    ((runs_list names hnames fun t ts _ => runs_readItem t).bind
      (runs_expect_bind right.2 runs_pure))))
  rw [List.append_nil]
  exact List.map_eq_flatMap

theorem leads_statement (hstart : startsStatement (ts.headD (Scanner.eofToken line)) = true) :
    Leads line statement ts fun _ acts rest =>
      ∃ s : Statement × Tok .semicolon,
        ts = (s.1.tokens ++ [s.2.1]) ++ rest ∧ acts = s.1.actions := by
  have hend : ∀ (s : Statement) (mid : List Token), Leads line (do let _ ← expect .semicolon) mid
      fun _ acts rest => ∃ t : Statement × Tok .semicolon,
        s.tokens ++ mid = (t.1.tokens ++ [t.2.1]) ++ rest ∧ s.actions ++ acts = t.1.actions := by
    refine fun s mid => leads_expect_bind (by decide) ?_
    rintro semicolon rest rfl hsemicolon
    exact leads_pure ⟨(s, ⟨semicolon, hsemicolon⟩), by simp, List.append_nil _⟩
  simp only [startsStatement, kind_headD, List.mem_cons, List.not_mem_nil, or_false,
    decide_eq_true_eq] at hstart
  refine leads_token_bind ?_
  rw [kind_headD]
  split
  · rename_i hkind
    refine (leads_assignStatement hkind).bind ?_
    rintro _ _ mid ⟨s, rfl, rfl⟩
    exact hend s mid
  · refine leads_readStatement.bind ?_
    rintro _ _ mid ⟨s, rfl, rfl⟩
    exact hend s mid
  · rename_i hname hread
    refine (leads_writeStatement ?_).bind ?_
    · rcases hstart with h | h | h | h
      · exact absurd h hname
      · exact absurd h hread
      · exact .inl h
      · exact .inr h
    · rintro _ _ mid ⟨s, rfl, rfl⟩
      exact hend s mid

theorem runs_statement (s : Statement × Tok .semicolon) (rest : List Token) :
    Runs line statement ((s.1.tokens ++ [s.2.1]) ++ rest) () s.1.actions rest := by
  obtain ⟨s, semicolon⟩ := s
  have hsemicolon : headKind (semicolon.1 :: rest) = .semicolon := semicolon.2
  refine Runs.cast (List.append_assoc ..) (List.append_nil _).symm (runs_token_bind ?_)
  have hrest : Runs line (do let _ ← expect .semicolon) (semicolon.1 :: rest) () [] rest :=
    runs_expect_bind semicolon.2 runs_pure
  rw [kind_headD]
  cases s with
  | assign target op source =>
    have hkind : headKind ((Statement.assign target op source).tokens ++ ([semicolon.1] ++ rest)) =
      .identifier := target.2
    rw [hkind]
    exact (runs_assignStatement_assign target op source hsemicolon).bind hrest
  | call c =>
    have hkind : headKind ((Statement.call c).tokens ++ ([semicolon.1] ++ rest)) =
      .identifier := c.name.2
    rw [hkind]
    exact (runs_assignStatement_call c).bind hrest
  | read keyword left names right =>
    have hkind : headKind ((Statement.read keyword left names right).tokens ++
      ([semicolon.1] ++ rest)) = .kwRead := keyword.2
    rw [hkind]
    exact (runs_readStatement keyword left names right).bind hrest
  | write keyword left items right =>
    have hkind : headKind ((Statement.write keyword left items right).tokens ++
      ([semicolon.1] ++ rest)) = .kwWrite := keyword.2
    rw [hkind]
    exact (runs_writeStatement_write keyword left items right).bind hrest
  | writeln keyword left items right =>
    have hkind : headKind ((Statement.writeln keyword left items right).tokens ++
      ([semicolon.1] ++ rest)) = .kwWriteln := keyword.2
    rw [hkind]
    exact (runs_writeStatement_writeln keyword left items right).bind hrest

/-- A statement starts with a token that statements start with. -/
theorem exists_tokens_statement (s : Statement) :
    ∃ t ts, s.tokens = t :: ts ∧ startsStatement t = true := by
  cases s with
  | assign target op source => exact ⟨target.1, _, rfl, by simp [startsStatement, target.2]⟩
  | call c => exact ⟨c.name.1, _, rfl, by simp [startsStatement, c.name.2]⟩
  | read keyword _ _ _ | write keyword _ _ _ | writeln keyword _ _ _ =>
    exact ⟨keyword.1, _, rfl, by simp [startsStatement, keyword.2]⟩

end Triad.Grammar
