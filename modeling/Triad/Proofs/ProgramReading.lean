import Triad.Proofs.StatementReading

/-!
Declarations and programs are read exactly as the grammar derives them. Main statements: a text is
read without a fault if and only if a program spells its tokens (`exists_program_of_parse`,
`parse_of_tokens`), and the actions of that program are what it calls for.
-/

namespace Triad.Grammar

open Triad.Parser Triad.Syntax

variable {line : Nat} {ts rest : List Token}

/-! ## Declarations -/

theorem leads_valueType :
    Leads line valueType ts fun type acts rest =>
      ∃ n : TypeName, ts = n.token :: rest ∧ acts = [] ∧ type = n.type := by
  refine leads_token_bind ?_
  cases ts with
  | nil => exact leads_mismatch
  | cons t ts =>
    rw [List.headD_cons]
    split
    · rename_i type htype
      exact leads_advance_bind (leads_pure ⟨⟨t, type, htype⟩, rfl, rfl, rfl⟩)
    · exact leads_mismatch

theorem runs_valueType (n : TypeName) : Runs line valueType (n.token :: rest) n.type [] rest := by
  refine runs_token_bind ?_
  rw [List.headD_cons, n.named]
  exact runs_advance_bind runs_pure

theorem leads_modifiers :
    Leads line modifiers ts fun _ acts rest =>
      ∃ ms : List Modifier, ts = ms.map Subtype.val ++ rest ∧ acts = [] := by
  have hitem : ∀ ts : List Token, (ts.headD (Scanner.eofToken line)).kind.isModifier = true →
      Leads line advance ts fun _ acts rest =>
        ∃ m : Modifier, ts = [m.1] ++ rest ∧ acts = [] := by
    intro ts hts
    cases ts with
    | nil => cases hts
    | cons t ts => exact leads_advance ⟨⟨t, hts⟩, rfl, rfl⟩
  refine (leads_many hitem).mono ?_
  rintro _ _ rest ⟨ms, rfl, rfl⟩
  exact ⟨ms, by rw [List.map_eq_flatMap], by simp⟩

theorem runs_modifiers (ms : List Modifier) (hend : (headKind rest).isModifier = false) :
    Runs line modifiers (ms.map Subtype.val ++ rest) () [] rest := by
  have hitem : ∀ m ∈ ms, ∀ rest,
      Runs line advance ([m.1] ++ rest) () ((fun _ => []) m : List Action) rest :=
    fun m _ rest => runs_advance
  refine Runs.cast (by rw [List.map_eq_flatMap]) (by simp) (runs_many ms hitem ?_ ?_)
  · exact fun m _ => ⟨m.1, [], rfl, m.2⟩
  · rw [kind_headD]
    exact hend

theorem leads_constantValue (type : ValueType) (sign : Option (Tok .signOp)) :
    Leads line (constantValue type sign.isSome) ts fun value acts mid =>
      mid = ts ∧ acts = [] ∧ ∃ (w : ConstantWord) (rest : List Token), ts = w.token :: rest ∧
        w.sign = sign ∧ value = w.value type := by
  refine leads_token_bind ?_
  cases ts with
  | nil => exact leads_mismatch
  | cons t ts =>
    rw [List.headD_cons]
    split
    · rename_i n hkind
      refine leads_pure ⟨rfl, rfl, .numeral sign ⟨t, by rw [hkind]; rfl⟩, ts, rfl, rfl, ?_⟩
      cases sign <;> rw [ConstantWord.value, hkind] <;> rfl
    · rename_i x hkind
      refine leads_pure ⟨rfl, rfl, .numeral sign ⟨t, by rw [hkind]; rfl⟩, ts, rfl, rfl, ?_⟩
      cases sign <;> rw [ConstantWord.value, hkind] <;> rfl
    · rename_i body hkind
      cases sign with
      | some _ => exact leads_mismatch
      | none =>
        dsimp only [Option.isSome_none]
        rw [if_neg Bool.false_ne_true]
        split
        · rename_i c cs hbody
          exact leads_pure ⟨rfl, rfl, .literal ⟨t, body, hkind⟩ c cs hbody, ts, rfl, rfl, rfl⟩
        · exact leads_mismatch
    · exact leads_mismatch

theorem leads_constant (type : ValueType) :
    Leads line (constant type) ts fun _ acts rest =>
      ∃ c : Constant, ts = c.tokens ++ rest ∧ acts = [c.action type] := by
  refine leads_expectName_bind ?_
  rintro name ts rfl hname
  refine leads_expect_bind (by decide) ?_
  rintro op ts rfl hop
  split
  · rename_i hlexeme
    have hvalue : ∀ (sign : Option (Tok .signOp)) (mid : List Token), Leads line (do
          let value ← constantValue type sign.isSome
          let t ← token
          perform (.declare t.line name.lexeme (.const type value))
          advance) mid fun _ acts rest =>
        ∃ c : Constant, name :: op :: (sign.toList.map Subtype.val ++ mid) = c.tokens ++ rest ∧
          acts = [c.action type] := by
      refine fun sign mid => (leads_constantValue type sign).bind ?_
      rintro _ _ _ ⟨rfl, rfl, w, rest, rfl, rfl, rfl⟩
      refine leads_token_bind (leads_perform_bind rfl (leads_advance
        ⟨⟨⟨name, hname⟩, ⟨op, hop, hlexeme⟩, w⟩, ?_, rfl⟩))
      simp [Constant.tokens, ConstantWord.tokens]
    refine leads_consume_bind (by decide) ?_ (hvalue none ts)
    rintro sign ts rfl hsign
    exact hvalue (some ⟨sign, hsign⟩) ts
  · exact leads_mismatch

theorem runs_constantValue (type : ValueType) (w : ConstantWord) :
    Runs line (constantValue type w.sign.isSome) (w.token :: rest) (w.value type) []
      (w.token :: rest) := by
  refine runs_token_bind ?_
  rw [List.headD_cons]
  cases w with
  | numeral sign t =>
    rcases numeric_cases t with ⟨n, hn⟩ | ⟨x, hx⟩
    · have hkind : (ConstantWord.numeral sign t).token.kind = .number n := hn
      rw [hkind]
      cases sign <;> rw [ConstantWord.value, hn] <;> exact runs_pure
    · have hkind : (ConstantWord.numeral sign t).token.kind = .decimal x := hx
      rw [hkind]
      cases sign <;> rw [ConstantWord.value, hx] <;> exact runs_pure
  | literal t first rest hbody =>
    have hkind : (ConstantWord.literal t first rest hbody).token.kind = .literal t.body := t.spelled
    have hsign : (ConstantWord.literal t first rest hbody).sign.isSome = false := rfl
    rw [hkind, hsign]
    dsimp only
    rw [if_neg Bool.false_ne_true, hbody]
    exact runs_pure

theorem runs_constant (type : ValueType) (c : Constant) :
    Runs line (constant type) (c.tokens ++ rest) () [c.action type] rest := by
  have hvalue : Runs line (do
        let value ← constantValue type c.word.sign.isSome
        let t ← token
        perform (.declare t.line c.name.1.lexeme (.const type value))
        advance) (c.word.token :: rest) () [c.action type] rest :=
    (runs_constantValue type c.word).bind
      (runs_token_bind (runs_perform_bind rfl runs_advance))
  have htokens : c.tokens ++ rest = c.name.1 :: c.equals.1 ::
      (c.word.sign.toList.map Subtype.val ++ c.word.token :: rest) := by
    simp [Constant.tokens, ConstantWord.tokens]
  rw [htokens]
  refine runs_expectName_bind c.name.2 (runs_expect_bind c.equals.2.1 ?_)
  rw [if_pos c.equals.2.2]
  cases hsign : c.word.sign with
  | some sign =>
    rw [hsign] at hvalue
    exact runs_consume_yes sign.2 hvalue
  | none =>
    rw [hsign] at hvalue
    have hword : c.word.token.kind ≠ .signOp := by
      cases c.word with
      | numeral sign t =>
        rcases numeric_cases t with ⟨n, hn⟩ | ⟨x, hx⟩ <;> simp [ConstantWord.token, *]
      | literal t first rest hbody => simp [ConstantWord.token, t.spelled]
    exact runs_consume_no hword hvalue

theorem leads_constants :
    Leads line constants ts fun _ acts rest =>
      ∃ d : Declaration, ts = d.tokens ++ rest ∧ acts = d.actions := by
  refine leads_expect_bind (by decide) ?_
  rintro keyword ts rfl hkeyword
  refine leads_valueType.bind ?_
  rintro _ _ ts ⟨type, rfl, rfl, rfl⟩
  refine (leads_list fun _ => leads_constant type.type).bind ?_
  rintro _ _ mid ⟨items, rfl, rfl, -⟩
  refine leads_expect_bind (by decide) ?_
  rintro semicolon rest rfl hsemicolon
  exact leads_pure ⟨.constants ⟨keyword, hkeyword⟩ type items ⟨semicolon, hsemicolon⟩,
    by simp [Declaration.tokens], by simp [Declaration.actions, List.map_eq_flatMap]⟩

theorem runs_constants (keyword : Tok .kwConst) (type : TypeName) (items : Listed Constant)
    (semicolon : Tok .semicolon) :
    Runs line constants ((Declaration.constants keyword type items semicolon).tokens ++ rest) ()
      (Declaration.constants keyword type items semicolon).actions rest := by
  have htokens : (Declaration.constants keyword type items semicolon).tokens ++ rest =
      keyword.1 :: type.token :: (items.tokens Constant.tokens ++ semicolon.1 :: rest) := by
    simp [Declaration.tokens]
  have hend : headKind (semicolon.1 :: rest) ≠ .comma := by
    rw [headKind_cons, semicolon.2]
    decide
  have hactions : (Declaration.constants keyword type items semicolon).actions =
      items.toList.flatMap fun c => [c.action type.type] := List.map_eq_flatMap
  rw [htokens, hactions]
  exact runs_expect_bind keyword.2 ((runs_valueType type).bind
    (Runs.cast rfl (List.append_nil _).symm
      ((runs_list items hend fun c ts _ => runs_constant type.type c).bind
        (runs_expect_bind semicolon.2 runs_pure))))

theorem leads_variableItem (type : ValueType) :
    Leads line (variableItem type) ts fun _ acts rest =>
      ∃ t : Tok .identifier, ts = [t.1] ++ rest ∧
        acts = [.declare t.1.line t.1.lexeme (.newVar type)] := by
  refine leads_nameAhead_bind ?_
  rintro t rest rfl ht
  exact leads_perform_bind rfl (leads_advance ⟨⟨t, ht⟩, rfl, rfl⟩)

/-- The names behind a type make a declaration with it. -/
theorem leads_variableList (type : TypeName) :
    Leads line (variableList type.type) ts fun _ acts rest =>
      ∃ d : Declaration, type.token :: ts = d.tokens ++ rest ∧ acts = d.actions := by
  refine (leads_list fun _ => leads_variableItem type.type).bind ?_
  rintro _ _ mid ⟨names, rfl, rfl, -⟩
  refine leads_expect_bind (by decide) ?_
  rintro semicolon rest rfl hsemicolon
  refine leads_pure ⟨.vars type names ⟨semicolon, hsemicolon⟩,
    by simp [Declaration.tokens], ?_⟩
  rw [List.append_nil]
  exact List.map_eq_flatMap.symm

theorem runs_variableList (type : TypeName) (names : Listed (Tok .identifier))
    (semicolon : Tok .semicolon) :
    Runs line (variableList type.type) (names.tokens (fun t => [t.1]) ++ semicolon.1 :: rest) ()
      (Declaration.vars type names semicolon).actions rest := by
  have hend : headKind (semicolon.1 :: rest) ≠ .comma := by
    rw [headKind_cons, semicolon.2]
    decide
  have hitem : ∀ (t : Tok .identifier) ts, Runs line (variableItem type.type) ([t.1] ++ ts) ()
      [.declare t.1.line t.1.lexeme (.newVar type.type)] ts :=
    fun t ts => runs_nameAhead_bind t.2 (runs_perform_bind rfl runs_advance)
  refine Runs.cast rfl ?_ ((runs_list names hend fun t ts _ => hitem t ts).bind
    (runs_expect_bind semicolon.2 runs_pure))
  rw [List.append_nil]
  exact List.map_eq_flatMap

theorem leads_declaration :
    Leads line declaration ts fun _ acts rest =>
      ∃ d : Declaration, ts = d.tokens ++ rest ∧ acts = d.actions := by
  refine leads_check_bind ?_
  split
  · exact leads_constants
  · refine leads_valueType.bind ?_
    rintro _ _ ts ⟨type, rfl, rfl, rfl⟩
    exact leads_variableList type

theorem kind_typeName (n : TypeName) : n.token.kind.isType = true := by
  rw [Kind.isType, n.named]
  rfl

theorem runs_declaration (d : Declaration) (rest : List Token) :
    Runs line declaration (d.tokens ++ rest) () d.actions rest := by
  refine runs_check_bind ?_
  cases d with
  | constants keyword type items semicolon =>
    have hkind : headKind ((Declaration.constants keyword type items semicolon).tokens ++ rest) =
      .kwConst := keyword.2
    rw [if_pos (decide_eq_true hkind)]
    exact runs_constants keyword type items semicolon
  | vars type names semicolon =>
    have htokens : (Declaration.vars type names semicolon).tokens ++ rest =
        type.token :: (names.tokens (fun t => [t.1]) ++ semicolon.1 :: rest) := by
      simp [Declaration.tokens]
    have hkind : type.token.kind ≠ .kwConst := by
      intro h
      have := kind_typeName type
      rw [h] at this
      cases this
    rw [htokens, headKind_cons, decide_eq_false hkind]
    exact (runs_valueType type).bind (runs_variableList type names semicolon)

theorem exists_tokens_declaration (d : Declaration) :
    ∃ t ts, d.tokens = t :: ts ∧ startsDeclaration t = true := by
  cases d with
  | constants keyword type items semicolon =>
    exact ⟨keyword.1, _, rfl, by simp [startsDeclaration, keyword.2]⟩
  | vars type names semicolon =>
    exact ⟨type.token, _, rfl, by simp [startsDeclaration, kind_typeName]⟩

/-! ## Methods -/

theorem leads_param :
    Leads line param ts fun _ acts rest =>
      ∃ p : Param, ts = p.tokens ++ rest ∧ acts = [p.action] := by
  have hrest : ∀ (mode : Option { t : Token // t.kind.passingMode ≠ .byValue }) (mid : List Token),
      Leads line (do
        let type ← valueType
        let t ← nameAhead
        perform (.declare t.line t.lexeme
          (.var type ((mode.map fun t => t.1.kind.passingMode).getD .byValue) 0))
        advance) mid fun _ acts rest =>
      ∃ p : Param, mode.toList.map Subtype.val ++ mid = p.tokens ++ rest ∧ acts = [p.action] := by
    refine fun mode mid => leads_valueType.bind ?_
    rintro _ _ _ ⟨type, rfl, rfl, rfl⟩
    refine leads_nameAhead_bind ?_
    rintro t rest rfl ht
    exact leads_perform_bind rfl
      (leads_advance ⟨⟨mode, type, ⟨t, ht⟩⟩, by simp [Param.tokens], rfl⟩)
  refine leads_token_bind ?_
  cases ts with
  | nil => exact hrest none []
  | cons t ts =>
    rw [List.headD_cons]
    dsimp only
    by_cases hmode : t.kind.passingMode = .byValue
    · rw [hmode]
      exact hrest none (t :: ts)
    · rw [if_pos (by simpa using hmode)]
      exact leads_advance_bind (hrest (some ⟨t, hmode⟩) ts)

theorem passingMode_typeName (n : TypeName) : n.token.kind.passingMode = .byValue := by
  have h := n.named
  unfold Kind.valueType? at h
  split at h
  all_goals first | cases h | (rename_i heq; rw [heq]; rfl)

theorem runs_param (p : Param) (rest : List Token) :
    Runs line param (p.tokens ++ rest) () [p.action] rest := by
  obtain ⟨mode, type, name⟩ := p
  have hrest : Runs line (do
      let type ← valueType
      let t ← nameAhead
      perform (.declare t.line t.lexeme
        (.var type ((mode.map fun t => t.1.kind.passingMode).getD .byValue) 0))
      advance) (type.token :: name.1 :: rest) () [Param.action ⟨mode, type, name⟩] rest :=
    (runs_valueType type).bind
      (runs_nameAhead_bind name.2 (runs_perform_bind rfl runs_advance))
  refine runs_token_bind ?_
  cases mode with
  | none =>
    have hhead : (Param.tokens ⟨none, type, name⟩ ++ rest).headD (Scanner.eofToken line) =
      type.token := rfl
    rw [hhead, passingMode_typeName]
    exact hrest
  | some mode =>
    have hhead : (Param.tokens ⟨some mode, type, name⟩ ++ rest).headD (Scanner.eofToken line) =
      mode.1 := rfl
    rw [hhead]
    dsimp only
    rw [if_pos (by simpa using mode.2)]
    exact runs_advance_bind hrest

theorem leads_params :
    Leads line params ts fun _ acts rest =>
      ∃ (left : Tok .leftParen) (items : Option (Listed Param)) (right : Tok .rightParen),
        ts = left.1 :: (items.toList.flatMap (Listed.tokens Param.tokens) ++ right.1 :: rest) ∧
        acts = .openParams :: (items.toList.flatMap fun l => l.toList.map Param.action) ++
          [.closeParams] := by
  refine leads_expect_bind (by decide) ?_
  rintro left ts rfl hleft
  refine leads_perform_bind rfl (leads_check_bind ?_)
  dsimp only
  split
  · refine leads_expect_bind (by decide) ?_
    rintro right rest rfl hright
    exact leads_perform rfl ⟨⟨left, hleft⟩, none, ⟨right, hright⟩, rfl, rfl⟩
  · refine (leads_list fun _ => leads_param).bind ?_
    rintro _ _ mid ⟨items, rfl, rfl, -⟩
    refine leads_expect_bind (by decide) ?_
    rintro right rest rfl hright
    exact leads_perform rfl ⟨⟨left, hleft⟩, some items, ⟨right, hright⟩, by simp,
      by simp [List.map_eq_flatMap]⟩

theorem headKind_params (items : Listed Param) (ts : List Token) :
    headKind (items.tokens Param.tokens ++ ts) ≠ .rightParen := by
  obtain ⟨⟨mode, type, name⟩, more⟩ := items
  cases mode with
  | none =>
    intro h
    have hkind : type.token.kind = .rightParen := h
    have := kind_typeName type
    rw [hkind] at this
    cases this
  | some mode =>
    intro h
    have hkind : mode.1.kind = .rightParen := h
    have := mode.2
    rw [hkind] at this
    exact this rfl

theorem runs_params (left : Tok .leftParen) (items : Option (Listed Param))
    (right : Tok .rightParen) :
    Runs line params
      (left.1 :: (items.toList.flatMap (Listed.tokens Param.tokens) ++ right.1 :: rest)) ()
      (.openParams :: (items.toList.flatMap fun l => l.toList.map Param.action) ++ [.closeParams])
      rest := by
  have hright : headKind (right.1 :: rest) = .rightParen := right.2
  have hend : Runs line (do
      let _ ← expect .rightParen
      perform .closeParams) (right.1 :: rest) () [.closeParams] rest :=
    runs_expect_bind right.2 (runs_perform rfl)
  refine runs_expect_bind left.2 (runs_perform_bind rfl (runs_check_bind ?_))
  cases items with
  | none =>
    rw [Option.toList_none, List.flatMap_nil, List.nil_append, hright]
    exact hend
  | some items =>
    rw [Option.toList_some, List.flatMap_singleton, List.flatMap_singleton,
      decide_eq_false (headKind_params items (right.1 :: rest)), List.map_eq_flatMap]
    exact (runs_list items (by rw [hright]; decide) fun p ts _ => runs_param p ts).bind hend

theorem leads_returnStatement :
    Leads line returnStatement ts fun _ acts rest =>
      ∃ r : Return, ts = r.tokens ++ rest ∧ acts = r.actions := by
  refine leads_expect_bind (by decide) ?_
  rintro keyword ts rfl hkeyword
  refine leads_check_bind ?_
  dsimp only
  split
  · refine leads_expect_bind (by decide) ?_
    rintro semicolon rest rfl hsemicolon
    exact leads_pure ⟨⟨⟨keyword, hkeyword⟩, none, ⟨semicolon, hsemicolon⟩⟩, rfl, rfl⟩
  · refine leads_expr.bind ?_
    rintro _ _ mid ⟨e, rfl, rfl⟩
    refine leads_perform_bind rfl (leads_expect_bind (by decide) ?_)
    rintro semicolon rest rfl hsemicolon
    exact leads_pure ⟨⟨⟨keyword, hkeyword⟩, some e, ⟨semicolon, hsemicolon⟩⟩,
      by simp [Return.tokens], by simp [Return.actions]⟩

theorem runs_returnStatement (r : Return) :
    Runs line returnStatement (r.tokens ++ rest) () r.actions rest := by
  obtain ⟨keyword, value, semicolon⟩ := r
  have hsemicolon : headKind (semicolon.1 :: rest) = .semicolon := semicolon.2
  have hend : Runs line (do let _ ← expect .semicolon) (semicolon.1 :: rest) () [] rest :=
    runs_expect_bind semicolon.2 runs_pure
  have htokens : Return.tokens ⟨keyword, value, semicolon⟩ ++ rest =
      keyword.1 :: (value.toList.flatMap Expr.tokens ++ semicolon.1 :: rest) := by
    simp [Return.tokens]
  rw [htokens]
  refine runs_expect_bind keyword.2 (runs_check_bind ?_)
  cases value with
  | none =>
    rw [Option.toList_none, List.flatMap_nil, List.nil_append, hsemicolon]
    exact hend
  | some e =>
    rw [Option.toList_some, List.flatMap_singleton,
      decide_eq_false (headKind_expr_ne e (by decide))]
    have hexpr : EndsExpr (semicolon.1 :: rest) := by
      rw [EndsExpr, hsemicolon]
      decide
    exact Runs.cast rfl (by simp [Return.actions])
      ((runs_expr e hexpr).bind (runs_perform_bind rfl hend))

theorem leads_body :
    Leads line body ts fun _ acts rest =>
      ∃ (left : Tok .leftBrace) (b : Body), ts = left.1 :: (b.tokens ++ rest) ∧
        acts = .openBody :: b.actions := by
  refine leads_expect_bind (by decide) ?_
  rintro left ts rfl hleft
  refine leads_perform_bind rfl ((leads_many fun _ _ => leads_declaration).bind ?_)
  rintro _ _ mid ⟨declarations, rfl, rfl⟩
  refine (leads_many fun _ => leads_statement).bind ?_
  rintro _ _ mid ⟨statements, rfl, rfl⟩
  refine leads_check_bind ?_
  split
  · refine leads_returnStatement.mono ?_
    rintro _ _ rest ⟨r, rfl, rfl⟩
    exact ⟨⟨left, hleft⟩, ⟨declarations, statements, some r⟩, by simp [Body.tokens],
      by simp [Body.actions]⟩
  · exact leads_pure ⟨⟨left, hleft⟩, ⟨declarations, statements, none⟩, by simp [Body.tokens],
      by simp [Body.actions]⟩

theorem startsDeclaration_of_startsStatement {t : Token} (h : startsStatement t = true) :
    startsDeclaration t = false := by
  simp only [startsStatement, List.mem_cons, List.not_mem_nil, or_false, decide_eq_true_eq] at h
  rcases h with h | h | h | h <;> simp [startsDeclaration, h, Kind.isType, Kind.valueType?]

/-- Neither a statement nor a declaration starts where a body ends. -/
theorem starts_ending {t : Token} (h : t.kind ∈ [Kind.kwReturn, .rightBrace]) :
    startsStatement t = false ∧ startsDeclaration t = false := by
  simp only [List.mem_cons, List.not_mem_nil, or_false] at h
  rcases h with h | h <;> simp [startsStatement, startsDeclaration, h, Kind.isType, Kind.valueType?]

theorem runs_body (left : Tok .leftBrace) (b : Body) (hend : headKind rest = .rightBrace) :
    Runs line body (left.1 :: (b.tokens ++ rest)) () (.openBody :: b.actions) rest := by
  obtain ⟨declarations, statements, returns⟩ := b
  -- what follows the statements, and what follows the declarations
  have hreturn : ((returns.toList.flatMap Return.tokens ++ rest).headD
      (Scanner.eofToken line)).kind ∈ [Kind.kwReturn, .rightBrace] := by
    rw [kind_headD]
    cases returns with
    | none => simp [hend]
    | some r => simp [Return.tokens, r.keyword.2]
  have hstop := (starts_ending hreturn).1
  have hstop' : startsDeclaration
      (((statements.flatMap fun s => s.1.tokens ++ [s.2.1]) ++
        (returns.toList.flatMap Return.tokens ++ rest)).headD (Scanner.eofToken line)) = false := by
    cases statements with
    | nil =>
      rw [List.flatMap_nil, List.nil_append]
      exact (starts_ending hreturn).2
    | cons s statements =>
      obtain ⟨t, ts, hs, ht⟩ := exists_tokens_statement s.1
      simpa [hs] using startsDeclaration_of_startsStatement ht
  have hlast : Runs line (do if ← check .kwReturn then returnStatement)
      (returns.toList.flatMap Return.tokens ++ rest) ()
      (returns.toList.flatMap Return.actions) rest := by
    refine runs_check_bind ?_
    cases returns with
    | none =>
      rw [Option.toList_none, List.flatMap_nil, List.nil_append, hend]
      exact runs_pure
    | some r =>
      rw [Option.toList_some, List.flatMap_singleton, List.flatMap_singleton]
      have hkind : headKind (r.tokens ++ rest) = .kwReturn := r.keyword.2
      rw [hkind]
      exact runs_returnStatement r
  have htokens : Body.tokens ⟨declarations, statements, returns⟩ ++ rest =
      declarations.flatMap Declaration.tokens ++
        ((statements.flatMap fun s => s.1.tokens ++ [s.2.1]) ++
          (returns.toList.flatMap Return.tokens ++ rest)) := by
    simp [Body.tokens]
  rw [htokens]
  refine runs_expect_bind left.2 (runs_perform_bind rfl (Runs.cast rfl ?_
    ((runs_many declarations (fun d _ => runs_declaration d) ?_ hstop').bind
      ((runs_many statements (fun s _ => runs_statement s) ?_ hstop).bind hlast))))
  · simp [Body.actions]
  · exact fun d _ => exists_tokens_declaration d
  · intro s _
    obtain ⟨t, ts, hs, ht⟩ := exists_tokens_statement s.1
    exact ⟨t, ts ++ [s.2.1], by rw [hs]; rfl, ht⟩

/-! ## Members -/

theorem leads_method (type : ValueType) (hname : headKind ts = .identifier) :
    Leads line (method type) ts fun _ acts rest =>
      ∃ r : Routine, ts = r.tokens ++ rest ∧
        acts = .openMethod r.name.1.line r.name.1.lexeme type :: r.heading ++ r.body.actions ++
          [.closeMethod] := by
  obtain ⟨name, ts, rfl, hkind⟩ := exists_cons_of_headKind hname (by decide)
  refine leads_token_bind (leads_perform_bind rfl (leads_advance_bind (leads_params.bind ?_)))
  rintro _ _ _ ⟨left, params, right, rfl, rfl⟩
  refine leads_body.bind ?_
  rintro _ _ _ ⟨leftBrace, b, rfl, rfl⟩
  refine leads_expect_bind (by decide) ?_
  rintro rightBrace rest rfl hright
  exact leads_perform rfl
    ⟨⟨⟨name, hkind⟩, left, params, right, leftBrace, b, ⟨rightBrace, hright⟩⟩,
      by simp [Routine.tokens], by simp [Routine.heading, Routine.paramActions]⟩

theorem leads_constructor (hname : headKind ts = .identifier) :
    Leads line constructor ts fun _ acts rest =>
      ∃ r : Routine, ts = r.tokens ++ rest ∧
        acts = .openConstructor r.name.1.line r.name.1.lexeme :: r.heading ++ r.body.actions ++
          [.sizeFrame, .closeMethod] := by
  obtain ⟨name, ts, rfl, hkind⟩ := exists_cons_of_headKind hname (by decide)
  refine leads_token_bind (leads_perform_bind rfl (leads_advance_bind (leads_params.bind ?_)))
  rintro _ _ _ ⟨left, params, right, rfl, rfl⟩
  refine leads_body.bind ?_
  rintro _ _ _ ⟨leftBrace, b, rfl, rfl⟩
  refine leads_perform_bind rfl (leads_expect_bind (by decide) ?_)
  rintro rightBrace rest rfl hright
  exact leads_perform rfl
    ⟨⟨⟨name, hkind⟩, left, params, right, leftBrace, b, ⟨rightBrace, hright⟩⟩,
      by simp [Routine.tokens], by simp [Routine.heading, Routine.paramActions]⟩

theorem tokens_routine (r : Routine) (ts : List Token) :
    r.tokens ++ ts = r.name.1 :: r.left.1 ::
      (r.params.toList.flatMap (Listed.tokens Param.tokens) ++
        r.right.1 :: r.leftBrace.1 :: (r.body.tokens ++ r.rightBrace.1 :: ts)) := by
  simp [Routine.tokens]

theorem runs_method (type : ValueType) (r : Routine) :
    Runs line (method type) (r.tokens ++ rest) ()
      (.openMethod r.name.1.line r.name.1.lexeme type :: r.heading ++ r.body.actions ++
        [.closeMethod]) rest := by
  have hright : headKind (r.rightBrace.1 :: rest) = .rightBrace := r.rightBrace.2
  rw [tokens_routine]
  refine runs_token_bind (Runs.cast rfl ?_ (runs_perform_bind rfl (runs_advance_bind
    ((runs_params r.left r.params r.right).bind ((runs_body r.leftBrace r.body hright).bind
      (runs_expect_bind r.rightBrace.2 (runs_perform rfl)))))))
  simp [Routine.heading, Routine.paramActions]

theorem runs_constructor (r : Routine) :
    Runs line constructor (r.tokens ++ rest) ()
      (.openConstructor r.name.1.line r.name.1.lexeme :: r.heading ++ r.body.actions ++
        [.sizeFrame, .closeMethod]) rest := by
  have hright : headKind (r.rightBrace.1 :: rest) = .rightBrace := r.rightBrace.2
  rw [tokens_routine]
  refine runs_token_bind (Runs.cast rfl ?_ (runs_perform_bind rfl (runs_advance_bind
    ((runs_params r.left r.params r.right).bind ((runs_body r.leftBrace r.body hright).bind
      (runs_perform_bind rfl (runs_expect_bind r.rightBrace.2 (runs_perform rfl))))))))
  simp [Routine.heading, Routine.paramActions]

/-- A name that passes the test, and a parenthesis. -/
def startsSignature (test : String → Bool) : List Token → Bool
  | [] => false
  | t :: ts => t.kind = .identifier && test t.lexeme && decide (headKind ts = .leftParen)

theorem leads_atSignature_bind {β : Type} {f : Bool → Parser β} {test : String → Bool}
    {Q : β → List Action → List Token → Prop} (h : Leads line (f (startsSignature test ts)) ts Q) :
    Leads line (atSignature test >>= f) ts Q := by
  refine Leads.bind (P := fun b acts mid => b = startsSignature test ts ∧ acts = [] ∧ mid = ts)
    ?_ ?_
  · refine leads_token_bind ?_
    cases ts with
    | nil => exact leads_pure ⟨rfl, rfl, rfl⟩
    | cons t ts =>
      rw [List.headD_cons]
      split
      · rename_i hname
        refine leads_peek_bind (leads_pure ⟨?_, rfl, rfl⟩)
        rw [startsSignature, hname, Bool.true_and, List.tail_cons]
      · rename_i hname
        refine leads_pure ⟨?_, rfl, rfl⟩
        rw [startsSignature, Bool.eq_false_iff.mpr hname, Bool.false_and]
  · rintro _ _ _ ⟨rfl, rfl, rfl⟩
    exact h

theorem runs_atSignature_bind {β : Type} {f : Bool → Parser β} {test : String → Bool} {b : β}
    {acts : List Action} (h : Runs line (f (startsSignature test ts)) ts b acts rest) :
    Runs line (atSignature test >>= f) ts b acts rest := by
  have hat : Runs line (atSignature test) ts (startsSignature test ts) [] ts := by
    refine runs_token_bind ?_
    cases ts with
    | nil => exact runs_pure
    | cons t ts =>
      rw [List.headD_cons, startsSignature]
      split
      · rename_i hname
        rw [hname, Bool.true_and]
        exact runs_peek_bind runs_pure
      · rename_i hname
        rw [Bool.eq_false_iff.mpr hname, Bool.false_and]
        exact runs_pure
  exact hat.bind h

theorem leads_member (className : String) :
    Leads line (member className) ts fun _ acts rest =>
      ∃ m : Member className, ts = m.tokens ++ rest ∧ acts = m.core.actions := by
  refine leads_modifiers.bind ?_
  rintro _ _ mid ⟨modifiers, rfl, rfl⟩
  refine leads_check_bind ?_
  split
  · refine leads_constants.mono ?_
    rintro _ _ rest ⟨d, rfl, rfl⟩
    exact ⟨⟨modifiers, .declaration d⟩, by simp [Member.tokens, MemberCore.tokens], rfl⟩
  · refine leads_atSignature_bind ?_
    split
    · rename_i hsignature
      have hname : headKind mid = .identifier ∧ ∃ t ts, mid = t :: ts ∧ t.lexeme = className := by
        cases mid with
        | nil => cases hsignature
        | cons t ts =>
          simp only [startsSignature, Bool.and_eq_true, decide_eq_true_eq, beq_iff_eq] at hsignature
          exact ⟨hsignature.1.1, t, ts, rfl, hsignature.1.2⟩
      obtain ⟨hkind, t, ts, hmid, hlexeme⟩ := hname
      refine (leads_constructor hkind).mono ?_
      rintro _ _ rest ⟨r, rfl, rfl⟩
      have hr : r.name.1 = t := (List.cons.inj ((tokens_routine r rest).symm.trans hmid)).1
      exact ⟨⟨modifiers, .constructor r (by rw [hr, hlexeme])⟩,
        by simp [Member.tokens, MemberCore.tokens], rfl⟩
    · refine leads_valueType.bind ?_
      rintro _ _ mid ⟨type, rfl, rfl, rfl⟩
      refine leads_atSignature_bind ?_
      split
      · rename_i hsignature
        have hname : headKind mid = .identifier := by
          cases mid with
          | nil => cases hsignature
          | cons t ts =>
            simp only [startsSignature, Bool.and_eq_true, decide_eq_true_eq] at hsignature
            exact hsignature.1.1
        refine (leads_method type.type hname).mono ?_
        rintro _ _ rest ⟨r, rfl, rfl⟩
        exact ⟨⟨modifiers, .method type r⟩, by simp [Member.tokens, MemberCore.tokens], rfl⟩
      · refine (leads_variableList type).mono ?_
        rintro _ _ rest ⟨d, hd, rfl⟩
        exact ⟨⟨modifiers, .declaration d⟩, by simp [Member.tokens, MemberCore.tokens, hd], rfl⟩

theorem typeName_ne {kind : Kind} (h : kind.isType = false) (n : TypeName) :
    n.token.kind ≠ kind := by
  rintro rfl
  rw [kind_typeName] at h
  cases h

theorem startsSignature_typeName (test : String → Bool) (n : TypeName) (ts : List Token) :
    startsSignature test (n.token :: ts) = false := by
  rw [startsSignature, decide_eq_false (typeName_ne rfl n), Bool.false_and, Bool.false_and]

theorem startsSignature_routine {test : String → Bool} (r : Routine)
    (h : test r.name.1.lexeme = true) (ts : List Token) :
    startsSignature test (r.tokens ++ ts) = true := by
  rw [tokens_routine]
  simp [startsSignature, r.name.2, r.left.2, h]

theorem startsSignature_names (test : String → Bool) (names : Listed (Tok .identifier))
    (semicolon : Tok .semicolon) (ts : List Token) :
    startsSignature test (names.tokens (fun t => [t.1]) ++ semicolon.1 :: ts) = false := by
  obtain ⟨first, more⟩ := names
  cases more with
  | nil => simp [startsSignature, Listed.tokens, semicolon.2]
  | cons next more => simp [startsSignature, Listed.tokens, next.1.2]

theorem isModifier_typeName (n : TypeName) (ts : List Token) :
    (headKind (n.token :: ts)).isModifier = false := by
  have h := kind_typeName n
  rw [headKind_cons]
  revert h
  cases n.token.kind <;> first | (intro h; cases h; done) | (intro _; rfl)

theorem runs_member {className : String} (m : Member className) (rest : List Token) :
    Runs line (member className) (m.tokens ++ rest) () m.core.actions rest := by
  obtain ⟨modifiers, core⟩ := m
  rw [Member.tokens, List.append_assoc]
  cases core with
  | declaration d =>
    rw [MemberCore.tokens]
    cases d with
    | constants keyword type items semicolon =>
      have hkind : headKind ((Declaration.constants keyword type items semicolon).tokens ++ rest) =
        .kwConst := keyword.2
      refine (runs_modifiers modifiers (by rw [hkind]; rfl)).bind (runs_check_bind ?_)
      rw [hkind]
      exact runs_constants keyword type items semicolon
    | vars type names semicolon =>
      have htokens : (Declaration.vars type names semicolon).tokens ++ rest =
          type.token :: (names.tokens (fun t => [t.1]) ++ semicolon.1 :: rest) := by
        simp [Declaration.tokens]
      rw [htokens]
      refine (runs_modifiers modifiers (isModifier_typeName type _)).bind (runs_check_bind ?_)
      rw [headKind_cons, decide_eq_false (typeName_ne rfl type)]
      refine runs_atSignature_bind ?_
      rw [startsSignature_typeName]
      refine (runs_valueType type).bind (runs_atSignature_bind ?_)
      rw [startsSignature_names]
      exact runs_variableList type names semicolon
  | constructor r named =>
    have hkind : headKind (r.tokens ++ rest) = .identifier := by
      rw [tokens_routine]
      exact r.name.2
    rw [MemberCore.tokens]
    refine (runs_modifiers modifiers (by rw [hkind]; rfl)).bind (runs_check_bind ?_)
    rw [hkind]
    refine runs_atSignature_bind ?_
    rw [startsSignature_routine r (by rw [named]; exact beq_self_eq_true className)]
    exact runs_constructor r
  | method type r =>
    rw [MemberCore.tokens, List.cons_append]
    refine (runs_modifiers modifiers (isModifier_typeName type _)).bind (runs_check_bind ?_)
    rw [headKind_cons, decide_eq_false (typeName_ne rfl type)]
    refine runs_atSignature_bind ?_
    rw [startsSignature_typeName]
    refine (runs_valueType type).bind (runs_atSignature_bind ?_)
    rw [startsSignature_routine r rfl]
    exact runs_method type.type r

theorem exists_tokens_member {className : String} (m : Member className) :
    ∃ t ts, m.tokens = t :: ts ∧ startsMember className t = true := by
  obtain ⟨modifiers, core⟩ := m
  cases modifiers with
  | cons modifier modifiers =>
    exact ⟨modifier.1, _, rfl, by simp [startsMember, modifier.2]⟩
  | nil =>
    cases core with
    | declaration d =>
      obtain ⟨t, ts, hd, ht⟩ := exists_tokens_declaration d
      simp only [startsDeclaration, Bool.or_eq_true, decide_eq_true_eq] at ht
      refine ⟨t, ts, hd, ?_⟩
      rcases ht with ht | ht <;> simp [startsMember, ht]
    | constructor r named =>
      exact ⟨r.name.1, _, rfl, by simp [startsMember, r.name.2, named]⟩
    | method type r => exact ⟨type.token, _, rfl, by simp [startsMember, kind_typeName]⟩

/-! ## Classes -/

theorem leads_classDeclaration :
    Leads line classDeclaration ts fun _ acts rest =>
      ∃ c : ClassDecl, ts = c.tokens ++ rest ∧ acts = c.actions := by
  refine leads_modifiers.bind ?_
  rintro _ _ mid ⟨modifiers, rfl, rfl⟩
  refine leads_expect_bind (by decide) ?_
  rintro keyword mid rfl hkeyword
  refine leads_nameAhead_bind ?_
  rintro name mid rfl hname
  refine leads_perform_bind rfl (leads_advance_bind ?_)
  have hbody : ∀ (base : Option (Tok .colon × Dotted)) (mid : List Token), Leads line (do
        let _ ← expect .leftBrace
        perform .openClassBody
        many (startsMember name.lexeme) (member name.lexeme)
        let _ ← expect .rightBrace
        perform .closeClass) mid fun _ acts rest =>
      ∃ c : ClassDecl,
        modifiers.map Subtype.val ++ keyword :: name ::
          ((base.toList.flatMap fun b => b.1.1 :: b.2.tokens) ++ mid) = c.tokens ++ rest ∧
        .openClass name.line name.lexeme ::
          ((base.toList.map fun b => .derive name.lexeme b.2.text) ++ acts) = c.actions := by
    refine fun base mid => leads_expect_bind (by decide) ?_
    rintro left mid rfl hleft
    refine leads_perform_bind rfl ((leads_many fun _ _ => leads_member name.lexeme).bind ?_)
    rintro _ _ mid ⟨members, rfl, rfl⟩
    refine leads_expect_bind (by decide) ?_
    rintro right rest rfl hright
    exact leads_perform rfl
      ⟨⟨modifiers, ⟨keyword, hkeyword⟩, ⟨name, hname⟩, base, ⟨left, hleft⟩, members,
        ⟨right, hright⟩⟩, by simp [ClassDecl.tokens],
        by simp [ClassDecl.actions, ClassDecl.heading]⟩
  refine leads_consume_bind (by decide) ?_ (hbody none mid)
  rintro colon mid rfl hcolon
  refine leads_dottedName.bind ?_
  rintro _ _ mid ⟨base, rfl, rfl, rfl⟩
  refine leads_perform_bind rfl ((hbody (some (⟨colon, hcolon⟩, base)) mid).mono ?_)
  rintro _ _ rest ⟨c, hc, hactions⟩
  exact ⟨c, by simpa using hc, hactions⟩

theorem runs_classDeclaration (c : ClassDecl) (rest : List Token) :
    Runs line classDeclaration (c.tokens ++ rest) () c.actions rest := by
  obtain ⟨modifiers, keyword, name, base, left, members, right⟩ := c
  have hright : startsMember name.1.lexeme ((right.1 :: rest).headD (Scanner.eofToken line)) =
      false := by
    simp [startsMember, right.2, Kind.isModifier, Kind.isType, Kind.valueType?]
  have hbody : Runs line (do
        let _ ← expect .leftBrace
        perform .openClassBody
        many (startsMember name.1.lexeme) (member name.1.lexeme)
        let _ ← expect .rightBrace
        perform .closeClass)
      (left.1 :: (members.flatMap Member.tokens ++ right.1 :: rest)) ()
      (.openClassBody :: ((members.flatMap fun m => m.core.actions) ++ [.closeClass])) rest :=
    runs_expect_bind left.2 (runs_perform_bind rfl
      ((runs_many members (fun m _ => runs_member m) (fun m _ => exists_tokens_member m)
        hright).bind (runs_expect_bind right.2 (runs_perform rfl))))
  have htokens : ClassDecl.tokens ⟨modifiers, keyword, name, base, left, members, right⟩ ++ rest =
      modifiers.map Subtype.val ++ keyword.1 :: name.1 ::
        ((base.toList.flatMap fun b => b.1.1 :: b.2.tokens) ++
          left.1 :: (members.flatMap Member.tokens ++ right.1 :: rest)) := by
    simp [ClassDecl.tokens]
  have hkeyword : (headKind (keyword.1 :: name.1 ::
      ((base.toList.flatMap fun b => b.1.1 :: b.2.tokens) ++
        left.1 :: (members.flatMap Member.tokens ++ right.1 :: rest)))).isModifier = false := by
    rw [headKind_cons, keyword.2]
    rfl
  have hleft : headKind (left.1 :: (members.flatMap Member.tokens ++ right.1 :: rest)) =
    .leftBrace := left.2
  rw [htokens]
  refine (runs_modifiers modifiers hkeyword).bind (runs_expect_bind keyword.2
    (runs_nameAhead_bind name.2 ?_))
  cases base with
  | none =>
    rw [Option.toList_none, List.flatMap_nil, List.nil_append]
    exact Runs.cast rfl (by simp) (runs_perform_bind rfl (runs_advance_bind
      (runs_consume_no (by rw [List.tail_cons, hleft]; decide) hbody)))
  | some base =>
    rw [Option.toList_some, List.flatMap_singleton, List.cons_append]
    exact Runs.cast rfl (by simp) (runs_perform_bind rfl (runs_advance_bind
      (runs_consume_yes base.1.2 ((runs_dottedName base.2 (by rw [hleft]; decide)).bind
        (runs_perform_bind rfl hbody)))))

theorem exists_tokens_class (c : ClassDecl) :
    ∃ t ts, c.tokens = t :: ts ∧ startsClass t = true := by
  obtain ⟨modifiers, keyword, name, base, left, members, right⟩ := c
  cases modifiers with
  | cons modifier modifiers => exact ⟨modifier.1, _, rfl, by simp [startsClass, modifier.2]⟩
  | nil => exact ⟨keyword.1, _, rfl, by simp [startsClass, keyword.2]⟩

theorem leads_classes :
    Leads line classes ts fun _ acts rest =>
      ∃ cs : List ClassDecl, ts = cs.flatMap ClassDecl.tokens ++ rest ∧
        acts = cs.flatMap ClassDecl.actions :=
  leads_many fun _ _ => leads_classDeclaration

theorem runs_classes (cs : List ClassDecl)
    (hend : startsClass (rest.headD (Scanner.eofToken line)) = false) :
    Runs line classes (cs.flatMap ClassDecl.tokens ++ rest) () (cs.flatMap ClassDecl.actions)
      rest :=
  runs_many cs (fun c _ => runs_classDeclaration c) (fun c _ => exists_tokens_class c) hend

/-! ## Programs -/

theorem leads_usingDirective :
    Leads line usingDirective ts fun _ acts rest =>
      ∃ u : Using, ts = u.tokens ++ rest ∧ acts = [.usingName u.name.text] := by
  refine leads_expect_bind (by decide) ?_
  rintro keyword mid rfl hkeyword
  refine leads_dottedName.bind ?_
  rintro _ _ mid ⟨name, rfl, rfl, rfl⟩
  refine leads_perform_bind rfl (leads_expect_bind (by decide) ?_)
  rintro semicolon rest rfl hsemicolon
  exact leads_pure ⟨⟨⟨keyword, hkeyword⟩, name, ⟨semicolon, hsemicolon⟩⟩, by simp [Using.tokens],
    rfl⟩

theorem runs_usingDirective (u : Using) (rest : List Token) :
    Runs line usingDirective (u.tokens ++ rest) () [.usingName u.name.text] rest := by
  have htokens : u.tokens ++ rest = u.keyword.1 :: (u.name.tokens ++ u.semicolon.1 :: rest) := by
    simp [Using.tokens]
  have hend : headKind (u.semicolon.1 :: rest) ≠ .period := by
    rw [headKind_cons, u.semicolon.2]
    decide
  rw [htokens]
  exact runs_expect_bind u.keyword.2 ((runs_dottedName u.name hend).bind
    (runs_perform_bind rfl (runs_expect_bind u.semicolon.2 runs_pure)))

theorem leads_namespaceBlock :
    Leads line namespaceBlock ts fun _ acts rest =>
      ∃ b : Block, ts = b.tokens ++ rest ∧ acts = b.actions := by
  refine leads_expect_bind (by decide) ?_
  rintro keyword mid rfl hkeyword
  refine leads_token_bind (leads_dottedName.bind ?_)
  rintro _ _ mid ⟨name, rfl, rfl, rfl⟩
  refine leads_token_bind (leads_perform_bind rfl (leads_expect_bind (by decide) ?_))
  rintro left mid rfl hleft
  refine leads_classes.bind ?_
  rintro _ _ mid ⟨classes, rfl, rfl⟩
  refine leads_expect_bind (by decide) ?_
  rintro right rest rfl hright
  exact leads_perform rfl
    ⟨.spaced ⟨keyword, hkeyword⟩ name ⟨left, hleft⟩ classes ⟨right, hright⟩,
      by simp [Block.tokens], by simp [Block.actions, Dotted.tokens]⟩

theorem runs_namespaceBlock (keyword : Tok .kwNamespace) (name : Dotted) (left : Tok .leftBrace)
    (classes : List ClassDecl) (right : Tok .rightBrace) :
    Runs line namespaceBlock ((Block.spaced keyword name left classes right).tokens ++ rest) ()
      (Block.spaced keyword name left classes right).actions rest := by
  have htokens : (Block.spaced keyword name left classes right).tokens ++ rest =
      keyword.1 :: (name.tokens ++
        left.1 :: (classes.flatMap ClassDecl.tokens ++ right.1 :: rest)) := by
    simp [Block.tokens]
  have hleft :
      headKind (left.1 :: (classes.flatMap ClassDecl.tokens ++ right.1 :: rest)) ≠ .period := by
    rw [headKind_cons, left.2]
    decide
  have hright : startsClass ((right.1 :: rest).headD (Scanner.eofToken line)) = false := by
    simp [startsClass, right.2, Kind.isModifier]
  rw [htokens]
  exact runs_expect_bind keyword.2 (runs_token_bind ((runs_dottedName name hleft).bind
    (runs_token_bind (runs_perform_bind rfl (runs_expect_bind left.2
      ((runs_classes classes hright).bind (runs_expect_bind right.2 (runs_perform rfl))))))))

theorem leads_program :
    Leads line program ts fun _ acts rest =>
      rest = [] ∧ ∃ (usings : List Using) (block : Block),
        ts = usings.flatMap Using.tokens ++ block.tokens ∧
        acts = (usings.map fun u => .usingName u.name.text) ++ block.actions := by
  have hend : ∀ (usings : List Using) (block : Block) (mid : List Token), Leads line expectEnd mid
      fun _ acts rest => rest = [] ∧ ∃ (usings' : List Using) (block' : Block),
        usings.flatMap Using.tokens ++ (block.tokens ++ mid) =
          usings'.flatMap Using.tokens ++ block'.tokens ∧
        (usings.flatMap fun u => [.usingName u.name.text]) ++ (block.actions ++ acts) =
          (usings'.map fun u => .usingName u.name.text) ++ block'.actions := by
    refine fun usings block mid => leads_spelled fun hspelled => leads_token_bind ?_
    rw [kind_headD]
    cases mid with
    | nil => exact leads_pure ⟨rfl, usings, block, by simp, by simp [List.map_eq_flatMap]⟩
    | cons t mid =>
      rw [headKind_cons, if_neg (hspelled t (List.mem_cons_self ..)).2]
      exact leads_mismatch
  refine (leads_many fun _ _ => leads_usingDirective).bind ?_
  rintro _ _ mid ⟨usings, rfl, rfl⟩
  refine leads_check_bind ?_
  dsimp only
  split
  · refine leads_namespaceBlock.bind ?_
    rintro _ _ mid ⟨block, rfl, rfl⟩
    exact hend usings block mid
  · refine leads_classes.bind ?_
    rintro _ _ mid ⟨classes, rfl, rfl⟩
    exact hend usings (.bare classes) mid

theorem headKind_classes (cs : List ClassDecl) :
    headKind (cs.flatMap ClassDecl.tokens) ∉ [Kind.kwUsing, .kwNamespace] := by
  cases cs with
  | nil => decide
  | cons c cs =>
    obtain ⟨t, ts, hc, ht⟩ := exists_tokens_class c
    rw [List.flatMap_cons, hc, List.cons_append, headKind_cons]
    simp only [startsClass, Bool.or_eq_true, decide_eq_true_eq] at ht
    intro hkind
    simp only [List.mem_cons, List.not_mem_nil, or_false] at hkind
    rcases hkind with hkind | hkind <;> simp [hkind, Kind.isModifier] at ht

theorem runs_program (usings : List Using) (block : Block) :
    Runs line program (usings.flatMap Using.tokens ++ block.tokens) ()
      ((usings.map fun u => .usingName u.name.text) ++ block.actions) [] := by
  have hend : Runs line expectEnd [] () [] [] := runs_token_bind runs_pure
  have hstart : ∀ u ∈ usings, ∃ t ts, u.tokens = t :: ts ∧ decide (t.kind = .kwUsing) = true :=
    fun u _ => ⟨u.keyword.1, _, rfl, decide_eq_true u.keyword.2⟩
  have hstop : decide ((block.tokens.headD (Scanner.eofToken line)).kind = .kwUsing) = false := by
    rw [kind_headD]
    cases block with
    | spaced keyword name left classes right => simp [Block.tokens, keyword.2]
    | bare classes =>
      refine decide_eq_false fun h => headKind_classes classes ?_
      rw [← Block.tokens, h]
      exact List.mem_cons_self ..
  have hblock : Runs line (do
      if ← check .kwNamespace then namespaceBlock else classes
      expectEnd) (block.tokens ++ []) () (block.actions ++ []) [] := by
    refine runs_check_bind ?_
    cases block with
    | spaced keyword name left classes right =>
      have hkind : headKind ((Block.spaced keyword name left classes right).tokens ++ []) =
        .kwNamespace := keyword.2
      rw [hkind]
      exact (runs_namespaceBlock keyword name left classes right).bind hend
    | bare classes =>
      have hkind : headKind ((Block.bare classes).tokens ++ []) ≠ .kwNamespace := by
        intro h
        rw [List.append_nil, Block.tokens] at h
        exact headKind_classes classes (by rw [h]; simp)
      rw [decide_eq_false hkind]
      exact (runs_classes classes rfl).bind hend
  rw [List.append_nil, List.append_nil] at hblock
  rw [List.map_eq_flatMap]
  exact (runs_many usings (fun u _ => runs_usingDirective u) hstart hstop).bind hblock

/-! ## Whole texts -/

/-- The first token comes by an advance of its own. -/
theorem start_program {scan : Scan} (hend : scan.ending = .eof line)
    (hitems : ∀ item ∈ scan.items, item.token.WellSpelled ∧ item.token.kind ≠ .eof) :
    ∃ (c : Cursor) (scanned : List Scanned), c.Stands line (significant scan.items) ∧
      (do advance; program : Parser Unit) (Cursor.start scan) =
        ⟨scanned.map .scan ++ (program c).actions, (program c).result⟩ := by
  obtain ⟨scanned, c, hadvance, hc⟩ := Cursor.advance_start hend hitems
  refine ⟨c, scanned, hc, ?_⟩
  have hstart : Parser.advance (Cursor.start scan) = ⟨scanned.map .scan, .ok ((), c)⟩ := by
    unfold Parser.advance
    rw [hadvance]
  exact bind_ok hstart

/-- A program whose tokens these are is read without a fault, and its actions are called for. -/
theorem parse_of_tokens {scan : Scan} (hend : scan.ending = .eof line)
    (hitems : ∀ item ∈ scan.items, item.token.WellSpelled ∧ item.token.kind ≠ .eof)
    {p : Program} (hp : p.tokens = significant scan.items ++ [Scanner.eofToken line]) :
    (parse scan).2 = none ∧ quiet (parse scan).1 = p.actions := by
  obtain ⟨c, scanned, hc, hstart⟩ := start_program hend hitems
  have htokens := (List.append_inj' hp rfl).1
  rw [← htokens] at hc
  obtain ⟨c', hok, hactions, -⟩ := runs_program p.usings p.block c hc
  unfold parse
  rw [hstart]
  dsimp only
  rw [hok]
  exact ⟨rfl, by rw [quiet_append, quiet_scans, hactions]; rfl⟩

/-- What is read without a fault is a program. -/
theorem exists_program_of_parse {scan : Scan} (hend : scan.ending = .eof line)
    (hitems : ∀ item ∈ scan.items, item.token.WellSpelled ∧ item.token.kind ≠ .eof)
    (h : (parse scan).2 = none) :
    ∃ p : Program, p.tokens = significant scan.items ++ [Scanner.eofToken line] := by
  obtain ⟨c, scanned, hc, hstart⟩ := start_program hend hitems
  unfold parse at h
  rw [hstart] at h
  dsimp only at h
  split at h
  · rename_i result hresult
    obtain ⟨rest, -, rfl, usings, block, htokens, -⟩ := leads_program c hc _ _ hresult
    exact ⟨⟨usings, block, ⟨Scanner.eofToken line, rfl⟩⟩, by rw [htokens]; rfl⟩
  · cases h

end Triad.Grammar
