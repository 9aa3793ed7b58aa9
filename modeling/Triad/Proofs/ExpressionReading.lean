import Triad.Grammar
import Triad.Proofs.Reading

/-!
Expressions are read exactly as the grammar derives them. An operand with the operators that follow
it is a list for the parser and a tree that leans to the left for the grammar; `products` and `sums`
go from the one to the other.
-/

namespace Triad.Syntax.Expr

/-- A term with more factors behind it. -/
def products (t : Expr .term) (more : List (Operator mulops × Expr .factor)) : Expr .term :=
  more.foldl (fun t next => .product t next.1 next.2) t

/-- An expression with more terms behind it. -/
def sums (e : Expr .expr) (more : List (Operator addops × Expr .term)) : Expr .expr :=
  more.foldl (fun e next => .sum e next.1 next.2) e

theorem tokens_products (t : Expr .term) (more : List (Operator mulops × Expr .factor)) :
    (t.products more).tokens =
      t.tokens ++ more.flatMap fun next => next.1.token :: next.2.tokens := by
  induction more generalizing t with
  | nil => simp [products]
  | cons next more ih =>
    have := ih (.product t next.1 next.2)
    simp_all [products, tokens]

theorem actions_products (t : Expr .term) (more : List (Operator mulops × Expr .factor)) :
    (t.products more).actions =
      t.actions ++ more.flatMap fun next => next.2.actions ++ [.binary next.1.meaning] := by
  induction more generalizing t with
  | nil => simp [products]
  | cons next more ih =>
    have := ih (.product t next.1 next.2)
    simp_all [products, actions]

theorem tokens_sums (e : Expr .expr) (more : List (Operator addops × Expr .term)) :
    (e.sums more).tokens = e.tokens ++ more.flatMap fun next => next.1.token :: next.2.tokens := by
  induction more generalizing e with
  | nil => simp [sums]
  | cons next more ih =>
    have := ih (.sum e next.1 next.2)
    simp_all [sums, tokens]

theorem actions_sums (e : Expr .expr) (more : List (Operator addops × Expr .term)) :
    (e.sums more).actions =
      e.actions ++ more.flatMap fun next => next.2.actions ++ [.binary next.1.meaning] := by
  induction more generalizing e with
  | nil => simp [sums]
  | cons next more ih =>
    have := ih (.sum e next.1 next.2)
    simp_all [sums, actions]

theorem exists_products : (t : Expr .term) → ∃ f more, t = (ofFactor f).products more
  | .ofFactor f => ⟨f, [], rfl⟩
  | .product t op f => by
    obtain ⟨g, more, rfl⟩ := exists_products t
    exact ⟨g, more ++ [(op, f)], by simp [products]⟩

theorem exists_sums : (e : Expr .expr) → ∃ t more, e = (ofTerm t).sums more
  | .ofTerm t => ⟨t, [], rfl⟩
  | .sum e op t => by
    obtain ⟨u, more, rfl⟩ := exists_sums e
    exact ⟨u, more ++ [(op, t)], by simp [sums]⟩

end Triad.Syntax.Expr

namespace Triad.Grammar

open Triad.Parser Triad.Syntax

variable {line : Nat} {ts rest : List Token}

/-! ## Operators -/

abbrev addKinds : List Kind := [.addOp, .signOp, .orOp]

abbrev mulKinds : List Kind := [.mulOp, .andOp]

/-- The table lists the operations at well-spelled tokens of the kinds. -/
structure Tabulates (table : List (Kind × String × BinOp)) (kinds : List Kind) : Prop where
  listed : ∀ (t : Token) op, t.WellSpelled → operationAt kinds t = some op →
    (t.kind, t.lexeme, op) ∈ table
  found : ∀ (t : Token) op, (t.kind, t.lexeme, op) ∈ table → operationAt kinds t = some op
  kind : ∀ (t : Token) op, (t.kind, t.lexeme, op) ∈ table → t.kind ∈ kinds

theorem tabulates_addops : Tabulates addops addKinds where
  listed t op hspell h := by
    unfold operationAt at h
    split at h
    · rename_i hkind
      simp only [List.mem_cons, List.not_mem_nil, or_false] at hkind
      rcases hkind with hkind | hkind | hkind <;>
        simp only [Token.WellSpelled, hkind] at hspell <;> rw [hspell] at h <;> cases h <;>
        simp [addops, hkind, hspell]
    · cases h
  found t op h := by
    simp only [addops, List.mem_cons, Prod.mk.injEq, List.not_mem_nil, or_false] at h
    rcases h with ⟨hkind, hlex, rfl⟩ | ⟨hkind, hlex, rfl⟩ | ⟨hkind, hlex, rfl⟩ <;>
      simp [operationAt, hkind, hlex, BinOp.ofLexeme?]
  kind t op h := by
    simp only [addops, List.mem_cons, Prod.mk.injEq, List.not_mem_nil, or_false] at h
    rcases h with ⟨hkind, -⟩ | ⟨hkind, -⟩ | ⟨hkind, -⟩ <;> simp [hkind]

theorem tabulates_mulops : Tabulates mulops mulKinds where
  listed t op hspell h := by
    unfold operationAt at h
    split at h
    · rename_i hkind
      simp only [List.mem_cons, List.not_mem_nil, or_false] at hkind
      rcases hkind with hkind | hkind <;> simp only [Token.WellSpelled, hkind] at hspell
      · rcases hspell with hspell | hspell <;> rw [hspell] at h <;> cases h <;>
          simp [mulops, hkind, hspell]
      · rw [hspell] at h
        cases h
        simp [mulops, hkind, hspell]
    · cases h
  found t op h := by
    simp only [mulops, List.mem_cons, Prod.mk.injEq, List.not_mem_nil, or_false] at h
    rcases h with ⟨hkind, hlex, rfl⟩ | ⟨hkind, hlex, rfl⟩ | ⟨hkind, hlex, rfl⟩ <;>
      simp [operationAt, hkind, hlex, BinOp.ofLexeme?]
  kind t op h := by
    simp only [mulops, List.mem_cons, Prod.mk.injEq, List.not_mem_nil, or_false] at h
    rcases h with ⟨hkind, -⟩ | ⟨hkind, -⟩ | ⟨hkind, -⟩ <;> simp [hkind]

theorem operationAt_eq_none {kinds : List Kind} (h : headKind ts ∉ kinds) :
    operationAt kinds (ts.headD (Scanner.eofToken line)) = none := by
  unfold operationAt
  rw [kind_headD, if_neg h]

/-! ## Chains of operands -/

section Chain

variable {X : Type} {spell : X → List Token} {call : X → List Action} {operand : Parser Unit}
  {table : List (Kind × String × BinOp)} {kinds : List Kind}

theorem leads_chain (htable : Tabulates table kinds) (heof : Kind.eof ∉ kinds)
    (hoperand : ∀ ts, Leads line operand ts fun _ acts rest =>
      ∃ x, ts = spell x ++ rest ∧ acts = call x) (n : Nat) :
    Leads line (chain kinds operand n) ts fun _ acts rest =>
      ∃ (x : X) (more : List (Operator table × X)),
        ts = spell x ++ (more.flatMap fun next => next.1.token :: spell next.2) ++ rest ∧
        acts = call x ++ more.flatMap fun next => call next.2 ++ [.binary next.1.meaning] := by
  have hwithin : ∀ ts, Leads line (chainWithin kinds operand n) ts fun _ acts rest =>
      ∃ more : List (Operator table × X),
        ts = (more.flatMap fun next => next.1.token :: spell next.2) ++ rest ∧
        acts = more.flatMap fun next => call next.2 ++ [.binary next.1.meaning] := by
    induction n with
    | zero => exact fun ts => leads_pure ⟨[], rfl, rfl⟩
    | succ n ih =>
      refine fun ts => leads_spelled fun hspell => leads_token_bind ?_
      split
      · rename_i op hop
        obtain ⟨t, ts, rfl⟩ : ∃ t rest, ts = t :: rest := by
          cases ts with
          | nil => simp [operationAt, Scanner.eofToken, heof] at hop
          | cons t ts => exact ⟨t, ts, rfl⟩
        have hlisted := htable.listed t op (hspell t (List.mem_cons_self ..)).1 hop
        refine leads_advance_bind ((hoperand ts).bind ?_)
        rintro _ _ mid ⟨x, rfl, rfl⟩
        refine leads_perform_bind rfl ((ih mid).mono ?_)
        rintro _ _ rest ⟨more, rfl, rfl⟩
        exact ⟨(⟨t, op, hlisted⟩, x) :: more, by simp, by simp⟩
      · exact leads_pure ⟨[], rfl, rfl⟩
  refine (hoperand ts).bind ?_
  rintro _ _ mid ⟨x, rfl, rfl⟩
  refine (hwithin mid).mono ?_
  rintro _ _ rest ⟨more, rfl, rfl⟩
  exact ⟨x, more, by simp, rfl⟩

/-- What follows an operand starts with an operator, or the chain is over. -/
theorem headKind_more (htable : Tabulates table kinds) (more : List (Operator table × X)) :
    headKind ((more.flatMap fun next => next.1.token :: spell next.2) ++ rest) ∈ kinds ∨
      (more.flatMap fun next => next.1.token :: spell next.2) ++ rest = rest := by
  cases more with
  | nil => exact .inr rfl
  | cons next more => exact .inl (htable.kind _ _ next.1.listed)

/-- A chain ends at a token that is none of its operators. The operands are read up to an operator
or up to the end, if at most `bound` tokens remain. -/
theorem runs_chain (htable : Tabulates table kinds) {bound : Nat}
    (hoperand : ∀ x ts, headKind ts ∈ kinds ∨ ts = rest → (spell x ++ ts).length ≤ bound →
      Runs line operand (spell x ++ ts) () (call x) ts)
    (hend : headKind rest ∉ kinds) (n : Nat) (x : X) (more : List (Operator table × X))
    (hn : more.length ≤ n)
    (hbound : (spell x ++ (more.flatMap fun next => next.1.token :: spell next.2) ++
      rest).length ≤ bound) :
    Runs line (chain kinds operand n)
      (spell x ++ (more.flatMap fun next => next.1.token :: spell next.2) ++ rest) ()
      (call x ++ more.flatMap fun next => call next.2 ++ [.binary next.1.meaning]) rest := by
  have hwithin : ∀ (n : Nat) (more : List (Operator table × X)), more.length ≤ n →
      ((more.flatMap fun next => next.1.token :: spell next.2) ++ rest).length ≤ bound →
      Runs line (chainWithin kinds operand n)
        ((more.flatMap fun next => next.1.token :: spell next.2) ++ rest) ()
        (more.flatMap fun next => call next.2 ++ [.binary next.1.meaning]) rest := by
    intro n
    induction n with
    | zero =>
      intro more hn _
      obtain rfl : more = [] := List.eq_nil_of_length_eq_zero (Nat.le_zero.mp hn)
      exact runs_pure
    | succ n ih =>
      intro more hn hbound
      refine runs_token_bind ?_
      cases more with
      | nil =>
        rw [List.flatMap_nil, List.nil_append, operationAt_eq_none hend]
        exact runs_pure
      | cons next more =>
        obtain ⟨op, y⟩ := next
        have hop := htable.found op.token op.meaning op.listed
        simp only [List.flatMap_cons, List.cons_append, List.append_assoc] at hbound ⊢
        rw [List.headD_cons, hop]
        refine runs_advance_bind (Runs.bind (hoperand y _ ?_ ?_)
          (runs_perform_bind rfl (ih more ?_ ?_)))
        · exact headKind_more htable more
        · exact Nat.le_of_succ_le hbound
        · exact Nat.le_of_succ_le_succ hn
        · simp only [List.length_cons, List.length_append] at hbound ⊢
          omega
  rw [List.append_assoc] at hbound ⊢
  refine Runs.bind (hoperand x _ (headKind_more htable more) hbound) (hwithin n more hn ?_)
  rw [List.length_append] at hbound
  omega

end Chain

/-! ## Factors and expressions -/

theorem numeric_cases (t : Numeric) :
    (∃ n, t.1.kind = .number n) ∨ ∃ x, t.1.kind = .decimal x := by
  obtain ⟨t, ht⟩ := t
  unfold isNumeric at ht
  split at ht
  · rename_i n heq
    exact .inl ⟨n, heq⟩
  · rename_i x heq
    exact .inr ⟨x, heq⟩
  · cases ht

theorem leads_exprOver {factor : Parser Unit}
    (hfactor : ∀ ts, Leads line factor ts fun _ acts rest =>
      ∃ f : Expr .factor, ts = f.tokens ++ rest ∧ acts = f.actions) (n : Nat) :
    Leads line (exprOver factor n) ts fun _ acts rest =>
      ∃ e : Expr .expr, ts = e.tokens ++ rest ∧ acts = e.actions := by
  have hterm : ∀ ts, Leads line (chain mulKinds factor n) ts fun _ acts rest =>
      ∃ t : Expr .term, ts = t.tokens ++ rest ∧ acts = t.actions := by
    refine fun ts => (leads_chain tabulates_mulops (by decide) hfactor n).mono ?_
    rintro _ _ rest ⟨f, more, rfl, rfl⟩
    exact ⟨(Expr.ofFactor f).products more, by rw [Expr.tokens_products]; rfl,
      by rw [Expr.actions_products]; rfl⟩
  refine (leads_chain tabulates_addops (by decide) hterm n).mono ?_
  rintro _ _ rest ⟨t, more, rfl, rfl⟩
  exact ⟨(Expr.ofTerm t).sums more, by rw [Expr.tokens_sums]; rfl,
    by rw [Expr.actions_sums]; rfl⟩

theorem leads_factorWithin (n : Nat) (ts : List Token) :
    Leads line (factorWithin n) ts fun _ acts rest =>
      ∃ f : Expr .factor, ts = f.tokens ++ rest ∧ acts = f.actions := by
  induction n generalizing ts with
  | zero => exact leads_mismatch
  | succ n ih =>
    refine leads_token_bind ?_
    cases ts with
    | nil => exact leads_mismatch
    | cons t ts =>
      rw [List.headD_cons]
      split
      · rename_i hkind
        exact leads_perform_bind rfl (leads_advance ⟨.name ⟨t, hkind⟩, rfl, rfl⟩)
      · rename_i value hkind
        exact leads_advance_bind
          (leads_perform rfl ⟨.numeral ⟨t, by rw [hkind]; rfl⟩, rfl, rfl⟩)
      · rename_i value hkind
        exact leads_advance_bind
          (leads_perform rfl ⟨.numeral ⟨t, by rw [hkind]; rfl⟩, rfl, rfl⟩)
      · rename_i hkind
        refine leads_advance_bind ((leads_exprOver ih n).bind ?_)
        rintro _ _ mid ⟨e, rfl, rfl⟩
        refine leads_expect_bind (by decide) ?_
        rintro right rest rfl hright
        exact leads_pure ⟨.paren ⟨t, hkind⟩ e ⟨right, hright⟩, by simp [Expr.tokens],
          by simp [Expr.actions]⟩
      · rename_i hkind
        refine leads_advance_bind ((ih ts).bind ?_)
        rintro _ _ mid ⟨f, rfl, rfl⟩
        exact leads_perform rfl ⟨.minus ⟨t, hkind⟩ f, by simp [Expr.tokens], rfl⟩
      · exact leads_mismatch

theorem leads_expr :
    Leads line expr ts fun _ acts rest =>
      ∃ e : Expr .expr, ts = e.tokens ++ rest ∧ acts = e.actions :=
  leads_remaining_bind fun n => leads_exprOver (leads_factorWithin n) n

/-- No operator stands before the tokens, so an expression before them is over. -/
def EndsExpr (ts : List Token) : Prop := headKind ts ∉ addKinds ∧ headKind ts ∉ mulKinds

theorem length_products_le (f : Expr .factor) (more : List (Operator mulops × Expr .factor)) :
    more.length ≤ ((Expr.ofFactor f).products more).tokens.length := by
  rw [Expr.tokens_products, List.length_append]
  induction more with
  | nil => exact Nat.zero_le _
  | cons next more ih =>
    simp only [List.flatMap_cons, List.length_cons, List.length_append] at ih ⊢
    omega

theorem length_sums_le (t : Expr .term) (more : List (Operator addops × Expr .term)) :
    more.length ≤ ((Expr.ofTerm t).sums more).tokens.length := by
  rw [Expr.tokens_sums, List.length_append]
  induction more with
  | nil => exact Nat.zero_le _
  | cons next more ih =>
    simp only [List.flatMap_cons, List.length_cons, List.length_append] at ih ⊢
    omega

theorem runs_exprOver {factor : Parser Unit} {n : Nat}
    (hfactor : ∀ (f : Expr .factor) ts, (f.tokens ++ ts).length ≤ n →
      Runs line factor (f.tokens ++ ts) () f.actions ts)
    (e : Expr .expr) (hend : EndsExpr rest) (hn : (e.tokens ++ rest).length ≤ n) :
    Runs line (exprOver factor n) (e.tokens ++ rest) () e.actions rest := by
  have hterm : ∀ (t : Expr .term) ts, headKind ts ∈ addKinds ∨ ts = rest →
      (t.tokens ++ ts).length ≤ n →
      Runs line (chain mulKinds factor n) (t.tokens ++ ts) () t.actions ts := by
    intro t ts hts hlen
    have hstop : headKind ts ∉ mulKinds := by
      have hdisjoint : ∀ kind ∈ addKinds, kind ∉ mulKinds := by decide
      rcases hts with hts | rfl
      · exact hdisjoint _ hts
      · exact hend.2
    obtain ⟨f, more, rfl⟩ := t.exists_products
    have hmore := length_products_le f more
    rw [List.length_append] at hlen
    refine Runs.cast (by rw [Expr.tokens_products]; rfl) (by rw [Expr.actions_products]; rfl)
      (runs_chain tabulates_mulops (fun f ts _ => hfactor f ts) hstop n f more (by omega) ?_)
    rw [Expr.tokens_products] at hlen
    rw [List.length_append]
    exact hlen
  obtain ⟨t, more, rfl⟩ := e.exists_sums
  have hmore := length_sums_le t more
  rw [List.length_append] at hn
  refine Runs.cast (by rw [Expr.tokens_sums]; rfl) (by rw [Expr.actions_sums]; rfl)
    (runs_chain tabulates_addops hterm hend.1 n t more (by omega) ?_)
  rw [Expr.tokens_sums] at hn
  rw [List.length_append]
  exact hn

theorem runs_factorWithin (n : Nat) (f : Expr .factor) (rest : List Token)
    (hn : (f.tokens ++ rest).length ≤ n) :
    Runs line (factorWithin n) (f.tokens ++ rest) () f.actions rest := by
  induction n generalizing f rest with
  | zero => cases f <;> simp [Expr.tokens] at hn
  | succ n ih =>
    refine runs_token_bind ?_
    cases f with
    | name t =>
      have hkind : ((Expr.name t).tokens ++ rest).headD (Scanner.eofToken line) = t.1 := rfl
      rw [hkind, t.2]
      exact runs_perform_bind rfl runs_advance
    | numeral t =>
      have hkind : ((Expr.numeral t).tokens ++ rest).headD (Scanner.eofToken line) = t.1 := rfl
      rw [hkind]
      rcases numeric_cases t with ⟨n, hn⟩ | ⟨x, hx⟩
      · rw [hn]
        exact runs_advance_bind (runs_perform rfl)
      · rw [hx]
        exact runs_advance_bind (runs_perform rfl)
    | paren left e right =>
      have hkind : ((Expr.paren left e right).tokens ++ rest).headD (Scanner.eofToken line) =
        left.1 := rfl
      rw [hkind, left.2]
      simp only [Expr.tokens, List.cons_append, List.append_assoc, List.length_cons] at hn ⊢
      refine runs_advance_bind (Runs.cast rfl (List.append_nil _).symm (Runs.bind
        (runs_exprOver (fun f ts => ih f ts) e ?_ (Nat.le_of_succ_le_succ hn))
        (runs_expect_bind right.2 runs_pure)))
      simp [EndsExpr, right.2]
    | minus sign f =>
      have hkind : ((Expr.minus sign f).tokens ++ rest).headD (Scanner.eofToken line) =
        sign.1 := rfl
      rw [hkind, sign.2]
      exact runs_advance_bind ((ih f rest (Nat.le_of_succ_le_succ hn)).bind (runs_perform rfl))

theorem runs_expr (e : Expr .expr) (hend : EndsExpr rest) :
    Runs line expr (e.tokens ++ rest) () e.actions rest :=
  runs_remaining_bind fun n hn => runs_exprOver (fun f ts => runs_factorWithin n f ts) e hend hn

end Triad.Grammar
