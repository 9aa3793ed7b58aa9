import Triad.Proofs.FrameLayout
import Triad.Proofs.Ownership
import Triad.Proofs.Temporaries
import Triad.Proofs.TokenStream

/-!
What the parts of a program call for. The statements of a body call for code only, classes and
procedures are opened by their own headings only, and all that is declared has a name that the text
spells.
-/

namespace Triad

open Triad.Text

/-- Words with points between them, as in the name of a namespace. -/
def IsDotted (name : String) : Prop := ∀ c ∈ name.toList, continuesWord c = true ∨ c = '.'

theorem IsWord.isDotted {name : String} (h : IsWord name) : IsDotted name :=
  fun c hc => .inl (h c hc)

theorem not_isDotted_frameSlot (offset : Int) : ¬ IsDotted (frameSlot offset) := by
  intro h
  obtain ⟨c, hmem, rfl | rfl⟩ := exists_sign_frameSlot offset
  · exact absurd (h '+' hmem) (by decide +kernel)
  · exact absurd (h '-' hmem) (by decide +kernel)

/-- The action comes before the end of the namespace, and what it declares has a name that the text
spells. Only the name of a namespace may have points in it. -/
def Action.BeforeEnd : Action → Prop
  | closeNamespace => False
  | openNamespace _ name _ => IsDotted name
  | openClass _ name | declare _ name _ | openMethod _ name _ | openConstructor _ name =>
    IsWord name
  | _ => True

theorem Action.BeforeEnd.names {a : Action} (h : a.BeforeEnd) : a.Names IsDotted := by
  cases a <;> first | exact IsWord.isDotted h | exact h | trivial

/-- The action puts down the value of a name or a number, or works with the values at hand. -/
def Action.isOperation : Action → Bool
  | load _ _ | literal _ | negate | binary _ => true
  | _ => false

namespace Syntax

/-! ## Statements -/

/-- An expression calls for values only. -/
theorem Expr.isOperation_actions {r : Rank} (e : Expr r) :
    ∀ a ∈ e.actions, a.isOperation = true := by
  induction e with
  | name t => simp [Expr.actions, Action.isOperation]
  | numeral t => simp [Expr.actions, Action.isOperation]
  | paren left e right ih => exact ih
  | minus sign f ih => exact List.forall_mem_append.mpr ⟨ih, by simp [Action.isOperation]⟩
  | ofFactor f ih => exact ih
  | ofTerm t ih => exact ih
  | product l op f ihl ihf | sum l op f ihl ihf =>
    exact List.forall_mem_append.mpr
      ⟨List.forall_mem_append.mpr ⟨ihl, ihf⟩, by simp [Action.isOperation]⟩

theorem Expr.isCode_actions {r : Rank} (e : Expr r) : ∀ a ∈ e.actions, a.isCode = true := by
  intro a ha
  have hvalue := e.isOperation_actions a ha
  cases a <;> first | rfl | cases hvalue

theorem Call.isCode_actions (c : Call) : ∀ a ∈ c.actions, a.isCode = true := by
  intro a ha
  rcases List.mem_append.mp ha with ha | ha
  · obtain ⟨e, -, he⟩ := List.mem_flatMap.mp ha
    exact e.isCode_actions a he
  · rw [List.mem_singleton.mp ha]
    rfl

theorem Source.isCode_actions (op : Option BinOp) (s : Source) :
    ∀ a ∈ s.actions op, a.isCode = true := by
  cases s with
  | call c =>
    intro a ha
    rcases List.mem_append.mp ha with ha | ha
    · exact c.isCode_actions a ha
    · rw [List.mem_singleton.mp ha]
      cases op <;> rfl
  | expr e => exact e.isCode_actions

theorem WriteItem.isCode_action (i : WriteItem) : i.action.isCode = true := by
  cases i <;> rfl

theorem Statement.isCode_actions (st : Statement) : ∀ a ∈ st.actions, a.isCode = true := by
  cases st with
  | assign target op source =>
    intro a ha
    simp only [Statement.actions, List.cons_append, List.mem_cons, List.mem_append,
      List.not_mem_nil, or_false] at ha
    rcases ha with rfl | ha | rfl
    · rfl
    · exact source.isCode_actions op.meaning a ha
    · rfl
  | call c => exact c.isCode_actions
  | read keyword left names right =>
    intro a ha
    obtain ⟨t, -, rfl⟩ := List.mem_map.mp ha
    rfl
  | write keyword left items right =>
    intro a ha
    obtain ⟨i, -, rfl⟩ := List.mem_map.mp ha
    exact i.isCode_action
  | writeln keyword left items right =>
    intro a ha
    rcases List.mem_append.mp ha with ha | ha
    · obtain ⟨l, -, hl⟩ := List.mem_flatMap.mp ha
      obtain ⟨i, -, rfl⟩ := List.mem_map.mp hl
      exact i.isCode_action
    · rw [List.mem_singleton.mp ha]
      rfl

theorem Return.isCode_actions (r : Return) : ∀ a ∈ r.actions, a.isCode = true := by
  intro a ha
  obtain ⟨e, -, ha⟩ := List.mem_flatMap.mp ha
  rcases List.mem_append.mp ha with ha | ha
  · exact e.isCode_actions a ha
  · rw [List.mem_singleton.mp ha]
    rfl

/-- A body calls for declarations and code. -/
theorem Body.mem_actions {b : Body} {a : Action} (h : a ∈ b.actions) :
    a.isCode = true ∨ ∃ d ∈ b.declarations, a ∈ d.actions := by
  simp only [Body.actions, List.mem_append] at h
  rcases h with (h | h) | h
  · exact .inr (List.mem_flatMap.mp h)
  · obtain ⟨step, -, hstep⟩ := List.mem_flatMap.mp h
    exact .inl (step.1.isCode_actions a hstep)
  · obtain ⟨r, -, hr⟩ := List.mem_flatMap.mp h
    exact .inl (r.isCode_actions a hr)

/-! ## Headings -/

theorem isHeading_of_isCode {a : Action} (h : a.isCode = true) : a.isHeading = false := by
  cases a <;> first | rfl | cases h

theorem isHeading_of_isDeclaration {a : Action} (h : a.isDeclaration = true) :
    a.isHeading = false := by
  cases a <;> first | rfl | cases h

/-- What is called for between the name of a method and its end. -/
theorem Routine.mem_actions {r : Routine} {a : Action} (h : a ∈ r.heading ++ r.body.actions) :
    a ∈ [Action.openParams, .closeParams, .openBody] ∨ a.isDeclaration = true ∨
      a.isCode = true := by
  rcases List.mem_append.mp h with h | h
  · simp only [Routine.heading, List.cons_append, List.mem_cons, List.mem_append,
      List.not_mem_nil, or_false] at h
    rcases h with rfl | h | rfl | rfl
    · exact .inl (by simp)
    · exact .inr (.inl (r.isDeclaration_paramActions a h))
    · exact .inl (by simp)
    · exact .inl (by simp)
  · rcases Body.mem_actions h with hcode | ⟨d, -, hd⟩
    · exact .inr (.inr hcode)
    · exact .inr (.inl (d.isDeclaration_actions a hd))

/-- Behind the name of a method, no class and no procedure is opened. -/
theorem Routine.isHeading_actions (r : Routine) :
    ∀ a ∈ r.heading ++ r.body.actions, a.isHeading = false := by
  intro a ha
  rcases Routine.mem_actions ha with ha | hdeclares | hcode
  · simp only [List.mem_cons, List.not_mem_nil, or_false] at ha
    rcases ha with rfl | rfl | rfl <;> rfl
  · exact isHeading_of_isDeclaration hdeclares
  · exact isHeading_of_isCode hcode

/-! ## Names -/

theorem isWord_of_wellSpelled (t : Tok .identifier) (h : t.1.WellSpelled) :
    IsWord t.1.lexeme := by
  unfold Token.WellSpelled at h
  rw [t.2] at h
  exact h

theorem isDotted_of_wellSpelled (t : Tok .identifier) (h : t.1.WellSpelled) :
    IsDotted t.1.lexeme :=
  (isWord_of_wellSpelled t h).isDotted

theorem isDotted_append {left right : String} (hleft : IsDotted left) (hright : IsDotted right) :
    IsDotted (left ++ "." ++ right) := by
  intro c hc
  simp only [String.toList_append, List.mem_append] at hc
  rcases hc with (hc | hc) | hc
  · exact hleft c hc
  · exact .inr (by simpa using hc)
  · exact hright c hc

theorem Dotted.isDotted_text (d : Dotted) (h : ∀ t ∈ d.tokens, t.WellSpelled) :
    IsDotted d.text := by
  have hmore : ∀ part ∈ d.more, IsDotted part.2.1.lexeme := by
    intro part hpart
    refine isDotted_of_wellSpelled part.2 (h _ (List.mem_cons_of_mem _ ?_))
    exact List.mem_flatMap.mpr ⟨part, hpart, by simp⟩
  have hfirst : IsDotted d.first.1.lexeme :=
    isDotted_of_wellSpelled d.first (h _ List.mem_cons_self)
  unfold Dotted.text
  generalize d.first.1.lexeme = name at hfirst
  generalize d.more = parts at hmore
  induction parts generalizing name with
  | nil => exact hfirst
  | cons part parts ih =>
    exact ih _ (isDotted_append hfirst (hmore part List.mem_cons_self))
      fun q hq => hmore q (List.mem_cons_of_mem _ hq)

theorem Listed.mem_tokens {α : Type} {spell : α → List Token} {l : Listed α} {x : α}
    (hx : x ∈ l.toList) {t : Token} (ht : t ∈ spell x) : t ∈ l.tokens spell := by
  rcases List.mem_cons.mp hx with rfl | hx
  · exact List.mem_append_left _ ht
  · obtain ⟨part, hpart, rfl⟩ := List.mem_map.mp hx
    exact List.mem_append_right _
      (List.mem_flatMap.mpr ⟨part, hpart, List.mem_cons_of_mem _ ht⟩)

theorem Declaration.beforeEnd_actions (d : Declaration) (h : ∀ t ∈ d.tokens, t.WellSpelled) :
    ∀ a ∈ d.actions, a.BeforeEnd := by
  cases d with
  | constants keyword type items semicolon =>
    intro a ha
    obtain ⟨c, hc, rfl⟩ := List.mem_map.mp ha
    refine isWord_of_wellSpelled c.name (h _ ?_)
    have hmem : c.name.1 ∈ items.tokens Constant.tokens := Listed.mem_tokens hc List.mem_cons_self
    simp [Declaration.tokens, hmem]
  | vars type names semicolon =>
    intro a ha
    obtain ⟨t, ht, rfl⟩ := List.mem_map.mp ha
    refine isWord_of_wellSpelled t (h _ ?_)
    have hmem : t.1 ∈ names.tokens fun t => [t.1] := Listed.mem_tokens ht List.mem_cons_self
    simp [Declaration.tokens, hmem]

theorem beforeEnd_of_isCode {a : Action} (h : a.isCode = true) : a.BeforeEnd := by
  cases a <;> trivial

theorem Routine.beforeEnd_actions (r : Routine) (h : ∀ t ∈ r.tokens, t.WellSpelled) :
    ∀ a ∈ r.heading ++ r.body.actions, a.BeforeEnd := by
  intro a ha
  rcases List.mem_append.mp ha with ha | ha
  · simp only [Routine.heading, Routine.paramActions, List.cons_append, List.mem_cons,
      List.mem_append, List.mem_flatMap, List.mem_map, List.not_mem_nil, or_false] at ha
    rcases ha with rfl | ⟨l, hl, q, hq, rfl⟩ | rfl | rfl
    · trivial
    · refine isWord_of_wellSpelled q.name (h _ ?_)
      have hmem : q.name.1 ∈ l.tokens Param.tokens :=
        Listed.mem_tokens hq (by simp [Param.tokens])
      have hparams : q.name.1 ∈ r.params.toList.flatMap (Listed.tokens Param.tokens) :=
        List.mem_flatMap.mpr ⟨l, hl, hmem⟩
      simp [Routine.tokens, hparams]
    · trivial
    · trivial
  · rcases Body.mem_actions ha with hcode | ⟨d, hd, hmem⟩
    · exact beforeEnd_of_isCode hcode
    · refine d.beforeEnd_actions (fun t ht => h t ?_) a hmem
      have hbody : t ∈ r.body.tokens := by
        have hdeclarations : t ∈ r.body.declarations.flatMap Declaration.tokens :=
          List.mem_flatMap.mpr ⟨d, hd, ht⟩
        simp [Body.tokens, hdeclarations]
      simp [Routine.tokens, hbody]

theorem MemberCore.beforeEnd_actions {className : String} (core : MemberCore className)
    (h : ∀ t ∈ core.tokens, t.WellSpelled) : ∀ a ∈ core.actions, a.BeforeEnd := by
  cases core with
  | declaration d => exact d.beforeEnd_actions h
  | constructor r named =>
    have hname : IsWord r.name.1.lexeme := isWord_of_wellSpelled r.name (h _ List.mem_cons_self)
    have hrest := r.beforeEnd_actions h
    simp only [MemberCore.actions, List.cons_append, List.forall_mem_cons, List.forall_mem_append]
      at hrest ⊢
    exact ⟨hname, ⟨hrest.1, hrest.2⟩, trivial, trivial, fun a ha => absurd ha List.not_mem_nil⟩
  | method type r =>
    have hspelled : ∀ t ∈ r.tokens, t.WellSpelled := fun t ht => h t (List.mem_cons_of_mem _ ht)
    have hname : IsWord r.name.1.lexeme :=
      isWord_of_wellSpelled r.name (hspelled _ List.mem_cons_self)
    have hrest := r.beforeEnd_actions hspelled
    simp only [MemberCore.actions, List.cons_append, List.forall_mem_cons, List.forall_mem_append]
      at hrest ⊢
    exact ⟨hname, ⟨hrest.1, hrest.2⟩, trivial, fun a ha => absurd ha List.not_mem_nil⟩

theorem ClassDecl.beforeEnd_actions (c : ClassDecl) (h : ∀ t ∈ c.tokens, t.WellSpelled) :
    ∀ a ∈ c.actions, a.BeforeEnd := by
  have hname : IsWord c.name.1.lexeme :=
    isWord_of_wellSpelled c.name (h _ (by simp [ClassDecl.tokens]))
  have hmembers : ∀ a ∈ c.members.flatMap fun m => m.core.actions, a.BeforeEnd := by
    intro a ha
    obtain ⟨m, hm, hmem⟩ := List.mem_flatMap.mp ha
    refine m.core.beforeEnd_actions (fun t ht => h t ?_) a hmem
    have htokens : t ∈ c.members.flatMap Member.tokens :=
      List.mem_flatMap.mpr ⟨m, hm, List.mem_append_right _ ht⟩
    simp [ClassDecl.tokens, htokens]
  have hheading : ∀ a ∈ c.heading, a.BeforeEnd := by
    intro a ha
    simp only [ClassDecl.heading, List.cons_append, List.mem_cons, List.mem_append, List.mem_map,
      List.not_mem_nil, or_false] at ha
    rcases ha with rfl | ⟨base, -, rfl⟩ | rfl
    · exact hname
    · trivial
    · trivial
  intro a ha
  simp only [ClassDecl.actions, List.mem_append, List.mem_singleton] at ha
  rcases ha with (ha | ha) | rfl
  · exact hheading a ha
  · exact hmembers a ha
  · trivial

/-- Up to the end of its namespace, a program declares what the text spells. -/
theorem Program.exists_actions_eq (p : Program) (h : ∀ t ∈ p.tokens, t.WellSpelled) :
    ∃ actions ending, p.actions = actions ++ ending ∧ (∀ a ∈ actions, a.BeforeEnd) ∧
      (ending = [] ∨ ending = [.closeNamespace]) := by
  have hblock : ∀ t ∈ p.block.tokens, t.WellSpelled :=
    fun t ht => h t (by simp [Program.tokens, ht])
  have husings : ∀ a ∈ p.usings.map fun u => Action.usingName u.name.text, a.BeforeEnd := by
    intro a ha
    obtain ⟨u, -, rfl⟩ := List.mem_map.mp ha
    trivial
  have hclasses : ∀ classes : List ClassDecl,
      (∀ t ∈ classes.flatMap ClassDecl.tokens, t.WellSpelled) →
      ∀ a ∈ classes.flatMap ClassDecl.actions, a.BeforeEnd := by
    intro classes hspelled a ha
    obtain ⟨c, hc, hmem⟩ := List.mem_flatMap.mp ha
    exact c.beforeEnd_actions (fun t ht => hspelled t (List.mem_flatMap.mpr ⟨c, hc, ht⟩)) a hmem
  unfold Program.actions
  cases hp : p.block with
  | bare classes =>
    rw [hp] at hblock
    refine ⟨_, [], (List.append_nil _).symm, ?_, .inl rfl⟩
    exact List.forall_mem_append.mpr ⟨husings, hclasses classes hblock⟩
  | spaced keyword name left classes right =>
    rw [hp] at hblock
    have hname : IsDotted name.text :=
      name.isDotted_text fun t ht => hblock t (by simp [Block.tokens, ht])
    refine ⟨_, [.closeNamespace], (List.append_assoc ..).symm, ?_, .inr rfl⟩
    refine List.forall_mem_append.mpr ⟨husings, List.forall_mem_cons.mpr ⟨hname, ?_⟩⟩
    exact hclasses classes fun t ht => hblock t (by simp [Block.tokens, ht])

end Syntax

end Triad
