import Triad.Proofs.AssignmentCode
import Triad.Proofs.ProgramActions
import Triad.Proofs.ProgramRun

/-!
Bodies of methods and their code. A method of a program has its place among the actions that the
program calls for (`Site`). Main statement: the assignments of a body are translated, and their code
gives the operands of the names the values that the assignments do (`Syntax.Site.carries`).
-/

namespace Triad

namespace Syntax

/-! ## The methods of a program -/

def MemberCore.routine? {className : String} : MemberCore className → Option Routine
  | declaration _ => none
  | constructor r _ => some r
  | method _ r => some r

def ClassDecl.routines (c : ClassDecl) : List Routine :=
  c.members.filterMap fun m => m.core.routine?

def Block.classes : Block → List ClassDecl
  | spaced _ _ _ classes _ => classes
  | bare classes => classes

def Program.routines (p : Program) : List Routine := p.block.classes.flatMap ClassDecl.routines

/-- A method or constructor of a program, with all that is called for before its parameters and
behind its body. -/
structure Site (p : Program) where
  routine : Routine
  before : List Action
  after : List Action
  mem : routine ∈ p.routines
  actions_eq : p.actions = before ++ routine.heading ++ routine.body.actions ++ after

/-- What is called for up to the statements of the body. -/
def Site.opening {p : Program} (site : Site p) : List Action :=
  site.before ++ site.routine.heading ++ site.routine.body.declarations.flatMap Declaration.actions

theorem Site.actions_split {p : Program} (site : Site p) :
    p.actions = site.opening ++ (site.routine.body.steps.flatMap Statement.actions ++
      (site.routine.body.returns.toList.flatMap Return.actions ++ site.after)) := by
  rw [site.actions_eq, Site.opening, Body.actions, Body.steps, List.flatMap_map]
  simp

/-- What a method calls for, behind its opening. -/
theorem MemberCore.infix_actions {className : String} {core : MemberCore className} {r : Routine}
    (h : core.routine? = some r) : r.heading ++ r.body.actions <:+: core.actions := by
  cases core with
  | declaration d => cases h
  | constructor r' named =>
    cases h
    exact ⟨[.openConstructor r.name.1.line r.name.1.lexeme], _, rfl⟩
  | method type r' =>
    cases h
    exact ⟨[.openMethod r.name.1.line r.name.1.lexeme type.type], _, rfl⟩

theorem ClassDecl.infix_actions {c : ClassDecl} {r : Routine} (h : r ∈ c.routines) :
    r.heading ++ r.body.actions <:+: c.actions := by
  obtain ⟨m, hm, hr⟩ := List.mem_filterMap.mp h
  have hmember : m.core.actions <:+: c.members.flatMap fun m => m.core.actions :=
    List.infix_of_mem_flatten (List.mem_map_of_mem hm)
  exact (MemberCore.infix_actions hr).trans (hmember.trans ⟨c.heading, [.closeClass], rfl⟩)

theorem Program.infix_class {p : Program} {c : ClassDecl} (h : c ∈ p.block.classes) :
    c.actions <:+: p.actions := by
  have hclass : c.actions <:+: p.block.classes.flatMap ClassDecl.actions :=
    List.infix_of_mem_flatten (List.mem_map_of_mem h)
  have hblock : p.block.classes.flatMap ClassDecl.actions <:+: p.block.actions := by
    cases p.block with
    | spaced keyword name left classes right => exact ⟨[_], [.closeNamespace], rfl⟩
    | bare classes => exact List.infix_rfl
  exact hclass.trans (hblock.trans (List.suffix_append _ _).isInfix)

theorem Program.infix_actions {p : Program} {r : Routine} (h : r ∈ p.routines) :
    r.heading ++ r.body.actions <:+: p.actions := by
  obtain ⟨c, hc, hr⟩ := List.mem_flatMap.mp h
  exact (ClassDecl.infix_actions hr).trans (Program.infix_class hc)

/-! ## Tokens -/

theorem MemberCore.mem_tokens {className : String} {core : MemberCore className} {r : Routine}
    (h : core.routine? = some r) {t : Token} (ht : t ∈ r.tokens) : t ∈ core.tokens := by
  cases core with
  | declaration d => cases h
  | constructor r' named =>
    cases h
    exact ht
  | method type r' =>
    cases h
    exact List.mem_cons_of_mem _ ht

theorem ClassDecl.mem_tokens {c : ClassDecl} {r : Routine} (h : r ∈ c.routines) {t : Token}
    (ht : t ∈ r.tokens) : t ∈ c.tokens := by
  obtain ⟨m, hm, hr⟩ := List.mem_filterMap.mp h
  have hmember : t ∈ m.tokens := List.mem_append_right _ (MemberCore.mem_tokens hr ht)
  have hmembers : t ∈ c.members.flatMap Member.tokens := List.mem_flatMap.mpr ⟨m, hm, hmember⟩
  simp [ClassDecl.tokens, hmembers]

theorem Block.mem_tokens {b : Block} {c : ClassDecl} (h : c ∈ b.classes) {t : Token}
    (ht : t ∈ c.tokens) : t ∈ b.tokens := by
  cases b with
  | spaced keyword name left classes right =>
    have hclasses : t ∈ classes.flatMap ClassDecl.tokens := List.mem_flatMap.mpr ⟨c, h, ht⟩
    simp [Block.tokens, hclasses]
  | bare classes => exact List.mem_flatMap.mpr ⟨c, h, ht⟩

theorem Program.mem_tokens {p : Program} {r : Routine} (h : r ∈ p.routines) {t : Token}
    (ht : t ∈ r.tokens) : t ∈ p.tokens := by
  obtain ⟨c, hc, hr⟩ := List.mem_flatMap.mp h
  have hblock := Block.mem_tokens hc (ClassDecl.mem_tokens hr ht)
  simp [Program.tokens, hblock]

theorem Routine.mem_tokens {r : Routine} {st : Statement} (h : st ∈ r.body.steps) {t : Token}
    (ht : t ∈ st.tokens) : t ∈ r.tokens := by
  obtain ⟨⟨st', semicolon⟩, hmem, rfl⟩ := List.mem_map.mp h
  have hstatements : t ∈ r.body.statements.flatMap fun step => step.1.tokens ++ [step.2.1] :=
    List.mem_flatMap.mpr ⟨_, hmem, List.mem_append_left _ ht⟩
  have hbody : t ∈ r.body.tokens := by
    simp only [Body.tokens, List.mem_append]
    exact .inl (.inr hstatements)
  simp [Routine.tokens, hbody]

/-! ## Names -/

theorem Expr.isWord_of_mem_names {r : Rank} (e : Expr r)
    (hspelled : ∀ t ∈ e.tokens, t.WellSpelled) : ∀ name ∈ e.names, IsWord name := by
  induction e with
  | name t =>
    intro name hname
    rw [List.mem_singleton.mp hname]
    exact isWord_of_wellSpelled t (hspelled t.1 List.mem_cons_self)
  | numeral t => simp [Expr.names]
  | paren left e right ih => exact ih fun t ht => hspelled t (by simp [Expr.tokens, ht])
  | minus sign f ih => exact ih fun t ht => hspelled t (List.mem_cons_of_mem _ ht)
  | ofFactor f ih => exact ih hspelled
  | ofTerm t ih => exact ih hspelled
  | product l op f ihl ihf | sum l op f ihl ihf =>
    intro name hname
    rcases List.mem_append.mp hname with hname | hname
    · exact ihl (fun t ht => hspelled t (List.mem_append_left _ ht)) name hname
    · exact ihf (fun t ht => hspelled t (by simp [Expr.tokens, ht])) name hname

theorem Statement.isWord_of_mem_names (st : Statement)
    (hspelled : ∀ t ∈ st.tokens, t.WellSpelled) : ∀ name ∈ st.names, IsWord name := by
  unfold Statement.names
  split
  · rename_i target op e
    intro name hname
    rcases List.mem_cons.mp hname with rfl | hname
    · exact isWord_of_wellSpelled target (hspelled target.1 List.mem_cons_self)
    · refine e.isWord_of_mem_names (fun t ht => hspelled t ?_) name hname
      exact List.mem_cons_of_mem _ (List.mem_cons_of_mem _ ht)
  · simp

end Syntax

open Syntax

/-! ## The state at the statements of a body -/

theorem Phase.eq_methodHead_of_legal {φ ψ : Phase} {actions : List Action}
    (h : Legal φ (.openParams :: actions) ψ) : φ = .methodHead := by
  cases h with
  | cons here _ => cases φ <;> first | rfl | cases here
  | begin later =>
    cases later with
    | cons here _ => cases here

/-- At its statements, a body has its variables apart. -/
theorem fits_opening {p : Program} {ψ : Phase} (hlegal : Phase.Legal .preface p.actions ψ)
    (site : Site p) {s : State} (hs : State.initial.run site.opening = (s, none)) :
    Fits .body s ∧ s.Laid (-1) := by
  have hactions : p.actions = site.before ++ (.openParams :: (site.routine.paramActions ++
      [.closeParams, .openBody] ++ site.routine.body.actions ++ site.after)) := by
    rw [site.actions_eq]
    simp [Routine.heading]
  rw [hactions] at hlegal
  obtain ⟨χ, hbefore, hrest⟩ := hlegal.split
  have hχ := Phase.eq_methodHead_of_legal hrest
  subst hχ
  unfold Site.opening at hs
  rw [List.append_assoc] at hs
  obtain ⟨u, hu, hopened⟩ := State.run_append_eq_none.mp hs
  have hfits := fits_of_run fits_initial hbefore hu
  exact ⟨fits_of_run hfits (legal_declarations_body site.routine) hopened,
    laid_declarations hfits site.routine hopened⟩

/-! ## The code of a text -/

/-- The code written so far stays at the head of the code of the text. -/
theorem exists_compile_code {source : String} {c : Compilation} {p : Program} (site : Site p)
    (hquiet : quiet (Grammar.parse (Scanner.ofString source).scan).1 = p.actions)
    (hc : compile source = .ok c) {s t : State}
    (hs : State.initial.run site.opening = (s, none))
    (ht : s.run (site.routine.body.steps.flatMap Statement.actions) = (t, none)) :
    ∃ rest, c.code = t.code.toList ++ rest := by
  obtain ⟨final, hfinal, -, -, hcode⟩ := exists_run_of_compile hquiet hc
  rw [site.actions_split] at hfinal
  obtain ⟨s', hs', hbehind⟩ := State.run_append_eq_none.mp hfinal
  rw [hs] at hs'
  cases hs'
  obtain ⟨t', ht', hend⟩ := State.run_append_eq_none.mp hbehind
  rw [ht] at ht'
  cases ht'
  obtain ⟨rest, hrest⟩ := State.code_run t
    (site.routine.body.returns.toList.flatMap Return.actions ++ site.after)
  rw [hend] at hrest
  refine ⟨rest ++ [.start c.entry], ?_⟩
  rw [hcode, hrest, List.append_assoc]

section Sites

variable {source : String} {tokens : List Token} {p : Program}

theorem Syntax.Site.wellSpelled (htokens : tokenize source = .ok tokens)
    (hp : p.tokens = withoutComments tokens) (site : Site p) :
    ∀ st ∈ site.routine.body.steps, ∀ t ∈ st.tokens, t.WellSpelled := by
  intro st hst t ht
  have hmem := Program.mem_tokens site.mem (Routine.mem_tokens hst ht)
  rw [hp] at hmem
  exact wellSpelled_of_tokenize htokens t hmem

theorem Syntax.Site.isWord_names (htokens : tokenize source = .ok tokens)
    (hp : p.tokens = withoutComments tokens) (site : Site p) :
    ∀ name ∈ site.routine.body.names, IsWord name := by
  intro name hname
  obtain ⟨st, hst, hst'⟩ := List.mem_flatMap.mp hname
  exact st.isWord_of_mem_names (site.wellSpelled htokens hp st hst) name hst'

/-- A body of assignments is translated without a fault. However its names are declared, as long as
they stand for whole numbers, its code gives their operands the values that the statements do. -/
theorem Syntax.Site.carries (htokens : tokenize source = .ok tokens)
    (hp : p.tokens = withoutComments tokens) (site : Site p)
    (harithmetic : site.routine.body.isArithmetic = true) {s : State}
    (hs : State.initial.run site.opening = (s, none))
    (hnames : ∀ name ∈ site.routine.body.names, s.isUsable name = true)
    (htargets : ∀ name ∈ site.routine.body.targets, s.isAssignable name = true) :
    ∃ t code, s.run (site.routine.body.steps.flatMap Statement.actions) = (t, none) ∧
      Carries s site.routine.body.names s t code fun A ρ => site.routine.body.eval A ρ := by
  obtain ⟨hfits, hlaid⟩ := fits_opening (legal_actions htokens hp).2.2 site hs
  exact carries_statements hfits hlaid
    (fun name hname => ⟨site.isWord_names htokens hp name hname, hnames name hname⟩)
    site.routine.body.steps (.refl hfits.chained) (List.all_eq_true.mp harithmetic)
    (site.wellSpelled htokens hp) (fun st hst name hname => List.mem_flatMap.mpr ⟨st, hst, hname⟩)
    (fun st hst name hname => htargets name (List.mem_filterMap.mpr ⟨st, hst, hname⟩))

end Sites

namespace Sample

def tok (kind : Kind) (lexeme : String) : Tok kind := ⟨⟨kind, lexeme, 1⟩, rfl⟩

def intName : TypeName := ⟨⟨.kwInt, "int", 1⟩, .int, rfl⟩

end Sample

end Triad
