import Triad.Proofs.VisibleNames

/-!
What the names of a body mean, read off the tree. A variable or a constant may be used behind its
declaration, and the last declaration of a name counts; a constant has the number that its word
stands for, and a variable what is stored at its place (`Method.Values`). Main statement:
`compile_preserves_meaning`, the code that a text is compiled to computes for each body of
assignments what the assignments mean.
-/

namespace Triad

namespace Syntax

/-! ## Words of constants -/

/-- The number that the word of a constant stands for: a sign counts, and a character is its code
point. -/
def ConstantWord.number : ConstantWord → Int
  | numeral none t => Expr.numeralValue t.1.kind
  | numeral (some _) t => -Expr.numeralValue t.1.kind
  | literal _ first _ _ => first.toNat

theorem ConstantWord.numericValue_number {type : ValueType} {t : Numeric}
    (h : ∀ x, numericValue type t.1.kind ≠ .float x) :
    numericValue type t.1.kind = .int (Expr.numeralValue t.1.kind) := by
  obtain ⟨⟨kind, lexeme, line⟩, hkind⟩ := t
  cases kind with
  | number n =>
    unfold numericValue at h ⊢
    dsimp only at h ⊢
    split at h
    · exact absurd rfl (h _)
    · rename_i htype
      rw [if_neg htype]
      rfl
  | decimal x => exact absurd rfl (h x)
  | _ => cases hkind

/-- In code a constant is spelled as its number, unless it is a float. -/
theorem ConstantWord.numeral_render {type : ValueType} {word : ConstantWord}
    (h : ∀ x, word.value type ≠ .float x) : Numeral (word.value type).render word.number := by
  cases word with
  | numeral sign t =>
    cases sign with
    | none =>
      rw [value, numericValue_number h]
      exact numeral_toString_int _
    | some sign =>
      have hplain : ∀ x, numericValue type t.1.kind ≠ .float x := by
        intro x hx
        rw [value, hx] at h
        exact absurd rfl (h x.neg)
      rw [value, numericValue_number hplain]
      exact numeral_toString_int _
  | literal t first rest body => exact numeral_toString_nat _

/-! ## Declarations in order -/

/-- The names that are declared, each constant with its type and its word. -/
def Declaration.words : Declaration → List (String × Option (ValueType × ConstantWord))
  | constants _ type items _ =>
    items.toList.map fun c => (c.name.1.lexeme, some (type.type, c.word))
  | vars _ names _ => names.toList.map fun t => (t.1.lexeme, none)

def Routine.words (r : Routine) : List (String × Option (ValueType × ConstantWord)) :=
  (r.params.toList.flatMap fun l => l.toList.map fun q => (q.name.1.lexeme, none)) ++
    r.body.declarations.flatMap Declaration.words

/-- What a member is to the members behind it, if it is no method. -/
def MemberCore.words {className : String} :
    MemberCore className → List (String × Option (ValueType × ConstantWord))
  | declaration d => d.words
  | _ => []

def ClassDecl.words (c : ClassDecl) : List (String × Option (ValueType × ConstantWord)) :=
  c.members.flatMap fun m => m.core.words

/-! ## Methods in their places -/

/-- A method or constructor of a program, with all that stands before it and behind it. -/
structure Method (p : Program) where
  earlier : List ClassDecl
  owner : ClassDecl
  later : List ClassDecl
  above : List (Member owner.name.1.lexeme)
  member : Member owner.name.1.lexeme
  below : List (Member owner.name.1.lexeme)
  routine : Routine
  classes_eq : p.block.classes = earlier ++ owner :: later
  members_eq : owner.members = above ++ member :: below
  routine_eq : member.core.routine? = some routine

theorem Program.exists_method {p : Program} {r : Routine} (h : r ∈ p.routines) :
    ∃ m : Method p, m.routine = r := by
  obtain ⟨c, hc, hr⟩ := List.mem_flatMap.mp h
  obtain ⟨m, hm, hr⟩ := List.mem_filterMap.mp hr
  obtain ⟨earlier, later, hclasses⟩ := List.append_of_mem hc
  obtain ⟨above, below, hmembers⟩ := List.append_of_mem hm
  exact ⟨⟨earlier, c, later, above, m, below, r, hclasses, hmembers, hr⟩, rfl⟩

/-- The action before the heading of a method. -/
def MemberCore.opening {className : String} : MemberCore className → List Action
  | declaration _ => []
  | constructor r _ => [.openConstructor r.name.1.line r.name.1.lexeme]
  | method type r => [.openMethod r.name.1.line r.name.1.lexeme type.type]

def MemberCore.closing {className : String} : MemberCore className → List Action
  | declaration _ => []
  | constructor _ _ => [.sizeFrame, .closeMethod]
  | method _ _ => [.closeMethod]

theorem MemberCore.actions_eq {className : String} {core : MemberCore className} {r : Routine}
    (h : core.routine? = some r) :
    core.actions = core.opening ++ r.heading ++ r.body.actions ++ core.closing := by
  cases core with
  | declaration d => cases h
  | constructor r' named =>
    cases h
    rfl
  | method type r' =>
    cases h
    rfl

def Block.opening : Block → List Action
  | spaced _ name left _ _ => [.openNamespace left.1.line name.text name.first.1.line]
  | bare _ => []

def Block.closing : Block → List Action
  | spaced _ _ _ _ _ => [.closeNamespace]
  | bare _ => []

theorem Block.actions_eq (b : Block) :
    b.actions = b.opening ++ b.classes.flatMap ClassDecl.actions ++ b.closing := by
  cases b with
  | spaced keyword name left classes right => rfl
  | bare classes => exact (List.append_nil _).symm

namespace Method

variable {p : Program}

/-- What is called for before the heading of the method. -/
def before (m : Method p) : List Action :=
  (p.usings.map fun u => .usingName u.name.text) ++ p.block.opening ++
    m.earlier.flatMap ClassDecl.actions ++ m.owner.heading ++
    m.above.flatMap (fun m => m.core.actions) ++ m.member.core.opening

def site (m : Method p) : Site p where
  routine := m.routine
  before := m.before
  after := m.member.core.closing ++ m.below.flatMap (fun m => m.core.actions) ++ [.closeClass] ++
    m.later.flatMap ClassDecl.actions ++ p.block.closing
  mem := by
    refine List.mem_flatMap.mpr ⟨m.owner, ?_, List.mem_filterMap.mpr ⟨m.member, ?_, m.routine_eq⟩⟩
    · rw [m.classes_eq]
      simp
    · rw [m.members_eq]
      simp
  actions_eq := by
    rw [Program.actions, Block.actions_eq, m.classes_eq, List.flatMap_append, List.flatMap_cons,
      ClassDecl.actions, m.members_eq, List.flatMap_append, List.flatMap_cons,
      MemberCore.actions_eq m.routine_eq, before]
    simp only [List.append_assoc]

/-- The variables and constants that the body may use, in the order of their declarations. -/
def words (m : Method p) : List (String × Option (ValueType × ConstantWord)) :=
  m.earlier.flatMap ClassDecl.words ++ m.above.flatMap (fun m => m.core.words) ++ m.routine.words

/-- The word of the constant that a name stands for in the body. -/
def constant? (m : Method p) (name : String) : Option ConstantWord :=
  (under name m.words).getLast?.join.map Prod.snd

end Method

end Syntax

open Syntax

/-! ## What may be used in a body -/

/-- A declaration with the value that goes into the table. -/
def valued (e : String × Option (ValueType × ConstantWord)) : String × Option ConstantValue :=
  (e.1, e.2.map fun d => d.2.value d.1)

theorem under_map_valued (name : String)
    (entries : List (String × Option (ValueType × ConstantWord))) :
    under name (entries.map valued) =
      (under name entries).map fun e => e.map fun d => d.2.value d.1 := by
  rw [under, under, List.filterMap_map, List.map_filterMap]
  refine List.filterMap_congr fun e _ => ?_
  by_cases hname : e.1 = name <;> simp [valued, hname]

namespace Visible

/-- No method is open. -/
structure Outside (v : Visible) : Prop where
  closed : v.inMethod = false
  idle : v.locals = []

variable {v : Visible}

theorem Outside.add (h : v.Outside) (entries : List (String × Option ConstantValue)) :
    (v.add entries).Outside := by
  simp only [Visible.add, h.closed]
  exact ⟨rfl, h.idle⟩

/-- Actions that declare nothing and open or close no method. -/
theorem foldl_plain {actions : List Action} (h : ∀ a ∈ actions, ∀ v : Visible, v.after a = v)
    (v : Visible) : actions.foldl after v = v := by
  induction actions with
  | nil => rfl
  | cons a actions ih =>
    rw [List.foldl_cons, h a List.mem_cons_self]
    exact ih fun b hb => h b (List.mem_cons_of_mem a hb)

theorem foldl_declare {α : Type} (f : α → Action)
    (entry : α → String × Option (ValueType × ConstantWord))
    (hf : ∀ x, ∃ line entity, f x = .declare line (entry x).1 entity ∧
      entity.constant? = (valued (entry x)).2) (xs : List α) (v : Visible) :
    (xs.map f).foldl after v = v.add ((xs.map entry).map valued) := by
  induction xs generalizing v with
  | nil => exact v.add_nil.symm
  | cons x xs ih =>
    obtain ⟨line, entity, hx, hentity⟩ := hf x
    rw [List.map_cons, List.foldl_cons, ih, hx, after, hentity, add_add]
    rfl

/-- Parts that add what they declare do so one behind the other. -/
theorem foldl_flatMap {α : Type} {P : Visible → Prop}
    (hP : ∀ v entries, P v → P (v.add entries)) {f : α → List Action}
    {w : α → List (String × Option (ValueType × ConstantWord))}
    (hf : ∀ x v, P v → (f x).foldl after v = v.add ((w x).map valued)) (xs : List α)
    (h : P v) : (xs.flatMap f).foldl after v = v.add ((xs.flatMap w).map valued) := by
  induction xs generalizing v with
  | nil => exact v.add_nil.symm
  | cons x xs ih =>
    rw [List.flatMap_cons, List.foldl_append, hf x v h, ih (hP v _ h), add_add,
      List.flatMap_cons, List.map_append]

theorem foldl_declaration (d : Declaration) (v : Visible) :
    d.actions.foldl after v = v.add (d.words.map valued) := by
  cases d with
  | constants keyword type items semicolon =>
    exact foldl_declare (Constant.action type.type)
      (fun c => (c.name.1.lexeme, some (type.type, c.word))) (fun _ => ⟨_, _, rfl, rfl⟩)
      items.toList v
  | vars type names semicolon =>
    exact foldl_declare (fun t => .declare t.1.line t.1.lexeme (.newVar type.type))
      (fun t => (t.1.lexeme, none)) (fun _ => ⟨_, _, rfl, rfl⟩) names.toList v

/-- Up to its statements, a method adds its parameters and its own variables and constants. -/
theorem foldl_routine (r : Routine) (h : v.Outside) :
    (r.heading ++ r.body.declarations.flatMap Declaration.actions).foldl after v =
      { v with locals := r.words.map valued, inMethod := true } := by
  have hheading : r.heading.foldl after v = add { v with inMethod := true }
      ((r.params.toList.flatMap fun l =>
        l.toList.map fun q => (q.name.1.lexeme, none)).map valued) := by
    rw [Routine.heading, List.foldl_append]
    exact foldl_flatMap (P := fun _ => True) (v := { v with inMethod := true })
      (fun _ _ _ => trivial) (fun l v _ => foldl_declare Param.action
        (fun q => (q.name.1.lexeme, none)) (fun _ => ⟨_, _, rfl, rfl⟩) l.toList v) _ trivial
  have hlocals : ∀ v : Visible, (r.body.declarations.flatMap Declaration.actions).foldl after v =
      v.add ((r.body.declarations.flatMap Declaration.words).map valued) := fun v =>
    foldl_flatMap (P := fun _ => True) (fun _ _ _ => trivial)
      (fun d v _ => foldl_declaration d v) _ trivial
  rw [List.foldl_append, hheading, hlocals, add_add, add, if_pos rfl, ← List.map_append]
  simp only [h.idle, List.nil_append]
  rfl

theorem foldl_member {className : String} (core : MemberCore className) (h : v.Outside) :
    core.actions.foldl after v = v.add (core.words.map valued) := by
  cases hroutine : core.routine? with
  | none =>
    cases core with
    | declaration d => exact foldl_declaration d v
    | constructor r named => cases hroutine
    | method type r => cases hroutine
  | some r =>
    have hcode : ∀ v : Visible, r.body.codeActions.foldl after v = v :=
      foldl_plain fun a ha => after_eq (.inr (.inl (r.body.isCode_codeActions a ha)))
    have hopening : core.opening.foldl after v = v := by
      cases core <;> rfl
    have hclosing : ∀ u : Visible, core.closing.foldl after u =
        { u with locals := [], inMethod := false } := by
      cases core with
      | declaration d => cases hroutine
      | constructor | method => exact fun _ => rfl
    have hwords : core.words = [] := by
      cases core with
      | declaration d => cases hroutine
      | constructor | method => rfl
    rw [MemberCore.actions_eq hroutine, Body.actions_eq, hwords, List.map_nil, add_nil,
      List.append_assoc core.opening, ← List.append_assoc r.heading, List.append_assoc,
      List.foldl_append, hopening, List.foldl_append, List.foldl_append, foldl_routine r h, hcode,
      hclosing, ← h.closed, ← h.idle]

theorem foldl_classHeading (c : ClassDecl) (v : Visible) : c.heading.foldl after v = v := by
  refine foldl_plain (fun a ha v => ?_) v
  simp only [ClassDecl.heading, List.cons_append, List.mem_cons, List.mem_append, List.mem_map,
    List.not_mem_nil, or_false] at ha
  rcases ha with rfl | ⟨base, -, rfl⟩ | rfl <;> rfl

theorem foldl_class (c : ClassDecl) (h : v.Outside) :
    c.actions.foldl after v = v.add (c.words.map valued) := by
  have hmembers := foldl_flatMap (P := Outside) (fun _ _ h => h.add _)
    (fun (m : Member c.name.1.lexeme) _ h => foldl_member m.core h) c.members h
  rw [ClassDecl.actions, List.foldl_append, List.foldl_append, foldl_classHeading, hmembers]
  rfl

/-- At the statements of a body, what may be used is what the tree has declared so far. -/
theorem all_opening {p : Program} (m : Method p) :
    (visible m.site.opening).all = m.words.map valued := by
  have houtside : Outside ⟨[], [], false⟩ := ⟨rfl, rfl⟩
  have husings : ∀ v : Visible,
      (p.usings.map fun u => Action.usingName u.name.text).foldl after v = v := by
    refine foldl_plain fun a ha v => ?_
    obtain ⟨u, -, rfl⟩ := List.mem_map.mp ha
    rfl
  have hblock : ∀ v : Visible, p.block.opening.foldl after v = v := by
    intro v
    cases p.block <;> rfl
  have hopening : ∀ v : Visible, m.member.core.opening.foldl after v = v := by
    intro v
    cases m.member.core <;> rfl
  have hearlier := foldl_flatMap (P := Outside) (fun _ _ h => h.add _)
    (fun c _ h => foldl_class c h) m.earlier houtside
  have habove := foldl_flatMap (P := Outside) (fun _ _ h => h.add _)
    (fun (m : Member m.owner.name.1.lexeme) _ h => foldl_member m.core h) m.above
    (houtside.add ((m.earlier.flatMap ClassDecl.words).map valued))
  have hbefore : m.before.foldl after ⟨[], [], false⟩ =
      (add ⟨[], [], false⟩ ((m.earlier.flatMap ClassDecl.words).map valued)).add
        ((m.above.flatMap fun m => m.core.words).map valued) := by
    simp only [Method.before, List.foldl_append, husings, hblock, hearlier, foldl_classHeading,
      habove, hopening]
  have hsplit : m.site.opening = m.before ++
      (m.routine.heading ++ m.routine.body.declarations.flatMap Declaration.actions) :=
    List.append_assoc ..
  rw [visible, hsplit, List.foldl_append, hbefore, foldl_routine _ ((houtside.add _).add _),
    add_add]
  simp [all, add, Method.words]

end Visible

/-! ## Values of the names -/

/-- The values of the names of a body: a constant has the number of its word, and all else what is
stored at its place. -/
structure Syntax.Method.Values {p : Program} (m : Method p) (s : State) (A : Arithmetic Int)
    (σ : Store Int) (ρ : String → Int) : Prop where
  constant : ∀ name ∈ m.routine.body.names, ∀ word, m.constant? name = some word →
    ρ name = word.number
  stored : ∀ name ∈ m.routine.body.names, m.constant? name = none → s.Holds A σ name (ρ name)

theorem Symbol.isPlain_of_isWhole {r : Symbol} (h : r.isWhole = true) :
    r.entity.isPlain = true := by
  unfold isWhole at h
  cases hentity : r.entity with
  | var | const => rfl
  | _ =>
    rw [hentity] at h
    cases h

theorem Symbol.ne_float_of_isWhole {r : Symbol} (h : r.isWhole = true) {value : ConstantValue}
    (hvalue : r.entity.constant? = some value) : ∀ x, value ≠ .float x := by
  rintro x rfl
  unfold isWhole at h
  cases hentity : r.entity with
  | const type value =>
    rw [hentity] at h hvalue
    cases hvalue
    cases h
  | _ =>
    rw [hentity] at hvalue
    cases hvalue

section Values

variable {p : Program} {ψ : Phase} {s : State}

/-- A name of a body has the record that its last declaration made. -/
theorem Syntax.Method.record (m : Method p) (hlegal : Phase.Legal .preface p.actions ψ)
    (hs : State.initial.run m.site.opening = (s, none)) {name : String} (hword : IsWord name)
    (husable : s.isUsable name = true) :
    ∃ id r, s.symbols.lookup name = some id ∧ s.symbols.get? id = some r ∧
      (m.constant? name = none ∧ r.entity.constant? = none ∨
        ∃ type word, m.constant? name = some word ∧
          r.entity.constant? = some (word.value type) ∧ ∀ x, word.value type ≠ .float x) := by
  obtain ⟨id, r, hid, hr, hwhole⟩ := State.exists_of_isUsable husable
  rw [m.site.actions_split] at hlegal
  obtain ⟨φ, hopening, -⟩ := hlegal.split
  have hlast := getLast?_visible hword hopening hs hid hr (Symbol.isPlain_of_isWhole hwhole)
  rw [Visible.all_opening, under_map_valued, List.getLast?_map] at hlast
  obtain ⟨e, he, hvalue⟩ := Option.map_eq_some_iff.mp hlast
  refine ⟨id, r, hid, hr, ?_⟩
  unfold Method.constant?
  rw [he]
  cases e with
  | none => exact .inl ⟨rfl, hvalue.symm⟩
  | some d => exact .inr ⟨d.1, d.2, rfl, hvalue.symm, Symbol.ne_float_of_isWhole hwhole hvalue.symm⟩

/-- The operands of the names have just the values that the tree gives them. -/
theorem Syntax.Method.values_iff (m : Method p) (hlegal : Phase.Legal .preface p.actions ψ)
    (hs : State.initial.run m.site.opening = (s, none))
    (hnames : ∀ name ∈ m.routine.body.names, IsWord name ∧ s.isUsable name = true)
    {A : Arithmetic Int} (hA : A.IsInteger) {σ : Store Int} {ρ : String → Int} :
    m.Values s A σ ρ ↔ s.Agrees m.routine.body.names A σ ρ := by
  have hvalue : ∀ name ∈ m.routine.body.names, ∀ word, m.constant? name = some word → ∃ id r,
      s.symbols.lookup name = some id ∧ s.symbols.get? id = some r ∧
        r.operand.eval A σ = some word.number := by
    intro name hname word hword
    obtain ⟨hisWord, husable⟩ := hnames name hname
    obtain ⟨id, r, hid, hr, ⟨hnone, -⟩ | ⟨type, word', hsome, hconst, hwhole⟩⟩ :=
      m.record hlegal hs hisWord husable
    · cases hword.symm.trans hnone
    · cases hword.symm.trans hsome
      refine ⟨id, r, hid, hr, ?_⟩
      rw [Symbol.operand, Symbol.constantValue?_eq, hconst]
      exact Operand.eval_literal hA (ConstantWord.numeral_render hwhole)
  constructor
  · intro h name hname
    cases hconst : m.constant? name with
    | none => exact h.stored name hname hconst
    | some word =>
      obtain ⟨id, r, hid, hr, heval⟩ := hvalue name hname word hconst
      rw [h.constant name hname word hconst]
      exact ⟨id, r.operand, hid, State.operandOf_eq hr, heval⟩
  · intro h
    refine ⟨fun name hname word hconst => ?_, fun name hname _ => h name hname⟩
    obtain ⟨id, r, hid, hr, heval⟩ := hvalue name hname word hconst
    exact Option.some.inj ((h name hname).eval_eq hid (State.operandOf_eq hr) ▸ heval)

end Values

/-- The code of a body of assignments. Every method of a program has its place; however the names of
its body are declared, as long as they stand for whole numbers, and whatever comes before and behind
the statements: they are translated without a fault or a warning, and their code is part of the code
of the text. Carried out from any store, where the names have the values of their words or of their
places, the code leaves every name with the value that the statements give it. -/
theorem compile_preserves_meaning {source : String} {tokens : List Token}
    (htokens : tokenize source = .ok tokens) {p : Program}
    (hp : p.tokens = withoutComments tokens) :
    (∀ r ∈ p.routines, ∃ m : Method p, m.routine = r) ∧
    ∀ (m : Method p) (s : State), m.routine.body.isArithmetic = true →
      State.initial.run m.site.opening = (s, none) →
      (∀ name ∈ m.routine.body.names, s.isUsable name = true) →
      (∀ name ∈ m.routine.body.targets, s.isAssignable name = true) →
      ∃ t code, s.run (m.routine.body.steps.flatMap Statement.actions) = (t, none) ∧
        t.warnings = s.warnings ∧ t.code.toList = s.code.toList ++ code ∧
        (∀ c, compile source = .ok c → ∃ rest, c.code = s.code.toList ++ code ++ rest) ∧
        ∀ A : Arithmetic Int, A.IsInteger → ∀ σ : Store Int,
          (∃ ρ, m.Values s A σ ρ) ∧
          ∀ ρ, m.Values s A σ ρ → ∃ σ', Code.exec A σ code = some σ' ∧
            m.Values s A σ' (m.routine.body.eval A ρ) ∧
            s.Agrees m.routine.body.names A σ' (m.routine.body.eval A ρ) := by
  refine ⟨fun r hr => Program.exists_method hr, fun m s harithmetic hs hnames htargets => ?_⟩
  obtain ⟨hquiet, -, hlegal⟩ := legal_actions htokens hp
  obtain ⟨t, code, hrun, hcarries⟩ := m.site.carries htokens hp harithmetic hs hnames htargets
  refine ⟨t, code, hrun, hcarries.follows.warnings, hcarries.code_eq, fun c hc => ?_,
    fun A hA σ => ?_⟩
  · obtain ⟨rest, hrest⟩ := exists_compile_code m.site hquiet hc hs hrun
    exact ⟨rest, by rw [hrest, hcarries.code_eq]⟩
  · have hvalues : ∀ {σ : Store Int} {ρ : String → Int},
        m.Values s A σ ρ ↔ s.Agrees m.routine.body.names A σ ρ :=
      m.values_iff hlegal hs
        (fun name hname => ⟨m.site.isWord_names htokens hp name hname, hnames name hname⟩) hA
    obtain ⟨ρ, hρ⟩ := State.exists_agrees hnames hA σ
    refine ⟨⟨ρ, hvalues.mpr hρ⟩, fun ρ hρ => ?_⟩
    obtain ⟨σ', hexec, hagrees⟩ := hcarries.exec A hA σ ρ (hvalues.mp hρ)
    exact ⟨σ', hexec, hvalues.mpr hagrees, hagrees⟩

/-! ## One body -/

namespace Sample

/-- A class has a character and a method a negative number under a name. -/
def signed : String := "class A\x7bconst char C='a';int g;int Main()\x7bconst int K=-5;int x;" ++
  "x=-(g+K)*x+C;\x7d\x7d"

/-- The expression `-(g+K)*x+C`. -/
def signedSum : Expr .expr :=
  .sum (.ofTerm (.product
    (.ofFactor (.minus (tok .signOp "-") (.paren (tok .leftParen "(")
      (.sum (.ofTerm (.ofFactor (.name (tok .identifier "g")))) plus
        (.ofFactor (.name (tok .identifier "K"))))
      (tok .rightParen ")"))))
    times (.name (tok .identifier "x")))) plus (.ofFactor (.name (tok .identifier "C")))

def signedMain : Routine where
  name := tok .identifier "Main"
  left := tok .leftParen "("
  params := none
  right := tok .rightParen ")"
  leftBrace := tok .leftBrace "\x7b"
  body :=
    { declarations :=
        [constantOf intName "K" (.numeral (some (tok .signOp "-")) (numberOf 5 "5")),
          .vars intName ⟨tok .identifier "x", []⟩ (tok .semicolon ";")]
      statements := [assignTo "x" signedSum]
      returns := none }
  rightBrace := tok .rightBrace "\x7d"

def signedFields : List (Member "A") :=
  [⟨[], .declaration (constantOf charName "C"
      (.literal ⟨⟨.literal "a", "'a'", 1⟩, "a", rfl⟩ 'a' [] (by decide +kernel)))⟩,
    ⟨[], .declaration (.vars intName ⟨tok .identifier "g", []⟩ (tok .semicolon ";"))⟩]

def signedClass : ClassDecl where
  modifiers := []
  keyword := tok .kwClass "class"
  name := tok .identifier "A"
  base := none
  left := tok .leftBrace "\x7b"
  members := signedFields ++ [⟨[], .method intName signedMain⟩]
  right := tok .rightBrace "\x7d"

def signedProgram : Program where
  usings := []
  block := .bare [signedClass]
  ending := tok .eof ""

def signedMethod : Method signedProgram where
  earlier := []
  owner := signedClass
  later := []
  above := signedFields
  member := ⟨[], .method intName signedMain⟩
  below := []
  routine := signedMain
  classes_eq := rfl
  members_eq := rfl
  routine_eq := rfl

/-- The state at the statement. -/
def signedState : State := (State.initial.run signedMethod.site.opening).1

end Sample

open Sample in
theorem compile_preserves_meaning_signed :
    (signedMethod.constant? "K").map ConstantWord.number = some (-5) ∧
    (signedMethod.constant? "C").map ConstantWord.number = some 97 ∧
    ∃ code σ,
      (∀ c, compile signed = .ok c → ∃ rest, c.code = signedState.code.toList ++ code ++ rest) ∧
      Code.exec .cutOff ⟨fun _ => 5, fun _ => 3, 0⟩ code = some σ ∧
      σ.frame (-2) = -(3 + -5) * 5 + 97 := by
  have htokens : tokenize signed = .ok signedProgram.tokens := by decide +kernel
  have hopened : State.initial.run signedMethod.site.opening = (signedState, none) :=
    State.run_eq_of_none (by decide +kernel)
  obtain ⟨t, code, -, -, -, hcompile, hexec⟩ := (compile_preserves_meaning htokens
    (by decide +kernel : signedProgram.tokens = withoutComments signedProgram.tokens)).2
    signedMethod signedState (by decide +kernel) hopened (by decide +kernel) (by decide +kernel)
  obtain ⟨⟨ρ, hρ⟩, hexec⟩ :=
    hexec .cutOff Arithmetic.isInteger_cutOff ⟨fun _ => 5, fun _ => 3, 0⟩
  obtain ⟨σ, hσ, -, hagrees⟩ := hexec ρ hρ
  refine ⟨rfl, rfl, code, σ, hcompile, hσ, ?_⟩
  have hx : signedState.symbols.lookup "x" = some 5 := by decide +kernel
  have hg : signedState.symbols.lookup "g" = some 2 := by decide +kernel
  have hslot : signedState.operandOf 5 = .ok (.frame (-2)) := by decide +kernel
  have hglobal : signedState.operandOf 2 = .ok (.global "g") := by decide +kernel
  have hρx : some 5 = some (ρ "x") := (hρ.stored "x" (by decide +kernel) rfl).eval_eq hx hslot
  have hρg : some 3 = some (ρ "g") := (hρ.stored "g" (by decide +kernel) rfl).eval_eq hg hglobal
  have hρK : ρ "K" = -5 := hρ.constant "K" (by decide +kernel) _ rfl
  have hρC : ρ "C" = 97 := hρ.constant "C" (by decide +kernel) _ rfl
  have hnew : some (σ.frame (-2)) = some (-(ρ "g" + ρ "K") * ρ "x" + ρ "C") :=
    (hagrees "x" (by decide +kernel)).eval_eq hx hslot
  rw [Option.some.inj hnew, ← Option.some.inj hρx, ← Option.some.inj hρg, hρK, hρC]

end Triad
