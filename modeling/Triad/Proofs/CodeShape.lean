import Triad.Proofs.ProgramActions
import Triad.Proofs.Translation

/-!
The code of a program as a whole. Each method and each constructor has a procedure, in the order of
the text, and the start is behind all of them. Main statement: `code_of_procedures`, which also says
which texts have no start.
-/

namespace Triad

/-! ## Procedures -/

/-- A procedure in three-address code. Nothing in its body begins or ends a procedure. -/
structure Procedure where
  name : String
  body : Code
  inner : ∀ i ∈ body, i.isInner = true

def Procedure.code (p : Procedure) : Code := .proc p.name :: p.body ++ [.endp p.name]

/-- The code consists of procedures of the given names, one behind the other; the last one may still
be open. -/
inductive Written : Option String → List String → Code → Prop
  | closed (procedures : List Procedure) :
      Written none (procedures.map Procedure.name) (procedures.flatMap Procedure.code)
  | opened (procedures : List Procedure) (name : String) (body : Code)
      (inner : ∀ i ∈ body, i.isInner = true) :
      Written (some name) (procedures.map Procedure.name ++ [name])
        (procedures.flatMap Procedure.code ++ .proc name :: body)

namespace Written

variable {name : String} {names : List String} {code : Code}

theorem begin (h : Written none names code) (name : String) :
    Written (some name) (names ++ [name]) (code ++ [.proc name]) := by
  cases h with
  | closed procedures => exact .opened procedures name [] fun i hi => absurd hi List.not_mem_nil

theorem extend (h : Written (some name) names code) {more : Code}
    (hmore : ∀ i ∈ more, i.isInner = true) : Written (some name) names (code ++ more) := by
  cases h with
  | opened procedures name body inner =>
    rw [List.append_assoc, List.cons_append]
    exact .opened procedures name (body ++ more) (List.forall_mem_append.mpr ⟨inner, hmore⟩)

theorem finish (h : Written (some name) names code) :
    Written none names (code ++ [.endp name]) := by
  cases h with
  | opened procedures name body inner =>
    have hall := Written.closed (procedures ++ [⟨name, body, inner⟩])
    simpa [Procedure.code] using hall

theorem exists_procedures (h : Written none names code) :
    ∃ procedures : List Procedure,
      code = procedures.flatMap Procedure.code ∧ names = procedures.map Procedure.name := by
  cases h with
  | closed procedures => exact ⟨procedures, rfl, rfl⟩

end Written

/-! ## Methods in the table -/

namespace SymbolTable

/-- The methods in the order of insertion. -/
def methods (t : SymbolTable) : List SymbolId :=
  (t.toList.filter fun r => r.2.entity.isMethod).map Prod.fst

/-- The name of a record behind the name of its owner. -/
def qualifiedName? (t : SymbolTable) (id : SymbolId) : Option String := do
  let r ← t.get? id
  let owner ← t.ownerName? id
  return owner ++ "." ++ r.name

def isMethodAt (t : SymbolTable) (id : SymbolId) : Bool :=
  (t.get? id).any fun r => r.entity.isMethod

theorem isMethodAt_iff {t : SymbolTable} {id : SymbolId} :
    t.isMethodAt id = true ↔ ∃ r, t.get? id = some r ∧ r.entity.isMethod = true := by
  unfold isMethodAt
  cases t.get? id <;> simp

theorem methods_eq {t : SymbolTable} {n : Nat} (h : t.nextId ≤ n) :
    t.methods = (List.range n).filter t.isMethodAt := by
  unfold methods
  rw [t.toList_eq h]
  induction List.range n with
  | nil => rfl
  | cons id ids ih =>
    rw [List.filterMap_cons, List.filter_cons]
    cases hr : t.get? id with
    | none => simpa [isMethodAt, hr] using ih
    | some r =>
      by_cases hmethod : r.entity.isMethod = true
      · simpa [isMethodAt, hr, hmethod] using ih
      · simpa [isMethodAt, hr, hmethod] using ih

theorem mem_methods {t : SymbolTable} {id : SymbolId} (h : id ∈ t.methods) :
    ∃ r, t.get? id = some r ∧ r.entity.isMethod = true := by
  rw [methods_eq (Nat.le_refl t.nextId)] at h
  exact isMethodAt_iff.mp (List.mem_filter.mp h).2

theorem mem_methods_of_get? {t : SymbolTable} {id : SymbolId} {r : Symbol} (h : t.get? id = some r)
    (hmethod : r.entity.isMethod = true) : id ∈ t.methods := by
  rw [methods_eq (Nat.le_refl t.nextId)]
  exact List.mem_filter.mpr ⟨List.mem_range.mpr (get?_lt h), isMethodAt_iff.mpr ⟨r, h, hmethod⟩⟩

theorem qualifiedName?_eq_some {t : SymbolTable} {id k : SymbolId} {r o : Symbol}
    (hr : t.get? id = some r) (hk : r.owner = some k) (ho : t.get? k = some o) :
    t.qualifiedName? id = some (o.name ++ "." ++ r.name) := by
  simp [qualifiedName?, ownerName?, hr, hk, ho]

/-- Every method has a class for its owner. -/
def MethodsOwned (t : SymbolTable) : Prop :=
  ∀ id r, t.get? id = some r → r.entity.isMethod = true →
    ∃ k o, r.owner = some k ∧ t.get? k = some o ∧ o.entity.isClass = true

/-- A method goes by the same full name as long as it and its class stay. -/
theorem qualifiedName?_keep {t t' : SymbolTable} (howned : t.MethodsOwned)
    (hkeep : ∀ id r, t.get? id = some r → r.entity.isInner = false →
      ∃ r', t'.get? id = some r' ∧ r'.outline = r.outline) {id : SymbolId} (hid : id ∈ t.methods) :
    t'.qualifiedName? id = t.qualifiedName? id := by
  obtain ⟨r, hr, hmethod⟩ := mem_methods hid
  obtain ⟨k, o, hk, ho, hclass⟩ := howned id r hr hmethod
  obtain ⟨r', hr', hout⟩ := hkeep id r hr (Entity.isInner_of_isMethod hmethod)
  obtain ⟨o', ho', hout'⟩ := hkeep k o ho (Entity.isInner_of_isClass hclass)
  rw [qualifiedName?_eq_some hr hk ho,
    qualifiedName?_eq_some hr' ((Symbol.owner_of_outline hout).trans hk) ho',
    Symbol.name_of_outline hout, Symbol.name_of_outline hout']

theorem methods_same {t t' : SymbolTable} (hsame : t.SameOuter t') : t'.methods = t.methods := by
  rw [methods_eq (Nat.le_max_left t.nextId t'.nextId),
    methods_eq (Nat.le_max_right t.nextId t'.nextId)]
  refine List.filter_congr fun id _ => ?_
  rw [Bool.eq_iff_iff, isMethodAt_iff, isMethodAt_iff]
  constructor
  · rintro ⟨r', hr', hmethod⟩
    obtain ⟨r, hr, hout⟩ := hsame.get?_old id r' hr' (Entity.isInner_of_isMethod hmethod)
    exact ⟨r, hr, (Symbol.isMethod_of_outline hout).trans hmethod⟩
  · rintro ⟨r, hr, hmethod⟩
    obtain ⟨r', hr', hout⟩ := hsame.get? id r hr (Entity.isInner_of_isMethod hmethod)
    exact ⟨r', hr', (Symbol.isMethod_of_outline hout).trans hmethod⟩

/-- The full names of the methods in the order of insertion. -/
def methodNames (t : SymbolTable) : List (Option String) := t.methods.map t.qualifiedName?

theorem methodNames_same {t t' : SymbolTable} (howned : t.MethodsOwned)
    (hsame : t.SameOuter t') : t'.methodNames = t.methodNames := by
  unfold methodNames
  rw [methods_same hsame]
  exact List.map_congr_left fun id hid => qualifiedName?_keep howned hsame.get? hid

end SymbolTable

theorem State.methods_enroll (s : State) (name : String) (entity : Entity) :
    (s.enroll name entity).symbols.methods =
      s.symbols.methods ++ if entity.isMethod then [s.symbols.nextId] else [] := by
  have hevolves := evolves_enroll s name entity
  have hold : ∀ id ∈ List.range s.symbols.nextId,
      (s.enroll name entity).symbols.isMethodAt id = s.symbols.isMethodAt id := by
    intro id hid
    rw [Bool.eq_iff_iff, SymbolTable.isMethodAt_iff, SymbolTable.isMethodAt_iff]
    constructor
    · rintro ⟨r', hr', hmethod⟩
      obtain ⟨r, hr, hout⟩ := hevolves.get?_old (List.mem_range.mp hid) hr'
      exact ⟨r, hr, (Symbol.isMethod_of_outline hout).trans hmethod⟩
    · rintro ⟨r, hr, hmethod⟩
      obtain ⟨r', hr', hout⟩ := hevolves.get? hr
      exact ⟨r', hr', (Symbol.isMethod_of_outline hout).trans hmethod⟩
  have hnew : (s.enroll name entity).symbols.isMethodAt s.symbols.nextId = entity.isMethod := by
    obtain ⟨r, hr, hout⟩ := get?_enroll s name entity
    have hentity : (s.recordOf name entity).entity.isMethod = entity.isMethod := by
      cases entity <;> rfl
    rw [SymbolTable.isMethodAt, hr, ← hentity, ← Symbol.isMethod_of_outline hout]
    rfl
  rw [SymbolTable.methods_eq (Nat.le_of_eq (nextId_enroll s name entity)),
    SymbolTable.methods_eq (Nat.le_refl s.symbols.nextId), List.range_succ, List.filter_append,
    List.filter_congr hold, List.filter_singleton, hnew, Bool.cond_eq_ite]

/-- A new record leaves the full names as they are, but that a new method comes last. -/
theorem State.methodNames_enroll {s : State} (howned : s.symbols.MethodsOwned) (name : String)
    (entity : Entity) :
    (s.enroll name entity).symbols.methodNames =
      s.symbols.methodNames ++
        if entity.isMethod then
          [(s.enroll name entity).symbols.qualifiedName? s.symbols.nextId]
        else [] := by
  have hkept : ∀ id ∈ s.symbols.methods,
      (s.enroll name entity).symbols.qualifiedName? id = s.symbols.qualifiedName? id :=
    fun id hid => SymbolTable.qualifiedName?_keep howned
      (fun _ _ hr _ => (evolves_enroll s name entity).get? hr) hid
  unfold SymbolTable.methodNames
  rw [methods_enroll, List.map_append, List.map_congr_left hkept]
  split <;> rfl

/-! ## What a text declares -/

/-- A method or a constructor, with its class. -/
structure Declared where
  className : String
  name : String
  isConstructor : Bool
  deriving DecidableEq, Repr

def Declared.fullName (d : Declared) : String := d.className ++ "." ++ d.name

/-- A constructor is no entry, whatever the class is called. -/
def Declared.isMain (d : Declared) : Bool := !d.isConstructor && d.name == "Main"

/-- The class opened last, and what has been declared. -/
structure Roster where
  className : String
  declared : List Declared

def Roster.after (ρ : Roster) (a : Action) : Roster :=
  match a with
  | .openClass _ name => { ρ with className := name }
  | .openMethod _ name _ => { ρ with declared := ρ.declared ++ [⟨ρ.className, name, false⟩] }
  | .openConstructor _ name => { ρ with declared := ρ.declared ++ [⟨ρ.className, name, true⟩] }
  | _ => ρ

def roster (actions : List Action) : Roster := actions.foldl Roster.after ⟨"", []⟩

theorem roster_snoc (actions : List Action) (a : Action) :
    roster (actions ++ [a]) = (roster actions).after a := List.foldl_concat ..

theorem Roster.after_plain {a : Action} (h : a.isHeading = false) (ρ : Roster) :
    ρ.after a = ρ := by
  cases a <;> first | rfl | cases h

theorem Roster.after_routine {a : Action} {name : String} {isConstructor : Bool}
    (h : a.routine? = some (name, isConstructor)) (ρ : Roster) :
    ρ.after a = { ρ with declared := ρ.declared ++ [⟨ρ.className, name, isConstructor⟩] } := by
  cases a <;> cases h <;> rfl

theorem Roster.foldl_plain {actions : List Action} (h : ∀ a ∈ actions, a.isHeading = false)
    (ρ : Roster) : actions.foldl after ρ = ρ := by
  induction actions with
  | nil => rfl
  | cons a actions ih =>
    rw [List.foldl_cons, after_plain (h a List.mem_cons_self)]
    exact ih fun b hb => h b (List.mem_cons_of_mem a hb)

/-! ## The code on the way -/

/-- The records, the entry and the code are those of what has been declared. -/
structure Shaped (φ : Phase) (ρ : Roster) (p : State.Spine) : Prop where
  className : φ.inClass = true → ∀ c r, p.currentClass = some c → p.symbols.get? c = some r →
    r.name = ρ.className
  names : p.symbols.methodNames = ρ.declared.map fun d => some d.fullName
  entry : p.entry = (ρ.declared.filter Declared.isMain).getLast?.map Declared.fullName
  code : Written (if φ.inMethod then some p.procedure else none)
    (ρ.declared.map Declared.fullName) p.code.toList

theorem Placed.methodsOwned {N : String → Prop} {φ : Phase} {p : State.Spine} (h : Placed N φ p) :
    p.symbols.MethodsOwned := by
  intro id r hr hmethod
  cases h.records id r hr with
  | space _ _ _ entity =>
    rw [entity] at hmethod
    cases hmethod
  | classType _ _ _ entity =>
    rw [Entity.isMethod_of_isClass entity] at hmethod
    cases hmethod
  | member _ _ _ _ owner _ live isClass => exact ⟨_, _, owner, live, isClass⟩
  | inner _ entity =>
    rw [Entity.isInner_of_isMethod hmethod] at entity
    cases entity

section Steps

variable {N : String → Prop} {φ ψ : Phase} {ρ : Roster} {s : State} {p p' : State.Spine}

theorem Shaped.className_keep (hplaced : Placed N φ p) (h : Shaped φ ρ p) (hφ : φ.inClass = true)
    (hkeep : ∀ id r, p.symbols.get? id = some r → r.entity.isInner = false →
      ∃ r', p'.symbols.get? id = some r' ∧ r'.outline = r.outline)
    (hcurrent : p'.currentClass = p.currentClass) :
    ∀ c r, p'.currentClass = some c → p'.symbols.get? c = some r → r.name = ρ.className := by
  intro c r' hc hr'
  obtain ⟨c', r, hc', hr, hclass, -⟩ := hplaced.openClass hφ
  cases (hcurrent.symm.trans hc).symm.trans hc'
  obtain ⟨r'', hr'', hout⟩ := hkeep c r hr (Entity.isInner_of_isClass hclass)
  cases hr'.symm.trans hr''
  exact (Symbol.name_of_outline hout).trans (h.className hφ c r hc' hr)

/-- Namespaces, classes and methods stay, and the entry too. -/
theorem Shaped.same (hplaced : Placed N φ p) (h : Shaped φ ρ p)
    (hsame : p.symbols.SameOuter p'.symbols)
    (hclass : ψ.inClass = true → φ.inClass = true ∧ p'.currentClass = p.currentClass)
    (hentry : p'.entry = p.entry)
    (hcode : Written (if ψ.inMethod then some p'.procedure else none)
      (ρ.declared.map Declared.fullName) p'.code.toList) : Shaped ψ ρ p' where
  className := fun hψ => h.className_keep hplaced (hclass hψ).1 hsame.get? (hclass hψ).2
  names := by
    rw [SymbolTable.methodNames_same hplaced.methodsOwned hsame]
    exact h.names
  entry := hentry.trans h.entry
  code := hcode

/-- Inside a scope code is written only while a procedure is open. -/
theorem shaped_within {t : State} (hplaced : Placed N φ s.spine) (h : Shaped φ ρ s.spine)
    (hst : s.Within t) (hφ : φ.inMethod = true ∨ t.code = s.code) : Shaped φ ρ t.spine := by
  refine h.same hplaced hst.sameOuter (fun hclass => ⟨hclass, hst.currentClass⟩) hst.entry ?_
  have hcode := h.code
  rw [show t.spine.procedure = s.procedure from hst.procedure]
  rcases hφ with hφ | hφ
  · rw [if_pos hφ] at hcode ⊢
    obtain ⟨more, hmore, hinner⟩ := hst.code
    rw [show t.spine.code.toList = s.code.toList ++ more from hmore]
    exact hcode.extend hinner
  · rw [show t.spine.code = s.code from hφ]
    exact hcode

theorem shaped_spaceOpened (hplaced : Placed N .preface s.spine) (h : Shaped .preface ρ s.spine)
    (name : String) :
    Shaped .file ρ { (s.enroll name .space).spine with parent := some s.symbols.nextId } := by
  rw [State.spine_enroll]
  refine ⟨nofun, ?_, h.entry, h.code⟩
  have hnames := State.methodNames_enroll hplaced.methodsOwned name .space
  exact hnames.trans ((List.append_nil _).trans h.names)

theorem shaped_classOpened (hplaced : Placed N .file s.spine) (h : Shaped .file ρ s.spine)
    (name : String) :
    Shaped .classHead { ρ with className := name }
      ({ s with depth := s.depth + 1 }.enroll name .newClass).spine := by
  have hnames := State.methodNames_enroll (s := { s with depth := s.depth + 1 })
    hplaced.methodsOwned name .newClass
  obtain ⟨r', hr', hout⟩ := State.get?_enroll { s with depth := s.depth + 1 } name .newClass
  rw [State.spine_enroll]
  refine ⟨?_, hnames.trans ((List.append_nil _).trans h.names), h.entry, h.code⟩
  rintro - c r ⟨⟩ hr
  cases hr.symm.trans hr'
  exact Symbol.name_of_outline hout

theorem qualifiedName_eq {id k : SymbolId} {r o : Symbol} (hr : s.symbols.get? id = some r)
    (hk : r.owner = some k) (ho : s.symbols.get? k = some o) :
    s.qualifiedName id = .ok (o.name ++ "." ++ r.name) := by
  unfold State.qualifiedName
  rw [State.fetch_eq_ok hr]
  simp [SymbolTable.ownerName?, hr, hk, ho, bind, Except.bind, pure, Except.pure]

/-- The full name of a method begins with the name of the open class. -/
theorem Shaped.fullName (hplaced : Placed N .classBody s.spine) (h : Shaped .classBody ρ s.spine)
    (name : String) (returns : ValueType) :
    (s.enroll name (.newMethod returns)).symbols.qualifiedName? s.symbols.nextId =
        some (ρ.className ++ "." ++ name) ∧
      (s.enroll name (.newMethod returns)).qualifiedName s.symbols.nextId =
        .ok (ρ.className ++ "." ++ name) := by
  obtain ⟨c, o, hc, ho, -⟩ := hplaced.openClass rfl
  obtain ⟨o', ho', hout'⟩ := (State.evolves_enroll s name (.newMethod returns)).get? ho
  obtain ⟨r, hr, hout⟩ := State.get?_enroll s name (.newMethod returns)
  have howner : r.owner = some c :=
    (Symbol.owner_of_outline hout).trans ((hplaced.classParent rfl).trans hc)
  have hclass : o'.name = ρ.className :=
    (Symbol.name_of_outline hout').trans (h.className rfl c o hc ho)
  have hname : r.name = name := Symbol.name_of_outline hout
  rw [SymbolTable.qualifiedName?_eq_some hr howner ho', qualifiedName_eq hr howner ho', hclass,
    hname]
  exact ⟨rfl, rfl⟩

/-- The entry is the last method called `Main`. -/
theorem entry_snoc (declared : List Declared) (d : Declared) :
    ((declared ++ [d]).filter Declared.isMain).getLast?.map Declared.fullName =
      if d.isMain then some d.fullName
      else (declared.filter Declared.isMain).getLast?.map Declared.fullName := by
  cases hd : d.isMain <;> simp [List.filter_append, hd]

theorem shaped_methodOpened (hplaced : Placed N .classBody s.spine)
    (h : Shaped .classBody ρ s.spine) {name procedure : String} {returns : ValueType}
    (hfull : (s.enroll name (.newMethod returns)).qualifiedName s.symbols.nextId = .ok procedure)
    (isConstructor : Bool) :
    Shaped .methodHead
      { ρ with declared := ρ.declared ++ [⟨ρ.className, name, isConstructor⟩] }
      { (s.enroll name (.newMethod returns)).spine with
        code := s.code.push (.proc procedure)
        procedure := procedure
        entry := if !isConstructor && name == "Main" then some procedure else s.entry } := by
  obtain ⟨htable, hname⟩ := h.fullName hplaced name returns
  cases hname.symm.trans hfull
  refine ⟨fun _ => ?_, ?_, ?_, ?_⟩
  · refine Shaped.className_keep (ρ := ρ) hplaced h rfl
      (fun id r hr _ => (State.evolves_enroll s name (.newMethod returns)).get? hr) ?_
    rw [State.spine_enroll]
    rfl
  · have hnames := State.methodNames_enroll hplaced.methodsOwned name (.newMethod returns)
    refine hnames.trans ?_
    rw [htable, show s.symbols.methodNames = _ from h.names, List.map_append]
    rfl
  · rw [entry_snoc, ← h.entry]
    rfl
  · rw [List.map_append, Array.toList_push]
    exact h.code.begin (ρ.className ++ "." ++ name)

/-- Every move keeps records, entry and code in step with what is declared. -/
theorem shaped_move {a : Action} (hplaced : Placed N φ s.spine) (h : Shaped φ ρ s.spine)
    (hmove : Move s φ a ψ p) : Shaped ψ (ρ.after a) p := by
  cases hmove with
  | still beside plain =>
    rw [Roster.after_plain plain]
    rcases beside with rfl | ⟨rfl, rfl⟩ | ⟨rfl, rfl⟩
    · exact h
    · exact ⟨h.className, h.names, h.entry, h.code⟩
    · exact ⟨h.className, h.names, h.entry, h.code⟩
  | @declared φ line name entity inScope plain =>
    have hinner : entity.isInner = true := by cases entity <;> first | rfl | cases plain
    exact shaped_within hplaced h (State.within_enroll s name hinner)
      (.inr (congrArg State.Spine.code (State.spine_enroll s name entity)))
  | coded plain within =>
    rw [Roster.after_plain plain]
    exact shaped_within hplaced h within (.inl rfl)
  | @spaceOpened line name start => exact shaped_spaceOpened hplaced h name
  | spaceClosed => exact ⟨nofun, h.names, h.entry, h.code⟩
  | @classOpened line name => exact shaped_classOpened hplaced h name
  | classEntered => exact ⟨h.className, h.names, h.entry, h.code⟩
  | methodOpened opens full =>
    rw [Roster.after_routine opens]
    exact shaped_methodOpened hplaced h full _
  | paramsEntered => exact ⟨h.className, h.names, h.entry, h.code⟩
  | @methodClosed symbols sheds =>
    refine h.same hplaced (hplaced.sameOuter sheds)
      (fun _ => ⟨rfl, (hplaced.parent_left symbols).2⟩) rfl ?_
    rw [Array.toList_push]
    exact h.code.finish
  | classClosed sheds => exact h.same hplaced (hplaced.sameOuter sheds) nofun rfl h.code

end Steps

theorem shaped_initial : Shaped .preface ⟨"", []⟩ State.initial.spine :=
  ⟨nofun, rfl, rfl, .closed []⟩

/-- Behind a legal run, records, entry and code are those of what was declared. -/
theorem shaped_run {ψ : Phase} {actions : List Action} (hlegal : Phase.Legal .preface actions ψ)
    {s : State} (hrun : State.initial.run actions = (s, none)) :
    Shaped ψ (roster actions) s.spine := by
  have hboth := hlegal.run_induction
    (I := fun done φ p => Placed (fun _ => True) φ p ∧ Shaped φ (roster done) p)
    (P := fun _ => True)
    (by
      rintro done p ⟨hplaced, h⟩
      exact ⟨hplaced.begin, nofun, h.names, h.entry, h.code⟩)
    (by
      rintro done φ a ψ s p - hs ⟨hplaced, h⟩ hmove
      rw [roster_snoc]
      refine ⟨placed_move hs hplaced ?_ hmove, shaped_move hplaced h hmove⟩
      cases a <;> trivial)
    (fun _ _ => trivial) [] fits_initial ⟨placed_initial _, shaped_initial⟩ hrun
  exact hboth.2

/-! ## The methods of a tree -/

namespace Syntax

def MemberCore.declared {className : String} : MemberCore className → List Declared
  | .declaration _ => []
  | .constructor r _ => [⟨className, r.name.1.lexeme, true⟩]
  | .method _ r => [⟨className, r.name.1.lexeme, false⟩]

def ClassDecl.declared (c : ClassDecl) : List Declared :=
  c.members.flatMap fun m => m.core.declared

def Program.declared (p : Program) : List Declared := p.block.classes.flatMap ClassDecl.declared

theorem MemberCore.foldl_after {className : String} (core : MemberCore className)
    (declared : List Declared) :
    core.actions.foldl Roster.after ⟨className, declared⟩ =
      ⟨className, declared ++ core.declared⟩ := by
  cases core with
  | declaration d =>
    rw [MemberCore.declared, List.append_nil]
    exact Roster.foldl_plain
      (fun a ha => isHeading_of_isDeclaration (d.isDeclaration_actions a ha)) _
  | constructor r named =>
    rw [actions, List.cons_append, List.cons_append, List.foldl_cons, List.foldl_append,
      Roster.foldl_plain r.isHeading_actions]
    rfl
  | method type r =>
    rw [actions, List.cons_append, List.cons_append, List.foldl_cons, List.foldl_append,
      Roster.foldl_plain r.isHeading_actions]
    rfl

theorem ClassDecl.foldl_members {className : String} (members : List (Member className))
    (declared : List Declared) :
    (members.flatMap fun m => m.core.actions).foldl Roster.after ⟨className, declared⟩ =
      ⟨className, declared ++ members.flatMap fun m => m.core.declared⟩ := by
  induction members generalizing declared with
  | nil => rw [List.flatMap_nil, List.flatMap_nil, List.append_nil, List.foldl_nil]
  | cons m members ih =>
    rw [List.flatMap_cons, List.flatMap_cons, List.foldl_append, m.core.foldl_after, ih,
      List.append_assoc]

theorem ClassDecl.foldl_after (c : ClassDecl) (ρ : Roster) :
    c.actions.foldl Roster.after ρ = ⟨c.name.1.lexeme, ρ.declared ++ c.declared⟩ := by
  have hheading : c.heading.foldl Roster.after ρ = ⟨c.name.1.lexeme, ρ.declared⟩ := by
    rw [heading, List.cons_append, List.foldl_cons]
    refine Roster.foldl_plain (fun a ha => ?_) _
    rcases List.mem_append.mp ha with ha | ha
    · obtain ⟨base, -, rfl⟩ := List.mem_map.mp ha
      rfl
    · rw [List.mem_singleton.mp ha]
      rfl
  rw [actions, List.foldl_append, List.foldl_append, hheading, foldl_members]
  rfl

theorem Block.foldl_classes (classes : List ClassDecl) (ρ : Roster) :
    ((classes.flatMap ClassDecl.actions).foldl Roster.after ρ).declared =
      ρ.declared ++ classes.flatMap ClassDecl.declared := by
  induction classes generalizing ρ with
  | nil => rw [List.flatMap_nil, List.flatMap_nil, List.append_nil, List.foldl_nil]
  | cons c classes ih =>
    rw [List.flatMap_cons, List.flatMap_cons, List.foldl_append, ih, c.foldl_after,
      List.append_assoc]

/-- The actions of a tree declare its methods in their order. -/
theorem Program.declared_roster (p : Program) : (roster p.actions).declared = p.declared := by
  have husings : (p.usings.map fun u => Action.usingName u.name.text).foldl Roster.after ⟨"", []⟩ =
      ⟨"", []⟩ := by
    refine Roster.foldl_plain (fun a ha => ?_) _
    obtain ⟨u, -, rfl⟩ := List.mem_map.mp ha
    rfl
  rw [roster, actions, List.foldl_append, husings, declared]
  cases p.block with
  | spaced keyword name left classes right =>
    rw [Block.actions, List.cons_append, List.foldl_cons, List.foldl_append]
    exact Block.foldl_classes classes _
  | bare classes => exact Block.foldl_classes classes _

end Syntax

/-! ## Whole programs -/

open Syntax

theorem entry_eq_none_iff (declared : List Declared) :
    (declared.filter Declared.isMain).getLast?.map Declared.fullName = none ↔
      ∀ d ∈ declared, d.isMain = false := by
  simp

/-- The run of a tree declares its methods, and its code is closed. -/
theorem IsTree.shaped {source : String} {p : Program} (h : IsTree source p) {s : State}
    (hrun : State.initial.run p.actions = (s, none)) :
    s.symbols.methodNames = (p.declared.map fun d => some d.fullName) ∧
      s.entry = (p.declared.filter Declared.isMain).getLast?.map Declared.fullName ∧
      Written none (p.declared.map Declared.fullName) s.code.toList := by
  obtain ⟨tokens, htokens, hp⟩ := h
  obtain ⟨-, -, hlegal⟩ := legal_actions htokens hp
  have hshaped := shaped_run hlegal hrun
  rw [← p.declared_roster]
  exact ⟨hshaped.names, hshaped.entry, hshaped.code⟩

/-- The code of a program is the procedures of its methods and constructors, in the order of the
text and of the records, and the start of the last `Main` behind them. Only the lack of a `Main`
that is no constructor keeps a text that is read to its end from being a program. -/
theorem code_of_procedures (source : String) :
    (Completes source ↔ ReadsThrough source) ∧
      (Completes source → ∃ p, IsTree source p) ∧
      ∀ p, IsTree source p →
        (Completes source →
          (compile source = .error .missingMain ↔ ∀ d ∈ p.declared, d.isMain = false)) ∧
        ∀ c, compile source = .ok c → ∃ procedures : List Procedure,
          c.code = procedures.flatMap Procedure.code ++ [.start c.entry] ∧
            procedures.map Procedure.name = p.declared.map Declared.fullName ∧
            c.symbols.methodNames = (procedures.map fun q => some q.name) ∧
            (p.declared.filter Declared.isMain).getLast?.map Declared.fullName =
              some c.entry := by
  refine ⟨completes_iff_readsThrough source, exists_tree, fun p hp => ⟨fun h => ?_, fun c hc => ?_⟩⟩
  · obtain ⟨tokens, htokens, htree⟩ := hp
    obtain ⟨s, hrun, hresult⟩ := exists_run (legal_actions htokens htree).1 h
    obtain ⟨-, hentry, -⟩ := IsTree.shaped ⟨tokens, htokens, htree⟩ hrun
    rw [← entry_eq_none_iff, ← hentry]
    rcases hresult with ⟨hnone, hmissing⟩ | ⟨c, hc, hsome, -⟩
    · exact ⟨fun _ => hnone, fun _ => hmissing⟩
    · rw [hc, hsome]
      exact ⟨nofun, nofun⟩
  · obtain ⟨tokens, htokens, htree⟩ := hp
    obtain ⟨s, hrun, hsome, hsymbols, hcode⟩ :=
      exists_run_of_compile (legal_actions htokens htree).1 hc
    obtain ⟨hnames, hentry, hwritten⟩ := IsTree.shaped ⟨tokens, htokens, htree⟩ hrun
    obtain ⟨procedures, hprocedures, hq⟩ := hwritten.exists_procedures
    refine ⟨procedures, by rw [hcode, hprocedures], hq.symm, ?_, hentry.symm.trans hsome⟩
    have hmap := congrArg (List.map some) hq
    rw [List.map_map, List.map_map] at hmap
    rw [hsymbols, hnames]
    exact hmap

namespace Sample

/-- The last method called `Main` is a constructor. -/
def built : String := "class A\x7bint Main()\x7b\x7d\x7dclass Main\x7bMain()\x7b\x7d\x7d"

def emptyMain : Routine where
  name := tok .identifier "Main"
  left := tok .leftParen "("
  params := none
  right := tok .rightParen ")"
  leftBrace := tok .leftBrace "\x7b"
  body := ⟨[], [], none⟩
  rightBrace := tok .rightBrace "\x7d"

def classOf (name : String) (core : MemberCore name) : ClassDecl where
  modifiers := []
  keyword := tok .kwClass "class"
  name := tok .identifier name
  base := none
  left := tok .leftBrace "\x7b"
  members := [⟨[], core⟩]
  right := tok .rightBrace "\x7d"

def builtProgram : Program where
  usings := []
  block := .bare [classOf "A" (.method intName emptyMain),
    classOf "Main" (.constructor emptyMain rfl)]
  ending := tok .eof ""

end Sample

open Sample in
theorem code_of_procedures_built :
    ∃ c, compile built = .ok c ∧ c.entry = "A.Main" ∧
      c.symbols.methodNames = [some "A.Main", some "Main.Main"] ∧
      ∃ procedures : List Procedure,
        c.code = procedures.flatMap Procedure.code ++ [.start "A.Main"] ∧
          procedures.map Procedure.name = ["A.Main", "Main.Main"] := by
  have htree : IsTree built builtProgram :=
    ⟨builtProgram.tokens, by decide +kernel, by decide +kernel⟩
  have hcompletes : Completes built := ⟨by decide +kernel, by decide +kernel⟩
  obtain ⟨hiff, -, htrees⟩ := code_of_procedures built
  obtain ⟨hmissing, hcompiled⟩ := htrees builtProgram htree
  have hfound : ¬ compile built = .error .missingMain := by
    rw [hmissing hcompletes]
    decide +kernel
  obtain ⟨c, hc⟩ := (hiff.mp hcompletes).resolve_right hfound
  obtain ⟨procedures, hcode, hnames, hmethods, hentry⟩ := hcompiled c hc
  have hdeclared : builtProgram.declared.map Declared.fullName = ["A.Main", "Main.Main"] := by
    decide +kernel
  have hmain : c.entry = "A.Main" := by
    rw [← Option.some.injEq, ← hentry]
    decide +kernel
  have hsome := congrArg (List.map some) (hnames.trans hdeclared)
  rw [List.map_map] at hsome
  exact ⟨c, hc, hmain, hmethods.trans hsome, procedures, hmain ▸ hcode, hnames.trans hdeclared⟩

end Triad
