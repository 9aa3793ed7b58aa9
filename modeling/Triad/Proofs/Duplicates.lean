import Triad.Proofs.DeclaredNames

/-!
Names that are declared twice. A declaration looks at the newest record of its name only. That one
tells whether the open scope has declared the name: other classes, the scopes around and the words
for values never come in between. Main statement: `duplicates_exact`.
-/

namespace Triad

/-! ## Declarations step by step -/

namespace State

/-- The steps that follow when the name is free, each of which changes the state on its own: room is
taken in the frame, the record is inserted, its owner is charged, and the scopes point to it. -/
def enrollSteps (s : State) (name : String) (entity : Entity) : EStateM Fault State SymbolId := do
  if s.takesSlot entity then
    modify fun t => { t with cursor := t.cursor.declare entity.size }
  modify fun t => { t with symbols := t.symbols.insert (s.recordOf name entity) }
  modify fun t => t.modifySymbol s.parent (s.charge entity)
  modify fun t => { t with current := some s.symbols.nextId }
  if entity.isClass then
    modify fun t => { t with currentClass := some s.symbols.nextId }
  if entity.isMethod then
    modify fun t => { t with currentMethod := some s.symbols.nextId }
  return s.symbols.nextId

/-- A declaration in its steps. A fault comes with the state in which it is met. -/
def declareSteps (line : Nat) (name : String) (entity : Entity) :
    EStateM Fault State SymbolId := do
  let s ← get
  if s.declares name then throw (.duplicate line name)
  s.enrollSteps name entity

theorem enrollSteps_eq (s : State) (name : String) (entity : Entity) :
    s.enrollSteps name entity s = .ok s.symbols.nextId (s.enroll name entity) := by
  unfold enrollSteps enroll
  obtain ⟨_, _, _, _, _, _, _, parent, _⟩ := s
  cases takesSlot _ entity <;> cases entity <;> cases parent <;> rfl

/-- The steps come to a declaration, and its fault is met before any of them. -/
theorem declareSteps_eq (s : State) (line : Nat) (name : String) (entity : Entity) :
    declareSteps line name entity s =
      if s.declares name then .error (.duplicate line name) s
      else .ok s.symbols.nextId (s.enroll name entity) := by
  rw [← enrollSteps_eq]
  change (if s.declares name then _ else _ : EStateM Fault State SymbolId) s = _
  cases s.declares name <;> rfl

end State

/-! ## Declarations in a text -/

section Text

variable {source : String} {done rest : List Action} {a : Action} {s : State} {line : Nat}
  {name : String}

/-- Declarations stand before the code of a body. -/
theorem Stage.Ordered.ne_code_of_declaration? {σ τ : Stage} (h : Ordered σ (a :: rest) τ)
    (ha : a.declaration? = some (line, name)) : σ ≠ .code := by
  rintro rfl
  cases h with
  | cons here => cases a <;> cases ha <;> cases here

/-- In an open scope, the newest record of a name tells whether the scope has declared it. -/
theorem declares_iff_declared
    (hactions : (Grammar.parse (Scanner.ofString source).scan).1 = done ++ rest)
    (hdone : State.initial.run done = (s, none)) (hscope : (roll done).scope ≠ .outside)
    (hword : IsWord name) :
    s.declares name = true ↔ name ∈ declaredNames done ∨ name ∈ recoveredNames done := by
  obtain ⟨τ, hordered⟩ := Grammar.exists_ordered (Scanner.ofString source).scan
  rw [hactions] at hordered
  obtain ⟨σ, hfirst, -⟩ := hordered.split
  have hs : Stands σ.phase s := stands_run hfirst.legal stands_initial hdone
  obtain ⟨hearly, h⟩ := Enrolled.run hfirst hdone
  have hopen := h.scope
  have hphase : σ.phase.openScope = .members ∧ σ.phase.atMembers = true ∧ σ ≠ .code ∨
      σ.phase.openScope = .method ∧ σ.phase.depth = 2 := by
    rw [hopen] at hscope
    cases σ with
    | code => exact .inr ⟨rfl, rfl⟩
    | of φ =>
      cases φ <;> first
        | exact absurd rfl hscope
        | exact .inl ⟨rfl, rfl, by simp⟩
        | exact .inr ⟨rfl, rfl⟩
  rcases hphase with ⟨hσ, hmembers, hne⟩ | ⟨hσ, hdepth⟩
  · have hclass := Phase.inClass_of_atMembers hmembers
    rw [hs.names.declares_iff hs.fits hs.placed (.inl hmembers), hearly hne, declaredNames, hopen,
      hσ, show s.parent = s.currentClass from hs.placed.classParent hmembers]
    refine (h.members hclass name).trans ?_
    simp
  · rw [hs.names.declares_iff hs.fits hs.placed (.inr hdepth), declaredNames, hopen, hσ]
    exact h.inner hdepth name hword

/-- In a class, declarations go to the open scope, and their names are words. -/
theorem Action.site_of_declaration? {φ ψ : Phase} (hnext : φ.next? a = some ψ)
    (hscope : φ.openScope ≠ .outside) (ha : a.declaration? = some (line, name))
    (hspelled : a.IsSpelled) : a.site s = s ∧ IsWord name := by
  cases a with
  | openNamespace | openClass => cases φ <;> first | exact absurd rfl hscope | cases hnext
  | declare | openMethod | openConstructor =>
    cases ha
    exact ⟨rfl, hspelled⟩
  | _ => cases ha

/-- A declaration succeeds where the scope does not have the name. -/
theorem Action.exists_apply_of_declaration? {φ ψ : Phase} (hs : Fits φ s)
    (hnext : φ.next? a = some ψ) (ha : a.declaration? = some (line, name))
    (hfresh : (a.site s).declares name = false) : ∃ t, a.apply s = .ok t := by
  have hyields := fits_apply hs hnext
  have huse : a.use? = none := by cases a <;> first | rfl | cases ha
  cases happly : a.apply s with
  | ok t => exact ⟨t, rfl⟩
  | error fault =>
    rw [happly] at hyields
    cases outcome_of_error happly with
    | duplicate declares taken =>
      cases ha.symm.trans declares
      rw [hfresh] at taken
      cases taken
    | constant uses => cases huse.symm.trans uses
    | unknown _ uses => cases huse.symm.trans uses
    | removed => cases hyields

/-- A declaration of the text fails just if the open scope has declared the name. -/
theorem apply_of_declaration
    (hactions : (Grammar.parse (Scanner.ofString source).scan).1 = done ++ a :: rest)
    (hdone : State.initial.run done = (s, none)) (hscope : (roll done).scope ≠ .outside)
    (ha : a.declaration? = some (line, name)) :
    recoveredNames done = [] ∧
      (name ∈ declaredNames done → a.apply s = .error (.duplicate line name)) ∧
      (name ∉ declaredNames done → ∃ t, a.apply s = .ok t) := by
  have hspelled : a.IsSpelled := Grammar.spelled_parse source a (by rw [hactions]; simp)
  obtain ⟨τ, hordered⟩ := Grammar.exists_ordered (Scanner.ofString source).scan
  rw [hactions] at hordered
  obtain ⟨σ, hfirst, hlater⟩ := hordered.split
  have hs : Stands σ.phase s := stands_run hfirst.legal stands_initial hdone
  obtain ⟨hearly, h⟩ := Enrolled.run hfirst hdone
  have hphase : σ.phase.openScope ≠ .outside := h.scope ▸ hscope
  have hnone := hearly (hlater.ne_code_of_declaration? ha)
  cases hlater with
  | begin => exact absurd rfl hphase
  | settle later => exact absurd rfl (later.ne_code_of_declaration? ha)
  | cons here =>
    have hnext := (Stage.phase_of_next? here).2
    obtain ⟨hsite, hword⟩ := Action.site_of_declaration? hnext hphase ha hspelled (s := s)
    have hdeclares := declares_iff_declared hactions hdone hscope hword
    rw [hnone] at hdeclares
    refine ⟨hnone, fun hmem => ?_, fun hmem => ?_⟩
    · refine Action.apply_eq_duplicate_iff.mpr ⟨ha, ?_⟩
      rw [hsite]
      exact hdeclares.mpr (.inl hmem)
    · refine Action.exists_apply_of_declaration? hs.fits hnext ha ?_
      rw [hsite]
      simpa [hmem] using hdeclares

/-- The members of a class have different names. -/
theorem Stands.nodup_members {φ : Phase} (hs : Stands φ s) {k : SymbolId} {q : Symbol}
    (hq : s.symbols.get? k = some q) (hclass : q.entity.isClass = true) :
    ((s.symbols.childrenOf k).map Symbol.name).Nodup := by
  have hroot : ¬ AtRoot s.symbols (some k) := by
    intro hroot
    obtain ⟨o, ho, hspace⟩ := hroot k rfl
    cases hq.symm.trans ho
    rw [hspace] at hclass
    cases hclass
  have hapart : s.symbols.symbols.Pairwise fun r r' =>
      r.owner = some k → r'.owner = some k → r.name ≠ r'.name := by
    rw [SymbolTable.symbols_eq]
    refine List.pairwise_lt_range.filterMap s.symbols.get? ?_
    intro i j hlt r hr r' hr' ho ho' hname
    have hdepth := (hs.names.depth_of_class hs.fits hs.placed hq hclass hr ho).1
    have hdepth' := (hs.names.depth_of_class hs.fits hs.placed hq hclass hr' ho').1
    exact Nat.ne_of_lt hlt
      (hs.names.distinct (some k) hroot i j r r' hr hr' ho ho' hname (.inr ⟨hdepth, hdepth'⟩))
  refine List.pairwise_map.mpr ((hapart.filter _).imp_of_mem fun hr hr' hne => ?_)
  exact hne (beq_iff_eq.mp (List.mem_filter.mp hr).2) (beq_iff_eq.mp (List.mem_filter.mp hr').2)

/-- What stands outside methods on the way is in the table of an accepted text. -/
theorem exists_record_of_ok {c : Compilation} (hc : compile source = .ok c)
    (hactions : (Grammar.parse (Scanner.ofString source).scan).1 = done ++ rest) {id : SymbolId}
    {r : Symbol} (hr : (State.initial.run done).1.symbols.get? id = some r) (hdepth : r.depth ≤ 1) :
    ∃ r', c.symbols.get? id = some r' ∧ r'.outline = r.outline := by
  obtain ⟨t, hrun, -, hsymbols⟩ := exists_run_of_ok hc
  obtain ⟨τ, hordered⟩ := Grammar.exists_ordered (Scanner.ofString source).scan
  rw [hactions] at hrun hordered
  obtain ⟨σ, hfirst, hlater⟩ := hordered.split
  obtain ⟨s, hs, hrun⟩ := State.run_append_eq_none.mp hrun
  rw [hs] at hr
  rw [hsymbols]
  exact record_run hlater.legal (stands_run hfirst.legal stands_initial hs) hrun hr hdepth

end Text

/-- With a class or a method open, a declaration fails just if the class or the method has declared
the name, or has given it a placeholder, and the record goes to the open scope otherwise. Of the
steps of a declaration that fails none is made: records, sizes and the cursor stay. Where the text
itself declares a name there are no placeholders yet; the text is refused for the first name that is
declared again. In an accepted text, the members of a class have different names. -/
theorem duplicates_exact (source : String) :
    (∀ done rest s, (Grammar.parse (Scanner.ofString source).scan).1 = done ++ rest →
      State.initial.run done = (s, none) → (roll done).scope ≠ .outside →
        ∀ line name entity, IsWord name →
          (s.declare line name entity =
            if name ∈ declaredNames done ∨ name ∈ recoveredNames done then
              .error (.duplicate line name)
            else .ok (s.enroll name entity)) ∧
          State.declareSteps line name entity s =
            if name ∈ declaredNames done ∨ name ∈ recoveredNames done then
              .error (.duplicate line name) s
            else .ok s.symbols.nextId (s.enroll name entity)) ∧
    (∀ done a rest s line name,
      (Grammar.parse (Scanner.ofString source).scan).1 = done ++ a :: rest →
      State.initial.run done = (s, none) → (roll done).scope ≠ .outside →
      a.declaration? = some (line, name) →
        recoveredNames done = [] ∧
        (name ∈ declaredNames done → s.run (a :: rest) = (s, some (.duplicate line name)) ∧
          compile source = .error (.duplicate line name)) ∧
        (name ∉ declaredNames done → ∃ t, a.apply s = .ok t)) ∧
    ∀ c, compile source = .ok c → ∀ k q, c.symbols.get? k = some q → q.entity.isClass = true →
      ((c.symbols.childrenOf k).map Symbol.name).Nodup := by
  refine ⟨fun done rest s hactions hdone hscope line name entity hword => ?_,
    fun done a rest s line name hactions hdone hscope ha => ?_, fun c hc k q hq hclass => ?_⟩
  · have hdeclares := declares_iff_declared hactions hdone hscope hword
    rw [State.declareSteps_eq, State.declare]
    simp only [hdeclares, and_self]
  · obtain ⟨hnone, htaken, hfresh⟩ := apply_of_declaration hactions hdone hscope ha
    refine ⟨hnone, fun hmem => ⟨?_, ?_⟩, hfresh⟩
    · rw [State.run, htaken hmem]
    · exact (compile_eq_error_iff rfl).mpr ⟨done, a, rest, s, hactions, hdone, htaken hmem⟩
  · obtain ⟨s, hrun, -, hsymbols⟩ := exists_run_of_ok hc
    obtain ⟨τ, hordered⟩ := Grammar.exists_ordered (Scanner.ofString source).scan
    rw [hsymbols] at hq ⊢
    exact (stands_run hordered.legal stands_initial hrun).nodup_members hq hclass

namespace Sample

/-- A parameter hides a member of its name, and a local is declared under the name again. -/
def twice : String := "class A\x7bint x;\nvoid Main(int x)\n\x7bint x;\x7d\x7d"

def twiceActions : List Action := (Grammar.parse (Scanner.ofString twice).scan).1

def twiceParam : Action := .declare 2 "x" (.newVar .int)

def twiceLocal : Action := .declare 3 "x" (.newVar .int)

/-- The same without the local. -/
def once : String := "class A\x7bint x;void Main(int x)\x7b\x7d\x7d"

def onceActions : List Action := (Grammar.parse (Scanner.ofString once).scan).1

end Sample

open Sample in
theorem duplicates_exact_twice :
    (∃ s t, State.initial.run (twiceParam.before twiceActions) = (s, none) ∧
      (roll (twiceParam.before twiceActions)).members = ["x", "Main"] ∧
      twiceParam.apply s = .ok t) ∧
    (∃ s, State.initial.run (twiceLocal.before twiceActions) = (s, none) ∧
      declaredNames (twiceLocal.before twiceActions) = ["x"] ∧
      State.declareSteps 3 "x" (.newVar .int) s = .error (.duplicate 3 "x") s ∧
      s.run (twiceLocal :: twiceLocal.behind twiceActions) = (s, some (.duplicate 3 "x"))) ∧
    compile twice = .error (.duplicate 3 "x") ∧
    ∃ c q, compile once = .ok c ∧ c.symbols.get? 0 = some q ∧ q.entity.isClass = true ∧
      ((c.symbols.childrenOf 0).map Symbol.name).Nodup := by
  have hparam : twiceParam ∈ twiceActions := by decide +kernel
  have hlocal : twiceLocal ∈ twiceActions := by decide +kernel
  have hfirst : (State.initial.run (twiceParam.before twiceActions)).2 = none := by decide +kernel
  have hsecond : (State.initial.run (twiceLocal.before twiceActions)).2 = none := by decide +kernel
  have hmembers : (roll (twiceParam.before twiceActions)).members = ["x", "Main"] := by
    decide +kernel
  have hnames : declaredNames (twiceLocal.before twiceActions) = ["x"] := by decide +kernel
  have hscope : (roll (twiceLocal.before twiceActions)).scope ≠ .outside := by decide +kernel
  obtain ⟨hsteps, htext, -⟩ := duplicates_exact twice
  obtain ⟨-, -, hfresh⟩ := htext _ _ _ _ 2 "x" (Action.eq_before_behind hparam)
    (Prod.ext rfl hfirst) (by decide +kernel) rfl
  obtain ⟨-, htaken, -⟩ := htext _ _ _ _ 3 "x" (Action.eq_before_behind hlocal)
    (Prod.ext rfl hsecond) hscope rfl
  have hmem : "x" ∈ declaredNames (twiceLocal.before twiceActions) := by
    rw [hnames]
    exact List.mem_cons_self
  obtain ⟨t, ht⟩ := hfresh (by decide +kernel)
  obtain ⟨hrun, hcompile⟩ := htaken hmem
  obtain ⟨-, hstays⟩ := hsteps _ _ _ (Action.eq_before_behind hlocal) (Prod.ext rfl hsecond) hscope
    3 "x" (.newVar .int) (isWord_of_all (by decide +kernel))
  rw [if_pos (.inl hmem)] at hstays
  have honce : (compile once).toOption.map (fun c => c.warnings) = some [] := by decide +kernel
  obtain ⟨c, hc, -⟩ := exists_of_map_compile honce
  -- the class is in the table before its body
  have hbody : .openClassBody ∈ onceActions := by decide +kernel
  have hclass : ((State.initial.run (Action.openClassBody.before onceActions)).1.symbols.get? 0).map
      (fun r => (r.depth, r.entity.isClass)) = some (1, true) := by decide +kernel
  obtain ⟨r, hr, hclass⟩ := Option.map_eq_some_iff.mp hclass
  obtain ⟨hdepth, hclass⟩ := Prod.mk.inj hclass
  obtain ⟨q, hq, hout⟩ :=
    exists_record_of_ok hc (Action.eq_before_behind hbody) hr (Nat.le_of_eq hdepth)
  rw [← Symbol.isClass_of_outline hout] at hclass
  exact ⟨⟨_, t, Prod.ext rfl hfirst, hmembers, ht⟩,
    ⟨_, Prod.ext rfl hsecond, hnames, hstays, hrun⟩, hcompile, c, q, hc, hq, hclass,
    (duplicates_exact once).2.2 c hc 0 q hq hclass⟩

end Triad
