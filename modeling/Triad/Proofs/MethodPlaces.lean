import Triad.Proofs.CodeShape
import Triad.Proofs.ScopedNames

/-!
Where the methods of a table come from. Every method was opened by an action of the program, in a
place where its parameters, its body and its end follow. Main statements: `exists_place`, and that
a method stays as it is once it is closed (`entity_run`).
-/

namespace Triad

open Syntax

/-! ## Places of methods -/

/-- A method or constructor of a program, from its heading to its end. -/
structure Place (p : Program) extends Site p where
  rest : List Action
  after_eq : after = .closeMethod :: rest ∨ after = .sizeFrame :: .closeMethod :: rest

/-- What is called for up to the end of the body. -/
def Place.reading {p : Program} (place : Place p) : List Action :=
  place.before ++ place.routine.heading ++ place.routine.body.actions

/-- A program with one procedure has one place for it. -/
theorem Place.before_eq {p : Program} (place : Place p) (hone : p.actions.count .openParams = 1) :
    place.before = p.actions.takeWhile fun a => a ≠ .openParams := by
  have hactions : p.actions = place.before ++ .openParams ::
      (place.routine.heading.tail ++ place.routine.body.actions ++ place.after) := by
    rw [place.actions_eq]
    simp [Routine.heading]
  have hnone : .openParams ∉ place.before := by
    rw [hactions, List.count_append, List.count_cons_self] at hone
    exact List.count_eq_zero.mp (by omega)
  have hothers : ∀ a ∈ place.before, decide (a ≠ .openParams) = true := fun a ha =>
    decide_eq_true fun heq => hnone (heq ▸ ha)
  rw [hactions, List.takeWhile_append_of_pos hothers]
  simp

def Action.isConstructor : Action → Bool
  | openConstructor _ _ => true
  | _ => false

/-- The end of the method that an action opens. -/
def Action.ending (a : Action) : List Action :=
  if a.isConstructor then [.sizeFrame, .closeMethod] else [.closeMethod]

/-- Wherever a procedure is opened, parameters, body and end of one of the methods follow. -/
def Sited (methods : List Routine) (actions : List Action) : Prop :=
  ∀ done a later, actions = done ++ a :: later → a.routine?.isSome = true →
    ∃ r ∈ methods, ∃ rest, later = r.heading ++ r.body.actions ++ (a.ending ++ rest)

section Sited

variable {methods : List Routine} {as bs : List Action}

theorem sited_plain (h : ∀ a ∈ as, a.routine? = none) : Sited methods as := by
  rintro done a later rfl hopens
  rw [h a (by simp)] at hopens
  cases hopens

theorem Sited.append (has : Sited methods as) (hbs : Sited methods bs) :
    Sited methods (as ++ bs) := by
  intro done a later heq hopens
  rcases List.append_eq_append_iff.mp heq with ⟨more, rfl, hmore⟩ | ⟨more, rfl, hmore⟩
  · exact hbs more a later hmore hopens
  · cases more with
    | nil => exact hbs [] a later hmore.symm hopens
    | cons b more =>
      cases hmore
      obtain ⟨r, hr, rest, rfl⟩ := has done a more rfl hopens
      exact ⟨r, hr, rest ++ bs, by simp⟩

theorem sited_flatMap {α : Type} {f : α → List Action} {xs : List α}
    (h : ∀ x ∈ xs, Sited methods (f x)) : Sited methods (xs.flatMap f) := by
  induction xs with
  | nil => exact sited_plain fun a ha => absurd ha List.not_mem_nil
  | cons x xs ih =>
    exact (h x List.mem_cons_self).append (ih fun y hy => h y (List.mem_cons_of_mem x hy))

theorem routine?_of_isHeading {a : Action} (h : a.isHeading = false) : a.routine? = none := by
  cases a <;> first | rfl | cases h

theorem Action.ending_cases (a : Action) :
    a.ending = [.closeMethod] ∨ a.ending = [.sizeFrame, .closeMethod] := by
  unfold Action.ending
  cases a.isConstructor
  · exact .inl rfl
  · exact .inr rfl

/-- A method opens one procedure, at its beginning. -/
theorem sited_routine (opening : Action) {r : Routine} (hr : r ∈ methods) :
    Sited methods (opening :: r.heading ++ r.body.actions ++ opening.ending) := by
  intro done a later heq hopens
  cases done with
  | nil =>
    cases heq
    exact ⟨r, hr, [], congrArg _ (List.append_nil _).symm⟩
  | cons b done =>
    have hplain : ∀ c ∈ r.heading ++ r.body.actions ++ opening.ending, c.routine? = none := by
      intro c hc
      rcases List.mem_append.mp hc with hc | hc
      · exact routine?_of_isHeading (r.isHeading_actions c hc)
      · rcases opening.ending_cases with hending | hending <;> rw [hending] at hc
        · exact List.mem_singleton.mp hc ▸ rfl
        · simp only [List.mem_cons, List.not_mem_nil, or_false] at hc
          rcases hc with rfl | rfl <;> rfl
    have htail : r.heading ++ r.body.actions ++ opening.ending = done ++ a :: later :=
      (List.cons.inj heq).2
    have hmem : a ∈ r.heading ++ r.body.actions ++ opening.ending := by
      rw [htail]
      simp
    rw [hplain a hmem] at hopens
    cases hopens

theorem sited_member {className : String} {core : MemberCore className}
    (h : ∀ r, core.routine? = some r → r ∈ methods) : Sited methods core.actions := by
  cases core with
  | declaration d =>
    exact sited_plain fun a ha =>
      routine?_of_isHeading (isHeading_of_isDeclaration (d.isDeclaration_actions a ha))
  | constructor r named =>
    exact sited_routine (.openConstructor r.name.1.line r.name.1.lexeme) (h r rfl)
  | method type r =>
    exact sited_routine (.openMethod r.name.1.line r.name.1.lexeme type.type) (h r rfl)

theorem sited_class {c : ClassDecl} (h : ∀ r ∈ c.routines, r ∈ methods) :
    Sited methods c.actions := by
  have hheading : Sited methods c.heading := by
    refine sited_plain fun a ha => ?_
    simp only [ClassDecl.heading, List.cons_append, List.mem_cons, List.mem_append, List.mem_map,
      List.not_mem_nil, or_false] at ha
    rcases ha with rfl | ⟨base, -, rfl⟩ | rfl <;> rfl
  have hmembers : Sited methods (c.members.flatMap fun m => m.core.actions) :=
    sited_flatMap fun m hm => sited_member fun r hr =>
      h r (List.mem_filterMap.mpr ⟨m, hm, hr⟩)
  exact (hheading.append hmembers).append (sited_plain (by decide))

theorem sited_program (p : Program) : Sited p.routines p.actions := by
  have husings : Sited p.routines (p.usings.map fun u => .usingName u.name.text) := by
    refine sited_plain fun a ha => ?_
    obtain ⟨u, -, rfl⟩ := List.mem_map.mp ha
    rfl
  have hclasses : Sited p.routines (p.block.classes.flatMap ClassDecl.actions) :=
    sited_flatMap fun c hc => sited_class fun r hr => List.mem_flatMap.mpr ⟨c, hc, hr⟩
  refine husings.append ?_
  cases hp : p.block with
  | spaced keyword name left classes right =>
    rw [hp] at hclasses
    have hopening : Sited p.routines
        [.openNamespace left.1.line name.text name.first.1.line] :=
      sited_plain (by simp [Action.routine?])
    exact (hopening.append hclasses).append (sited_plain (by decide))
  | bare classes =>
    rw [hp] at hclasses
    exact hclasses

end Sited

/-- An action of a program that opens a procedure has its place. -/
theorem exists_place {p : Program} {done later : List Action} {a : Action}
    (hactions : p.actions = done ++ a :: later) (hopens : a.routine?.isSome = true) :
    ∃ place : Place p, place.before = done ++ [a] ∧ place.after = a.ending ++ place.rest := by
  obtain ⟨r, hr, rest, rfl⟩ := sited_program p done a later hactions hopens
  refine ⟨⟨⟨r, done ++ [a], a.ending ++ rest, hr, by rw [hactions]; simp⟩, rest, ?_⟩, rfl, rfl⟩
  exact a.ending_cases.imp (congrArg (· ++ rest)) (congrArg (· ++ rest))

/-! ## Methods in the table -/

/-- All records stand where they belong, and the names of a scope are apart. -/
structure Stands (φ : Phase) (s : State) : Prop where
  fits : Fits φ s
  placed : Placed (fun _ => True) φ s.spine
  names : Scoped φ s.spine

theorem Stands.begin {s : State} (h : Stands .preface s) : Stands .file s :=
  ⟨h.fits.begin, h.placed.begin, h.names.classes, fun _ => h.names.root rfl, h.names.distinct,
    h.names.grouped⟩

theorem stands_initial : Stands .preface .initial :=
  ⟨fits_initial, placed_initial _, scoped_initial⟩

theorem stands_apply {φ ψ : Phase} {s t : State} {a : Action} (h : Stands φ s)
    (hnext : φ.next? a = some ψ) (happly : a.apply s = .ok t) : Stands ψ t := by
  have hfits := fits_apply h.fits hnext
  have hmove := move_of_apply h.fits hnext happly
  rw [happly] at hfits
  exact ⟨hfits, placed_move h.fits h.placed (by cases a <;> trivial) hmove,
    scoped_move h.fits h.placed h.names hmove⟩

theorem stands_run {φ ψ : Phase} {s t : State} {actions : List Action}
    (hlegal : Phase.Legal φ actions ψ) (h : Stands φ s) (hrun : s.run actions = (t, none)) :
    Stands ψ t :=
  hlegal.state_induction (I := fun _ => Stands) (P := fun _ => True) (fun _ _ => .begin)
    (fun _ _ _ _ _ _ _ _ => stands_apply) (fun _ _ => trivial) [] h.fits h hrun

theorem methods_move {N : String → Prop} {φ ψ : Phase} {s : State} {a : Action} {p : State.Spine}
    (hplaced : Placed N φ s.spine) (hmove : Move s φ a ψ p) :
    p.symbols.methods = s.symbols.methods ++
      if a.routine?.isSome then [s.symbols.nextId] else [] := by
  cases hmove with
  | still _ plain => simp [routine?_of_isHeading plain, State.spine]
  | @declared φ line name entity inScope plain =>
    have hentity : entity.isMethod = false := by cases entity <;> first | rfl | cases plain
    have hmethods := s.methods_enroll name entity
    rw [hentity] at hmethods
    exact hmethods
  | coded plain within =>
    rw [routine?_of_isHeading plain]
    exact (SymbolTable.methods_same within.sameOuter).trans (List.append_nil _).symm
  | @spaceOpened line name start => exact s.methods_enroll name .space
  | spaceClosed => exact (List.append_nil _).symm
  | @classOpened line name =>
    exact State.methods_enroll { s with depth := s.depth + 1 } name .newClass
  | classEntered => exact (List.append_nil _).symm
  | @methodOpened a name procedure isConstructor returns opens =>
    rw [opens]
    exact s.methods_enroll name (.newMethod returns)
  | paramsEntered => exact (List.append_nil _).symm
  | methodClosed sheds =>
    exact (SymbolTable.methods_same (hplaced.sameOuter sheds)).trans (List.append_nil _).symm
  | classClosed sheds =>
    exact (SymbolTable.methods_same (hplaced.sameOuter sheds)).trans (List.append_nil _).symm

/-- A method of the table is one from before, or it was opened on the way. -/
theorem opened_of_mem_methods {φ ψ : Phase} {actions : List Action}
    (hlegal : Phase.Legal φ actions ψ) {s t : State} (h : Stands φ s)
    (hrun : s.run actions = (t, none)) :
    ∀ id ∈ t.symbols.methods, id ∈ s.symbols.methods ∨
      ∃ done a later u, actions = done ++ a :: later ∧ a.routine?.isSome = true ∧
        s.run done = (u, none) ∧ id = u.symbols.nextId := by
  induction hlegal generalizing s with
  | nil φ =>
    cases hrun
    exact fun id hid => .inl hid
  | begin _ ih => exact ih h.begin hrun
  | @cons φ χ ψ a actions here _ ih =>
    obtain ⟨u, happly, hu⟩ := State.run_cons_eq_none.mp hrun
    have hmethods := methods_move h.placed (move_of_apply h.fits here happly)
    intro id hid
    rcases ih (stands_apply h here happly) hu id hid with hid | ⟨done, b, later, v, rfl, hopens, hv, hnextId⟩
    · rw [show u.symbols.methods = _ from hmethods] at hid
      rcases List.mem_append.mp hid with hid | hid
      · exact .inl hid
      · cases hopens : a.routine?.isSome with
        | false => simp [hopens] at hid
        | true =>
          rw [hopens] at hid
          exact .inr ⟨[], a, actions, s, rfl, hopens, rfl, List.mem_singleton.mp hid⟩
    · exact .inr ⟨a :: done, b, later, v, rfl, hopens,
        State.run_cons_eq_none.mpr ⟨u, happly, hv⟩, hnextId⟩

/-! ## Closed methods -/

namespace State

variable {s : State} {id : SymbolId} {r : Symbol}

theorem get?_modifySymbol_of_ne {i : Option SymbolId} {f : Symbol → Symbol} (hne : i ≠ some id) :
    (s.modifySymbol i f).symbols.get? id = s.symbols.get? id := by
  cases i with
  | none => rfl
  | some i =>
    change (s.symbols.modify i f).get? id = _
    rw [SymbolTable.get?_modify, if_neg fun h => hne (congrArg some h.symm)]

theorem get?_insert_of_live (hr : s.symbols.get? id = some r) (q : Symbol) :
    (s.symbols.insert q).get? id = some r := by
  rw [SymbolTable.get?_insert, if_neg (Nat.ne_of_lt (SymbolTable.get?_lt hr))]
  exact hr

/-- A declaration is charged to the open scope only. -/
theorem get?_enroll_of_ne (hr : s.symbols.get? id = some r) (hne : s.parent ≠ some id)
    (name : String) (entity : Entity) : (s.enroll name entity).symbols.get? id = some r := by
  rw [symbols_enroll, get?_modifySymbol_of_ne hne]
  exact get?_insert_of_live hr _

theorem get?_enroll_new (hne : s.parent ≠ some s.symbols.nextId) (name : String)
    (entity : Entity) :
    (s.enroll name entity).symbols.get? s.symbols.nextId = some (s.recordOf name entity) := by
  rw [symbols_enroll, get?_modifySymbol_of_ne hne, SymbolTable.get?_insert, if_pos rfl]

/-- A new word is charged to the open method only. -/
theorem get?_newTemp_of_ne (hr : s.symbols.get? id = some r) (hne : s.currentMethod ≠ some id) :
    s.newTemp.2.symbols.get? id = some r := by
  refine Eq.trans (get?_modifySymbol_of_ne hne) ?_
  exact get?_insert_of_live hr _

theorem get?_sizeFrame_of_ne {t : State} (h : Action.sizeFrame.apply s = .ok t)
    (hne : s.currentMethod ≠ some id) : t.symbols.get? id = s.symbols.get? id := by
  cases outcome_of_ok h with
  | frameSized current => exact get?_modifySymbol_of_ne (current ▸ hne)
  | noFrame => rfl

end State

section Closed

variable {N : String → Prop} {φ ψ : Phase} {s t : State} {a : Action} {p : State.Spine}
  {id : SymbolId} {r m : Symbol}

/-- Every record outside methods stays, and only that of the open scope gets other sizes. -/
theorem record_move (hplaced : Placed N φ s.spine) (hmove : Move s φ a ψ p)
    (hr : s.symbols.get? id = some r) (hdepth : r.depth ≤ 1) :
    ∃ r', p.symbols.get? id = some r' ∧ r'.outline = r.outline ∧
      (s.parent ≠ some id → r'.entity = r.entity) := by
  have hevolves : ∀ {depth : Nat} {t : SymbolTable}, s.symbols.Evolves depth t →
      (s.parent ≠ some id → t.get? id = some r) →
      ∃ r', t.get? id = some r' ∧ r'.outline = r.outline ∧
        (s.parent ≠ some id → r'.entity = r.entity) := by
    intro depth t ht hsame
    obtain ⟨r', hr', hout⟩ := ht.get? hr
    refine ⟨r', hr', hout, fun hne => ?_⟩
    cases hr'.symm.trans (hsame hne)
    rfl
  have hsheds : ∀ {t : SymbolTable}, s.symbols.Sheds t →
      ∃ r', t.get? id = some r' ∧ r'.outline = r.outline ∧
        (s.parent ≠ some id → r'.entity = r.entity) := by
    intro t ht
    obtain ⟨r', hr', hout⟩ := ht.get? id r hr hdepth
    exact ⟨r', hr', hout, fun _ => ht.entity id r r' hr hr'⟩
  cases hmove with
  | still => exact ⟨r, hr, rfl, fun _ => rfl⟩
  | @declared _ line name entity =>
    exact hevolves (s.evolves_enroll name entity) fun hne => s.get?_enroll_of_ne hr hne name entity
  | @coded a t plain within kind applied =>
    refine hevolves within.symbols fun hne => ?_
    have hmethod : s.currentMethod ≠ some id := fun h => hne ((hplaced.methodParent rfl).trans h)
    change t.symbols.get? id = some r
    rcases kind with hcode | rfl
    · rcases (State.coded_of_apply hcode applied).warnings_cases with
        ⟨-, hsame | hword⟩ | ⟨line, name, hwarned⟩
      · rw [hsame]
        exact hr
      · rw [hword]
        exact State.get?_newTemp_of_ne hr hmethod
      · rw [hwarned.symbols]
        exact State.get?_enroll_of_ne hr hne name .placeholder
    · exact (State.get?_sizeFrame_of_ne applied hmethod).trans hr
  | @spaceOpened line name =>
    exact hevolves (s.evolves_enroll name .space) fun hne => s.get?_enroll_of_ne hr hne name .space
  | spaceClosed => exact ⟨r, hr, rfl, fun _ => rfl⟩
  | @classOpened line name =>
    exact hevolves (State.evolves_enroll { s with depth := s.depth + 1 } name .newClass) fun hne =>
      State.get?_enroll_of_ne (s := { s with depth := s.depth + 1 }) hr hne name .newClass
  | classEntered => exact ⟨r, hr, rfl, fun _ => rfl⟩
  | @methodOpened a name procedure isConstructor returns =>
    exact hevolves (s.evolves_enroll name (.newMethod returns)) fun hne =>
      s.get?_enroll_of_ne hr hne name (.newMethod returns)
  | paramsEntered => exact ⟨r, hr, rfl, fun _ => rfl⟩
  | methodClosed sheds => exact hsheds sheds
  | classClosed sheds => exact hsheds sheds

/-- The mark of the open method moves to a new record, or goes. -/
theorem currentMethod_move (hmove : Move s φ a ψ p) :
    p.currentMethod = s.currentMethod ∨ p.currentMethod = some s.symbols.nextId ∨
      p.currentMethod = none := by
  cases hmove with
  | @declared _ line name entity _ plain =>
    have hentity : entity.isMethod = false := by cases entity <;> first | rfl | cases plain
    refine .inl ?_
    rw [State.spine_enroll, hentity]
    rfl
  | coded _ within => exact .inl within.currentMethod
  | spaceOpened => exact .inl (by rw [State.spine_enroll]; rfl)
  | classOpened => exact .inl (by rw [State.spine_enroll]; rfl)
  | methodOpened => exact .inr (.inl (by rw [State.spine_enroll]; rfl))
  | methodClosed => exact .inr (.inr rfl)
  | classClosed => exact .inr (.inr rfl)
  | _ => exact .inl rfl

/-- The open scope is not that of a closed method. -/
theorem Stands.parent_ne (h : Stands φ s) (hm : s.symbols.get? id = some m)
    (hmethod : m.entity.isMethod = true) (hclosed : s.currentMethod ≠ some id) :
    s.parent ≠ some id := by
  intro hparent
  have hroot : φ.atRoot = false := by
    cases hφ : φ.atRoot with
    | false => rfl
    | true =>
      obtain ⟨o, ho, hspace⟩ := h.names.root hφ id hparent
      cases hm.symm.trans ho
      rw [hspace] at hmethod
      cases hmethod
  have hmembers : φ.atMembers = false := by
    cases hφ : φ.atMembers with
    | false => rfl
    | true =>
      obtain ⟨c, o, hc, ho, hisClass, -⟩ := h.placed.openClass (Phase.inClass_of_atMembers hφ)
      cases ((h.placed.classParent hφ).trans hc).symm.trans hparent
      cases hm.symm.trans ho
      rw [Entity.isMethod_of_isClass hisClass] at hmethod
      cases hmethod
  have hdepth : φ.depth = 2 := by
    cases φ <;> first | rfl | exact absurd hroot (by decide) | exact absurd hmembers (by decide)
  exact hclosed ((h.placed.methodParent hdepth).symm.trans hparent)

/-- A record outside methods stays to the end. -/
theorem record_run {actions : List Action} (hlegal : Phase.Legal φ actions ψ) (h : Stands φ s)
    (hrun : s.run actions = (t, none)) (hr : s.symbols.get? id = some r) (hdepth : r.depth ≤ 1) :
    ∃ r', t.symbols.get? id = some r' ∧ r'.outline = r.outline :=
  (hlegal.state_induction (P := fun _ => True)
    (I := fun _ φ u => Stands φ u ∧ ∃ r', u.symbols.get? id = some r' ∧ r'.outline = r.outline)
    (fun _ _ h => ⟨h.1.begin, h.2⟩)
    (by
      rintro _ φ a ψ u v - hfits ⟨hu, r', hr', hout⟩ hnext happly
      obtain ⟨r'', hr'', hout', -⟩ := record_move hu.placed (move_of_apply hfits hnext happly) hr'
        (Symbol.depth_of_outline hout ▸ hdepth)
      exact ⟨stands_apply hu hnext happly, r'', hr'', hout'.trans hout⟩)
    (fun _ _ => trivial) [] h.fits ⟨h, r, hr, rfl⟩ hrun).2

/-- Once a method is closed, it stays as it is to the end. -/
theorem entity_run {actions : List Action} (hlegal : Phase.Legal φ actions ψ) (h : Stands φ s)
    (hrun : s.run actions = (t, none)) (hm : s.symbols.get? id = some m)
    (hmethod : m.entity.isMethod = true) (hclosed : s.currentMethod ≠ some id) :
    ∃ m', t.symbols.get? id = some m' ∧ m'.entity = m.entity := by
  refine (hlegal.state_induction (P := fun _ => True)
    (I := fun _ φ u => Stands φ u ∧ u.currentMethod ≠ some id ∧
      ∃ m', u.symbols.get? id = some m' ∧ m'.entity = m.entity)
    (fun _ _ h => ⟨h.1.begin, h.2⟩) ?_ (fun _ _ => trivial) [] h.fits
    ⟨h, hclosed, m, hm, rfl⟩ hrun).2.2
  rintro _ φ a ψ u v - hfits ⟨hu, hclosed, m', hm', hentity⟩ hnext happly
  have hmove := move_of_apply hfits hnext happly
  have hmethod' : m'.entity.isMethod = true := hentity ▸ hmethod
  have hdepth := (hu.placed.records id m' hm').depth_le_of_outer
    (Entity.isInner_of_isMethod hmethod')
  obtain ⟨m'', hm'', -, hkept⟩ := record_move hu.placed hmove hm' hdepth
  refine ⟨stands_apply hu hnext happly, ?_, m'', hm'',
    (hkept (hu.parent_ne hm' hmethod' hclosed)).trans hentity⟩
  change v.spine.currentMethod ≠ some id
  rcases currentMethod_move hmove with hsame | hnew | hnone
  · exact hsame ▸ hclosed
  · have hlt : id < u.symbols.nextId := SymbolTable.get?_lt hm'
    rw [hnew]
    exact fun h => Nat.ne_of_gt hlt (Option.some.inj h)
  · rw [hnone]
    exact (Option.some_ne_none id).symm

end Closed

end Triad
