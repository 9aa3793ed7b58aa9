import Triad.Proofs.ArgumentArea

/-!
Which method a call goes to. A call that names no class goes to the method that its name stands for
when it is read, and to the open class if there is none. So a method of the open class is called
once it has been opened, and one that is yet to come may lose to a method of an earlier class. Main
statement: `own_method_called_iff`.
-/

namespace Triad

open Syntax

/-! ## The open class -/

section OpenClass

variable {N : String → Prop} {φ ψ : Phase} {s t : State} {k : SymbolId}

/-- Only its end takes the mark from the open class. -/
theorem currentClass_move {a : Action} {p : State.Spine} (hplaced : Placed N φ s.spine)
    (hmove : Move s φ a ψ p) (hφ : φ.inClass = true) (ha : a ≠ .closeClass) :
    ψ.inClass = true ∧ p.currentClass = s.currentClass := by
  cases hmove with
  | still beside =>
    rcases beside with rfl | ⟨-, rfl⟩ | ⟨-, rfl⟩
    · exact ⟨hφ, rfl⟩
    · exact ⟨rfl, rfl⟩
    · exact ⟨rfl, rfl⟩
  | @declared φ line name entity inScope plain =>
    refine ⟨hφ, ?_⟩
    rw [State.spine_enroll]
    cases entity <;> first | rfl | cases plain
  | coded _ within => exact ⟨rfl, within.currentClass⟩
  | classEntered => exact ⟨rfl, rfl⟩
  | methodOpened => exact ⟨rfl, by rw [State.spine_enroll]; rfl⟩
  | paramsEntered => exact ⟨rfl, rfl⟩
  | @methodClosed symbols => exact ⟨rfl, (hplaced.parent_left symbols).2⟩
  | classClosed => exact absurd rfl ha
  | _ => cases hφ

theorem currentClass_run {actions : List Action} (hlegal : Phase.Legal φ actions ψ)
    (hs : Stands φ s) (hφ : φ.inClass = true) (hopen : .closeClass ∉ actions)
    (hrun : s.run actions = (t, none)) : ψ.inClass = true ∧ t.currentClass = s.currentClass :=
  (hlegal.state_induction (P := fun a => a ≠ .closeClass)
    (I := fun _ φ u => Stands φ u ∧ φ.inClass = true ∧ u.currentClass = s.currentClass)
    (fun _ _ h => by cases h.2.1)
    (by
      rintro _ φ a ψ u v ha hfits ⟨hu, hφ, hclass⟩ hnext happly
      obtain ⟨hψ, hsame⟩ :=
        currentClass_move hu.placed (move_of_apply hfits hnext happly) hφ ha
      exact ⟨stands_apply hu hnext happly, hψ, hsame.trans hclass⟩)
    (fun a ha heq => hopen (heq ▸ ha)) [] hs.fits ⟨hs, hφ, rfl⟩ hrun).2

/-- A method that is opened is a member of the open class. -/
theorem member_of_opens {a : Action} {name : String} {isConstructor : Bool}
    (hs : Stands .classBody s) (hopens : a.routine? = some (name, isConstructor))
    (happly : a.apply s = .ok t) :
    ∃ r, t.symbols.get? s.symbols.nextId = some r ∧ r.entity.isMethod = true ∧ r.depth = 1 ∧
      r.name = name ∧ r.owner = s.currentClass := by
  have hnext : Phase.classBody.next? a = some .methodHead := by cases a <;> cases hopens <;> rfl
  have hmove := move_of_apply hs.fits hnext happly
  generalize hp : t.spine = p at hmove
  cases hmove with
  | @methodOpened _ name' procedure _ returns opens =>
    cases hopens.symm.trans opens
    obtain ⟨r, hr, hout⟩ := State.get?_enroll s name (.newMethod returns)
    have hsymbols : t.symbols = (s.enroll name (.newMethod returns)).symbols :=
      congrArg State.Spine.symbols hp
    rw [← hsymbols] at hr
    exact ⟨r, hr, Symbol.isMethod_of_outline hout,
      (Symbol.depth_of_outline hout).trans hs.fits.depth, Symbol.name_of_outline hout,
      (Symbol.owner_of_outline hout).trans (hs.placed.classParent rfl)⟩
  | still _ plain => cases hopens.symm.trans (routine?_of_isHeading plain)

/-- Methods are opened in the body of a class. -/
theorem Phase.Legal.split_opens {before after : List Action} {a : Action}
    (h : Phase.Legal φ (before ++ a :: after) ψ) (hopens : a.routine?.isSome = true) :
    Phase.Legal φ before .classBody ∧ Phase.classBody.next? a = some .methodHead ∧
      Phase.Legal .methodHead after ψ := by
  obtain ⟨χ, hbefore, hafter⟩ := h.split
  cases Phase.eq_of_legal hafter (fun _ => Phase.eq_classBody_of_opens hopens) (by decide)
  cases hafter with
  | @cons _ χ _ _ _ here later =>
    have hnext : Phase.classBody.next? a = some .methodHead := by
      cases a <;> first | rfl | cases hopens
    cases here.symm.trans hnext
    exact ⟨hbefore, hnext, later⟩

/-- A method that has been opened in the open class stays a member of it. -/
theorem member_of_run {before after : List Action} {a : Action} {name : String}
    {isConstructor : Bool} (hlegal : Phase.Legal φ (before ++ a :: after) ψ) (hs : Stands φ s)
    (hφ : φ.inClass = true) (hopen : .closeClass ∉ before)
    (hopens : a.routine? = some (name, isConstructor))
    (hrun : s.run (before ++ a :: after) = (t, none)) :
    ∃ id r, t.symbols.get? id = some r ∧ r.entity.isMethod = true ∧ r.name = name ∧
      r.owner = s.currentClass := by
  obtain ⟨hbefore, here, hafter⟩ := hlegal.split_opens (hopens ▸ rfl)
  obtain ⟨u, hu, hlater⟩ := State.run_append_eq_none.mp hrun
  obtain ⟨v, hv, hrest⟩ := State.run_cons_eq_none.mp hlater
  have hstands := stands_run hbefore hs hu
  have hclass := (currentClass_run hbefore hs hφ hopen hu).2
  obtain ⟨r, hr, hmethod, hdepth, hname, howner⟩ := member_of_opens hstands hopens hv
  obtain ⟨r', hr', hout⟩ := record_run hafter (stands_apply hstands here hv) hrest hr
    (Nat.le_of_eq hdepth)
  exact ⟨_, r', hr', (Symbol.isMethod_of_outline hout).trans hmethod,
    (Symbol.name_of_outline hout).trans hname,
    (Symbol.owner_of_outline hout).trans (howner.trans hclass)⟩

end OpenClass

/-! ## Methods and the actions that open them -/

/-- What an action declares in the class of the given name. -/
def Action.declared? (className : String) (a : Action) : Option Declared :=
  a.routine?.map fun r => ⟨className, r.1, r.2⟩

/-- Whether an action begins or ends a class. -/
def Action.isOfClass : Action → Bool
  | openClass _ _ | closeClass => true
  | _ => false

theorem Action.isOfClass_of_isCode {a : Action} (h : a.isCode = true) : a.isOfClass = false := by
  cases a <;> first | rfl | cases h

theorem Action.declared?_of_isCode {className : String} {a : Action} (h : a.isCode = true) :
    a.declared? className = none := by
  cases a <;> first | rfl | cases h

theorem Action.isOfClass_of_isDeclaration {a : Action} (h : a.isDeclaration = true) :
    a.isOfClass = false := by
  cases a <;> first | rfl | cases h

namespace Roster

theorem after_inside {a : Action} (h : a.isOfClass = false) (ρ : Roster) :
    ρ.after a = { ρ with declared := ρ.declared ++ (a.declared? ρ.className).toList } := by
  cases a with
  | openClass line name => cases h
  | _ => simp [after, Action.declared?, Action.routine?]

/-- Inside a class the methods of that class are declared. -/
theorem foldl_inside {actions : List Action} (h : ∀ a ∈ actions, a.isOfClass = false) (ρ : Roster) :
    actions.foldl after ρ =
      { ρ with declared := ρ.declared ++ actions.filterMap (Action.declared? ρ.className) } := by
  induction actions generalizing ρ with
  | nil => simp
  | cons a actions ih =>
    rw [List.foldl_cons, after_inside (h a List.mem_cons_self),
      ih fun b hb => h b (List.mem_cons_of_mem a hb), List.filterMap_cons]
    cases a.declared? ρ.className <;> simp

/-- What has been declared stays so. -/
theorem prefix_foldl (actions : List Action) (ρ : Roster) :
    ρ.declared <+: (actions.foldl after ρ).declared := by
  induction actions generalizing ρ with
  | nil => exact List.prefix_rfl
  | cons a actions ih =>
    refine List.IsPrefix.trans ?_ (ih (ρ.after a))
    cases a <;> first | exact List.prefix_rfl | exact List.prefix_append _ _

end Roster

theorem roster_append (as bs : List Action) :
    roster (as ++ bs) = bs.foldl Roster.after (roster as) := List.foldl_append

theorem mem_filterMap_declared? {className : String} {actions : List Action} {d : Declared} :
    d ∈ actions.filterMap (Action.declared? className) ↔
      d.className = className ∧ ∃ a ∈ actions, a.routine? = some (d.name, d.isConstructor) := by
  simp only [List.mem_filterMap, Action.declared?, Option.map_eq_some_iff]
  constructor
  · rintro ⟨a, ha, r, hr, rfl⟩
    exact ⟨rfl, a, ha, hr⟩
  · rintro ⟨rfl, a, ha, hr⟩
    exact ⟨a, ha, _, hr, rfl⟩

/-- A method of the table was declared, by its name and the name of its class. -/
theorem exists_declared {ψ : Phase} {actions : List Action}
    (hlegal : Phase.Legal .preface actions ψ) {t : State}
    (hrun : State.initial.run actions = (t, none)) {id k : SymbolId} {r o : Symbol}
    (hr : t.symbols.get? id = some r) (hmethod : r.entity.isMethod = true)
    (howner : r.owner = some k) (ho : t.symbols.get? k = some o) :
    ∃ d ∈ (roster actions).declared, d.className = o.name ∧ d.name = r.name := by
  have hid := SymbolTable.mem_methods_of_get? hr hmethod
  rcases opened_of_mem_methods hlegal stands_initial hrun id hid with
    hnone | ⟨before, a, after, u, rfl, hopens, hu, rfl⟩
  · exact absurd hnone List.not_mem_nil
  obtain ⟨opened, hopened⟩ := Option.isSome_iff_exists.mp hopens
  obtain ⟨hbefore, here, hafter⟩ := hlegal.split_opens hopens
  obtain ⟨v, hv, hlater⟩ := State.run_append_eq_none.mp hrun
  cases hu.symm.trans hv
  obtain ⟨w, hw, hrest⟩ := State.run_cons_eq_none.mp hlater
  have hstands := stands_run hbefore stands_initial hu
  obtain ⟨r', hr', -, hdepth, hname, howner'⟩ := member_of_opens hstands hopened hw
  obtain ⟨c, q, hc, hq, hclass, -⟩ := hstands.placed.openClass rfl
  have hq1 := (hstands.placed.records c q hq).depth_le_of_outer (Entity.isInner_of_isClass hclass)
  have hcname := (shaped_run hbefore hu).className rfl c q hc hq
  obtain ⟨q', hq', hqout⟩ := record_run (.cons here hafter) hstands hlater hq hq1
  obtain ⟨r'', hr'', hout⟩ := record_run hafter (stands_apply hstands here hw) hrest hr'
    (Nat.le_of_eq hdepth)
  cases hr.symm.trans hr''
  cases howner.symm.trans ((Symbol.owner_of_outline hout).trans (howner'.trans hc))
  cases ho.symm.trans hq'
  refine ⟨⟨(roster before).className, opened.1, opened.2⟩, ?_,
    (hcname.symm.trans (Symbol.name_of_outline hqout).symm), ?_⟩
  · rw [roster_append, List.foldl_cons, Roster.after_routine hopened]
    exact (Roster.prefix_foldl after _).subset (by simp)
  · exact hname.symm.trans (Symbol.name_of_outline hout).symm

/-! ## The target -/

/-- The name stands for a method of a class that goes by another name. -/
def SymbolTable.FindsElsewhere (t : SymbolTable) (className name : String) : Prop :=
  ∃ id r k o, t.lookup name = some id ∧ t.get? id = some r ∧ r.entity.isMethod = true ∧
    r.owner = some k ∧ t.get? k = some o ∧ o.name ≠ className

theorem fullName_left_inj {className className' name : String} :
    className ++ "." ++ name = className' ++ "." ++ name ↔ className = className' := by
  rw [String.append_left_inj, String.append_left_inj]

section Target

variable {φ : Phase} {s : State} {k : SymbolId} {o : Symbol} {name target : String}

/-- A name that stands for a method goes to that method, any other one to the open class. -/
theorem callTarget_cases (hs : Stands φ s) (hk : s.currentClass = some k)
    (ho : s.symbols.get? k = some o) (h : s.callTarget none name = .ok target) :
    target = o.name ++ "." ++ name ∧ (∀ id r, s.symbols.lookup name = some id →
        s.symbols.get? id = some r → r.entity.isMethod = false) ∨
      ∃ id r j q, s.symbols.lookup name = some id ∧ s.symbols.get? id = some r ∧ r.name = name ∧
        r.entity.isMethod = true ∧ r.owner = some j ∧ s.symbols.get? j = some q ∧
        target = q.name ++ "." ++ name := by
  unfold State.callTarget at h
  dsimp only at h
  rw [hk, Option.bind_some, ho] at h
  cases hfound : s.symbols.lookup name with
  | none =>
    rw [hfound] at h
    cases h
    exact .inl ⟨rfl, fun id r hid => by cases hid⟩
  | some id =>
    obtain ⟨⟨r, hr, hname⟩, -⟩ :=
      (SymbolTable.lookup_eq_some_iff hs.fits.chained name id).mp hfound
    rw [hfound] at h
    dsimp only at h
    rw [State.fetch_eq_ok hr] at h
    change (if r.entity.isMethod = true then s.qualifiedName id else _) = _ at h
    cases hmethod : r.entity.isMethod with
    | false =>
      rw [hmethod] at h
      cases h
      refine .inl ⟨rfl, fun id' r' hid hr' => ?_⟩
      cases hid
      cases hr.symm.trans hr'
      exact hmethod
    | true =>
      obtain ⟨j, q, hj, hq, -⟩ := hs.placed.methodsOwned id r hr hmethod
      rw [hmethod, if_pos rfl, qualifiedName_eq hr hj hq, hname] at h
      cases h
      exact .inr ⟨id, r, j, q, rfl, hr, hname, hmethod, hj, hq, rfl⟩

/-- A call goes to the open class unless the name stands for a method of another one. -/
theorem callTarget_eq_iff (hs : Stands φ s) (hk : s.currentClass = some k)
    (ho : s.symbols.get? k = some o) (h : s.callTarget none name = .ok target) :
    target = o.name ++ "." ++ name ↔ ¬ s.symbols.FindsElsewhere o.name name := by
  rcases callTarget_cases hs hk ho h with
    ⟨htarget, hno⟩ | ⟨id, r, j, q, hid, hr, -, hmethod, hj, hq, rfl⟩
  · refine iff_of_true htarget ?_
    rintro ⟨id, r, j, q, hid, hr, hmethod, -⟩
    rw [hno id r hid hr] at hmethod
    cases hmethod
  · rw [fullName_left_inj]
    constructor
    · rintro hname ⟨id', r', j', q', hid', hr', -, hj', hq', hne⟩
      cases hid.symm.trans hid'
      cases hr.symm.trans hr'
      cases hj.symm.trans hj'
      cases hq.symm.trans hq'
      exact hne hname
    · intro hnot
      exact Classical.byContradiction fun hne => hnot ⟨id, r, j, q, hid, hr, hmethod, hj, hq, hne⟩

/-- No other class is looked at once the open one has a method of the name, even if a variable hides
the method. -/
theorem not_findsElsewhere (hs : Stands φ s) (hφ : φ.inClass = true) (hk : s.currentClass = some k)
    (ho : s.symbols.get? k = some o) {id : SymbolId} {r : Symbol} (hr : s.symbols.get? id = some r)
    (hname : r.name = name) (howner : r.owner = some k) :
    ¬ s.symbols.FindsElsewhere o.name name := by
  rintro ⟨id', r', j, q, hid', hr', hmethod, hj, hq, hne⟩
  rcases hs.names.newest_of_class hs.fits hs.placed hφ hk hr howner (hname ▸ hid') hr' with
    ⟨-, howner'⟩ | ⟨hdepth, -⟩
  · cases hj.symm.trans howner'
    cases ho.symm.trans hq
    exact hne rfl
  · have hle := (hs.placed.records id' r' hr').depth_le_of_outer
      (Entity.isInner_of_isMethod hmethod)
    omega

end Target

/-- Where a call of a method by its name alone goes, in the class of the given name. The methods
`own` are declared in that class by then, and the methods `earlier` before it. -/
structure Directed (t : SymbolTable) (className name : String) (own earlier : List Declared)
    (target : String) : Prop where
  own : (∃ d ∈ own, d.name = name) → target = className ++ "." ++ name
  iff : target = className ++ "." ++ name ↔ ¬ t.FindsElsewhere className name
  elsewhere : t.FindsElsewhere className name →
    ∃ d ∈ earlier, d.name = name ∧ d.className ≠ className ∧ target = d.fullName

/-- Behind its name comes the heading of a class. -/
theorem Phase.Legal.eq_classHead {φ ψ : Phase} {first : List Action} {line : Nat} {name : String}
    (h : Phase.Legal φ (first ++ [.openClass line name]) ψ) : ψ = .classHead := by
  have hnext : ∀ {χ χ' : Phase}, χ.next? (.openClass line name) = some χ' → χ' = .classHead := by
    intro χ χ' hχ
    cases χ <;> cases hχ
    rfl
  obtain ⟨χ, -, hlast⟩ := h.split
  cases hlast with
  | cons here later =>
    cases later with
    | nil => exact hnext here
    | begin later => cases hnext here
  | begin later =>
    cases later with
    | cons here later =>
      cases later with
      | nil => exact hnext here
      | begin later => cases hnext here

section Inside

variable {φ : Phase} {u : State} {first within : List Action} {line : Nat} {className : String}

/-- Up to the end of a class it stays the open one. -/
theorem exists_openClass
    (hlegal : Phase.Legal .preface (first ++ .openClass line className :: within) φ)
    (hinside : ∀ a ∈ within, a.isOfClass = false)
    (hrun : State.initial.run (first ++ .openClass line className :: within) = (u, none)) :
    ∃ s k o, Stands .classHead s ∧ Phase.Legal .classHead within φ ∧ s.run within = (u, none) ∧
      φ.inClass = true ∧ s.currentClass = some k ∧ u.currentClass = some k ∧
      u.symbols.get? k = some o ∧ o.name = className := by
  have hall := stands_run hlegal stands_initial hrun
  have hshaped := shaped_run hlegal hrun
  rw [List.append_cons] at hlegal hrun
  obtain ⟨χ, hfirst, hwithin⟩ := hlegal.split
  obtain ⟨s, hs, hlater⟩ := State.run_append_eq_none.mp hrun
  have hχ : χ = .classHead := hfirst.eq_classHead
  subst hχ
  have hstands := stands_run hfirst stands_initial hs
  have hopen : .closeClass ∉ within := fun hmem => absurd (hinside _ hmem) (by decide)
  obtain ⟨hφ, hclass⟩ := currentClass_run hwithin hstands rfl hopen hlater
  obtain ⟨k, o, hk, ho, -⟩ := hall.placed.openClass hφ
  refine ⟨s, k, o, hstands, hwithin, hlater, hφ, hclass.symm.trans hk, hk, ho, ?_⟩
  rw [hshaped.className hφ k o hk ho, roster_append, List.foldl_cons, Roster.foldl_inside hinside]
  rfl

/-- A call behind the heading of a class, told from what is declared there and before. -/
theorem directed_of_run {name target : String}
    (hlegal : Phase.Legal .preface (first ++ .openClass line className :: within) φ)
    (hinside : ∀ a ∈ within, a.isOfClass = false)
    (hrun : State.initial.run (first ++ .openClass line className :: within) = (u, none))
    (htarget : u.callTarget none name = .ok target) :
    Directed u.symbols className name (within.filterMap (Action.declared? className))
      (roster first).declared target := by
  have hu := stands_run hlegal stands_initial hrun
  obtain ⟨s, k, o, hs, hwithin, hlater, hφ, hsk, hk, ho, rfl⟩ :=
    exists_openClass hlegal hinside hrun
  have hiff := callTarget_eq_iff hu hk ho htarget
  refine ⟨?_, hiff, ?_⟩
  · rintro ⟨d, hd, rfl⟩
    obtain ⟨-, a, ha, hopens⟩ := mem_filterMap_declared?.mp hd
    obtain ⟨before, after, rfl⟩ := List.append_of_mem ha
    have hopen : .closeClass ∉ before := fun hmem =>
      absurd (hinside _ (List.mem_append_left _ hmem)) (by decide)
    obtain ⟨id, r, hr, -, hname, howner⟩ := member_of_run hwithin hs rfl hopen hopens hlater
    exact hiff.mpr (not_findsElsewhere hu hφ hk ho hr hname (howner.trans hsk))
  · rintro ⟨id, r, j, q, hid, hr, hmethod, hj, hq, hne⟩
    rcases callTarget_cases hu hk ho htarget with
      ⟨-, hno⟩ | ⟨id', r', j', q', hid', hr', hname, -, hj', hq', rfl⟩
    · rw [hno id r hid hr] at hmethod
      cases hmethod
    · cases hid.symm.trans hid'
      cases hr.symm.trans hr'
      cases hj.symm.trans hj'
      cases hq.symm.trans hq'
      obtain ⟨d, hd, hclass, hdname⟩ := exists_declared hlegal hrun hr hmethod hj hq
      rw [roster_append, List.foldl_cons, Roster.foldl_inside hinside] at hd
      rcases List.mem_append.mp hd with hd | hd
      · refine ⟨d, hd, hdname.trans hname, hclass ▸ hne, ?_⟩
        rw [Declared.fullName, hclass, hdname, hname]
      · exact absurd ((mem_filterMap_declared?.mp hd).1.symm.trans hclass).symm hne

end Inside

/-! ## Classes of a program -/

namespace Syntax

theorem MemberCore.isOfClass_actions {className : String} (core : MemberCore className) :
    ∀ a ∈ core.actions, a.isOfClass = false := by
  have hroutine : ∀ (r : Routine), ∀ a ∈ r.heading ++ r.body.actions, a.isOfClass = false := by
    intro r a ha
    rcases Routine.mem_actions ha with ha | hdeclares | hcode
    · simp only [List.mem_cons, List.not_mem_nil, or_false] at ha
      rcases ha with rfl | rfl | rfl <;> rfl
    · exact Action.isOfClass_of_isDeclaration hdeclares
    · exact Action.isOfClass_of_isCode hcode
  cases core with
  | declaration d =>
    exact fun a ha => Action.isOfClass_of_isDeclaration (d.isDeclaration_actions a ha)
  | constructor r named =>
    simp only [actions, List.cons_append, List.forall_mem_cons, List.forall_mem_append]
    exact ⟨rfl, List.forall_mem_append.mp (hroutine r), by decide⟩
  | method type r =>
    simp only [actions, List.cons_append, List.forall_mem_cons, List.forall_mem_append]
    exact ⟨rfl, List.forall_mem_append.mp (hroutine r), by decide⟩

/-- A class is begun by its first action and ended by its last one. -/
theorem ClassDecl.exists_actions_eq (c : ClassDecl) :
    ∃ inside, c.actions = .openClass c.name.1.line c.name.1.lexeme :: (inside ++ [.closeClass]) ∧
      ∀ a ∈ inside, a.isOfClass = false := by
  refine ⟨(c.base.toList.map fun base => .derive c.name.1.lexeme base.2.text) ++ [.openClassBody] ++
    (c.members.flatMap fun m => m.core.actions), by simp [actions, heading], ?_⟩
  intro a ha
  simp only [List.mem_append, List.mem_map, List.mem_singleton, List.mem_flatMap] at ha
  rcases ha with (⟨base, -, rfl⟩ | rfl) | ⟨m, -, ha⟩
  · rfl
  · rfl
  · exact m.core.isOfClass_actions a ha

/-- What comes in a class before an action that neither begins nor ends it. -/
theorem ClassDecl.exists_before {c : ClassDecl} {before later : List Action} {a : Action}
    (h : c.actions = before ++ a :: later) (ha : a.isOfClass = false) :
    ∃ mid, before = .openClass c.name.1.line c.name.1.lexeme :: mid ∧
      ∀ b ∈ mid, b.isOfClass = false := by
  obtain ⟨inside, hinside, hall⟩ := c.exists_actions_eq
  rw [hinside] at h
  cases before with
  | nil =>
    cases h
    cases ha
  | cons b mid =>
    obtain ⟨rfl, htail⟩ := List.cons.inj h
    refine ⟨mid, rfl, ?_⟩
    rcases List.append_eq_append_iff.mp htail with ⟨more, rfl, hmore⟩ | ⟨more, rfl, -⟩
    · cases more with
      | nil =>
        cases hmore
        cases ha
      | cons b more => simp at hmore
    · exact fun b hb => hall b (List.mem_append_left _ hb)

theorem Call.target_of_member {k : Call} (h : k.member = none) :
    k.target = (none, k.name.1.lexeme) := by
  rw [Call.target, h]

theorem ClassDecl.exists_before_call {c : ClassDecl} {k : Call} {before later : List Action}
    (h : c.actions = before ++ k.actions ++ later) :
    ∃ mid, before = .openClass c.name.1.line c.name.1.lexeme :: mid ∧
      ∀ b ∈ mid, b.isOfClass = false := by
  obtain ⟨a, more, hk⟩ := List.exists_cons_of_ne_nil (show k.actions ≠ [] by simp [Call.actions])
  have hcode : a.isCode = true := k.isCode_actions a (by simp [hk])
  rw [List.append_assoc, hk, List.cons_append] at h
  exact exists_before h (Action.isOfClass_of_isCode hcode)

def ClassDecl.calls (c : ClassDecl) : List Call :=
  c.routines.flatMap fun r => r.body.steps.flatMap Statement.calls

theorem ClassDecl.infix_call {c : ClassDecl} {k : Call} (h : k ∈ c.calls) :
    k.actions <:+: c.actions := by
  obtain ⟨r, hr, h⟩ := List.mem_flatMap.mp h
  exact (Routine.infix_call h).trans (ClassDecl.infix_actions hr)

theorem ClassDecl.declared_roster (c : ClassDecl) : (roster c.actions).declared = c.declared := by
  rw [roster, c.foldl_after]
  rfl

end Syntax

/-- Where calls by the name of a method alone go. A method that the class of the caller has declared
by then is called, whatever else has its name. Otherwise the call goes to the class of the caller
just if the name does not stand for a method of another class; if it does, that method was declared
in an earlier class, and it is called. -/
theorem own_method_called_iff {source : String} {c : Compilation} (hc : compile source = .ok c) :
    (∃ p, IsTree source p) ∧ ∀ p, IsTree source p →
      (∀ cd ∈ p.block.classes, cd.actions <:+: p.actions ∧
        ∀ k ∈ cd.calls, k.actions <:+: cd.actions) ∧
      ∀ (cd : ClassDecl) (k : Call) (first inside rest last : List Action),
        p.actions = first ++ cd.actions ++ last → cd.actions = inside ++ k.actions ++ rest →
        k.member = none →
        (roster inside).declared <+: cd.declared ∧ ∃ args target u,
          Passed c (first ++ inside) k args target ∧
          State.initial.run (first ++ inside ++ k.argumentList.flatMap Expr.actions) = (u, none) ∧
          Directed u.symbols cd.name.1.lexeme k.name.1.lexeme (roster inside).declared
            (roster first).declared target := by
  refine ⟨exists_tree (completes_of_readsThrough (.inl ⟨c, hc⟩)), fun p hp =>
    ⟨fun cd hcd => ⟨Program.infix_class hcd, fun k hk => ClassDecl.infix_call hk⟩,
      fun cd k first inside rest last hcd hk hmember => ⟨?_, ?_⟩⟩⟩
  · rw [← cd.declared_roster, hk, List.append_assoc, roster_append]
    exact Roster.prefix_foldl _ _
  · have hsplit : p.actions = first ++ inside ++ k.actions ++ (rest ++ last) := by
      rw [hcd, hk]
      simp
    obtain ⟨args, target, hpassed⟩ := exists_passed hc hp hsplit
    obtain ⟨u, -, hu, htarget, -⟩ := id hpassed.call
    refine ⟨args, target, u, hpassed, hu, ?_⟩
    obtain ⟨tokens, htokens, htree⟩ := hp
    obtain ⟨-, -, hlegal⟩ := legal_actions htokens htree
    obtain ⟨mid, rfl, hmid⟩ := ClassDecl.exists_before_call hk
    have harguments : ∀ a ∈ k.argumentList.flatMap Expr.actions, a.isCode = true := by
      intro a ha
      exact k.isCode_actions a (List.mem_append_left _ ha)
    have hcalled : p.actions = first ++ .openClass cd.name.1.line cd.name.1.lexeme ::
        (mid ++ k.argumentList.flatMap Expr.actions) ++
          (.call k.target.1 k.target.2 k.argumentList.length :: (rest ++ last)) := by
      rw [hsplit, Call.actions]
      simp
    rw [hcalled] at hlegal
    obtain ⟨φ, hcall, -⟩ := hlegal.split
    rw [List.append_assoc, List.cons_append] at hu
    rw [Call.target_of_member hmember] at htarget
    have hdirected := directed_of_run hcall (List.forall_mem_append.mpr ⟨hmid,
      fun a ha => Action.isOfClass_of_isCode (harguments a ha)⟩) hu htarget
    have hnone : (k.argumentList.flatMap Expr.actions).filterMap
        (Action.declared? cd.name.1.lexeme) = [] :=
      List.filterMap_eq_nil_iff.mpr fun a ha => Action.declared?_of_isCode (harguments a ha)
    rw [List.filterMap_append, hnone, List.append_nil] at hdirected
    rw [roster, List.foldl_cons, Roster.foldl_inside hmid]
    exact hdirected

/-! ## Two classes with a method of one name -/

namespace Sample

def emptyOf (name : String) : Routine := { emptyMain with name := tok .identifier name }

/-- A call of a method that takes nothing. -/
def callOf (name : String) : Call :=
  ⟨tok .identifier name, none, tok .leftParen "(", none, tok .rightParen ")"⟩

/-- The method that calls the one of the given name. -/
def callerOf (name : String) : Routine :=
  { emptyMain with body := ⟨[], [(.call (callOf name), tok .semicolon ";")], none⟩ }

/-- The class calls a method, and then has the others. -/
def callerClass (name : String) (others : List String) : ClassDecl :=
  { classOf "B" (.method voidName emptyMain) with
    members := ⟨[], .method voidName (callerOf name)⟩ ::
      others.map fun other => ⟨[], .method voidName (emptyOf other)⟩ }

def calledClass (name : String) : ClassDecl := classOf "A" (.method voidName (emptyOf name))

def classesOf (name : String) (others : List String) : Program where
  usings := []
  block := .bare [calledClass name, callerClass name others]
  ending := tok .eof ""

/-- What the class of the caller calls for up to the call. -/
def beforeCall : List Action :=
  [.openClass 1 "B", .openClassBody, .openMethod 1 "Main" .void, .openParams, .closeParams,
    .openBody]

theorem exists_compile_classes {source name : String} {others : List String}
    (htree : IsTree source (classesOf name others))
    (hend : ((State.initial.run (classesOf name others).actions).2,
      (State.initial.run (classesOf name others).actions).1.entry) = (none, some "B.Main")) :
    ∃ c, compile source = .ok c := by
  obtain ⟨hrun, hentry⟩ := Prod.mk.inj hend
  obtain ⟨c, hc, -⟩ := htree.exists_compile (State.run_eq_of_none hrun) hentry
  exact ⟨c, hc⟩

/-- Both classes have the method that is called, which is the caller. -/
def selfCalling : String :=
  "class A\x7bvoid Main()\x7b\x7d\x7dclass B\x7bvoid Main()\x7bMain();\x7d\x7d"

/-- Both classes have the method that is called, the second one behind the call. -/
def ownLast : String :=
  "class A\x7bvoid f()\x7b\x7d\x7dclass B\x7bvoid Main()\x7bf();\x7dvoid f()\x7b\x7d\x7d"

end Sample

open Sample in
theorem own_method_called_iff_selfCalling :
    ∃ c u, compile selfCalling = .ok c ∧ IsTree selfCalling (classesOf "Main" []) ∧
      callOf "Main" ∈ (callerClass "Main" []).calls ∧
      (roster beforeCall).declared = [⟨"B", "Main", false⟩] ∧
      (roster (calledClass "Main").actions).declared = [⟨"A", "Main", false⟩] ∧
      Passed c ((calledClass "Main").actions ++ beforeCall) (callOf "Main") [] "B.Main" ∧
      State.initial.run ((calledClass "Main").actions ++ beforeCall) = (u, none) ∧
      ¬ u.symbols.FindsElsewhere "B" "Main" := by
  have htree : IsTree selfCalling (classesOf "Main" []) :=
    ⟨(classesOf "Main" []).tokens, by decide +kernel, by decide +kernel⟩
  obtain ⟨c, hc⟩ := exists_compile_classes htree (by decide +kernel)
  obtain ⟨-, htrees⟩ := own_method_called_iff hc
  obtain ⟨-, hcalls⟩ := htrees _ htree
  obtain ⟨-, args, target, u, hpassed, hu, hdirected⟩ := hcalls (callerClass "Main" [])
    (callOf "Main") (calledClass "Main").actions beforeCall [.closeMethod, .closeClass] [] rfl rfl
    rfl
  have hargs : args = [] := hpassed.args_eq rfl fun i hi => absurd hi (Nat.not_lt_zero i)
  have htarget : target = "B.Main" := hdirected.own ⟨⟨"B", "Main", false⟩, List.mem_cons_self, rfl⟩
  subst hargs htarget
  exact ⟨c, u, hc, htree, List.mem_cons_self, rfl, rfl, hpassed, hu, hdirected.iff.mp rfl⟩

open Sample in
/-- A class has the method that one of its methods calls, and the method of another class is
called. -/
theorem earlier_method_called :
    ∃ c, compile ownLast = .ok c ∧ IsTree ownLast (classesOf "f" ["f"]) ∧
      callOf "f" ∈ (callerClass "f" ["f"]).calls ∧
      (callerClass "f" ["f"]).declared = [⟨"B", "Main", false⟩, ⟨"B", "f", false⟩] ∧
      Passed c ((calledClass "f").actions ++ beforeCall) (callOf "f") [] "A.f" ∧
      Instr.call "A.f" ∈ c.code := by
  have htree : IsTree ownLast (classesOf "f" ["f"]) :=
    ⟨(classesOf "f" ["f"]).tokens, by decide +kernel, by decide +kernel⟩
  obtain ⟨c, hc⟩ := exists_compile_classes htree (by decide +kernel)
  have hsplit : (classesOf "f" ["f"]).actions =
      (calledClass "f").actions ++ beforeCall ++ (callOf "f").actions ++
        [.closeMethod, .openMethod 1 "f" .void, .openParams, .closeParams, .openBody, .closeMethod,
          .closeClass] := rfl
  obtain ⟨args, target, hpassed⟩ := exists_passed hc htree hsplit
  have hargs : args = [] := hpassed.args_eq rfl fun i hi => absurd hi (Nat.not_lt_zero i)
  have htarget : target = "A.f" := hpassed.target_eq (by decide +kernel)
  subst hargs htarget
  refine ⟨c, hc, htree, List.mem_cons_self, rfl, hpassed, ?_⟩
  obtain ⟨u, later, -, -, hcode⟩ := hpassed.call
  rw [hcode]
  simp

end Triad
