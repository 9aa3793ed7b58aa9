import Triad.Proofs.Insertions

/-!
Scopes that are opened and closed. While the scope of a class or a method is open, its lines are
those of what it declares, whatever is closed inside (`IsOpen.lines_apply`). Its end writes these
lines into its record (`IsOpen.settled`). Later ends write into their own records, and tell the
record inserted last that it owns nothing, so a summary that is written stays (`Settled.run`).
-/

namespace Triad

/-! ## Leaving a scope -/

namespace State

variable {s t : State} {id : SymbolId} {r : Symbol}

theorem children_summarize (s : State) (i : Option SymbolId) (id : SymbolId) :
    ((s.summarize i).symbols.get? id).map Symbol.children =
      (s.symbols.get? id).map fun r => if i = some id then s.symbols.renderChildren id
        else r.children := by
  cases i with
  | none => simp [summarize]
  | some i =>
    change ((s.symbols.modify i _).get? id).map Symbol.children = _
    rw [SymbolTable.get?_modify]
    by_cases h : id = i
    · subst h
      rw [if_pos rfl, Option.map_map]
      simp [Function.comp_def]
    · have hne : i ≠ id := fun heq => h heq.symm
      rw [if_neg h]
      simp [hne]

/-- A summary is no part of a line. -/
theorem renderChildren_summarize (s : State) (i : Option SymbolId) (k : SymbolId) :
    (s.summarize i).symbols.renderChildren k = s.symbols.renderChildren k := by
  rw [SymbolTable.renderChildren_eq, SymbolTable.renderChildren_eq,
    (within_summarize s i).symbols.linesOf (nextId_summarize s i)]

/-- The owner of the open scope and the record inserted last are told what they own. -/
theorem children_told (hr : s.symbols.get? id = some r) :
    (s.told.get? id).map Symbol.children =
      some (if s.parent = some id ∨ s.current = some id then s.symbols.renderChildren id
        else r.children) := by
  have hfirst := s.children_summarize s.parent id
  rw [hr, Option.map_some] at hfirst
  obtain ⟨q, hq, hchildren⟩ := Option.map_eq_some_iff.mp hfirst
  rw [told, children_summarize, hq, renderChildren_summarize, Option.map_some, hchildren]
  by_cases hparent : s.parent = some id <;> by_cases hcurrent : s.current = some id <;>
    simp [hparent, hcurrent]

end State

/-- What is outside methods stays when a scope is left, and has the summary that it is told. -/
theorem Fits.get?_leaveScope {φ : Phase} {s : State} (h : Fits φ s)
    (hφ : φ = .classBody ∨ φ = .body) {id : SymbolId} {r : Symbol}
    (hr : s.symbols.get? id = some r) (hdepth : r.depth ≤ 1) :
    ∃ r', s.leaveScope.symbols.get? id = some r' ∧ r'.outline = r.outline ∧
      r'.children = if s.parent = some id ∨ s.current = some id then s.symbols.renderChildren id
        else r.children := by
  obtain ⟨r', hr', hout⟩ := s.evolves_told.get? hr
  have hleft : s.leaveScope.symbols = s.told.deleteDepth s.depth :=
    congrArg State.Spine.symbols s.spine_leaveScope
  have htold := State.children_told hr
  rw [hr'] at htold
  refine ⟨r', ?_, hout, Option.some.inj htold⟩
  rw [hleft]
  exact (h.get?_left hφ id r').mpr ⟨hr', Symbol.depth_of_outline hout ▸ hdepth⟩

/-! ## Closed scopes -/

/-- Whether a scope belongs to what is declared. -/
def Entity.isScope (e : Entity) : Bool := e.isClass || e.isMethod

theorem Entity.isInner_of_isScope {e : Entity} (h : e.isScope = true) : e.isInner = false := by
  rcases Bool.or_eq_true_iff.mp h with h | h
  · exact isInner_of_isClass h
  · exact isInner_of_isMethod h

theorem Symbol.isScope_of_outline {r q : Symbol} (h : q.outline = r.outline) :
    q.entity.isScope = r.entity.isScope := by
  rw [Entity.isScope, Entity.isScope, isClass_of_outline h, isMethod_of_outline h]

/-- The class or method of the number is closed, and its summary has the lines. The members of a
class are all there. -/
structure Settled (id : SymbolId) (q : Symbol) (lines : List String) (φ : Phase) (s : State) :
    Prop where
  stands : Stands φ s
  barren : s.Barren
  isScope : q.entity.isScope = true
  record : ∃ r, s.symbols.get? id = some r ∧ r.outline = q.outline ∧ r.children = listing lines
  owned : q.entity.isClass = true → s.symbols.linesOf id = lines
  notClass : s.currentClass ≠ some id
  notMethod : s.currentMethod ≠ some id
  current : s.current = some id → lines = []

section Settled

variable {φ ψ : Phase} {s t : State} {a : Action} {p : State.Spine} {id : SymbolId} {q r : Symbol}
  {lines : List String}

/-- The mark of the open class moves to a new record, or goes. -/
theorem currentClass_cases (hmove : Move s φ a ψ p) :
    p.currentClass = s.currentClass ∨ p.currentClass = some s.symbols.nextId ∨
      p.currentClass = none := by
  have hleft : ∀ symbols, (s.left symbols).currentClass = s.currentClass ∨
      (s.left symbols).currentClass = some s.symbols.nextId ∨
      (s.left symbols).currentClass = none := by
    intro symbols
    unfold State.left
    dsimp only
    split
    · exact .inr (.inr rfl)
    · exact .inl rfl
  cases hmove with
  | @declared _ line name entity _ plain =>
    have hentity : entity.isClass = false := by cases entity <;> first | rfl | cases plain
    refine .inl ?_
    rw [State.spine_enroll, hentity]
    rfl
  | coded _ within => exact .inl within.currentClass
  | spaceOpened => exact .inl (by rw [State.spine_enroll]; rfl)
  | classOpened => exact .inr (.inl (by rw [State.spine_enroll]; rfl))
  | methodOpened => exact .inl (by rw [State.spine_enroll]; rfl)
  | @methodClosed symbols => exact hleft symbols
  | @classClosed symbols => exact hleft symbols
  | _ => exact .inl rfl

/-- A mark that is not on an old record does not come to it. -/
theorem mark_ne {mark mark' : Option SymbolId} {next : SymbolId} (h : mark ≠ some id)
    (hlt : id < next) (hcases : mark' = mark ∨ mark' = some next ∨ mark' = none) :
    mark' ≠ some id := by
  rcases hcases with rfl | rfl | rfl
  · exact h
  · exact fun heq => Nat.ne_of_gt hlt (Option.some.inj heq)
  · exact (Option.some_ne_none id).symm

/-- The open scope is that of the open class or of the open method. -/
theorem Stands.parent_ne_of_unmarked (hs : Stands φ s) (hr : s.symbols.get? id = some r)
    (hscope : r.entity.isScope = true) (hclass : s.currentClass ≠ some id)
    (hmethod : s.currentMethod ≠ some id) : s.parent ≠ some id := by
  rcases Bool.or_eq_true_iff.mp hscope with hisClass | hisMethod
  · intro hparent
    have hmembers : φ.atMembers = true := by
      rcases hs.eq_of_parent hparent hr hisClass with rfl | rfl <;> rfl
    exact hclass ((hs.placed.classParent hmembers).symm.trans hparent)
  · exact hs.parent_ne hr hisMethod hmethod

theorem Stands.depth_of_isScope (hs : Stands φ s) (hr : s.symbols.get? id = some r)
    (hscope : r.entity.isScope = true) : r.depth ≤ 1 :=
  (hs.placed.records id r hr).depth_le_of_outer (Entity.isInner_of_isScope hscope)

theorem Settled.isScope_record (h : Settled id q lines φ s) (hr : s.symbols.get? id = some r) :
    r.entity.isScope = true := by
  obtain ⟨r', hr', hout, -⟩ := h.record
  cases hr.symm.trans hr'
  exact (Symbol.isScope_of_outline hout).trans h.isScope

theorem Settled.parent_ne (h : Settled id q lines φ s) : s.parent ≠ some id := by
  obtain ⟨r, hr, -⟩ := h.record
  exact h.stands.parent_ne_of_unmarked hr (h.isScope_record hr) h.notClass h.notMethod

/-- A scope that is closed later writes nothing else into the record. -/
theorem Settled.record_apply (h : Settled id q lines φ s) (hnext : φ.next? a = some ψ)
    (happly : a.apply s = .ok t) :
    ∃ r, t.symbols.get? id = some r ∧ r.outline = q.outline ∧ r.children = listing lines := by
  obtain ⟨r, hr, hq, hchildren⟩ := h.record
  have hdepth := h.stands.depth_of_isScope hr (h.isScope_record hr)
  cases ha : a.isClosing with
  | true =>
    obtain ⟨hφ, hsymbols, -⟩ := closed_of_apply hnext ha happly
    obtain ⟨r', hr', hout, htold⟩ := h.stands.fits.get?_leaveScope hφ hr hdepth
    refine ⟨r', hsymbols ▸ hr', hout.trans hq, htold.trans ?_⟩
    by_cases hcurrent : s.current = some id
    · -- The record inserted last is told again that it owns nothing.
      rw [if_pos (.inr hcurrent), SymbolTable.renderChildren_eq, h.barren id hcurrent,
        h.current hcurrent]
    · rw [if_neg (by simp [h.parent_ne, hcurrent]), hchildren]
  | false =>
    have hmove := move_of_apply h.stands.fits hnext happly
    obtain ⟨r', hr', hout, -⟩ := record_move h.stands.placed hmove hr hdepth
    have hkept := (records_of_apply ha happly).children id (SymbolTable.get?_lt hr)
    have hlive : t.symbols.get? id = some r' := hr'
    rw [hlive, hr] at hkept
    exact ⟨r', hr', hout.trans hq, (Option.some.inj hkept).trans hchildren⟩

/-- A class keeps its members behind the end of a scope. -/
theorem Stands.linesOf_leaveScope (hs : Stands φ s) (hφ : φ = .classBody ∨ φ = .body)
    (hr : s.symbols.get? id = some r) (hclass : r.entity.isClass = true) :
    s.leaveScope.symbols.linesOf id = s.symbols.linesOf id := by
  obtain ⟨symbols, hsheds, hspine⟩ := hs.fits.spine_leaveScope hφ
  rw [show s.leaveScope.symbols = symbols from congrArg State.Spine.symbols hspine]
  refine hsheds.linesOf fun i o ho hdepth howner => ?_
  have hone := (hs.names.depth_of_class hs.fits hs.placed hr hclass ho howner).1
  omega

theorem Settled.owned_apply (h : Settled id q lines φ s) (hnext : φ.next? a = some ψ)
    (happly : a.apply s = .ok t) (hclass : q.entity.isClass = true) :
    t.symbols.linesOf id = lines := by
  obtain ⟨r, hr, hq, -⟩ := h.record
  rw [← h.owned hclass]
  cases ha : a.isClosing with
  | true =>
    obtain ⟨hφ, hsymbols, -⟩ := closed_of_apply hnext ha happly
    rw [hsymbols, h.stands.linesOf_leaveScope hφ hr ((Symbol.isClass_of_outline hq).trans hclass)]
  | false =>
    rw [(records_of_apply ha happly).lines id, if_neg h.parent_ne, List.append_nil]

theorem Settled.apply (h : Settled id q lines φ s) (hnext : φ.next? a = some ψ)
    (happly : a.apply s = .ok t) : Settled id q lines ψ t := by
  obtain ⟨r, hr, -⟩ := h.record
  have hlt := SymbolTable.get?_lt hr
  have hmove := move_of_apply h.stands.fits hnext happly
  refine ⟨stands_apply h.stands hnext happly, barren_apply h.stands hnext happly h.barren,
    h.isScope, h.record_apply hnext happly, h.owned_apply hnext happly,
    mark_ne h.notClass hlt (currentClass_cases hmove),
    mark_ne h.notMethod hlt (currentMethod_move hmove), fun hcurrent => h.current ?_⟩
  cases ha : a.isClosing with
  | true => exact (closed_of_apply hnext ha happly).2.2.symm.trans hcurrent
  | false =>
    have hmark := (records_of_apply ha happly).current
    rw [hcurrent] at hmark
    split at hmark
    · exact absurd (Option.some.inj hmark) (Nat.ne_of_lt hlt)
    · exact hmark.symm

/-- Once a class or a method is closed, its summary stays as it is. -/
theorem Settled.run {actions : List Action} (hlegal : Phase.Legal φ actions ψ)
    (h : Settled id q lines φ s) (hrun : s.run actions = (t, none)) : Settled id q lines ψ t :=
  hlegal.state_induction (P := fun _ => True) (I := fun _ => Settled id q lines)
    (fun _ _ h => { h with stands := h.stands.begin })
    (fun _ _ _ _ _ _ _ _ h hnext happly => h.apply hnext happly)
    (fun _ _ => trivial) [] h.stands.fits h hrun

end Settled

/-! ## Open scopes -/

namespace OpenScope

/-- What ends the scope. -/
def closing : OpenScope → Action
  | members => .closeClass
  | _ => .closeMethod

/-- The phases from the heading of the scope to its end. -/
def holds : OpenScope → Phase → Bool
  | outside, _ => false
  | members, φ => φ.inClass
  | method, φ => φ.inMethod

/-- The mark of the class or method whose scope it is. -/
def mark (s : State) : OpenScope → Option SymbolId
  | members => s.currentClass
  | _ => s.currentMethod

end OpenScope

/-- The scope of the number is open, though maybe not the innermost one. -/
structure IsOpen (scope : OpenScope) (id : SymbolId) (φ : Phase) (s : State) : Prop where
  holds : scope.holds φ = true
  mark : scope.mark s = some id

namespace IsOpen

variable {scope : OpenScope} {id : SymbolId} {φ ψ : Phase} {s t : State} {a : Action}

/-- The record of an open scope. -/
theorem record (h : IsOpen scope id φ s) (hs : Stands φ s) :
    ∃ r, s.symbols.get? id = some r ∧ r.entity.isScope = true ∧
      (scope = .members → r.entity.isClass = true) ∧
      (scope = .method → r.entity.isMethod = true) := by
  cases scope with
  | outside => cases h.holds
  | members =>
    obtain ⟨k, r, hk, hr, hclass, -⟩ := hs.placed.openClass h.holds
    cases hk.symm.trans h.mark
    exact ⟨r, hr, Bool.or_eq_true_iff.mpr (.inl hclass), fun _ => hclass,
      fun heq => (by cases heq)⟩
  | method =>
    obtain ⟨k, r, hk, hr, hmethod, -⟩ := hs.placed.openMethod h.holds
    cases hk.symm.trans h.mark
    exact ⟨r, hr, Bool.or_eq_true_iff.mpr (.inr hmethod), fun heq => (by cases heq),
      fun _ => hmethod⟩

/-- Declarations go to the open scope in its own phases. -/
theorem parent_iff (h : IsOpen scope id φ s) (hs : Stands φ s) :
    s.parent = some id ↔ φ.openScope = scope := by
  obtain ⟨r, hr, -, hclass, hmethod⟩ := h.record hs
  cases scope with
  | outside => cases h.holds
  | members =>
    constructor
    · intro hparent
      rcases hs.eq_of_parent hparent hr (hclass rfl) with rfl | rfl <;> rfl
    · intro hscope
      have hmembers : φ.atMembers = true := by cases φ <;> first | rfl | cases hscope
      exact (hs.placed.classParent hmembers).trans h.mark
  | method =>
    have hholds : φ.inMethod = true := h.holds
    have hdepth : φ.openScope = .method ↔ φ.depth = 2 := by
      cases φ <;> simp [Phase.openScope, Phase.depth]
    have hcases : φ = .methodHead ∨ φ.depth = 2 := by
      cases φ <;> first | exact .inl rfl | exact .inr rfl | cases hholds
    rw [hdepth]
    refine ⟨fun hparent => ?_, fun hφ => (hs.placed.methodParent hφ).trans h.mark⟩
    rcases hcases with rfl | hφ
    · -- Between its heading and its parameters, the scope of a method is not entered yet.
      obtain ⟨k, q, hk, hq, hisClass, -⟩ := hs.placed.openClass rfl
      have hclassParent : s.parent = s.currentClass := hs.placed.classParent rfl
      cases hk.symm.trans (hclassParent.symm.trans hparent)
      cases hr.symm.trans hq
      exact absurd (hmethod rfl) (by simp [Entity.isMethod_of_isClass hisClass])
    · exact hφ

theorem apply (h : IsOpen scope id φ s) (hs : Stands φ s) (ha : a ≠ scope.closing)
    (hnext : φ.next? a = some ψ) (happly : a.apply s = .ok t) : IsOpen scope id ψ t := by
  have hmove := move_of_apply hs.fits hnext happly
  cases scope with
  | outside => cases h.holds
  | members =>
    obtain ⟨hψ, hsame⟩ := currentClass_move hs.placed hmove h.holds ha
    exact ⟨hψ, Eq.trans hsame h.mark⟩
  | method =>
    obtain ⟨hψ, hsame⟩ := sameMethod_move hmove h.holds ha
    exact ⟨hψ, Eq.trans hsame.method h.mark⟩

/-- An end inside the open scope is the end of a method in a class. -/
theorem members_of_closing (h : IsOpen scope id φ s) (ha : a ≠ scope.closing)
    (hclosing : a.isClosing = true) (hφ : φ = .classBody ∨ φ = .body)
    (hnext : φ.next? a = some ψ) : scope = .members := by
  cases scope with
  | outside => cases h.holds
  | members => rfl
  | method =>
    rcases hφ with rfl | rfl
    · cases h.holds
    · cases a with
      | closeMethod => exact absurd rfl ha
      | closeClass => cases hnext
      | _ => cases hclosing

/-- One line more for what the scope declares, whatever is closed inside. -/
theorem lines_apply (h : IsOpen scope id φ s) (hs : Stands φ s) (ha : a ≠ scope.closing)
    (hnext : φ.next? a = some ψ) (happly : a.apply s = .ok t) :
    t.symbols.linesOf id = s.symbols.linesOf id ++
      if φ.openScope = scope then (a.inserted? s).toList.map childLine else [] := by
  cases hclosing : a.isClosing with
  | false =>
    rw [(records_of_apply hclosing happly).lines id]
    simp only [h.parent_iff hs]
  | true =>
    have hentry : a.inserted? s = none := by cases a <;> first | rfl | cases hclosing
    obtain ⟨hφ, hsymbols, -⟩ := closed_of_apply hnext hclosing happly
    cases h.members_of_closing ha hclosing hφ hnext
    obtain ⟨r, hr, -, hclass, -⟩ := h.record hs
    rw [hsymbols, hs.linesOf_leaveScope hφ hr (hclass rfl), hentry]
    simp

/-- Behind its end, no mark is on the scope. -/
theorem unmarked (h : IsOpen scope id φ s) (hs : Stands φ s) (hparent : s.parent = some id)
    (hnext : φ.next? scope.closing = some ψ) (happly : scope.closing.apply s = .ok t) :
    t.currentClass ≠ some id ∧ t.currentMethod ≠ some id := by
  obtain ⟨r, hr, -, -, hmethod⟩ := h.record hs
  have hmove := move_of_apply hs.fits hnext happly
  generalize hp : t.spine = p at hmove
  have hclassMark : t.currentClass = p.currentClass := congrArg State.Spine.currentClass hp
  have hmethodMark : t.currentMethod = p.currentMethod := congrArg State.Spine.currentMethod hp
  rw [hclassMark, hmethodMark]
  cases scope with
  | outside => cases h.holds
  | members =>
    have hmark : s.currentClass = some id := h.mark
    cases hmove with
    | classClosed => simp [State.left, hparent, hmark]
    | still _ _ aside => cases aside
    | coded _ _ kind => rcases kind with hcode | heq <;> contradiction
    | methodOpened opens => cases opens
  | method =>
    cases hmove with
    | methodClosed =>
      obtain ⟨k, c, hk, hc, hisClass, -⟩ := hs.placed.openClass rfl
      have hk : s.currentClass = some k := hk
      have hne : k ≠ id := by
        rintro rfl
        cases hr.symm.trans hc
        exact absurd (hmethod rfl) (by simp [Entity.isMethod_of_isClass hisClass])
      simp [State.left, hparent, hk, hne]
    | still _ _ aside => cases aside
    | coded _ _ kind => rcases kind with hcode | heq <;> contradiction
    | methodOpened opens => cases opens

/-- The end of the scope writes the lines into its record. -/
theorem settled {q : Symbol} (h : IsOpen scope id φ s) (hs : Stands φ s) (hbarren : s.Barren)
    (hq : ∀ r, s.symbols.get? id = some r → r.outline = q.outline)
    (hnext : φ.next? scope.closing = some ψ) (happly : scope.closing.apply s = .ok t) :
    Settled id q (s.symbols.linesOf id) ψ t := by
  obtain ⟨r, hr, hscope, hclass, hmethod⟩ := h.record hs
  have hout := hq r hr
  have hclosing : scope.closing.isClosing = true := by cases scope <;> rfl
  obtain ⟨hφ, hsymbols, hcurrent⟩ := closed_of_apply hnext hclosing happly
  have hparent : s.parent = some id := by
    refine (h.parent_iff hs).mpr ?_
    cases scope with
    | outside => cases h.holds
    | members => cases φ <;> first | rfl | cases hnext
    | method => cases φ <;> first | rfl | cases hnext
  obtain ⟨r', hr', hout', htold⟩ :=
    hs.fits.get?_leaveScope hφ hr (hs.depth_of_isScope hr hscope)
  have hlive : t.symbols.get? id = some r' := hsymbols ▸ hr'
  have hstands := stands_apply hs hnext happly
  obtain ⟨hnotClass, hnotMethod⟩ := unmarked h hs hparent hnext happly
  exact {
    stands := hstands
    barren := barren_apply hs hnext happly hbarren
    isScope := (Symbol.isScope_of_outline hout).symm.trans hscope
    record := by
      refine ⟨r', hlive, hout'.trans hout, htold.trans ?_⟩
      rw [if_pos (.inl hparent), SymbolTable.renderChildren_eq]
    owned := by
      intro hisClass
      rw [hsymbols, hs.linesOf_leaveScope hφ hr ((Symbol.isClass_of_outline hout).trans hisClass)]
    notClass := hnotClass
    notMethod := hnotMethod
    current := fun hmark => hbarren id (hcurrent.symm.trans hmark) }

end IsOpen

/-- The scope that an action begins. -/
def Action.opened? : Action → Option OpenScope
  | openClass _ _ => some .members
  | openMethod _ _ _ | openConstructor _ _ => some .method
  | _ => none

section Opened

variable {scope : OpenScope} {φ ψ : Phase} {s t : State} {a : Action}

/-- A new scope has the next number and the declared name, and nothing in it. -/
theorem isOpen_of_opened (hs : Stands φ s) (hopens : a.opened? = some scope)
    (hnext : φ.next? a = some ψ) (happly : a.apply s = .ok t) :
    IsOpen scope s.symbols.nextId ψ t ∧ t.symbols.linesOf s.symbols.nextId = [] ∧
      ∃ r, t.symbols.get? s.symbols.nextId = some r ∧
        a.declaration?.map Prod.snd = some r.name := by
  have hclosing : a.isClosing = false := by cases a <;> first | rfl | cases hopens
  have hheading : a.isHeading = true := by cases a <;> first | rfl | cases hopens
  have hlines : t.symbols.linesOf s.symbols.nextId = [] := by
    rw [(records_of_apply hclosing happly).lines, hs.linesOf_nextId, if_neg hs.parent_ne_nextId]
    rfl
  have hmove := move_of_apply hs.fits hnext happly
  generalize hp : t.spine = p at hmove
  have hsymbols : t.symbols = p.symbols := congrArg State.Spine.symbols hp
  have hclassMark : t.currentClass = p.currentClass := congrArg State.Spine.currentClass hp
  have hmethodMark : t.currentMethod = p.currentMethod := congrArg State.Spine.currentMethod hp
  cases hmove with
  | @classOpened line name =>
    cases hopens
    obtain ⟨r, hr, hout⟩ := (State.grows_enroll { s with depth := s.depth + 1 } name .newClass).new
    exact ⟨⟨rfl, hclassMark.trans (by rw [State.spine_enroll]; rfl)⟩, hlines, r, hsymbols ▸ hr,
      congrArg some (Symbol.name_of_outline hout).symm⟩
  | @methodOpened _ name procedure isConstructor returns opens =>
    have hdeclared : scope = .method ∧ a.declaration?.map Prod.snd = some name := by
      cases a <;> cases opens <;> cases hopens <;> exact ⟨rfl, rfl⟩
    obtain ⟨rfl, hname⟩ := hdeclared
    obtain ⟨r, hr, hout⟩ := (s.grows_enroll name (.newMethod returns)).new
    exact ⟨⟨rfl, hmethodMark.trans (by rw [State.spine_enroll]; rfl)⟩, hlines, r, hsymbols ▸ hr,
      hname.trans (congrArg some (Symbol.name_of_outline hout).symm)⟩
  | still _ plain | coded plain => cases hheading.symm.trans plain
  | _ => cases hopens

/-- A class or a method of the table was there before, or is the one that was opened. -/
theorem opened_of_move {p : State.Spine} (hmove : Move s φ a ψ p) {id : SymbolId} {r : Symbol}
    (hr : p.symbols.get? id = some r) (hscope : r.entity.isScope = true) :
    (∃ q, s.symbols.get? id = some q ∧ q.entity.isScope = true) ∨
      a.opened?.isSome = true ∧ id = s.symbols.nextId := by
  have hold : ∀ q, s.symbols.get? id = some q → q.outline = r.outline →
      ∃ q, s.symbols.get? id = some q ∧ q.entity.isScope = true :=
    fun q hq hout => ⟨q, hq, (Symbol.isScope_of_outline hout).trans hscope⟩
  have hinner : ¬ r.entity.isInner = true := by simp [Entity.isInner_of_isScope hscope]
  cases hmove with
  | @declared _ line name entity _ plain =>
    rcases State.get?_enroll_cases hr with ⟨-, hout⟩ | ⟨q, hq, hout⟩
    · refine absurd ?_ hinner
      rw [Symbol.isInner_of_outline hout]
      cases entity <;> first | rfl | cases plain
    · exact .inl (hold q hq hout)
  | coded _ within =>
    rcases Nat.lt_or_ge id s.symbols.nextId with hlt | hge
    · obtain ⟨q, hq, hout⟩ := within.symbols.get?_old hlt hr
      exact .inl (hold q hq hout)
    · exact absurd (within.new id r hge hr).2 hinner
  | @spaceOpened line name start =>
    rcases State.get?_enroll_cases hr with ⟨-, hout⟩ | ⟨q, hq, hout⟩
    · cases (Symbol.isScope_of_outline hout).symm.trans hscope
    · exact .inl (hold q hq hout)
  | @classOpened line name =>
    rcases State.get?_enroll_cases hr with ⟨hnew, -⟩ | ⟨q, hq, hout⟩
    · exact .inr ⟨rfl, hnew⟩
    · exact .inl (hold q hq hout)
  | @methodOpened _ name procedure isConstructor returns opens =>
    rcases State.get?_enroll_cases hr with ⟨hnew, -⟩ | ⟨q, hq, hout⟩
    · refine .inr ⟨?_, hnew⟩
      cases a <;> first | rfl | cases opens
    · exact .inl (hold q hq hout)
  | methodClosed sheds | classClosed sheds =>
    obtain ⟨-, q, hq, hout⟩ := sheds.get?_old id r hr
    exact .inl (hold q hq hout)
  | _ => exact .inl ⟨r, hr, hscope⟩

end Opened

end Triad
