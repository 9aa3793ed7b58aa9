import Triad.Proofs.FrameAccounts
import Triad.Proofs.MethodPlaces
import Triad.Proofs.OperandStack

/-!
A method from its opening to the end of the text. Its record begins with no sizes, its body writes
the code of its procedure, and what it has at the end of the body is what is left of it in the
table. Main statements: `exists_traced`, for every method of a compiled text, and what it is charged
with in the end (`Traced.exists_account`).
-/

namespace Triad

open Syntax

/-! ## The opening -/

section Opening

variable {s t : State}

/-- A method that has just been opened has no parameters and no locals yet, and its procedure
begins. -/
structure Opened (s t : State) : Prop where
  method : t.currentMethod = some s.symbols.nextId
  record : ∃ m returns, t.symbols.get? s.symbols.nextId = some m ∧ m.depth = 1 ∧
    m.entity = .newMethod returns
  code : t.code.toList = s.code.toList ++ [.proc t.procedure]
  name : t.symbols.qualifiedName? s.symbols.nextId = some t.procedure

theorem opened_beginProcedure (h : Stands .classBody s) {name procedure : String}
    {returns : ValueType}
    (hfull : (s.enroll name (.newMethod returns)).qualifiedName s.symbols.nextId = .ok procedure) :
    Opened s (s.beginProcedure name returns procedure) := by
  have hspine := s.spine_beginProcedure name returns procedure
  have hcode : (s.beginProcedure name returns procedure).code = s.code.push (.proc procedure) :=
    congrArg State.Spine.code hspine
  obtain ⟨c, r, hc, hr, -⟩ := h.placed.openClass rfl
  have hparent : s.parent = some c := (h.placed.classParent rfl).trans hc
  -- the charge goes to the class, which is another record
  have hne : s.parent ≠ some s.symbols.nextId := by
    rw [hparent]
    exact fun h => Nat.ne_of_lt (SymbolTable.get?_lt hr) (Option.some.inj h)
  have hrecord := State.get?_enroll_new hne name (.newMethod returns)
  refine ⟨congrArg State.Spine.currentMethod (State.spine_enroll s name (.newMethod returns)),
    ⟨_, returns, hrecord, h.fits.depth, rfl⟩, ?_, ?_⟩
  · rw [hcode, Array.toList_push]
    rfl
  · obtain ⟨o, ho, -⟩ := (s.evolves_enroll name (.newMethod returns)).get? hr
    cases (qualifiedName_eq hrecord hparent ho).symm.trans hfull
    exact SymbolTable.qualifiedName?_eq_some hrecord hparent ho

theorem opened_of_apply {a : Action} (h : Stands .classBody s) (hopens : a.routine?.isSome = true)
    (happly : a.apply s = .ok t) : Opened s t := by
  cases outcome_of_ok happly with
  | methodOpened _ full =>
    have hopened := opened_beginProcedure h full
    exact ⟨hopened.method, hopened.record, hopened.code, hopened.name⟩
  | constructorOpened _ full => exact opened_beginProcedure h full
  | _ => cases hopens

/-- An action that has its place in one phase only. -/
theorem Phase.eq_of_legal {φ ψ θ : Phase} {a : Action} {actions : List Action}
    (h : Legal φ (a :: actions) ψ) (hnext : ∀ χ, (χ.next? a).isSome = true → χ = θ)
    (hθ : θ ≠ .file) : φ = θ := by
  cases h with
  | cons here _ => exact hnext φ (Option.isSome_of_eq_some here)
  | begin later =>
    cases later with
    | cons here _ => exact absurd (hnext .file (Option.isSome_of_eq_some here)).symm hθ

/-- Between two actions of a legal run. -/
theorem exists_phase {done rest : List Action} {ψ : Phase}
    (hlegal : Phase.Legal .preface (done ++ rest) ψ) (hrun : State.initial.run done = (s, none)) :
    ∃ φ, Stands φ s ∧ Phase.Legal φ rest ψ := by
  obtain ⟨φ, hdone, hrest⟩ := hlegal.split
  exact ⟨φ, stands_run hdone stands_initial hrun, hrest⟩

theorem Phase.eq_classBody_of_opens {φ : Phase} {a : Action} (hopens : a.routine?.isSome = true)
    (h : (φ.next? a).isSome = true) : φ = .classBody := by
  cases a with
  | openMethod line name returns => cases φ <;> first | rfl | cases h
  | openConstructor line name => cases φ <;> first | rfl | cases h
  | _ => cases hopens

/-- Wherever a legal run opens a method. -/
theorem opened_of_legal {done later : List Action} {a : Action} {ψ : Phase}
    (hlegal : Phase.Legal .preface (done ++ a :: later) ψ) (hopens : a.routine?.isSome = true)
    (hrun : State.initial.run done = (s, none)) (happly : a.apply s = .ok t) : Opened s t := by
  obtain ⟨φ, hs, hrest⟩ := exists_phase hlegal hrun
  cases Phase.eq_of_legal hrest (fun _ => Phase.eq_classBody_of_opens hopens) nofun
  exact opened_of_apply hs hopens happly

end Opening

/-! ## The body -/

section Body

variable {φ ψ : Phase} {s t : State} {a : Action}

/-- The two states are in one method, with more code of it in the second. -/
structure SameMethod (s t : State.Spine) : Prop where
  method : t.currentMethod = s.currentMethod
  procedure : t.procedure = s.procedure
  code : ∃ more, t.code.toList = s.code.toList ++ more ∧ ∀ i ∈ more, i.isInner = true

theorem SameMethod.refl (p : State.Spine) : SameMethod p p :=
  ⟨rfl, rfl, [], (List.append_nil _).symm, fun _ hi => absurd hi List.not_mem_nil⟩

theorem SameMethod.trans {p q r : State.Spine} (h : SameMethod p q) (h' : SameMethod q r) :
    SameMethod p r := by
  obtain ⟨more, hmore, hinner⟩ := h.code
  obtain ⟨more', hmore', hinner'⟩ := h'.code
  refine ⟨h'.method.trans h.method, h'.procedure.trans h.procedure, more ++ more', ?_,
    List.forall_mem_append.mpr ⟨hinner, hinner'⟩⟩
  rw [hmore', hmore, List.append_assoc]

theorem sameMethod_of_within (h : s.Within t) : SameMethod s.spine t.spine :=
  ⟨h.currentMethod, h.procedure, h.code⟩

theorem Syntax.Routine.ne_closeMethod (r : Routine) :
    ∀ a ∈ r.heading ++ r.body.actions, a ≠ .closeMethod := by
  rintro a ha rfl
  rcases Routine.mem_actions ha with ha | hdeclares | hcode
  · simp at ha
  · cases hdeclares
  · cases hcode

/-- Inside a method nothing but its end leads out of it. -/
theorem sameMethod_move {p : State.Spine} (hmove : Move s φ a ψ p) (hφ : φ.inMethod = true)
    (ha : a ≠ .closeMethod) : ψ.inMethod = true ∧ SameMethod s.spine p := by
  cases hmove with
  | still beside =>
    refine ⟨?_, .refl _⟩
    rcases beside with rfl | ⟨rfl, rfl⟩ | ⟨rfl, rfl⟩
    · exact hφ
    · rfl
    · rfl
  | @declared φ line name entity _ plain =>
    have hinner : entity.isInner = true := by cases entity <;> first | rfl | cases plain
    exact ⟨hφ, sameMethod_of_within (State.within_enroll s name hinner)⟩
  | coded _ within => exact ⟨rfl, sameMethod_of_within within⟩
  | paramsEntered =>
    exact ⟨rfl, rfl, rfl, [], (List.append_nil _).symm, fun _ hi => absurd hi List.not_mem_nil⟩
  | methodClosed => exact absurd rfl ha
  | _ => cases hφ

theorem sameMethod_run {actions : List Action} (hlegal : Phase.Legal φ actions ψ)
    (hfits : Fits φ s) (hφ : φ.inMethod = true) (hall : ∀ a ∈ actions, a ≠ .closeMethod)
    (hrun : s.run actions = (t, none)) : SameMethod s.spine t.spine :=
  (hlegal.run_induction (P := fun a => a ≠ .closeMethod)
    (I := fun _ φ p => φ.inMethod = true ∧ SameMethod s.spine p) (fun _ _ h => nomatch h.1)
    (by
      rintro _ φ a ψ u p ha - ⟨hφ, hsame⟩ hmove
      obtain ⟨hψ, hstep⟩ := sameMethod_move hmove hφ ha
      exact ⟨hψ, hsame.trans hstep⟩)
    hall [] hfits ⟨hφ, .refl _⟩ hrun).2

end Body

/-! ## The end -/

section Ending

variable {s t : State} {id : SymbolId} {m : Symbol} {ψ : Phase} {rest : List Action}

/-- A method is left in the table as it is when it closes, and its procedure ends. -/
theorem closed_of_run (h : Stands .body s) (hm : s.symbols.get? id = some m)
    (hmethod : m.entity.isMethod = true) (hlegal : Phase.Legal .body (.closeMethod :: rest) ψ)
    (hrun : s.run (.closeMethod :: rest) = (t, none)) :
    (∃ m', t.symbols.get? id = some m' ∧ m'.entity = m.entity) ∧
      ∃ tail, t.code.toList = s.code.toList ++ .endp s.procedure :: tail := by
  obtain ⟨u, happly, hu⟩ := State.run_cons_eq_none.mp hrun
  have hstands := stands_apply h (a := .closeMethod) rfl happly
  obtain ⟨symbols, hsheds, hspine⟩ := h.fits.spine_leaveScope (.inr rfl)
  have hcode : s.leaveScope.code = s.code := congrArg State.Spine.code hspine
  have hdepth := (h.placed.records id m hm).depth_le_of_outer (Entity.isInner_of_isMethod hmethod)
  obtain ⟨m', hm', -⟩ := hsheds.get? id m hm hdepth
  have hentity := hsheds.entity id m m' hm hm'
  have hlive : s.leaveScope.symbols.get? id = some m' :=
    (congrArg (·.symbols.get? id) hspine).trans hm'
  cases happly
  cases hlegal with
  | cons here later =>
    cases here
    obtain ⟨m'', hm'', hentity'⟩ := entity_run later hstands hu hlive (hentity ▸ hmethod)
      (Option.some_ne_none id).symm
    refine ⟨⟨m'', hm'', hentity'.trans hentity⟩, ?_⟩
    obtain ⟨tail, htail⟩ := State.code_run
      { s.leaveScope.emit (.endp s.procedure) with inMain := false } rest
    rw [hu] at htail
    refine ⟨tail, htail.trans ?_⟩
    change (s.leaveScope.code.push _).toList ++ tail = _
    rw [hcode, Array.toList_push, List.append_assoc]
    rfl

/-- The frame of a constructor is sized. -/
theorem sizeFrame_eq (hmethod : s.currentMethod = some id) (hm : s.symbols.get? id = some m)
    (happly : Action.sizeFrame.apply s = .ok t) :
    t.symbols.get? id =
        some { m with entity := m.entity.setLocals (s.symbols.depthSize s.depth) } ∧
      t.code = s.code ∧ t.procedure = s.procedure := by
  obtain ⟨owner, rfl⟩ := eq_of_sizeFrame hmethod happly
  refine ⟨?_, rfl, rfl⟩
  change (s.symbols.modify id _).get? id = _
  rw [SymbolTable.get?_modify, if_pos rfl, hm]
  rfl

/-- Behind its end, a method has what it had at the end of its body, but the locals of a constructor
are all that was declared in it. -/
theorem closed_of_ending {a : Action} (h : Stands .body s) (hopen : s.currentMethod = some id)
    (hm : s.symbols.get? id = some m) (hmethod : m.entity.isMethod = true)
    (hlegal : Phase.Legal .body (a.ending ++ rest) ψ)
    (hrun : s.run (a.ending ++ rest) = (t, none)) :
    (∃ m', t.symbols.get? id = some m' ∧ m'.entity =
      if a.isConstructor then m.entity.setLocals (s.symbols.depthSize 2) else m.entity) ∧
      ∃ tail, t.code.toList = s.code.toList ++ .endp s.procedure :: tail := by
  unfold Action.ending at hlegal hrun
  cases hconstructor : a.isConstructor with
  | false =>
    rw [hconstructor] at hlegal hrun
    exact closed_of_run h hm hmethod hlegal hrun
  | true =>
    rw [hconstructor] at hlegal hrun
    obtain ⟨u, happly, hu⟩ := State.run_cons_eq_none.mp hrun
    obtain ⟨hsized, hcode, hname⟩ := sizeFrame_eq hopen hm happly
    have hisMethod : (m.entity.setLocals (s.symbols.depthSize s.depth)).isMethod = true := by
      cases hentity : m.entity <;> rw [hentity] at hmethod <;> first | rfl | cases hmethod
    cases hlegal with
    | cons here later =>
      cases here
      have hclosed := closed_of_run (stands_apply h (a := .sizeFrame) rfl happly) hsized hisMethod
        later hu
      rwa [hcode, hname, h.fits.depth] at hclosed

end Ending

/-! ## Methods of a program -/

namespace Place

variable {p : Program} {s : State} {φ ψ : Phase}

/-- Whether it is a constructor that is opened. -/
def isConstructor (place : Place p) : Bool := place.before.getLast?.any Action.isConstructor

theorem eq_body_of_legal (place : Place p) (h : Phase.Legal φ place.after ψ) : φ = .body := by
  rcases place.after_eq with hafter | hafter <;> rw [hafter] at h
  · exact Phase.eq_of_legal h (fun χ hχ => by cases χ <;> first | rfl | cases hχ) nofun
  · exact Phase.eq_of_legal h (fun χ hχ => by cases χ <;> first | rfl | cases hχ) nofun

theorem actions_reading (place : Place p) : p.actions = place.reading ++ place.after :=
  place.actions_eq

theorem actions_before (place : Place p) :
    p.actions = place.before ++ (place.routine.heading ++ place.routine.body.actions ++
      place.after) := by
  rw [place.actions_eq]
  simp only [List.append_assoc]

/-- The states behind the opening of a method and at the end of its body. -/
theorem exists_states (place : Place p) {final : State}
    (h : State.initial.run p.actions = (final, none)) :
    ∃ t s, State.initial.run place.before = (t, none) ∧
      t.run (place.routine.heading ++ place.routine.body.actions) = (s, none) ∧
      State.initial.run place.reading = (s, none) ∧ s.run place.after = (final, none) := by
  rw [place.actions_reading] at h
  obtain ⟨s, hs, hafter⟩ := State.run_append_eq_none.mp h
  have hread := hs
  rw [reading, List.append_assoc] at hread
  obtain ⟨t, ht, hbody⟩ := State.run_append_eq_none.mp hread
  exact ⟨t, s, ht, hbody, hs, hafter⟩

/-- Behind the opening of a method. -/
theorem at_heading (place : Place p) (hlegal : Phase.Legal .preface p.actions ψ)
    (hs : State.initial.run place.before = (s, none)) :
    Stands .methodHead s ∧
      Phase.Legal .methodHead (place.routine.heading ++ place.routine.body.actions) .body := by
  rw [place.actions_before] at hlegal
  obtain ⟨φ, hstands, hrest⟩ := exists_phase hlegal hs
  have hφ : φ = .methodHead := Phase.eq_methodHead_of_legal hrest
  subst hφ
  obtain ⟨χ, hbody, hafter⟩ := hrest.split
  exact ⟨hstands, place.eq_body_of_legal hafter ▸ hbody⟩

/-- Before the end of a method. -/
theorem at_end (place : Place p) (hlegal : Phase.Legal .preface p.actions ψ)
    (hs : State.initial.run place.reading = (s, none)) :
    Stands .body s ∧ Phase.Legal .body place.after ψ := by
  rw [place.actions_reading] at hlegal
  obtain ⟨φ, hstands, hrest⟩ := exists_phase hlegal hs
  cases place.eq_body_of_legal hrest
  exact ⟨hstands, hrest⟩

end Place

/-- What is known of a method: the state at the end of its body, and its record and its procedure in
what is compiled. -/
structure Framed {p : Program} (c : Compilation) (place : Place p) (id : SymbolId) (s : State)
    (m : Symbol) (q : Procedure) : Prop where
  run : State.initial.run place.reading = (s, none)
  opened : s.currentMethod = some id
  record : c.symbols.get? id = some m
  code : ∃ before after, s.code.toList = before ++ .proc q.name :: q.body ∧
    c.code = before ++ q.code ++ after

/-- Where a method comes from: the state `t` behind its opening, from which its body leads to the
end, and what its record was at both. -/
structure Traced {p : Program} (c : Compilation) (place : Place p) (id : SymbolId) (t s : State)
    (m : Symbol) (q : Procedure) : Prop extends Framed c place id s m q where
  stands : Stands .methodHead t
  body : t.run (place.routine.heading ++ place.routine.body.actions) = (s, none)
  method : t.currentMethod = some id
  operands : t.operands = []
  fresh : ∃ r returns, t.symbols.get? id = some r ∧ r.depth = 1 ∧ r.entity = .newMethod returns
  emitted : s.code.toList = t.code.toList ++ q.body
  closed : ∃ r, s.symbols.get? id = some r ∧ m.entity =
    if place.isConstructor then r.entity.setLocals (s.symbols.depthSize 2) else r.entity
  name : c.symbols.qualifiedName? id = some q.name
  ended : ∃ final, s.run place.after = (final, none) ∧ c.symbols = final.symbols ∧
    c.warnings = final.warnings.toList

/-- A method goes by one full name from its opening on. -/
theorem qualifiedName?_run {φ ψ : Phase} {s t : State} {actions : List Action}
    (hlegal : Phase.Legal φ actions ψ) (h : Stands φ s) (hrun : s.run actions = (t, none))
    {id : SymbolId} (hid : id ∈ s.symbols.methods) :
    t.symbols.qualifiedName? id = s.symbols.qualifiedName? id :=
  SymbolTable.qualifiedName?_keep h.placed.methodsOwned
    (fun i r hr houter => record_run hlegal h hrun hr
      ((h.placed.records i r hr).depth_le_of_outer houter)) hid

/-- Every method of a compiled text was opened somewhere in it, and its procedure is in the code. -/
theorem exists_traced_run {source : String} {c : Compilation} (hc : compile source = .ok c)
    {p : Program} (hp : IsTree source p) {id : SymbolId} (hid : id ∈ c.symbols.methods) :
    ∃ (place : Place p) (t s : State) (m : Symbol) (q : Procedure),
      State.initial.run place.before = (t, none) ∧ Traced c place id t s m q := by
  obtain ⟨tokens, htokens, htree⟩ := hp
  obtain ⟨hactions, -, hlegal⟩ := legal_actions htokens htree
  obtain ⟨final, hfinal, -, hsymbols, hcode⟩ := exists_run_of_compile hactions hc
  rw [hsymbols] at hid
  obtain hid | ⟨done, a, later, u, heq, hopens, hu, rfl⟩ :=
    opened_of_mem_methods hlegal stands_initial hfinal id hid
  · cases hid
  obtain ⟨place, hbefore, hend⟩ := exists_place heq hopens
  obtain ⟨t, s, ht, hbody, hs, hafter⟩ := place.exists_states hfinal
  have hopening : State.initial.run (done ++ [a]) = (t, none) := hbefore ▸ ht
  obtain ⟨u', hu', hlast⟩ := State.run_append_eq_none.mp hopening
  cases hu.symm.trans hu'
  obtain ⟨t', happly, hnil⟩ := State.run_cons_eq_none.mp hlast
  cases hnil
  have hopened := opened_of_legal (heq ▸ hlegal) hopens hu happly
  obtain ⟨r, returns, hr, hdepth, hentity⟩ := hopened.record
  obtain ⟨hstandst, hlegalt⟩ := place.at_heading hlegal ht
  obtain ⟨hstandss, hlegals⟩ := place.at_end hlegal hs
  have hsame := sameMethod_run hlegalt hstandst.fits rfl place.routine.ne_closeMethod hbody
  obtain ⟨more, hmore, hinner⟩ := hsame.code
  have hmethod : s.currentMethod = some u.symbols.nextId := hsame.method.trans hopened.method
  obtain ⟨r', hr', hout⟩ := record_run hlegalt hstandst hbody hr (Nat.le_of_eq hdepth)
  have hisMethod : r'.entity.isMethod = true := by
    rw [Symbol.isMethod_of_outline hout, hentity]
    rfl
  have hlegalend := hlegals
  rw [hend] at hlegalend
  obtain ⟨⟨m, hm, hclosed⟩, tail, htail⟩ :=
    closed_of_ending hstandss hmethod hr' hisMethod hlegalend (hend ▸ hafter)
  have hconstructor : place.isConstructor = a.isConstructor := by
    simp [Place.isConstructor, hbefore]
  have hfull : final.symbols.qualifiedName? u.symbols.nextId = some t.procedure := by
    have hid := SymbolTable.mem_methods_of_get? hr (by rw [hentity]; rfl)
    rw [qualifiedName?_run (hlegalt.append hlegals) hstandst
      (State.run_append_eq_none.mpr ⟨s, hbody, hafter⟩) hid]
    exact hopened.name
  refine ⟨place, t, s, m, ⟨t.procedure, more, hinner⟩, ht, {
    run := hs
    opened := hmethod
    record := hsymbols ▸ hm
    code := ⟨u.code.toList, tail ++ [.start c.entry], ?_, ?_⟩
    stands := hstandst
    body := hbody
    method := hopened.method
    operands := operands_of_opened heq hopens hu happly
    fresh := hopened.record
    emitted := hmore
    closed := ⟨r', hr', hconstructor ▸ hclosed⟩
    name := hsymbols ▸ hfull
    ended := ⟨final, hafter, hsymbols, warnings_of_compile (hactions ▸ hfinal) hc⟩ }⟩
  · rw [show s.code.toList = _ from hmore]
    change t.code.toList ++ more = _
    rw [hopened.code, List.append_assoc]
    rfl
  · have hname : s.procedure = t.procedure := hsame.procedure
    rw [hcode, htail, show s.code.toList = _ from hmore]
    change t.code.toList ++ more ++ _ ++ _ = _
    rw [hopened.code, hname]
    simp [Procedure.code]

theorem exists_traced {source : String} {c : Compilation} (hc : compile source = .ok c)
    {p : Program} (hp : IsTree source p) {id : SymbolId} (hid : id ∈ c.symbols.methods) :
    ∃ (place : Place p) (t s : State) (m : Symbol) (q : Procedure),
      Traced c place id t s m q := by
  obtain ⟨place, t, s, m, q, -, h⟩ := exists_traced_run hc hp hid
  exact ⟨place, t, s, m, q, h⟩

/-! ## Sizes -/

/-- What is called for inside a method of a text declares words only. -/
theorem Place.beforeEnd {p : Program} (place : Place p) (hspelled : ∀ t ∈ p.tokens, t.WellSpelled) :
    ∀ a ∈ place.routine.heading ++ place.routine.body.actions, a.BeforeEnd := by
  intro a ha
  obtain ⟨actions, ending, hactions, hall, hending⟩ := p.exists_actions_eq hspelled
  have hmem : a ∈ actions ++ ending := by
    rw [← hactions, place.actions_before]
    exact List.mem_append_right _ (List.mem_append_left _ ha)
  rcases List.mem_append.mp hmem with hmem | hmem
  · exact hall a hmem
  · -- the end of the namespace is not inside a method
    rcases hending with rfl | rfl
    · cases hmem
    · cases List.mem_singleton.mp hmem
      rcases Routine.mem_actions ha with ha | ha | ha
      · simp at ha
      · cases ha
      · cases ha

section Sizes

variable {source : String} {p : Program} {c : Compilation} {place : Place p} {id : SymbolId}
  {t s : State} {m : Symbol} {q : Procedure}

/-- A method is left with the number and the bytes of its parameters and with the bytes of its
locals and of the words for its code. The locals of a constructor have its parameters among them. -/
theorem Traced.exists_account (h : Traced c place id t s m q) (hp : IsTree source p) :
    ∃ params locals scratch returns, s.frame = params ++ (locals ++ scratch) ∧
      params.map Symbol.valueType = place.routine.paramTypes ∧
      locals.map Symbol.valueType = place.routine.body.localTypes ∧
      (∀ r ∈ params ++ locals, r.IsVariable) ∧ (∀ r ∈ scratch, r.IsScratch) ∧
      m.entity = .method returns place.routine.paramTypes.length
        (bytes place.routine.body.localTypes + totalSize scratch +
          if place.isConstructor then bytes place.routine.paramTypes else 0)
        (bytes place.routine.paramTypes) := by
  obtain ⟨tokens, htokens, htree⟩ := hp
  obtain ⟨params, locals, scratch, haccount, hparams, hlocals, hvariables, hscratch⟩ :=
    account_routine place.routine h.stands.fits h.method h.fresh
      (place.beforeEnd (htree ▸ wellSpelled_of_tokenize htokens)) h.body
  obtain ⟨r, returns, hr, -, hentity⟩ := haccount.record
  obtain ⟨r', hr', hclosed⟩ := h.closed
  cases hr.symm.trans hr'
  have hbytes : totalSize params = bytes place.routine.paramTypes := by
    rw [totalSize_variables fun r hr => hvariables r (List.mem_append_left _ hr), hparams]
  have hbytes' : totalSize (locals ++ scratch) =
      bytes place.routine.body.localTypes + totalSize scratch := by
    rw [totalSize_append, totalSize_variables fun r hr => hvariables r (List.mem_append_right _ hr),
      hlocals]
  have hlength : params.length = place.routine.paramTypes.length := by
    rw [← hparams, List.length_map]
  refine ⟨params, locals, scratch, returns, haccount.frame, hparams, hlocals, hvariables, hscratch,
    ?_⟩
  rw [hclosed, hentity, haccount.depthSize, hbytes, hbytes', hlength]
  split
  · rw [Int.add_comm (bytes place.routine.paramTypes)]
    rfl
  · rw [Int.add_zero]

end Sizes

end Triad
