import Triad.Proofs.Scopes

/-!
What a legal action does. The actions that change scopes or procedures are listed here once, with
their effect on the part of the state that these are made of (`Move`). What every move keeps holds
behind every legal run (`Phase.Legal.run_induction`).
-/

namespace Triad

/-- The second table has the records of the first one but for those inside methods, and no other
sizes. -/
structure SymbolTable.Sheds (t t' : SymbolTable) : Prop where
  get? : ∀ id r, t.get? id = some r → r.depth ≤ 1 →
    ∃ r', t'.get? id = some r' ∧ r'.outline = r.outline
  get?_old : ∀ id r', t'.get? id = some r' →
    r'.depth ≤ 1 ∧ ∃ r, t.get? id = some r ∧ r.outline = r'.outline
  entity : ∀ id r r', t.get? id = some r → t'.get? id = some r' → r'.entity = r.entity
  nextId : t'.nextId = t.nextId

theorem SymbolTable.Evolves.owner_eq {depth : Nat} {t t' : SymbolTable} (h : t.Evolves depth t')
    (hnext : t'.nextId = t.nextId) (id : SymbolId) :
    (t'.get? id).bind Symbol.owner = (t.get? id).bind Symbol.owner := by
  cases hr' : t'.get? id with
  | some r' =>
    obtain ⟨r, hr, hout⟩ := h.get?_old (hnext ▸ get?_lt hr') hr'
    rw [hr]
    exact (Symbol.owner_of_outline hout).symm
  | none =>
    cases hr : t.get? id with
    | none => rfl
    | some r =>
      obtain ⟨r', hlive, -⟩ := h.get? hr
      rw [hr'] at hlive
      cases hlive

namespace State

/-- What is left once the open scope is closed. The scope around it is found through the owner of
the record whose scope was open. -/
def left (s : State) (symbols : SymbolTable) : Spine where
  symbols := symbols
  code := s.code
  depth := s.depth - 1
  parent := (s.parent.bind s.symbols.get?).bind Symbol.owner
  currentClass := if s.parent.isSome && s.currentClass == s.parent then none else s.currentClass
  currentMethod := none
  procedure := s.procedure
  entry := s.entry

theorem spine_summarize (s : State) (id : Option SymbolId) :
    (s.summarize id).spine = { s.spine with symbols := (s.summarize id).symbols } := by
  cases id <;> rfl

theorem nextId_summarize (s : State) (id : Option SymbolId) :
    (s.summarize id).symbols.nextId = s.symbols.nextId := by
  cases id with
  | none => rfl
  | some id => exact SymbolTable.nextId_modify s.symbols id _

/-- What a record owns is no part of its entity. -/
theorem entity_summarize (s : State) (owner : Option SymbolId) (id : SymbolId) :
    ((s.summarize owner).symbols.get? id).map Symbol.entity =
      (s.symbols.get? id).map Symbol.entity := by
  cases owner with
  | none => rfl
  | some owner =>
    change ((s.symbols.modify owner _).get? id).map Symbol.entity = _
    rw [SymbolTable.get?_modify]
    split
    · rw [Option.map_map]
      rfl
    · rfl

theorem spine_closeScope (s : State) :
    s.closeScope.spine = s.left (s.symbols.deleteDepth s.depth) := by
  unfold closeScope
  dsimp only
  rw [noteAll_eq]
  rfl

/-- The table once the owner of the open scope and the record inserted last know what they own. -/
def told (s : State) : SymbolTable := ((s.summarize s.parent).summarize s.current).symbols

theorem evolves_told (s : State) : s.symbols.Evolves s.depth s.told := (within_told s).symbols

theorem nextId_told (s : State) : s.told.nextId = s.symbols.nextId := by
  rw [told, nextId_summarize, nextId_summarize]

theorem entity_told (s : State) (id : SymbolId) :
    (s.told.get? id).map Symbol.entity = (s.symbols.get? id).map Symbol.entity := by
  rw [told, entity_summarize, entity_summarize]

/-- A scope is left with a table in which its owner knows what it owns. -/
theorem spine_leaveScope (s : State) :
    s.leaveScope.spine = s.left (s.told.deleteDepth s.depth) := by
  have hspine : ((s.summarize s.parent).summarize s.current).spine =
      { s.spine with symbols := s.told } := by
    rw [spine_summarize, spine_summarize]
    rfl
  have howner : (s.parent.bind s.told.get?).bind Symbol.owner =
      (s.parent.bind s.symbols.get?).bind Symbol.owner := by
    cases s.parent with
    | none => rfl
    | some id => exact s.evolves_told.owner_eq s.nextId_told id
  simp only [spine, Spine.mk.injEq] at hspine
  obtain ⟨hsymbols, hcode, hdepth, hparent, hclass, -, hprocedure, hentry⟩ := hspine
  rw [leaveScope, spine_closeScope]
  simp only [left, hsymbols, howner, hcode, hdepth, hparent, hclass, hprocedure, hentry]

end State

/-- What is left of the table once the open scope is closed. -/
theorem Fits.get?_left {φ : Phase} {s : State} (h : Fits φ s) (hφ : φ = .classBody ∨ φ = .body)
    (id : SymbolId) (r : Symbol) :
    (s.told.deleteDepth s.depth).get? id = some r ↔ s.told.get? id = some r ∧ r.depth ≤ 1 := by
  have hbound : φ.bound = s.depth := by
    rw [h.depth]
    rcases hφ with rfl | rfl <;> rfl
  have hdepth : s.depth = 1 ∨ s.depth = 2 := by
    rw [h.depth]
    rcases hφ with rfl | rfl
    · exact .inl rfl
    · exact .inr rfl
  have hevolves := s.evolves_told
  have hle : s.told.get? id = some r → r.depth ≤ s.depth := by
    intro hr
    obtain ⟨q, hq, hout⟩ := hevolves.get?_old (s.nextId_told ▸ SymbolTable.get?_lt hr) hr
    rw [← hbound, ← Symbol.depth_of_outline hout]
    exact h.bounded id q hq
  rcases hdepth with hdepth | hdepth
  · rw [hdepth] at hle ⊢
    rw [SymbolTable.deleteDepth, if_pos (by decide)]
    exact ⟨fun hr => ⟨hr, hle hr⟩, And.left⟩
  · have hnested := SymbolTable.nested_of_evolves h.nested (hbound ▸ h.bounded) hevolves
    rw [hdepth] at hle ⊢
    rw [SymbolTable.get?_deleteDepth (hevolves.chained h.chained) hnested (Nat.le_refl 2)]
    refine and_congr_right fun hr => ?_
    have hle := hle hr
    omega

/-- Leaving a scope keeps the classes and their members, and what stands around them. -/
theorem Fits.spine_leaveScope {φ : Phase} {s : State} (h : Fits φ s)
    (hφ : φ = .classBody ∨ φ = .body) :
    ∃ symbols, s.symbols.Sheds symbols ∧ s.leaveScope.spine = s.left symbols := by
  have hevolves := s.evolves_told
  have hkept := h.get?_left hφ
  refine ⟨_, ⟨?_, ?_, ?_, (SymbolTable.nextId_deleteDepth s.told s.depth).trans s.nextId_told⟩,
    s.spine_leaveScope⟩
  · intro id r hr hle
    obtain ⟨r', hr', hout⟩ := hevolves.get? hr
    exact ⟨r', (hkept id r').mpr ⟨hr', Symbol.depth_of_outline hout ▸ hle⟩, hout⟩
  · intro id r' hr'
    obtain ⟨htold, hle⟩ := (hkept id r').mp hr'
    exact ⟨hle, hevolves.get?_old (s.nextId_told ▸ SymbolTable.get?_lt htold) htold⟩
  · intro id r r' hr hr'
    have hsame := s.entity_told id
    rw [((hkept id r').mp hr').1, hr] at hsame
    exact Option.some.inj hsame

/-! ## Moves -/

/-- The name that an action opens a procedure for, and whether it is that of a constructor. -/
def Action.routine? : Action → Option (String × Bool)
  | openMethod _ name _ => some (name, false)
  | openConstructor _ name => some (name, true)
  | _ => none

/-- Whether an action opens a class or a procedure. -/
def Action.isHeading : Action → Bool
  | openClass _ _ => true
  | a => a.routine?.isSome

/-- Whether an action leaves all scopes and records as they are. -/
def Action.isAside : Action → Bool
  | scan _ | usingName _ | derive _ _ | closeParams | openBody => true
  | _ => false

/-- The phases of a method that follow each other without any effect on the scope. -/
def Phase.Beside (φ ψ : Phase) : Prop :=
  φ = ψ ∨ φ = .params ∧ ψ = .signature ∨ φ = .signature ∧ ψ = .body

/-- What a legal action makes of the state once it succeeds. A scope that it declares a name in did
not have the name. -/
inductive Move (s : State) : Phase → Action → Phase → State.Spine → Prop
  | still {φ ψ : Phase} {a : Action} (beside : φ.Beside ψ) (plain : a.isHeading = false)
      (aside : a.isAside = true) : Move s φ a ψ s.spine
  | declared {φ : Phase} {line : Nat} {name : String} {entity : Entity}
      (inScope : φ ∈ [Phase.classBody, .params, .body]) (plain : entity.isPlain = true)
      (fresh : s.declares name = false) :
      Move s φ (.declare line name entity) φ (s.enroll name entity).spine
  | coded {a : Action} {t : State} (plain : a.isHeading = false) (within : s.Within t)
      (kind : a.isCode = true ∨ a = .sizeFrame) (applied : a.apply s = .ok t) :
      Move s .body a .body t.spine
  | spaceOpened {line : Nat} {name : String} {start : Nat} :
      Move s .preface (.openNamespace line name start) .file
        { (s.enroll name .space).spine with parent := some s.symbols.nextId }
  | spaceClosed : Move s .file .closeNamespace .file { s.spine with parent := none }
  | classOpened {line : Nat} {name : String}
      (fresh : { s with depth := s.depth + 1 }.declares name = false) :
      Move s .file (.openClass line name) .classHead
        ({ s with depth := s.depth + 1 }.enroll name .newClass).spine
  | classEntered {id : SymbolId} (current : s.currentClass = some id) :
      Move s .classHead .openClassBody .classBody { s.spine with parent := some id }
  | methodOpened {a : Action} {name procedure : String} {isConstructor : Bool}
      {returns : ValueType} (opens : a.routine? = some (name, isConstructor))
      (full : (s.enroll name (.newMethod returns)).qualifiedName s.symbols.nextId = .ok procedure)
      (fresh : s.declares name = false) :
      Move s .classBody a .methodHead
        { (s.enroll name (.newMethod returns)).spine with
          code := s.code.push (.proc procedure)
          procedure := procedure
          entry := if !isConstructor && name == "Main" then some procedure else s.entry }
  | paramsEntered {id : SymbolId} (current : s.currentMethod = some id) :
      Move s .methodHead .openParams .params
        { s.spine with depth := s.depth + 1, parent := some id }
  | methodClosed {symbols : SymbolTable} (sheds : s.symbols.Sheds symbols) :
      Move s .body .closeMethod .classBody
        { s.left symbols with code := s.code.push (.endp s.procedure) }
  | classClosed {symbols : SymbolTable} (sheds : s.symbols.Sheds symbols) :
      Move s .classBody .closeClass .file (s.left symbols)

/-- A procedure begins. -/
theorem State.spine_beginProcedure (s : State) (name : String) (returns : ValueType)
    (procedure : String) :
    (s.beginProcedure name returns procedure).spine =
      { (s.enroll name (.newMethod returns)).spine with
        code := s.code.push (.proc procedure)
        procedure := procedure
        entry := s.entry } := by
  have hspine := State.spine_enroll s name (.newMethod returns)
  have hcode : (s.enroll name (.newMethod returns)).code = s.code :=
    congrArg State.Spine.code hspine
  have hentry : (s.enroll name (.newMethod returns)).entry = s.entry :=
    congrArg State.Spine.entry hspine
  rw [← hcode, ← hentry]
  rfl

/-- A legal action that succeeds makes one of the moves. -/
theorem move_of_apply {φ ψ : Phase} {s t : State} {a : Action} (h : Fits φ s)
    (hnext : φ.next? a = some ψ) (happly : a.apply s = .ok t) : Move s φ a ψ t.spine := by
  have houtcome := outcome_of_ok happly
  unfold Phase.next? at hnext
  split at hnext
  · cases hnext
    cases houtcome
    rw [State.spine_noteAll]
    exact .still (.inl rfl) rfl rfl
  · cases hnext
    cases houtcome
    exact .still (.inl rfl) rfl rfl
  · cases hnext
    cases houtcome
    exact .spaceOpened
  · cases hnext
    cases houtcome
    exact .spaceClosed
  · cases hnext
    cases houtcome with
    | classOpened fresh => exact .classOpened fresh
  · cases hnext
    cases houtcome
    exact .still (.inl rfl) rfl rfl
  · cases hnext
    obtain ⟨id, r, hid, -⟩ := h.openClass rfl
    cases houtcome with
    | classEntered current => exact .classEntered current
    | noClass current => cases hid.symm.trans current
  -- `classBody`
  · split at hnext <;> cases hnext
    cases houtcome with
    | declared fresh => exact .declared (by decide) ‹_› fresh
  · cases hnext
    rename_i line name returns
    cases houtcome with
    | @methodOpened _ _ procedure _ fresh full =>
      have hmove := Move.methodOpened (a := .openMethod line name returns) rfl full fresh
      have hspine := s.spine_beginProcedure name returns procedure
      simp only [State.spine, State.Spine.mk.injEq] at hspine
      simpa [State.spine, hspine] using hmove
  · cases hnext
    rename_i line name
    cases houtcome with
    | constructorOpened fresh full =>
      have hopens : (Action.openConstructor line name).routine? = some (name, true) := rfl
      rw [State.spine_beginProcedure]
      exact .methodOpened hopens full fresh
  · cases hnext
    cases houtcome
    obtain ⟨symbols, hsheds, hspine⟩ := h.spine_leaveScope (.inl rfl)
    rw [hspine]
    exact .classClosed hsheds
  -- `methodHead`, `params` and `signature`
  · cases hnext
    obtain ⟨id, r, hid, -⟩ := h.openMethod rfl
    cases houtcome with
    | paramsEntered current => exact .paramsEntered current
    | noParams current => cases hid.symm.trans current
  · split at hnext <;> cases hnext
    cases houtcome with
    | declared fresh => exact .declared (by decide) ‹_› fresh
  · cases hnext
    cases houtcome
    exact .still (.inr (.inl ⟨rfl, rfl⟩)) rfl rfl
  · cases hnext
    cases houtcome
    exact .still (.inr (.inr ⟨rfl, rfl⟩)) rfl rfl
  -- `body`
  · split at hnext <;> cases hnext
    cases houtcome with
    | declared fresh => exact .declared (by decide) ‹_› fresh
  · cases hnext
    exact .coded rfl (within_sizeFrame houtcome) (.inr rfl) happly
  · cases hnext
    cases houtcome
    obtain ⟨symbols, hsheds, hspine⟩ := h.spine_leaveScope (.inr rfl)
    have hcode : s.leaveScope.code = s.code := congrArg State.Spine.code hspine
    have hmove := Move.methodClosed hsheds
    rw [← hspine, ← hcode] at hmove
    exact hmove
  · split at hnext <;> cases hnext
    rename_i hcode
    refine .coded ?_ (State.within_code h.chained hcode houtcome) (.inl hcode) happly
    cases a <;> first | rfl | cases hcode
  · cases hnext

/-! ## Runs -/

/-- What every legal action keeps, told what was done before, holds behind a legal run of actions
that are as the steps need them. -/
theorem Phase.Legal.state_induction {I : List Action → Phase → State → Prop}
    {P : Action → Prop} (hbegin : ∀ done s, I done .preface s → I done .file s)
    (hstep : ∀ done φ a ψ s t, P a → Fits φ s → I done φ s → φ.next? a = some ψ →
      a.apply s = .ok t → I (done ++ [a]) ψ t)
    {φ ψ : Phase} {actions : List Action} (hlegal : Legal φ actions ψ)
    (hall : ∀ a ∈ actions, P a) (done : List Action) {s t : State} (hfits : Fits φ s)
    (h : I done φ s) (hrun : s.run actions = (t, none)) : I (done ++ actions) ψ t := by
  induction hlegal generalizing done s with
  | nil φ =>
    cases hrun
    rw [List.append_nil]
    exact h
  | begin _ ih => exact ih hall done hfits.begin (hbegin done _ h) hrun
  | @cons φ χ ψ a actions here _ ih =>
    obtain ⟨u, happly, hu⟩ := State.run_cons_eq_none.mp hrun
    have hnext := fits_apply hfits here
    rw [happly] at hnext
    have hstepped := hstep done φ a χ s u (hall a List.mem_cons_self) hfits h here happly
    have hlater := ih (fun b hb => hall b (List.mem_cons_of_mem a hb)) _ hnext hstepped hu
    rwa [List.append_assoc] at hlater

/-- The same of every move, where only scopes and procedures matter. -/
theorem Phase.Legal.run_induction {I : List Action → Phase → State.Spine → Prop}
    {P : Action → Prop} (hbegin : ∀ done p, I done .preface p → I done .file p)
    (hstep : ∀ done φ a ψ s p, P a → Fits φ s → I done φ s.spine → Move s φ a ψ p →
      I (done ++ [a]) ψ p)
    {φ ψ : Phase} {actions : List Action} (hlegal : Legal φ actions ψ)
    (hall : ∀ a ∈ actions, P a) (done : List Action) {s t : State} (hfits : Fits φ s)
    (h : I done φ s.spine) (hrun : s.run actions = (t, none)) :
    I (done ++ actions) ψ t.spine :=
  hlegal.state_induction (I := fun done φ s => I done φ s.spine) (fun done _ => hbegin done _)
    (fun done φ a ψ s t ha hs h hnext happly =>
      hstep done φ a ψ s t.spine ha hs h (move_of_apply hs hnext happly)) hall done hfits h hrun

end Triad
