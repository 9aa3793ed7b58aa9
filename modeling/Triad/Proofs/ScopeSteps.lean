import Triad.Proofs.Outcomes
import Triad.Proofs.Phases
import Triad.Proofs.Teardown

/-!
What an action does within the open scope. Declarations and the code of a body add records to the
scope and instructions to the procedure, and leave the scopes around as they are (`Within`). Main
statement: the code of a body is made within its scope, or fails for its meaning (`yields_code`).
-/

namespace Triad

/-! ## Faults of meaning -/

/-- Whether a fault is one that an action of a program text may end with. -/
def Fault.isMeaning : Fault → Bool
  | duplicate _ _ | undeclaredTarget _ _ _ | assignToConstant _ _ => true
  | _ => false

/-- The result is as `P` says, or a fault of meaning. -/
def Yields {α : Type} (r : Except Fault α) (P : α → Prop) : Prop :=
  match r with
  | .ok a => P a
  | .error fault => fault.isMeaning = true

/-! ## Records but for their sizes -/

/-- An entity without the sizes that a method or a class comes to. -/
def Entity.outline : Entity → Entity
  | method returns _ _ _ => method returns 0 0 0
  | classType _ => classType 0
  | e => e

/-- A record without sizes and without the list of what it owns, which change while its scope is
open. -/
def Symbol.outline (r : Symbol) : Symbol := { r with entity := r.entity.outline, children := "" }

/-- What is declared in classes and methods besides methods, or stands in for it. -/
def Entity.isInner : Entity → Bool
  | var _ _ _ | const _ _ | placeholder => true
  | _ => false

theorem Entity.outline_addParam (e : Entity) (bytes : Int) :
    (e.addParam bytes).outline = e.outline := by
  cases e <;> rfl

theorem Entity.outline_growLocals (e : Entity) (bytes : Int) :
    (e.growLocals bytes).outline = e.outline := by
  cases e <;> rfl

theorem Entity.outline_setLocals (e : Entity) (bytes : Int) :
    (e.setLocals bytes).outline = e.outline := by
  cases e <;> rfl

theorem Symbol.name_of_outline {r q : Symbol} (h : q.outline = r.outline) : q.name = r.name := by
  have hname := congrArg Symbol.name h
  exact hname

theorem Symbol.depth_of_outline {r q : Symbol} (h : q.outline = r.outline) : q.depth = r.depth := by
  have hdepth := congrArg Symbol.depth h
  exact hdepth

theorem Symbol.offset_of_outline {r q : Symbol} (h : q.outline = r.outline) :
    q.offset = r.offset := by
  have hoffset := congrArg Symbol.offset h
  exact hoffset

theorem Symbol.owner_of_outline {r q : Symbol} (h : q.outline = r.outline) : q.owner = r.owner := by
  have howner := congrArg Symbol.owner h
  exact howner

/-- What does not depend on the sizes of an entity can be told from the outline. -/
theorem Symbol.entity_congr {β : Type} {f : Entity → β} (hf : ∀ e : Entity, f e.outline = f e)
    {r q : Symbol} (h : q.outline = r.outline) : f q.entity = f r.entity := by
  have hentity : q.entity.outline = r.entity.outline := congrArg Symbol.entity h
  rw [← hf, hentity, hf]

theorem Symbol.isInner_of_outline {r q : Symbol} (h : q.outline = r.outline) :
    q.entity.isInner = r.entity.isInner :=
  entity_congr (fun e => by cases e <;> rfl) h

theorem Symbol.outline_entity (r : Symbol) {e : Entity} (h : e.outline = r.entity.outline) :
    Symbol.outline { r with entity := e } = r.outline := by
  simp only [Symbol.outline, h]

namespace SymbolTable

/-- The second table has the records of the first one, and new ones at the depth. -/
structure Evolves (depth : Nat) (t t' : SymbolTable) : Prop where
  chained : t.Chained → t'.Chained
  next_le : t.nextId ≤ t'.nextId
  old : ∀ id < t.nextId, (t'.get? id).map Symbol.outline = (t.get? id).map Symbol.outline
  new : ∀ id r, t.nextId ≤ id → t'.get? id = some r → r.depth = depth

theorem Evolves.refl (depth : Nat) (t : SymbolTable) : t.Evolves depth t where
  chained := id
  next_le := Nat.le_refl _
  old := fun _ _ => rfl
  new := fun _ _ hle hr => absurd (get?_lt hr) (Nat.not_lt_of_le hle)

/-- A record of the first table in the second one. -/
theorem Evolves.get? {depth : Nat} {t t' : SymbolTable} (h : t.Evolves depth t') {id : SymbolId}
    {r : Symbol} (hr : t.get? id = some r) :
    ∃ r', t'.get? id = some r' ∧ r'.outline = r.outline := by
  have hmap := h.old id (get?_lt hr)
  rw [hr] at hmap
  exact Option.map_eq_some_iff.mp hmap

/-- A record of the second table with a number of the first one. -/
theorem Evolves.get?_old {depth : Nat} {t t' : SymbolTable} (h : t.Evolves depth t')
    {id : SymbolId} {r : Symbol} (hid : id < t.nextId) (hr : t'.get? id = some r) :
    ∃ q, t.get? id = some q ∧ q.outline = r.outline := by
  have hmap := h.old id hid
  rw [hr] at hmap
  exact Option.map_eq_some_iff.mp hmap.symm

theorem Evolves.trans {depth : Nat} {t t' t'' : SymbolTable} (h : t.Evolves depth t')
    (h' : t'.Evolves depth t'') : t.Evolves depth t'' where
  chained := h'.chained ∘ h.chained
  next_le := Nat.le_trans h.next_le h'.next_le
  old := fun id hid => (h'.old id (Nat.lt_of_lt_of_le hid h.next_le)).trans (h.old id hid)
  new := by
    intro id r hle hr
    rcases Nat.lt_or_ge id t'.nextId with hlt | hge
    · obtain ⟨q, hq, hout⟩ := h'.get?_old hlt hr
      rw [← h.new id q hle hq]
      exact (Symbol.depth_of_outline hout).symm
    · exact h'.new id r hge hr

theorem evolves_insert (t : SymbolTable) {s : Symbol} {depth : Nat} (hdepth : s.depth = depth) :
    t.Evolves depth (t.insert s) where
  chained := fun h => chained_insert h s
  next_le := by
    rw [nextId_insert]
    exact Nat.le_succ _
  old := by
    intro id hid
    rw [get?_insert, if_neg (Nat.ne_of_lt hid)]
  new := by
    intro id r hle hr
    rw [get?_insert] at hr
    split at hr
    · cases hr
      exact hdepth
    · exact absurd (get?_lt hr) (Nat.not_lt_of_le hle)

theorem evolves_modify (depth : Nat) (t : SymbolTable) (id : SymbolId) {f : Symbol → Symbol}
    (hf : ∀ r : Symbol, (f r).outline = r.outline) : t.Evolves depth (t.modify id f) where
  chained := fun h => chained_modify h id f fun r => Symbol.name_of_outline (hf r)
  next_le := Nat.le_of_eq (nextId_modify t id f).symm
  old := by
    intro i _
    rw [get?_modify]
    split
    · cases t.get? i with
      | none => rfl
      | some r => simp [hf r]
    · rfl
  new := by
    intro i r hle hr
    have hlt := get?_lt hr
    rw [nextId_modify] at hlt
    exact absurd hlt (Nat.not_lt_of_le hle)

/-- The second table has the records of the first one, and one more. -/
structure Grows (t : SymbolTable) (s : Symbol) (t' : SymbolTable) : Prop where
  evolves : t.Evolves s.depth t'
  nextId : t'.nextId = t.nextId + 1
  new : ∃ r, t'.get? t.nextId = some r ∧ r.outline = s.outline

theorem grows_insert (t : SymbolTable) (s : Symbol) : t.Grows s (t.insert s) where
  evolves := evolves_insert t rfl
  nextId := nextId_insert t s
  new := ⟨s, by rw [get?_insert, if_pos rfl], rfl⟩

theorem Grows.modify {t t' : SymbolTable} {s : Symbol} (h : t.Grows s t') (id : SymbolId)
    {f : Symbol → Symbol} (hf : ∀ r : Symbol, (f r).outline = r.outline) :
    t.Grows s (t'.modify id f) where
  evolves := h.evolves.trans (evolves_modify s.depth t' id hf)
  nextId := (nextId_modify t' id f).trans h.nextId
  new := by
    obtain ⟨r, hr, hout⟩ := h.new
    obtain ⟨r', hr', hout'⟩ := (evolves_modify s.depth t' id hf).get? hr
    exact ⟨r', hr', hout'.trans hout⟩

/-- A record of the second table is the new one, or one of the first. -/
theorem Grows.cases {t t' : SymbolTable} {s : Symbol} (h : t.Grows s t') {id : SymbolId}
    {r : Symbol} (hr : t'.get? id = some r) :
    (id = t.nextId ∧ r.outline = s.outline) ∨ ∃ q, t.get? id = some q ∧ q.outline = r.outline := by
  rcases Nat.lt_or_ge id t.nextId with hlt | hge
  · exact .inr (h.evolves.get?_old hlt hr)
  · have hlt := get?_lt hr
    rw [h.nextId] at hlt
    have hid : id = t.nextId := Nat.le_antisymm (Nat.le_of_lt_succ hlt) hge
    subst hid
    obtain ⟨r', hr', hout⟩ := h.new
    rw [hr'] at hr
    cases hr
    exact .inl ⟨rfl, hout⟩

end SymbolTable

/-! ## Steps within a scope -/

/-- Whether an instruction has its place inside a procedure. -/
def Instr.isInner : Instr → Bool
  | proc _ | endp _ | start _ => false
  | _ => true

namespace State

/-- The part of the state that scopes and procedures are made of. -/
structure Spine where
  symbols : SymbolTable
  code : Array Instr
  depth : Nat
  parent : Option SymbolId
  currentClass : Option SymbolId
  currentMethod : Option SymbolId
  procedure : String
  entry : Option String

def spine (s : State) : Spine :=
  ⟨s.symbols, s.code, s.depth, s.parent, s.currentClass, s.currentMethod, s.procedure, s.entry⟩

/-- The second state has the open scope of the first one, with more records in it and more code
behind that of the first one. -/
structure Within (s t : State) : Prop where
  symbols : s.symbols.Evolves s.depth t.symbols
  new : ∀ id r, s.symbols.nextId ≤ id → t.symbols.get? id = some r →
    r.owner = s.parent ∧ r.entity.isInner = true
  code : ∃ code, t.code.toList = s.code.toList ++ code ∧ ∀ i ∈ code, i.isInner = true
  depth : t.depth = s.depth
  parent : t.parent = s.parent
  currentClass : t.currentClass = s.currentClass
  currentMethod : t.currentMethod = s.currentMethod
  procedure : t.procedure = s.procedure
  entry : t.entry = s.entry

/-- Log, warnings, strings and operands have no part in the scope. -/
theorem within_of_spine {s t : State} (h : t.spine = s.spine) : s.Within t where
  symbols := by
    rw [show t.symbols = s.symbols from congrArg Spine.symbols h]
    exact .refl _ _
  new := by
    intro id r hle hr
    rw [show t.symbols = s.symbols from congrArg Spine.symbols h] at hr
    exact absurd (SymbolTable.get?_lt hr) (Nat.not_lt_of_le hle)
  code := by
    refine ⟨[], ?_, fun i hi => absurd hi List.not_mem_nil⟩
    rw [show t.code = s.code from congrArg Spine.code h, List.append_nil]
  depth := congrArg Spine.depth h
  parent := congrArg Spine.parent h
  currentClass := congrArg Spine.currentClass h
  currentMethod := congrArg Spine.currentMethod h
  procedure := congrArg Spine.procedure h
  entry := congrArg Spine.entry h

theorem Within.refl (s : State) : s.Within s := within_of_spine rfl

theorem Within.trans {s t u : State} (h : s.Within t) (h' : t.Within u) : s.Within u where
  symbols := h.symbols.trans (h.depth ▸ h'.symbols)
  new := by
    intro id r hle hr
    rcases Nat.lt_or_ge id t.symbols.nextId with hlt | hge
    · obtain ⟨q, hq, hout⟩ := h'.symbols.get?_old hlt hr
      obtain ⟨howner, hinner⟩ := h.new id q hle hq
      exact ⟨(Symbol.owner_of_outline hout).symm.trans howner,
        (Symbol.isInner_of_outline hout).symm.trans hinner⟩
    · rw [← h.parent]
      exact h'.new id r hge hr
  code := by
    obtain ⟨first, hfirst, hinner⟩ := h.code
    obtain ⟨second, hsecond, hinner'⟩ := h'.code
    refine ⟨first ++ second, by rw [hsecond, hfirst, List.append_assoc], ?_⟩
    exact fun i hi => (List.mem_append.mp hi).elim (hinner i) (hinner' i)
  depth := h'.depth.trans h.depth
  parent := h'.parent.trans h.parent
  currentClass := h'.currentClass.trans h.currentClass
  currentMethod := h'.currentMethod.trans h.currentMethod
  procedure := h'.procedure.trans h.procedure
  entry := h'.entry.trans h.entry

theorem within_note (s : State) (r : LogRecord) : s.Within (s.note r) := within_of_spine rfl

theorem noteAll_eq (s : State) (records : List LogRecord) :
    s.noteAll records = { s with log := s.log ++ records.toArray } := by
  unfold noteAll
  induction records generalizing s with
  | nil => simp
  | cons r records ih =>
    rw [List.foldl_cons, ih]
    simp [note]

theorem spine_noteAll (s : State) (records : List LogRecord) :
    (s.noteAll records).spine = s.spine := by
  rw [noteAll_eq]
  rfl

theorem within_noteAll (s : State) (records : List LogRecord) : s.Within (s.noteAll records) :=
  within_of_spine (spine_noteAll s records)

theorem within_emit (s : State) {i : Instr} (hi : i.isInner = true) : s.Within (s.emit i) where
  symbols := .refl _ _
  new := (Within.refl s).new
  code := ⟨[i], Array.toList_push, by simpa using hi⟩
  depth := rfl
  parent := rfl
  currentClass := rfl
  currentMethod := rfl
  procedure := rfl
  entry := rfl

theorem within_pushOperand (s : State) (o : Operand) : s.Within (s.pushOperand o) :=
  within_of_spine rfl

/-- One more record in the open scope. -/
theorem within_insert (s : State) {r : Symbol} (hdepth : r.depth = s.depth)
    (howner : r.owner = s.parent) (hinner : r.entity.isInner = true) :
    s.Within { s with symbols := s.symbols.insert r } where
  symbols := SymbolTable.evolves_insert s.symbols hdepth
  new := by
    intro id q hle hq
    rw [SymbolTable.get?_insert] at hq
    split at hq
    · cases hq
      exact ⟨howner, hinner⟩
    · exact absurd (SymbolTable.get?_lt hq) (Nat.not_lt_of_le hle)
  code := (Within.refl s).code
  depth := rfl
  parent := rfl
  currentClass := rfl
  currentMethod := rfl
  procedure := rfl
  entry := rfl

theorem within_modifySymbol (s : State) (id : Option SymbolId) {f : Symbol → Symbol}
    (hf : ∀ r : Symbol, (f r).outline = r.outline) : s.Within (s.modifySymbol id f) := by
  cases id with
  | none => exact .refl s
  | some id =>
    refine ⟨SymbolTable.evolves_modify _ _ id hf, ?_, (Within.refl s).code, rfl, rfl, rfl, rfl, rfl,
      rfl⟩
    intro i r hle hr
    have hlt := SymbolTable.get?_lt hr
    change i < (s.symbols.modify id f).nextId at hlt
    rw [SymbolTable.nextId_modify] at hlt
    exact absurd hlt (Nat.not_lt_of_le hle)

theorem outline_charge (s : State) (entity : Entity) (r : Symbol) :
    (s.charge entity r).outline = r.outline := by
  unfold charge
  split
  · rfl
  split
  · exact r.outline_entity (Entity.outline_addParam _ _)
  · exact r.outline_entity (Entity.outline_growLocals _ _)

/-- The table behind a new record. -/
theorem symbols_enroll (s : State) (name : String) (entity : Entity) :
    (s.enroll name entity).symbols =
      ({ s with symbols := s.symbols.insert (s.recordOf name entity) }.modifySymbol s.parent
        (s.charge entity)).symbols := rfl

/-- A new record depends on the table, the open scope and the cursor only. -/
theorem symbols_enroll_congr {s t : State} (name : String) (entity : Entity)
    (h : t.symbols = s.symbols ∧ t.depth = s.depth ∧ t.parent = s.parent ∧ t.cursor = s.cursor ∧
      t.inParams = s.inParams) : (t.enroll name entity).symbols = (s.enroll name entity).symbols := by
  obtain ⟨hsymbols, hdepth, hparent, hcursor, hparams⟩ := h
  have hlocation : t.locationOf entity = s.locationOf entity := by
    unfold locationOf
    rw [hparams, hparent, hsymbols]
  have hrecord : t.recordOf name entity = s.recordOf name entity := by
    unfold recordOf takesSlot
    rw [hlocation, hdepth, hparent, hcursor]
  have hcharge : t.charge entity = s.charge entity := by
    funext owner
    unfold charge
    rw [hparams]
  rw [symbols_enroll, symbols_enroll, hrecord, hcharge, hparent, hsymbols]
  cases s.parent <;> rfl

theorem grows_enroll (s : State) (name : String) (entity : Entity) :
    s.symbols.Grows (s.recordOf name entity) (s.enroll name entity).symbols := by
  have hinsert := s.symbols.grows_insert (s.recordOf name entity)
  rw [symbols_enroll]
  cases s.parent with
  | none => exact hinsert
  | some id => exact hinsert.modify id (outline_charge s entity)

theorem evolves_enroll (s : State) (name : String) (entity : Entity) :
    s.symbols.Evolves s.depth (s.enroll name entity).symbols := (grows_enroll s name entity).evolves

theorem get?_enroll (s : State) (name : String) (entity : Entity) :
    ∃ r, (s.enroll name entity).symbols.get? s.symbols.nextId = some r ∧
      r.outline = (s.recordOf name entity).outline := (grows_enroll s name entity).new

theorem nextId_enroll (s : State) (name : String) (entity : Entity) :
    (s.enroll name entity).symbols.nextId = s.symbols.nextId + 1 :=
  (grows_enroll s name entity).nextId

/-- A record behind a declaration is the new one, or one from before it. -/
theorem get?_enroll_cases {s : State} {name : String} {entity : Entity} {id : SymbolId}
    {r : Symbol} (h : (s.enroll name entity).symbols.get? id = some r) :
    (id = s.symbols.nextId ∧ r.outline = (s.recordOf name entity).outline) ∨
      ∃ q, s.symbols.get? id = some q ∧ q.outline = r.outline :=
  (grows_enroll s name entity).cases h

theorem spine_enroll (s : State) (name : String) (entity : Entity) :
    (s.enroll name entity).spine =
      { s.spine with
        symbols := (s.enroll name entity).symbols
        currentClass := if entity.isClass then some s.symbols.nextId else s.currentClass
        currentMethod := if entity.isMethod then some s.symbols.nextId else s.currentMethod } := by
  have hcharged : ∀ (id : Option SymbolId) (u : State),
      (u.modifySymbol id (s.charge entity)).spine =
        { u.spine with symbols := (u.modifySymbol id (s.charge entity)).symbols } := by
    intro id u
    cases id <;> rfl
  have hspine := hcharged s.parent { s with symbols := s.symbols.insert (s.recordOf name entity) }
  simp only [spine, Spine.mk.injEq] at hspine ⊢
  simp [enroll, hspine]

theorem depth_enroll (s : State) (name : String) (entity : Entity) :
    (s.enroll name entity).depth = s.depth := congrArg Spine.depth (spine_enroll s name entity)

theorem within_enroll (s : State) (name : String) {entity : Entity}
    (hinner : entity.isInner = true) : s.Within (s.enroll name entity) := by
  have hrecord : (s.recordOf name entity).entity.isInner = true := by
    cases entity <;> first | rfl | cases hinner
  have hclass : entity.isClass = false := by cases entity <;> first | rfl | cases hinner
  have hmethod : entity.isMethod = false := by cases entity <;> first | rfl | cases hinner
  have hinsert : s.Within { s with symbols := s.symbols.insert (s.recordOf name entity) } :=
    within_insert s rfl rfl hrecord
  have hcharged := hinsert.trans (within_modifySymbol _ s.parent (outline_charge s entity))
  refine hcharged.trans (within_of_spine ?_)
  simp [enroll, spine, hclass, hmethod, hcharged.currentClass, hcharged.currentMethod]

theorem within_newTemp (s : State) : s.Within s.newTemp.2 := by
  have hinsert : s.Within { s with symbols := s.symbols.insert s.tempRecord } :=
    within_insert s rfl rfl rfl
  have hcurrent : s.Within { s with
      symbols := s.symbols.insert s.tempRecord
      current := some s.symbols.nextId } := hinsert.trans (within_of_spine rfl)
  exact hcurrent.trans (within_modifySymbol _ s.currentMethod
    fun r => r.outline_entity (Entity.outline_growLocals _ _))

theorem within_combine (s : State) (left : Operand) (op : BinOp) (right : Operand) :
    s.Within (s.combine left op right) := by
  unfold combine
  split
  · exact within_pushOperand _ _
  · exact (within_newTemp s).trans ((within_emit _ rfl).trans (within_pushOperand _ _))

theorem within_negate (s : State) (source : Operand) : s.Within (s.negate source) := by
  unfold negate
  split
  · exact within_pushOperand _ _
  · exact (within_newTemp s).trans ((within_emit _ rfl).trans (within_pushOperand _ _))

theorem isInner_assignInstr (dest : Operand) (op : Option BinOp) (source : Operand) :
    (assignInstr dest op source).isInner = true := by
  unfold assignInstr
  cases op with
  | none => rfl
  | some op =>
    dsimp only
    split <;> rfl

theorem within_emitCall (s : State) (arguments : List Operand) (target : String) :
    s.Within (Action.emitCall s arguments target) := by
  have hpush : s.Within (arguments.foldl (fun s o => s.emit (.push o)) s) := by
    induction arguments generalizing s with
    | nil => exact .refl s
    | cons o arguments ih => exact (within_emit s rfl).trans (ih (s.emit (.push o)))
  exact hpush.trans (within_emit _ rfl)

/-! ## Names -/

theorem exists_get?_of_lookup {t : SymbolTable} (h : t.Chained) {name : String} {id : SymbolId}
    (hid : t.lookup name = some id) : ∃ r, t.get? id = some r := by
  obtain ⟨⟨r, hr, -⟩, -⟩ := (SymbolTable.lookup_eq_some_iff h name id).mp hid
  exact ⟨r, hr⟩

theorem fetch_eq_ok {t : SymbolTable} {id : SymbolId} {r : Symbol} (h : t.get? id = some r) :
    t.fetch id = .ok r := by
  rw [SymbolTable.fetch, h]

theorem within_warn (s : State) (line : Nat) (name : String) : s.Within (s.warn line name) :=
  within_of_spine rfl

/-- A name that is used is found within the scope, and its record is there. -/
theorem within_resolve {s : State} (h : s.symbols.Chained) {line : Nat} {name : String}
    {found : SymbolId × State} (hfound : s.resolve line name = .ok found) :
    s.Within found.2 ∧ ∃ r, found.2.symbols.get? found.1 = some r := by
  rcases found_of_resolve hfound with ⟨hknown, hsame⟩ | ⟨-, hnew, hmade⟩
  · rw [hsame]
    exact ⟨.refl s, exists_get?_of_lookup h hknown⟩
  · obtain ⟨r, hr, -⟩ := get?_enroll (s.warn line name) name .placeholder
    rw [hnew, hmade]
    exact ⟨(s.within_warn line name).trans (within_enroll _ name rfl), r, hr⟩

/-- What code asks the table for is found by a name, and so it is there. -/
theorem live_of_asks {s : State} (h : s.symbols.Chained) {a : Action} (ha : a.isCode = true)
    {t : SymbolTable} {id : SymbolId} (hasks : a.Asks s t id) : ∃ r, t.get? id = some r := by
  cases hasks with
  | openClass => cases ha
  | openMethod asks => rcases asks with rfl | rfl <;> cases ha
  | newMethod opens => rcases opens with rfl | ⟨rfl, -⟩ <;> cases ha
  | mentioned _ resolved => exact (within_resolve h resolved).2
  | accessed _ found | called found => exact exists_get?_of_lookup h found

/-- An action that asks for live records only ends as told, or with a fault of meaning. -/
theorem yields_apply {s : State} {a : Action} {P : State → Prop}
    (hlive : ∀ t id, a.Asks s t id → ∃ r, t.get? id = some r)
    (hok : ∀ t, Outcome s a (.ok t) → P t) : Yields (a.apply s) P := by
  have houtcome := outcome_apply s a
  cases happly : a.apply s with
  | ok t => exact hok t (happly ▸ houtcome)
  | error fault =>
    rw [happly] at houtcome
    cases houtcome with
    | duplicate | constant | unknown => exact rfl
    | removed asks dead =>
      obtain ⟨r, hr⟩ := hlive _ _ asks
      cases hr.symm.trans dead

/-- The code of a body is made within its scope. -/
theorem within_code {s t : State} (h : s.symbols.Chained) {a : Action} (ha : a.isCode = true)
    (houtcome : Outcome s a (.ok t)) : s.Within t := by
  have hused : ∀ operands, s.Within { s with operands := operands } :=
    fun _ => within_of_spine rfl
  cases houtcome with
  | loaded resolved | targeted resolved =>
    exact (within_resolve h resolved).1.trans (within_pushOperand _ _)
  | literal | result => exact within_pushOperand s _
  | negated => exact (hused _).trans (within_negate _ _)
  | combined => exact (hused _).trans (within_combine _ _ _ _)
  | assigned => exact (hused _).trans (within_emit _ (isInner_assignInstr _ _ _))
  | notNegated | notCombined | notAssigned | notReturned => exact Within.refl s
  | called => exact (hused _).trans (within_emitCall _ _ _)
  | parked => exact (within_newTemp s).trans ((within_emit _ rfl).trans (within_pushOperand _ _))
  | returned =>
    split
    · exact hused _
    · exact (hused _).trans (within_emit _ rfl)
  | read | wroteName | wroteNumber | wroteLine => exact within_emit s rfl
  | @wroteText lexeme =>
    have hnote := within_noteAll s (s.strings.internRecords lexeme)
    have hintern : s.Within { s.noteAll (s.strings.internRecords lexeme) with
        strings := s.strings.intern lexeme } :=
      hnote.trans (within_of_spine rfl)
    exact hintern.trans (within_emit _ rfl)
  | _ => cases ha

end State

end Triad
