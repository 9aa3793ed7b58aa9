import Triad.Proofs.Duplicates
import Triad.Proofs.SingleAssignment

/-!
What an action inserts into the table, told from the action and the state before it. Every action
that closes no scope adds at most one line to what the owner of the open scope has, and leaves all
summaries as they are (`records_of_apply`). The record inserted last keeps owning nothing (`barren_apply`).
-/

namespace Triad

/-! ## Lines of a summary -/

/-- A name with what it stands for, as the summary of the owner shows it. -/
def childLine (entry : String × Entity) : String := (Symbol.new entry.1 entry.2 0).renderAsChild

/-- Lines under each other, each with a mark in front. -/
def listing (lines : List String) : String :=
  "\n" ++ String.join (lines.map fun line => " => " ++ line ++ "\n")

namespace SymbolTable

variable {t t' : SymbolTable} {k : SymbolId}

/-- The lines of what a record owns, in the order of insertion. -/
def linesOf (t : SymbolTable) (k : SymbolId) : List String :=
  (t.childrenOf k).map Symbol.renderAsChild

theorem renderChildren_eq (t : SymbolTable) (k : SymbolId) :
    t.renderChildren k = listing (t.linesOf k) := by
  rw [renderChildren, listing, linesOf, List.map_map]
  rfl

/-- The line of a record in the summary of the owner, if it is owned by it. -/
def lineOf? (k : SymbolId) (r : Symbol) : Option String :=
  if r.owner = some k then some r.renderAsChild else none

theorem lineOf?_outline (k : SymbolId) (r : Symbol) : lineOf? k r.outline = lineOf? k r := by
  have hline : r.outline.renderAsChild = r.renderAsChild := by
    obtain ⟨name, entity, depth, offset, size, owner, children⟩ := r
    cases entity <;> rfl
  simp only [lineOf?, hline]
  rfl

theorem linesOf_eq (t : SymbolTable) (k : SymbolId) : t.linesOf k = t.collect (lineOf? k) := by
  rw [linesOf, childrenOf, collect, ← List.filterMap_eq_map, List.filterMap_filter]
  refine List.filterMap_congr fun r _ => ?_
  simp [lineOf?]

theorem Evolves.linesOf {depth : Nat} (h : t.Evolves depth t') (hnext : t'.nextId = t.nextId)
    (k : SymbolId) : t'.linesOf k = t.linesOf k := by
  rw [linesOf_eq, linesOf_eq, h.collect (lineOf?_outline k) hnext]

theorem Grows.linesOf {q : Symbol} (h : t.Grows q t') (k : SymbolId) :
    t'.linesOf k = t.linesOf k ++ (lineOf? k q).toList := by
  rw [linesOf_eq, linesOf_eq, h.collect (lineOf?_outline k)]

/-- What stands outside methods keeps its lines when a scope is left. -/
theorem Sheds.linesOf (h : t.Sheds t')
    (hinner : ∀ id r, t.get? id = some r → 1 < r.depth → r.owner ≠ some k) :
    t'.linesOf k = t.linesOf k := by
  rw [linesOf_eq, linesOf_eq, h.collect (lineOf?_outline k)]
  intro id r hr hdepth
  exact if_neg (hinner id r hr hdepth)

theorem linesOf_eq_nil (h : ∀ id r, t.get? id = some r → r.owner ≠ some k) : t.linesOf k = [] := by
  rw [linesOf, List.map_eq_nil_iff, childrenOf, List.filter_eq_nil_iff]
  intro r hr howner
  obtain ⟨id, hid⟩ := (t.mem_symbols_iff r).mp hr
  exact h id r hid (beq_iff_eq.mp howner)

theorem owner_ne_of_linesOf (h : t.linesOf k = []) {id : SymbolId} {r : Symbol}
    (hr : t.get? id = some r) : r.owner ≠ some k := by
  rw [linesOf, List.map_eq_nil_iff, childrenOf, List.filter_eq_nil_iff] at h
  intro howner
  exact h r ((t.mem_symbols_iff r).mpr ⟨id, hr⟩) (beq_iff_eq.mpr howner)

/-- Nothing new is owned behind a scope that is left. -/
theorem Sheds.linesOf_eq_nil (h : t.Sheds t') (hnil : t.linesOf k = []) : t'.linesOf k = [] := by
  refine SymbolTable.linesOf_eq_nil fun id r' hr' => ?_
  obtain ⟨-, r, hr, hout⟩ := h.get?_old id r' hr'
  rw [← Symbol.owner_of_outline hout]
  exact owner_ne_of_linesOf hnil hr

end SymbolTable

/-! ## Insertions -/

/-- What an action inserts: the name of the record, and what it stands for. A name without a record
gets a placeholder, and a value that needs a place gets a word. -/
def Action.inserted? (s : State) : Action → Option (String × Entity)
  | openNamespace _ name _ => some (name, .space)
  | openClass _ name => some (name, .newClass)
  | openMethod _ name returns => some (name, .newMethod returns)
  | openConstructor _ name => some (name, .newMethod .void)
  | declare _ name entity => some (name, entity)
  | load _ name | target _ name =>
    if (s.symbols.lookup name).isNone then some (name, .placeholder) else none
  | a => if a.drawsWord s then some (frameSlot s.tempRecord.offset, .newVar .int) else none

/-- What is inserted is declared, stands in for a name that is used, or is a word for a value. -/
theorem Action.inserted?_cases {s : State} {a : Action} {entry : String × Entity}
    (h : a.inserted? s = some entry) :
    (∃ line, a.declaration? = some (line, entry.1)) ∨
      (∃ line, a.use? = some (line, entry.1)) ∧ entry.2 = .placeholder ∨
      ∃ offset, entry = (frameSlot offset, .newVar .int) := by
  cases a with
  | openNamespace line name _ | openClass line name | openMethod line name _
  | openConstructor line name | declare line name _ =>
    cases h
    exact .inl ⟨line, rfl⟩
  | load line name | target line name =>
    cases (Option.ite_none_right_eq_some.mp h).2
    exact .inr (.inl ⟨⟨line, rfl⟩, rfl⟩)
  | negate | binary =>
    cases (Option.ite_none_right_eq_some.mp h).2
    exact .inr (.inr ⟨_, rfl⟩)
  | park =>
    cases h
    exact .inr (.inr ⟨_, rfl⟩)
  | _ => cases h

/-- One more record in the open scope, if there is an entry, and no summary written anew. -/
structure State.Records (s t : State) (entry : Option (String × Entity)) : Prop where
  lines : ∀ k, t.symbols.linesOf k =
    s.symbols.linesOf k ++ if s.parent = some k then entry.toList.map childLine else []
  children : ∀ id < s.symbols.nextId,
    (t.symbols.get? id).map Symbol.children = (s.symbols.get? id).map Symbol.children
  current : t.current = if entry.isSome then some s.symbols.nextId else s.current

namespace State

variable {s t : State}

theorem records_same (hsymbols : t.symbols = s.symbols) (hcurrent : t.current = s.current) :
    s.Records t none where
  lines := by
    intro k
    rw [hsymbols]
    simp
  children := by
    intro id _
    rw [hsymbols]
  current := hcurrent

theorem children_modifySymbol (s : State) (i : Option SymbolId) {f : Symbol → Symbol}
    (hf : ∀ r, (f r).children = r.children) (id : SymbolId) :
    ((s.modifySymbol i f).symbols.get? id).map Symbol.children =
      (s.symbols.get? id).map Symbol.children := by
  cases i with
  | none => rfl
  | some i =>
    change ((s.symbols.modify i f).get? id).map Symbol.children = _
    rw [SymbolTable.get?_modify]
    split
    · rw [Option.map_map]
      exact congrArg (fun g => (s.symbols.get? id).map g) (funext hf)
    · rfl

/-- A new record, with a charge to another one. -/
theorem records_insert {r : Symbol} {entry : String × Entity} {i : Option SymbolId}
    {f : Symbol → Symbol} (hgrows : s.symbols.Grows r t.symbols)
    (hsymbols : t.symbols = ({ s with symbols := s.symbols.insert r }.modifySymbol i f).symbols)
    (howner : r.owner = s.parent) (hline : r.renderAsChild = childLine entry)
    (hf : ∀ m, (f m).children = m.children) (hcurrent : t.current = some s.symbols.nextId) :
    s.Records t (some entry) where
  lines := by
    intro k
    rw [hgrows.linesOf, SymbolTable.lineOf?, howner, hline]
    split <;> rfl
  children := by
    intro id hid
    rw [hsymbols, children_modifySymbol _ i hf]
    change ((s.symbols.insert r).get? id).map Symbol.children = _
    rw [SymbolTable.get?_insert, if_neg (Nat.ne_of_lt hid)]
  current := hcurrent

theorem renderAsChild_recordOf (s : State) (name : String) (entity : Entity) :
    (s.recordOf name entity).renderAsChild = childLine (name, entity) := by
  cases entity <;> rfl

theorem records_enroll (s : State) {t : State} {name : String} {entity : Entity}
    (hsymbols : t.symbols = (s.enroll name entity).symbols)
    (hcurrent : t.current = some s.symbols.nextId) : s.Records t (some (name, entity)) := by
  refine records_insert (hsymbols ▸ s.grows_enroll name entity) hsymbols rfl
    (s.renderAsChild_recordOf name entity) (fun m => ?_) hcurrent
  unfold charge
  split
  · rfl
  split
  · rfl
  · rfl

theorem records_newTemp (s : State) {t : State} (hsymbols : t.symbols = s.newTemp.2.symbols)
    (hcurrent : t.current = some s.symbols.nextId) :
    s.Records t (some (frameSlot s.tempRecord.offset, .newVar .int)) := by
  have hgrows : s.symbols.Grows s.tempRecord t.symbols := hsymbols ▸ s.grows_newTemp
  have hcharged : t.symbols = ({ s with symbols := s.symbols.insert s.tempRecord }.modifySymbol
      s.currentMethod fun m => { m with entity := m.entity.growLocals 2 }).symbols := by
    rw [hsymbols]
    unfold newTemp modifySymbol
    cases s.currentMethod <;> rfl
  exact records_insert hgrows hcharged rfl rfl (fun m => rfl) hcurrent

/-- Only table, open scope and mark matter for what is recorded. -/
theorem Records.congr {u : State} {entry : Option (String × Entity)} (h : s.Records t entry)
    (hsymbols : u.symbols = s.symbols) (hparent : u.parent = s.parent)
    (hcurrent : u.current = s.current) : u.Records t entry := by
  refine ⟨?_, ?_, ?_⟩
  · rw [hsymbols, hparent]
    exact h.lines
  · rw [hsymbols]
    exact h.children
  · rw [hsymbols, hcurrent]
    exact h.current

theorem records_resolve {line : Nat} {name : String} {found : SymbolId × State}
    (h : s.resolve line name = .ok found) :
    s.Records found.2
      (if (s.symbols.lookup name).isNone then some (name, .placeholder) else none) := by
  rcases found_of_resolve h with ⟨hknown, hsame⟩ | ⟨hunknown, -, hmade⟩
  · rw [hknown, hsame]
    exact records_same rfl rfl
  · rw [hunknown, hmade]
    exact records_enroll s (symbols_enroll_congr name .placeholder ⟨rfl, rfl, rfl, rfl, rfl⟩) rfl

theorem current_newTemp (s : State) : s.newTemp.2.current = some s.symbols.nextId := by
  unfold newTemp modifySymbol
  cases s.currentMethod <;> rfl

theorem records_negate (s : State) (source : Operand) :
    s.Records (s.negate source)
      (if !source.isLiteral then some (frameSlot s.tempRecord.offset, .newVar .int) else none) := by
  cases source with
  | literal text => exact records_same rfl rfl
  | _ => exact records_newTemp s rfl s.current_newTemp

theorem records_combine (s : State) (left : Operand) (op : BinOp) (right : Operand) :
    s.Records (s.combine left op right)
      (if (identity? left op right).isNone then
        some (frameSlot s.tempRecord.offset, .newVar .int) else none) := by
  unfold combine
  cases identity? left op right with
  | some same => exact records_same rfl rfl
  | none => exact records_newTemp s rfl s.current_newTemp

/-- The table, and the mark of the record inserted last. -/
def held (s : State) : SymbolTable × Option SymbolId := (s.symbols, s.current)

theorem records_held (h : t.held = s.held) : s.Records t none :=
  records_same (congrArg Prod.fst h) (congrArg Prod.snd h)

theorem held_noteAll (s : State) (records : List LogRecord) :
    (s.noteAll records).held = s.held := by
  rw [noteAll_eq]
  rfl

theorem held_emitCall (s : State) (arguments : List Operand) (target : String) :
    (Action.emitCall s arguments target).held = s.held := by
  obtain ⟨log, heq⟩ := emitCall_eq s arguments target
  rw [heq]
  rfl

/-- Sizes are no part of a line. -/
theorem records_modifySymbol (s : State) (i : Option SymbolId) {f : Symbol → Symbol}
    (hout : ∀ r : Symbol, (f r).outline = r.outline) (hf : ∀ r, (f r).children = r.children) :
    s.Records (s.modifySymbol i f) none := by
  refine ⟨fun k => ?_, fun id _ => s.children_modifySymbol i hf id, by cases i <;> rfl⟩
  cases i with
  | none => simp [modifySymbol]
  | some i =>
    have hevolves := SymbolTable.evolves_modify s.depth s.symbols i hout
    have hsame := hevolves.linesOf (SymbolTable.nextId_modify s.symbols i f) k
    simpa [modifySymbol] using hsame

theorem records_setLocals (s : State) (id : SymbolId) (bytes : Int) :
    s.Records (s.modifySymbol (some id) fun m => { m with entity := m.entity.setLocals bytes })
      none :=
  records_modifySymbol s (some id) (fun m => m.outline_entity (Entity.outline_setLocals _ _))
    fun _ => rfl

end State

/-- Whether an action closes a class or a method. -/
def Action.isClosing : Action → Bool
  | closeClass | closeMethod => true
  | _ => false

/-- An action that closes no scope inserts its entry into the open scope. -/
theorem records_of_apply {s t : State} {a : Action} (ha : a.isClosing = false)
    (h : a.apply s = .ok t) : s.Records t (a.inserted? s) := by
  cases outcome_of_ok h with
  | scanned | wroteText => exact State.records_held (s.held_noteAll _)
  | spaceOpened | declared | methodOpened | constructorOpened => exact s.records_enroll rfl rfl
  | @classOpened _ name =>
    have hrecords : State.Records { s with depth := s.depth + 1 } _ (some (name, .newClass)) :=
      State.records_enroll _ rfl rfl
    exact hrecords.congr rfl rfl rfl
  | classClosed | methodClosed => cases ha
  | frameSized => exact (State.records_setLocals _ _ _).congr rfl rfl rfl
  | loaded resolved | targeted resolved =>
    have hrecords := State.records_resolve resolved
    exact ⟨hrecords.lines, hrecords.children, hrecords.current⟩
  | @negated source rest operands =>
    change s.Records _ (if Action.drawsWord s .negate then _ else none)
    rw [Action.drawsWord, operands]
    exact (State.records_negate { s with operands := rest } source).congr rfl rfl rfl
  | notNegated operands =>
    change s.Records s (if Action.drawsWord s .negate then _ else none)
    rw [Action.drawsWord, operands]
    exact State.records_same rfl rfl
  | @combined op left right rest operands =>
    change s.Records _ (if Action.drawsWord s (.binary op) then _ else none)
    rw [Action.drawsWord, operands]
    exact (State.records_combine { s with operands := rest } left op right).congr rfl rfl rfl
  | @notCombined op few =>
    change s.Records s (if Action.drawsWord s (.binary op) then _ else none)
    rw [Action.drawsWord_of_few few]
    exact State.records_same rfl rfl
  | parked => exact s.records_newTemp rfl s.current_newTemp
  | called => exact State.records_held ((State.held_emitCall _ _ _).trans rfl)
  | returned =>
    split
    · exact State.records_same rfl rfl
    · exact State.records_same rfl rfl
  | _ => exact State.records_same rfl rfl

/-! ## The record inserted last -/

/-- The record inserted last owns nothing. -/
def State.Barren (s : State) : Prop := ∀ k, s.current = some k → s.symbols.linesOf k = []

theorem State.current_leaveScope (s : State) : s.leaveScope.current = s.current := by
  have hsummarize : ∀ (u : State) (i : Option SymbolId), (u.summarize i).current = u.current := by
    intro u i
    cases i <;> rfl
  unfold leaveScope closeScope
  dsimp only
  rw [noteAll_eq, hsummarize, hsummarize]

section Barren

variable {φ ψ : Phase} {s t : State} {a : Action}

/-- A scope is closed in its own phase. -/
theorem closed_of_apply (hnext : φ.next? a = some ψ) (ha : a.isClosing = true)
    (happly : a.apply s = .ok t) :
    (φ = .classBody ∨ φ = .body) ∧ t.symbols = s.leaveScope.symbols ∧ t.current = s.current := by
  cases outcome_of_ok happly with
  | classClosed =>
    refine ⟨.inl ?_, rfl, s.current_leaveScope⟩
    cases φ <;> first | rfl | cases hnext
  | methodClosed =>
    refine ⟨.inr ?_, rfl, s.current_leaveScope⟩
    cases φ <;> first | rfl | cases hnext
  | _ => cases ha

/-- No record has an owner that is yet to come. -/
theorem Stands.linesOf_nextId (hs : Stands φ s) : s.symbols.linesOf s.symbols.nextId = [] :=
  SymbolTable.linesOf_eq_nil fun _ _ hr howner => Nat.lt_irrefl _ (hs.owner_lt hr howner)

theorem barren_apply (hs : Stands φ s) (hnext : φ.next? a = some ψ) (happly : a.apply s = .ok t)
    (h : s.Barren) : t.Barren := by
  intro k hk
  cases ha : a.isClosing with
  | true =>
    obtain ⟨hφ, hsymbols, hcurrent⟩ := closed_of_apply hnext ha happly
    obtain ⟨symbols, hsheds, hspine⟩ := hs.fits.spine_leaveScope hφ
    rw [hsymbols, show s.leaveScope.symbols = symbols from congrArg State.Spine.symbols hspine]
    exact hsheds.linesOf_eq_nil (h k (hcurrent ▸ hk))
  | false =>
    have hrecords := records_of_apply ha happly
    have hcurrent := hrecords.current
    rw [hrecords.lines k]
    cases hentry : a.inserted? s with
    | none =>
      rw [hentry] at hcurrent
      simp [h k (hcurrent.symm.trans hk)]
    | some entry =>
      rw [hentry] at hcurrent
      cases hcurrent.symm.trans hk
      rw [hs.linesOf_nextId, if_neg hs.parent_ne_nextId]
      rfl

end Barren

end Triad
