import Triad.Run

/-!
What an action comes to. Each way in which an action can end is listed here once, with what it finds
in the state and what it makes of it (`Outcome`), and the result of an action is always on the list
(`outcome_apply`). What else is said of actions is read off the list.
-/

namespace Triad

/-! ## What actions have to do with -/

namespace Action

/-- The line and the name of what an action declares. -/
def declaration? : Action → Option (Nat × String)
  | openNamespace line name _ | openClass line name | declare line name _
  | openMethod line name _ | openConstructor line name => some (line, name)
  | _ => none

/-- The state whose open scope a declaration goes to. A class lies one deeper. -/
def site (s : State) : Action → State
  | openClass _ _ => { s with depth := s.depth + 1 }
  | _ => s

/-- The line and the name where an action uses a name. -/
def use? : Action → Option (Nat × String)
  | load line name | target line name | read line name | writeName line name => some (line, name)
  | _ => none

/-- What an action does to a name that must have a record. -/
def access? : Action → Option Access
  | read _ _ => some .read
  | writeName _ _ => some .write
  | _ => none

/-- The record that an action asks the table for. -/
inductive Asks (s : State) : Action → SymbolTable → SymbolId → Prop
  | openClass {id : SymbolId} (current : s.currentClass = some id) :
      Asks s .openClassBody s.symbols id
  | openMethod {a : Action} {id : SymbolId} (asks : a = .openParams ∨ a = .sizeFrame)
      (current : s.currentMethod = some id) : Asks s a s.symbols id
  | newMethod {a : Action} {line : Nat} {name : String} {returns : ValueType}
      (opens : a = .openMethod line name returns ∨
        a = .openConstructor line name ∧ returns = .void)
      (fresh : s.declares name = false) :
      Asks s a (s.enroll name (.newMethod returns)).symbols s.symbols.nextId
  | mentioned {a : Action} {line : Nat} {name : String} {found : SymbolId × State}
      (mentions : a = .load line name ∨ a = .target line name)
      (resolved : s.resolve line name = .ok found) : Asks s a found.2.symbols found.1
  | accessed {a : Action} {line : Nat} {name : String} {id : SymbolId}
      (accesses : a = .read line name ∨ a = .writeName line name)
      (found : s.symbols.lookup name = some id) : Asks s a s.symbols id
  | called {method : String} {count : Nat} {id : SymbolId}
      (found : s.symbols.lookup method = some id) : Asks s (.call none method count) s.symbols id

end Action

/-! ## Outcomes -/

/-- The procedure of a method begins. -/
def State.beginProcedure (s : State) (name : String) (returns : ValueType) (procedure : String) :
    State :=
  { (s.enroll name (.newMethod returns)).emit (.proc procedure) with procedure := procedure }

/-- What an action ends with in a state. -/
inductive Outcome (s : State) : Action → Except Fault State → Prop
  | scanned {item : Scanned} : Outcome s (.scan item) (.ok (s.noteAll item.records))
  | used {name : String} : Outcome s (.usingName name) (.ok (s.note (.usingName name)))
  | spaceOpened {line : Nat} {name : String} {start : Nat} (fresh : s.declares name = false) :
      Outcome s (.openNamespace line name start)
        (.ok { (s.enroll name .space).note (.openNamespace name start) with
          parent := some s.symbols.nextId })
  | spaceClosed : Outcome s .closeNamespace (.ok { s with parent := none })
  | classOpened {line : Nat} {name : String}
      (fresh : { s with depth := s.depth + 1 }.declares name = false) :
      Outcome s (.openClass line name) (.ok ({ s with depth := s.depth + 1 }.enroll name .newClass))
  | derived {name base : String} : Outcome s (.derive name base) (.ok (s.note (.derives name base)))
  | classEntered {id : SymbolId} {owner : Symbol} (current : s.currentClass = some id)
      (live : s.symbols.get? id = some owner) :
      Outcome s .openClassBody (.ok ({ s with parent := some id, cursor := .classBody }.note
        (.openClassBody owner.name s.depth)))
  | noClass (current : s.currentClass = none) : Outcome s .openClassBody (.ok s)
  | classClosed : Outcome s .closeClass (.ok s.leaveScope)
  | declared {line : Nat} {name : String} {entity : Entity} (fresh : s.declares name = false) :
      Outcome s (.declare line name entity) (.ok (s.enroll name entity))
  | methodOpened {line : Nat} {name procedure : String} {returns : ValueType}
      (fresh : s.declares name = false)
      (full : (s.enroll name (.newMethod returns)).qualifiedName s.symbols.nextId =
        .ok procedure) :
      Outcome s (.openMethod line name returns)
        (.ok { s.beginProcedure name returns procedure with
          inMain := name == "Main"
          entry := if name == "Main" then some procedure
            else (s.beginProcedure name returns procedure).entry })
  | constructorOpened {line : Nat} {name procedure : String} (fresh : s.declares name = false)
      (full : (s.enroll name (.newMethod .void)).qualifiedName s.symbols.nextId = .ok procedure) :
      Outcome s (.openConstructor line name) (.ok (s.beginProcedure name .void procedure))
  | paramsEntered {id : SymbolId} {owner : Symbol} (current : s.currentMethod = some id)
      (live : s.symbols.get? id = some owner) :
      Outcome s .openParams (.ok ({ s with
        depth := s.depth + 1
        parent := some id
        cursor := .params
        inParams := true }.note (.enterDepth (s.depth + 1) owner.name FrameCursor.params.offset)))
  | noParams (current : s.currentMethod = none) : Outcome s .openParams (.ok s)
  | paramsClosed : Outcome s .closeParams (.ok { s with inParams := false })
  | bodyOpened : Outcome s .openBody (.ok { s with cursor := .locals })
  | frameSized {id : SymbolId} {owner : Symbol} (current : s.currentMethod = some id)
      (live : s.symbols.get? id = some owner) :
      Outcome s .sizeFrame
        (.ok ((s.note (.frameSize owner.name (s.symbols.depthSize s.depth))).modifySymbol (some id)
          fun m => { m with entity := m.entity.setLocals (s.symbols.depthSize s.depth) }))
  | noFrame (current : s.currentMethod = none) : Outcome s .sizeFrame (.ok s)
  | methodClosed :
      Outcome s .closeMethod (.ok { s.leaveScope.emit (.endp s.procedure) with inMain := false })
  | loaded {line : Nat} {name : String} {found : SymbolId × State} {o : Operand}
      (resolved : s.resolve line name = .ok found)
      (refers : found.2.operandOf found.1 = .ok o) :
      Outcome s (.load line name) (.ok (found.2.pushOperand o))
  | literal {text : String} : Outcome s (.literal text) (.ok (s.pushOperand (.literal text)))
  | negated {source : Operand} {rest : List Operand} (operands : s.operands = source :: rest) :
      Outcome s .negate (.ok ({ s with operands := rest }.negate source))
  | notNegated (operands : s.operands = []) : Outcome s .negate (.ok s)
  | combined {op : BinOp} {left right : Operand} {rest : List Operand}
      (operands : s.operands = right :: left :: rest) :
      Outcome s (.binary op) (.ok ({ s with operands := rest }.combine left op right))
  | notCombined {op : BinOp} (few : s.operands.length < 2) : Outcome s (.binary op) (.ok s)
  | targeted {line : Nat} {name : String} {found : SymbolId × State} {r : Symbol} {o : Operand}
      (resolved : s.resolve line name = .ok found)
      (live : found.2.symbols.get? found.1 = some r) (changeable : r.entity.isConst = false)
      (refers : found.2.operandOf found.1 = .ok o) :
      Outcome s (.target line name) (.ok (found.2.pushOperand o))
  | assigned {op : Option BinOp} {source dest : Operand} {rest : List Operand}
      (operands : s.operands = source :: dest :: rest) :
      Outcome s (.assign op)
        (.ok ({ s with operands := rest }.emit (State.assignInstr dest op source)))
  | notAssigned {op : Option BinOp} (few : s.operands.length < 2) : Outcome s (.assign op) (.ok s)
  | called {qualifier : Option String} {method : String} {count : Nat} {target : String}
      (finds : s.callTarget qualifier method = .ok target) :
      Outcome s (.call qualifier method count)
        (.ok (Action.emitCall { s with operands := s.operands.drop count }
          (s.operands.take count) target))
  | result : Outcome s .result (.ok (s.pushOperand .accumulator))
  | parked :
      Outcome s .park (.ok ((s.newTemp.2.emit (.assign s.newTemp.1 .accumulator)).pushOperand
        s.newTemp.1))
  | returned {value : Operand} {rest : List Operand} (operands : s.operands = value :: rest) :
      Outcome s .returnValue (.ok (if s.inMain then { s with operands := rest }
        else { s with operands := rest }.emit (.assign .accumulator value)))
  | notReturned (operands : s.operands = []) : Outcome s .returnValue (.ok s)
  | read {line : Nat} {name : String} {id : SymbolId} {r : Symbol} {o : Operand}
      (found : s.symbols.lookup name = some id) (live : s.symbols.get? id = some r)
      (changeable : r.entity.isConst = false) (refers : s.operandOf id = .ok o) :
      Outcome s (.read line name) (.ok (s.emit (.readInt o)))
  | wroteName {line : Nat} {name : String} {id : SymbolId} {o : Operand}
      (found : s.symbols.lookup name = some id) (refers : s.operandOf id = .ok o) :
      Outcome s (.writeName line name) (.ok (s.emit (.writeInt o)))
  | wroteNumber {text : String} :
      Outcome s (.writeNumber text) (.ok (s.emit (.writeInt (.literal text))))
  | wroteText {lexeme : String} :
      Outcome s (.writeText lexeme)
        (.ok ({ s.noteAll (s.strings.internRecords lexeme) with
          strings := s.strings.intern lexeme }.emit
            (.writeStr (s.strings.entryFor lexeme).1.label)))
  | wroteLine : Outcome s .writeLine (.ok (s.emit .writeLn))
  | duplicate {a : Action} {line : Nat} {name : String}
      (declares : a.declaration? = some (line, name)) (taken : (a.site s).declares name = true) :
      Outcome s a (.error (.duplicate line name))
  | constant {a : Action} {line : Nat} {name : String} (uses : a.use? = some (line, name)) :
      Outcome s a (.error (.assignToConstant line name))
  | unknown {a : Action} {line : Nat} {access : Access} {name : String}
      (accesses : a.access? = some access) (uses : a.use? = some (line, name))
      (unknown : s.symbols.lookup name = none) :
      Outcome s a (.error (.undeclaredTarget line access name))
  | removed {a : Action} {t : SymbolTable} {id : SymbolId} (asks : a.Asks s t id)
      (dead : t.get? id = none) : Outcome s a (.error (.deletedSymbol id))

/-! ## Every result is an outcome -/

theorem length_lt_two {operands : List Operand}
    (h : ∀ last first rest, operands = last :: first :: rest → False) : operands.length < 2 := by
  rcases operands with _ | ⟨last, _ | ⟨first, rest⟩⟩
  · simp
  · simp
  · exact absurd rfl (h last first rest)

theorem SymbolTable.fetch_cases (t : SymbolTable) (id : SymbolId) :
    (∃ r, t.get? id = some r ∧ t.fetch id = .ok r) ∨
      t.get? id = none ∧ t.fetch id = .error (.deletedSymbol id) := by
  unfold fetch
  cases t.get? id with
  | some r => exact .inl ⟨r, rfl, rfl⟩
  | none => exact .inr ⟨rfl, rfl⟩

namespace State

variable (s : State) (line : Nat) (name : String)

theorem operandOf_cases (id : SymbolId) :
    (∃ o, s.operandOf id = .ok o) ∨
      s.symbols.get? id = none ∧ s.operandOf id = .error (.deletedSymbol id) := by
  unfold operandOf
  rcases s.symbols.fetch_cases id with ⟨r, -, hfetch⟩ | ⟨hdead, hfetch⟩ <;> rw [hfetch]
  · left
    simp only [Bind.bind, Except.bind]
    split <;> exact ⟨_, rfl⟩
  · exact .inr ⟨hdead, rfl⟩

theorem qualifiedName_cases (id : SymbolId) :
    (∃ name, s.qualifiedName id = .ok name) ∨
      s.symbols.get? id = none ∧ s.qualifiedName id = .error (.deletedSymbol id) := by
  unfold qualifiedName
  rcases s.symbols.fetch_cases id with ⟨r, -, hfetch⟩ | ⟨hdead, hfetch⟩ <;> rw [hfetch]
  · left
    simp only [Bind.bind, Except.bind]
    split <;> exact ⟨_, rfl⟩
  · exact .inr ⟨hdead, rfl⟩

theorem callTarget_cases (qualifier : Option String) (method : String) :
    (∃ target, s.callTarget qualifier method = .ok target) ∨
      ∃ id, qualifier = none ∧ s.symbols.lookup method = some id ∧ s.symbols.get? id = none ∧
        s.callTarget qualifier method = .error (.deletedSymbol id) := by
  cases qualifier with
  | some className => exact .inl ⟨_, rfl⟩
  | none =>
    unfold callTarget
    dsimp only
    split
    · rename_i id hid
      rcases s.symbols.fetch_cases id with ⟨r, hr, hfetch⟩ | ⟨hdead, hfetch⟩ <;> rw [hfetch]
      · left
        simp only [Bind.bind, Except.bind]
        split
        · rcases s.qualifiedName_cases id with hname | ⟨hdead, -⟩
          · exact hname
          · cases hr.symm.trans hdead
        · exact ⟨_, rfl⟩
      · exact .inr ⟨id, rfl, hid, hdead, rfl⟩
    · exact .inl ⟨_, rfl⟩

theorem declare_cases (entity : Entity) :
    (s.declares name = false ∧ s.declare line name entity = .ok (s.enroll name entity)) ∨
      s.declares name = true ∧ s.declare line name entity = .error (.duplicate line name) := by
  unfold declare
  cases s.declares name with
  | false => exact .inl ⟨rfl, rfl⟩
  | true => exact .inr ⟨rfl, rfl⟩

theorem beginMethod_cases (returns : ValueType) :
    (s.declares name = false ∧
      ((∃ procedure, (s.enroll name (.newMethod returns)).qualifiedName s.symbols.nextId =
          .ok procedure ∧
        Action.beginMethod s line name returns = .ok (s.beginProcedure name returns procedure)) ∨
      (s.enroll name (.newMethod returns)).symbols.get? s.symbols.nextId = none ∧
        Action.beginMethod s line name returns = .error (.deletedSymbol s.symbols.nextId))) ∨
    s.declares name = true ∧
      Action.beginMethod s line name returns = .error (.duplicate line name) := by
  unfold Action.beginMethod
  rcases s.declare_cases line name (.newMethod returns) with ⟨hfresh, hdeclare⟩ | ⟨htaken, hdeclare⟩
  · refine .inl ⟨hfresh, ?_⟩
    rw [hdeclare]
    simp only [Bind.bind, Except.bind]
    rcases qualifiedName_cases (s.enroll name (.newMethod returns)) s.symbols.nextId with
      ⟨procedure, hfull⟩ | ⟨hdead, hfull⟩ <;> rw [hfull]
    · exact .inl ⟨procedure, rfl, rfl⟩
    · exact .inr ⟨hdead, rfl⟩
  · rw [hdeclare]
    exact .inr ⟨htaken, rfl⟩

/-- The state in which a name without a record gets one. -/
def warn : State :=
  { s.note (.undeclaredVariable line name) with warnings := s.warnings.push ⟨line, name⟩ }

/-- A name that is used as a value is found or gets a placeholder. -/
theorem resolve_eq_ok : s.resolve line name = .ok
    (((s.symbols.lookup name).map (·, s)).getD
      (s.symbols.nextId, (s.warn line name).enroll name .placeholder)) := by
  unfold resolve
  split
  · rename_i hfound
    rw [hfound]
    rfl
  · rename_i hunknown
    dsimp only
    -- the scope does not have a name that has no record at all
    rw [declare, if_neg (by simp [declares, SymbolTable.lookupSymbol, note, hunknown]), hunknown]
    rfl

theorem exists_resolve : ∃ found, s.resolve line name = .ok found := ⟨_, s.resolve_eq_ok line name⟩

theorem found_of_resolve {s : State} {line : Nat} {name : String} {found : SymbolId × State}
    (h : s.resolve line name = .ok found) :
    (s.symbols.lookup name = some found.1 ∧ found.2 = s) ∨
      s.symbols.lookup name = none ∧ found.1 = s.symbols.nextId ∧
        found.2 = (s.warn line name).enroll name .placeholder := by
  rw [resolve_eq_ok] at h
  cases h
  cases s.symbols.lookup name with
  | some id => exact .inl ⟨rfl, rfl⟩
  | none => exact .inr ⟨rfl, rfl, rfl⟩

/-- A name is referred to as its record says. -/
theorem record_of_operandOf {s : State} {id : SymbolId} {o : Operand}
    (h : s.operandOf id = .ok o) : ∃ r, s.symbols.get? id = some r ∧
      ((∃ value, r.constantValue? = some value ∧ o = .literal value.render) ∨
        r.constantValue? = none ∧ o = if r.depth ≤ 1 then .global r.name else .frame r.offset) := by
  unfold operandOf at h
  rcases s.symbols.fetch_cases id with ⟨r, hr, hfetch⟩ | ⟨-, hfetch⟩ <;> rw [hfetch] at h
  · refine ⟨r, hr, ?_⟩
    simp only [Bind.bind, Except.bind] at h
    split at h <;> cases h
    · exact .inl ⟨_, ‹_›, rfl⟩
    · exact .inr ⟨‹_›, rfl⟩
  · cases h

theorem resolveTarget_cases (access : Access) :
    (∃ id, s.symbols.lookup name = some id ∧ s.resolveTarget line access name = .ok id) ∨
      s.symbols.lookup name = none ∧
        s.resolveTarget line access name = .error (.undeclaredTarget line access name) := by
  unfold resolveTarget
  cases s.symbols.lookup name with
  | some id => exact .inl ⟨id, rfl, rfl⟩
  | none => exact .inr ⟨rfl, rfl⟩

end State

/-- An action ends with one of its outcomes. -/
theorem outcome_apply (s : State) (a : Action) : Outcome s a (a.apply s) := by
  cases a with
  | scan item => exact .scanned
  | usingName name => exact .used
  | openNamespace line name start =>
    rw [Action.apply]
    rcases s.declare_cases line name .space with ⟨fresh, h⟩ | ⟨taken, h⟩ <;> rw [h]
    · exact .spaceOpened fresh
    · exact .duplicate rfl taken
  | closeNamespace => exact .spaceClosed
  | openClass line name =>
    rw [Action.apply]
    rcases State.declare_cases { s with depth := s.depth + 1 } line name .newClass with
      ⟨fresh, h⟩ | ⟨taken, h⟩ <;> rw [h]
    · exact .classOpened fresh
    · exact .duplicate rfl taken
  | derive name base => exact .derived
  | openClassBody =>
    rw [Action.apply, State.enterClassBody]
    split
    · rename_i id current
      rcases s.symbols.fetch_cases id with ⟨owner, live, h⟩ | ⟨dead, h⟩ <;> rw [h]
      · exact .classEntered current live
      · exact .removed (.openClass current) dead
    · exact .noClass ‹_›
  | closeClass => exact .classClosed
  | declare line name entity =>
    rw [Action.apply]
    rcases s.declare_cases line name entity with ⟨fresh, h⟩ | ⟨taken, h⟩ <;> rw [h]
    · exact .declared fresh
    · exact .duplicate rfl taken
  | openMethod line name returns =>
    rw [Action.apply]
    rcases s.beginMethod_cases line name returns with
      ⟨fresh, ⟨procedure, full, h⟩ | ⟨dead, h⟩⟩ | ⟨taken, h⟩ <;> rw [h]
    · exact .methodOpened fresh full
    · exact .removed (.newMethod (.inl rfl) fresh) dead
    · exact .duplicate rfl taken
  | openConstructor line name =>
    rw [Action.apply]
    rcases s.beginMethod_cases line name .void with
      ⟨fresh, ⟨procedure, full, h⟩ | ⟨dead, h⟩⟩ | ⟨taken, h⟩ <;> rw [h]
    · exact .constructorOpened fresh full
    · exact .removed (.newMethod (.inr ⟨rfl, rfl⟩) fresh) dead
    · exact .duplicate rfl taken
  | openParams =>
    rw [Action.apply, State.enterParams]
    split
    · rename_i id current
      rcases s.symbols.fetch_cases id with ⟨owner, live, h⟩ | ⟨dead, h⟩ <;> rw [h]
      · exact .paramsEntered current live
      · exact .removed (.openMethod (.inl rfl) current) dead
    · exact .noParams ‹_›
  | closeParams => exact .paramsClosed
  | openBody => exact .bodyOpened
  | sizeFrame =>
    rw [Action.apply]
    split
    · rename_i id current
      rcases s.symbols.fetch_cases id with ⟨owner, live, h⟩ | ⟨dead, h⟩ <;> rw [h]
      · exact .frameSized current live
      · exact .removed (.openMethod (.inr rfl) current) dead
    · exact .noFrame ‹_›
  | closeMethod => exact .methodClosed
  | load line name =>
    obtain ⟨found, resolved⟩ := s.exists_resolve line name
    rw [Action.apply, resolved]
    simp only [Bind.bind, Except.bind]
    rcases found.2.operandOf_cases found.1 with ⟨o, refers⟩ | ⟨dead, h⟩
    · rw [refers]
      exact .loaded resolved refers
    · rw [h]
      exact .removed (.mentioned (.inl rfl) resolved) dead
  | literal text => exact .literal
  | negate =>
    rw [Action.apply]
    split
    · exact .negated ‹_›
    · exact .notNegated ‹_›
  | binary op =>
    rw [Action.apply]
    split
    · exact .combined ‹_›
    · rename_i hfew
      exact .notCombined (length_lt_two hfew)
  | target line name =>
    obtain ⟨found, resolved⟩ := s.exists_resolve line name
    rw [Action.apply, resolved]
    simp only [Bind.bind, Except.bind]
    rcases found.2.symbols.fetch_cases found.1 with ⟨r, live, h⟩ | ⟨dead, h⟩ <;> rw [h]
    · dsimp only
      split
      · exact .constant rfl
      · rename_i changeable
        rcases found.2.operandOf_cases found.1 with ⟨o, refers⟩ | ⟨dead, -⟩
        · rw [refers]
          exact .targeted resolved live (Bool.eq_false_iff.mpr changeable) refers
        · cases live.symm.trans dead
    · exact .removed (.mentioned (.inr rfl) resolved) dead
  | assign op =>
    rw [Action.apply]
    split
    · exact .assigned ‹_›
    · rename_i hfew
      exact .notAssigned (length_lt_two hfew)
  | call qualifier method count =>
    rw [Action.apply]
    rcases s.callTarget_cases qualifier method with
      ⟨target, finds⟩ | ⟨id, rfl, found, dead, h⟩
    · rw [finds]
      exact .called finds
    · rw [h]
      exact .removed (.called found) dead
  | result => exact .result
  | park => exact .parked
  | returnValue =>
    rw [Action.apply]
    split
    · exact .returned ‹_›
    · exact .notReturned ‹_›
  | read line name =>
    rw [Action.apply]
    rcases s.resolveTarget_cases line name .read with ⟨id, found, h⟩ | ⟨unknown, h⟩ <;> rw [h]
    · simp only [Bind.bind, Except.bind]
      rcases s.symbols.fetch_cases id with ⟨r, live, h⟩ | ⟨dead, h⟩ <;> rw [h]
      · dsimp only
        split
        · exact .constant rfl
        · rename_i changeable
          rcases s.operandOf_cases id with ⟨o, refers⟩ | ⟨dead, -⟩
          · rw [refers]
            exact .read found live (Bool.eq_false_iff.mpr changeable) refers
          · cases live.symm.trans dead
      · exact .removed (.accessed (.inl rfl) found) dead
    · exact .unknown rfl rfl unknown
  | writeName line name =>
    rw [Action.apply]
    rcases s.resolveTarget_cases line name .write with ⟨id, found, h⟩ | ⟨unknown, h⟩ <;> rw [h]
    · simp only [Bind.bind, Except.bind]
      rcases s.operandOf_cases id with ⟨o, refers⟩ | ⟨dead, h⟩
      · rw [refers]
        exact .wroteName found refers
      · rw [h]
        exact .removed (.accessed (.inr rfl) found) dead
    · exact .unknown rfl rfl unknown
  | writeNumber text => exact .wroteNumber
  | writeText lexeme => exact .wroteText
  | writeLine => exact .wroteLine

theorem outcome_of_ok {s t : State} {a : Action} (h : a.apply s = .ok t) : Outcome s a (.ok t) :=
  h ▸ outcome_apply s a

theorem eq_of_declare {s t : State} {line : Nat} {name : String} {entity : Entity}
    (h : (Action.declare line name entity).apply s = .ok t) : t = s.enroll name entity := by
  cases outcome_of_ok h
  rfl

theorem called_of_apply {s t : State} {qualifier : Option String} {method : String} {count : Nat}
    (h : (Action.call qualifier method count).apply s = .ok t) : ∃ target,
      s.callTarget qualifier method = .ok target ∧
        t = Action.emitCall { s with operands := s.operands.drop count } (s.operands.take count)
          target := by
  cases outcome_of_ok h with
  | called finds => exact ⟨_, finds, rfl⟩

/-- Parameters follow where a method is open. -/
theorem eq_of_openParams {s t : State} {id : SymbolId} (hmethod : s.currentMethod = some id)
    (h : Action.openParams.apply s = .ok t) : ∃ owner : Symbol,
      t = { s with
        depth := s.depth + 1
        parent := some id
        cursor := .params
        inParams := true }.note (.enterDepth (s.depth + 1) owner.name FrameCursor.params.offset) := by
  cases outcome_of_ok h with
  | paramsEntered current =>
    cases hmethod.symm.trans current
    exact ⟨_, rfl⟩
  | noParams current => cases hmethod.symm.trans current

/-- The size of the frame is written into the open method. -/
theorem eq_of_sizeFrame {s t : State} {id : SymbolId} (hmethod : s.currentMethod = some id)
    (h : Action.sizeFrame.apply s = .ok t) : ∃ owner : Symbol,
      t = (s.note (.frameSize owner.name (s.symbols.depthSize s.depth))).modifySymbol (some id)
        fun m => { m with entity := m.entity.setLocals (s.symbols.depthSize s.depth) } := by
  cases outcome_of_ok h with
  | frameSized current =>
    cases hmethod.symm.trans current
    exact ⟨_, rfl⟩
  | noFrame current => cases hmethod.symm.trans current

theorem outcome_of_error {s : State} {a : Action} {fault : Fault} (h : a.apply s = .error fault) :
    Outcome s a (.error fault) :=
  h ▸ outcome_apply s a

end Triad
