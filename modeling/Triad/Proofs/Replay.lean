import Triad.Proofs.Reading
import Triad.Proofs.Scopes

/-!
What carrying out actions does not depend on. The log, the code written so far and the numbers of
lines play no part in what is done next; so code only grows, and a run can be replayed without what
the scanner tells, and with other numbers of lines. Main statement: a run behind other code and with
other lines writes the same code behind it, and differs in the lines of its fault and its warnings
(`run_reline`).
-/

namespace Triad

/-! ## Other numbers of lines -/

def Fault.reline (ρ : Nat → Nat) : Fault → Fault
  | mismatch line expected found => mismatch (ρ line) expected found
  | duplicate line name => duplicate (ρ line) name
  | undeclaredTarget line access name => undeclaredTarget (ρ line) access name
  | malformedNumber line lexeme => malformedNumber (ρ line) lexeme
  | assignToConstant line name => assignToConstant (ρ line) name
  | missingMain => missingMain
  | deletedSymbol id => deletedSymbol id

theorem Fault.reline_id (fault : Fault) : fault.reline id = fault := by
  cases fault <;> rfl

def Warning.reline (ρ : Nat → Nat) (w : Warning) : Warning := { w with line := ρ w.line }

/-- What the scanner tells keeps its lines, as nothing but the log depends on it. -/
def Action.reline (ρ : Nat → Nat) : Action → Action
  | openNamespace line name start => openNamespace (ρ line) name (ρ start)
  | openClass line name => openClass (ρ line) name
  | declare line name entity => declare (ρ line) name entity
  | openMethod line name returns => openMethod (ρ line) name returns
  | openConstructor line name => openConstructor (ρ line) name
  | load line name => load (ρ line) name
  | target line name => target (ρ line) name
  | read line name => read (ρ line) name
  | writeName line name => writeName (ρ line) name
  | action => action

theorem Action.reline_id (a : Action) : a.reline id = a := by
  cases a <;> rfl

/-- The same fault but for its line, or results in the relation. -/
inductive Alike {α : Type} (ρ : Nat → Nat) (R : α → α → Prop) :
    Except Fault α → Except Fault α → Prop
  | ok {a b : α} (h : R a b) : Alike ρ R (.ok a) (.ok b)
  | error (fault : Fault) : Alike ρ R (.error fault) (.error (fault.reline ρ))

theorem Alike.bind {α β : Type} {ρ : Nat → Nat} {R : α → α → Prop} {S : β → β → Prop}
    {x y : Except Fault α} {f g : α → Except Fault β} (h : Alike ρ R x y)
    (hfg : ∀ a b, R a b → Alike ρ S (f a) (g b)) : Alike ρ S (x >>= f) (y >>= g) := by
  cases h with
  | ok hab => exact hfg _ _ hab
  | error fault => exact .error fault

namespace State

/-- The state with other code before its own, with another log and with other lines to blame. -/
def echo (s : State) (ρ : Nat → Nat) (code : Array Instr) (log : Array LogRecord) : State :=
  { s with
    code := code ++ s.code
    log := log
    warnings := s.warnings.map (Warning.reline ρ) }

/-- The second state is the first one behind the code, with other lines. -/
def Echoes (ρ : Nat → Nat) (code : Array Instr) (s t : State) : Prop :=
  ∃ log, t = s.echo ρ code log

section

variable {ρ : Nat → Nat} {code : Array Instr} {s t : State}

theorem symbols_echo (s : State) (ρ : Nat → Nat) (code : Array Instr) (log : Array LogRecord) :
    (s.echo ρ code log).symbols = s.symbols := rfl

theorem operands_echo (s : State) (ρ : Nat → Nat) (code : Array Instr) (log : Array LogRecord) :
    (s.echo ρ code log).operands = s.operands := rfl

theorem echo_note (h : Echoes ρ code s t) (r r' : LogRecord) :
    Echoes ρ code (s.note r) (t.note r') := by
  obtain ⟨log, rfl⟩ := h
  exact ⟨_, rfl⟩

theorem echo_noteAll (h : Echoes ρ code s t) (records records' : List LogRecord) :
    Echoes ρ code (s.noteAll records) (t.noteAll records') := by
  obtain ⟨log, rfl⟩ := h
  rw [noteAll_eq, noteAll_eq]
  exact ⟨_, rfl⟩

theorem echo_emit (h : Echoes ρ code s t) (i : Instr) : Echoes ρ code (s.emit i) (t.emit i) := by
  obtain ⟨log, rfl⟩ := h
  refine ⟨log.push (.emitted i), ?_⟩
  simp [emit, note, echo]

theorem echo_pushOperand (h : Echoes ρ code s t) (o : Operand) :
    Echoes ρ code (s.pushOperand o) (t.pushOperand o) := by
  obtain ⟨log, rfl⟩ := h
  exact ⟨log, rfl⟩

theorem echo_operands (h : Echoes ρ code s t) (operands : List Operand) :
    Echoes ρ code { s with operands := operands } { t with operands := operands } := by
  obtain ⟨log, rfl⟩ := h
  exact ⟨log, rfl⟩

theorem echo_strings (h : Echoes ρ code s t) (strings : StringPool) :
    Echoes ρ code { s with strings := strings } { t with strings := strings } := by
  obtain ⟨log, rfl⟩ := h
  exact ⟨log, rfl⟩

theorem echo_inMain (h : Echoes ρ code s t) (inMain : Bool) :
    Echoes ρ code { s with inMain := inMain } { t with inMain := inMain } := by
  obtain ⟨log, rfl⟩ := h
  exact ⟨log, rfl⟩

theorem echo_modifySymbol (h : Echoes ρ code s t) (id : Option SymbolId) (f : Symbol → Symbol) :
    Echoes ρ code (s.modifySymbol id f) (t.modifySymbol id f) := by
  obtain ⟨log, rfl⟩ := h
  cases id <;> exact ⟨log, rfl⟩

theorem echo_marks (h : Echoes ρ code s t) (cursor : FrameCursor)
    (current currentClass currentMethod : Option SymbolId) :
    Echoes ρ code
      { s with
        cursor := cursor
        current := current
        currentClass := currentClass
        currentMethod := currentMethod }
      { t with
        cursor := cursor
        current := current
        currentClass := currentClass
        currentMethod := currentMethod } := by
  obtain ⟨log, rfl⟩ := h
  exact ⟨log, rfl⟩

theorem echo_enroll (h : Echoes ρ code s t) (name : String) (entity : Entity) :
    Echoes ρ code (s.enroll name entity) (t.enroll name entity) := by
  obtain ⟨log, rfl⟩ := h
  have hinserted : Echoes ρ code { s with symbols := s.symbols.insert (s.recordOf name entity) }
      { s.echo ρ code log with symbols := s.symbols.insert (s.recordOf name entity) } := ⟨log, rfl⟩
  exact echo_marks (echo_modifySymbol hinserted s.parent (s.charge entity)) _ _ _ _

theorem echo_newTemp (h : Echoes ρ code s t) :
    t.newTemp.1 = s.newTemp.1 ∧ Echoes ρ code s.newTemp.2 t.newTemp.2 := by
  obtain ⟨log, rfl⟩ := h
  refine ⟨rfl, ?_⟩
  exact echo_modifySymbol (s := { s with
    symbols := s.symbols.insert s.tempRecord
    current := some s.symbols.nextId }) ⟨log, rfl⟩ s.currentMethod _

theorem echo_combine (h : Echoes ρ code s t) (left : Operand) (op : BinOp) (right : Operand) :
    Echoes ρ code (s.combine left op right) (t.combine left op right) := by
  unfold combine
  split
  · exact echo_pushOperand h _
  · obtain ⟨hdest, htemp⟩ := echo_newTemp h
    dsimp only
    rw [hdest]
    exact echo_pushOperand (echo_emit htemp _) _

theorem echo_negate (h : Echoes ρ code s t) (source : Operand) :
    Echoes ρ code (s.negate source) (t.negate source) := by
  unfold negate
  split
  · exact echo_pushOperand h _
  · obtain ⟨hdest, htemp⟩ := echo_newTemp h
    dsimp only
    rw [hdest]
    exact echo_pushOperand (echo_emit htemp _) _

theorem echo_emitCall (h : Echoes ρ code s t) (arguments : List Operand) (target : String) :
    Echoes ρ code (Action.emitCall s arguments target) (Action.emitCall t arguments target) := by
  unfold Action.emitCall
  refine echo_emit ?_ _
  induction arguments generalizing s t with
  | nil => exact h
  | cons o arguments ih => exact ih (echo_emit h _)

theorem echo_summarize (h : Echoes ρ code s t) (id : Option SymbolId) :
    Echoes ρ code (s.summarize id) (t.summarize id) := by
  cases id with
  | none => exact h
  | some id =>
    obtain ⟨log, rfl⟩ := h
    exact ⟨log, rfl⟩

theorem echo_closeScope (h : Echoes ρ code s t) : Echoes ρ code s.closeScope t.closeScope := by
  obtain ⟨log, rfl⟩ := h
  unfold closeScope
  dsimp only
  rw [noteAll_eq, noteAll_eq]
  exact ⟨_, rfl⟩

theorem echo_leaveScope (h : Echoes ρ code s t) : Echoes ρ code s.leaveScope t.leaveScope := by
  have htold := echo_summarize (echo_summarize h s.parent) s.current
  obtain ⟨log, rfl⟩ := h
  exact echo_closeScope htold

/-! ## Names -/

/-- A record that is asked for in vain is blamed on no line. -/
theorem alike_fetch (table : SymbolTable) (id : SymbolId) :
    Alike ρ Eq (table.fetch id) (table.fetch id) := by
  unfold SymbolTable.fetch
  split
  · exact .ok rfl
  · exact .error (.deletedSymbol id)

theorem alike_operandOf (s : State) (id : SymbolId) :
    Alike ρ Eq (s.operandOf id) (s.operandOf id) := by
  refine (alike_fetch s.symbols id).bind ?_
  rintro r _ rfl
  split <;> exact .ok rfl

theorem alike_qualifiedName (s : State) (id : SymbolId) :
    Alike ρ Eq (s.qualifiedName id) (s.qualifiedName id) := by
  refine (alike_fetch s.symbols id).bind ?_
  rintro r _ rfl
  split <;> exact .ok rfl

theorem alike_callTarget (s : State) (qualifier : Option String) (method : String) :
    Alike ρ Eq (s.callTarget qualifier method) (s.callTarget qualifier method) := by
  unfold callTarget
  split
  · exact .ok rfl
  · dsimp only
    split
    · refine (alike_fetch s.symbols _).bind ?_
      rintro r _ rfl
      split
      · exact alike_qualifiedName s _
      · exact .ok rfl
    · exact .ok rfl

theorem alike_resolveTarget (s : State) (line : Nat) (access : Access) (name : String) :
    Alike ρ Eq (s.resolveTarget line access name) (s.resolveTarget (ρ line) access name) := by
  unfold resolveTarget
  split
  · exact .ok rfl
  · exact .error (.undeclaredTarget line access name)

/-! ## Actions -/

theorem alike_declare (h : Echoes ρ code s t) (line : Nat) (name : String) (entity : Entity) :
    Alike ρ (Echoes ρ code) (s.declare line name entity) (t.declare (ρ line) name entity) := by
  have henroll := echo_enroll h name entity
  obtain ⟨log, rfl⟩ := h
  unfold declare
  change Alike ρ _ (if s.declares name then _ else _) (if s.declares name then _ else _)
  split
  · exact .error (.duplicate line name)
  · exact .ok henroll

theorem alike_resolve (h : Echoes ρ code s t) (line : Nat) (name : String) :
    Alike ρ (fun x y => ∃ log, y = (x.1, x.2.echo ρ code log)) (s.resolve line name)
      (t.resolve (ρ line) name) := by
  obtain ⟨log, rfl⟩ := h
  unfold resolve
  rw [symbols_echo]
  split
  · exact .ok ⟨log, rfl⟩
  · have hwarned : Echoes ρ code
        { s.note (.undeclaredVariable line name) with warnings := s.warnings.push ⟨line, name⟩ }
        { (s.echo ρ code log).note (.undeclaredVariable (ρ line) name) with
          warnings := (s.echo ρ code log).warnings.push ⟨ρ line, name⟩ } := by
      refine ⟨log.push (.undeclaredVariable (ρ line) name), ?_⟩
      simp [echo, note, Warning.reline]
    refine (alike_declare hwarned line name .placeholder).bind ?_
    rintro u v ⟨log', rfl⟩
    exact .ok ⟨log', rfl⟩

theorem alike_beginMethod (h : Echoes ρ code s t) (line : Nat) (name : String)
    (returns : ValueType) :
    Alike ρ (Echoes ρ code) (Action.beginMethod s line name returns)
      (Action.beginMethod t (ρ line) name returns) := by
  have hdeclare := alike_declare h line name (.newMethod returns)
  obtain ⟨log, rfl⟩ := h
  refine hdeclare.bind ?_
  rintro u v ⟨log', rfl⟩
  refine (alike_qualifiedName u s.symbols.nextId).bind ?_
  rintro procedure _ rfl
  obtain ⟨log'', hemit⟩ := echo_emit ⟨log', rfl⟩ (.proc procedure)
  exact .ok ⟨log'', by rw [hemit]; rfl⟩

/-- What is looked up in the record of an owner is the same behind other code. -/
theorem alike_owner (h : Echoes ρ code s t) (id : Option SymbolId) {f g : SymbolId → Symbol → State}
    (hfg : ∀ i r, Echoes ρ code (f i r) (g i r)) :
    Alike ρ (Echoes ρ code)
      (match id with
        | some i => s.symbols.fetch i >>= fun r => .ok (f i r)
        | none => .ok s)
      (match id with
        | some i => t.symbols.fetch i >>= fun r => .ok (g i r)
        | none => .ok t) := by
  cases id with
  | none => exact .ok h
  | some i =>
    obtain ⟨log, rfl⟩ := h
    refine (alike_fetch s.symbols i).bind ?_
    rintro r _ rfl
    exact .ok (hfg i r)

/-- The statements of a body do the same behind other code. -/
theorem alike_code (h : Echoes ρ code s t) {a : Action} (ha : a.isCode = true) :
    Alike ρ (Echoes ρ code) (a.apply s) ((a.reline ρ).apply t) := by
  obtain ⟨log, rfl⟩ := h
  have h : Echoes ρ code s (s.echo ρ code log) := ⟨log, rfl⟩
  cases a with
  | load line name =>
    refine (alike_resolve h line name).bind ?_
    rintro ⟨id, u⟩ _ ⟨log', rfl⟩
    refine (alike_operandOf u id).bind ?_
    rintro o _ rfl
    exact .ok ⟨_, rfl⟩
  | literal text => exact .ok (echo_pushOperand h _)
  | negate =>
    simp only [Action.reline, Action.apply, operands_echo]
    split
    · exact .ok (echo_negate (echo_operands h _) _)
    · exact .ok h
  | binary op =>
    simp only [Action.reline, Action.apply, operands_echo]
    split
    · exact .ok (echo_combine (echo_operands h _) _ _ _)
    · exact .ok h
  | target line name =>
    refine (alike_resolve h line name).bind ?_
    rintro ⟨id, u⟩ _ ⟨log', rfl⟩
    refine (alike_fetch u.symbols id).bind ?_
    rintro r _ rfl
    dsimp only
    split
    · exact .error _
    · refine (alike_operandOf u id).bind ?_
      rintro o _ rfl
      exact .ok ⟨_, rfl⟩
  | assign op =>
    simp only [Action.reline, Action.apply, operands_echo]
    split
    · exact .ok (echo_emit (echo_operands h _) _)
    · exact .ok h
  | call qualifier method count =>
    refine (alike_callTarget s qualifier method).bind ?_
    rintro target _ rfl
    exact .ok (echo_emitCall (echo_operands h _) _ _)
  | result => exact .ok (echo_pushOperand h _)
  | park =>
    obtain ⟨hdest, htemp⟩ := echo_newTemp h
    simp only [Action.reline, Action.apply]
    rw [hdest]
    exact .ok (echo_pushOperand (echo_emit htemp _) _)
  | returnValue =>
    simp only [Action.reline, Action.apply, operands_echo]
    split
    · refine .ok ?_
      change Echoes ρ code (if s.inMain then _ else _) (if s.inMain then _ else _)
      split
      · exact echo_operands h _
      · exact echo_emit (echo_operands h _) _
    · exact .ok h
  | read line name =>
    refine (alike_resolveTarget s line .read name).bind ?_
    rintro id _ rfl
    refine (alike_fetch s.symbols id).bind ?_
    rintro r _ rfl
    split
    · exact .error _
    · refine (alike_operandOf s id).bind ?_
      rintro o _ rfl
      exact .ok (echo_emit h _)
  | writeName line name =>
    refine (alike_resolveTarget s line .write name).bind ?_
    rintro id _ rfl
    refine (alike_operandOf s id).bind ?_
    rintro o _ rfl
    exact .ok (echo_emit h _)
  | writeNumber text => exact .ok (echo_emit h _)
  | writeText lexeme =>
    have hnoted := echo_noteAll h (s.strings.internRecords lexeme)
      (s.strings.internRecords lexeme)
    exact .ok (echo_emit (echo_strings hnoted (s.strings.intern lexeme)) _)
  | writeLine => exact .ok (echo_emit h _)
  | scan | usingName | openNamespace | closeNamespace | openClass | derive | openClassBody
  | closeClass | declare | openMethod | openConstructor | openParams | closeParams | openBody
  | sizeFrame | closeMethod => cases ha

/-- An action does the same behind other code. -/
theorem alike_apply (h : Echoes ρ code s t) (a : Action) :
    Alike ρ (Echoes ρ code) (a.apply s) ((a.reline ρ).apply t) := by
  by_cases ha : a.isCode = true
  · exact alike_code h ha
  obtain ⟨log, rfl⟩ := h
  have h : Echoes ρ code s (s.echo ρ code log) := ⟨log, rfl⟩
  cases a with
  | scan item => exact .ok (echo_noteAll h _ _)
  | usingName name => exact .ok (echo_note h _ _)
  | openNamespace line name start =>
    refine (alike_declare h line name .space).bind ?_
    rintro u v ⟨log', rfl⟩
    exact .ok ⟨_, rfl⟩
  | closeNamespace => exact .ok ⟨log, rfl⟩
  | openClass line name =>
    exact alike_declare (s := { s with depth := s.depth + 1 }) ⟨log, rfl⟩ line name .newClass
  | derive name base => exact .ok (echo_note h _ _)
  | openClassBody => exact alike_owner h s.currentClass fun _ _ => ⟨_, rfl⟩
  | closeClass => exact .ok (echo_leaveScope h)
  | declare line name entity => exact alike_declare h line name entity
  | openMethod line name returns =>
    refine (alike_beginMethod h line name returns).bind ?_
    rintro u v ⟨log', rfl⟩
    exact .ok ⟨_, rfl⟩
  | openConstructor line name => exact alike_beginMethod h line name .void
  | openParams => exact alike_owner h s.currentMethod fun _ _ => ⟨_, rfl⟩
  | closeParams => exact .ok ⟨log, rfl⟩
  | openBody => exact .ok ⟨log, rfl⟩
  | sizeFrame => exact alike_owner h s.currentMethod fun _ _ => ⟨_, rfl⟩
  | closeMethod =>
    exact .ok (echo_inMain (echo_emit (echo_leaveScope h) (.endp s.procedure)) false)
  | _ => exact absurd rfl ha

/-! ## Runs -/

/-- A run behind other code, with other lines and with what the scanner tells on the way, does the
same. -/
theorem run_reline (h : Echoes ρ code s t) (actions : List Action) :
    Echoes ρ code (s.run (quiet actions)).1 (t.run (actions.map (Action.reline ρ))).1 ∧
      (t.run (actions.map (Action.reline ρ))).2 =
        (s.run (quiet actions)).2.map (Fault.reline ρ) := by
  induction actions generalizing s t with
  | nil => exact ⟨h, rfl⟩
  | cons a actions ih =>
    by_cases hscan : a.isScan = true
    · rw [quiet_cons_scan hscan]
      cases a with
      | scan item => exact ih (echo_noteAll h [] item.records)
      | _ => cases hscan
    · rw [quiet_cons hscan, List.map_cons, run, run]
      have happly := alike_apply h a
      generalize a.apply s = x at happly ⊢
      generalize (a.reline ρ).apply t = y at happly ⊢
      cases happly with
      | ok huv => exact ih huv
      | error fault => exact ⟨h, rfl⟩

theorem echoes_initial (ρ : Nat → Nat) : Echoes ρ #[] .initial .initial :=
  ⟨#[], by simp [echo, initial]⟩

theorem run_quiet (h : Echoes id code s t) (actions : List Action) :
    Echoes id code (s.run (quiet actions)).1 (t.run actions).1 ∧
      (t.run actions).2 = (s.run (quiet actions)).2 := by
  have hrun := run_reline h actions
  have hactions : actions.map (Action.reline id) = actions := by
    simp [funext Action.reline_id]
  have hfault : Fault.reline id = id := funext Fault.reline_id
  rwa [hactions, hfault, Option.map_id] at hrun

/-- Code only grows. -/
theorem code_run (s : State) (actions : List Action) :
    ∃ code, (s.run actions).1.code.toList = s.code.toList ++ code := by
  have hempty : Echoes id s.code { s with code := #[] } s :=
    ⟨s.log, by simp [echo, show Warning.reline id = id from rfl]⟩
  obtain ⟨⟨log, hrun⟩, -⟩ := run_quiet hempty actions
  refine ⟨({ s with code := #[] }.run (quiet actions)).1.code.toList, ?_⟩
  rw [hrun]
  simp [echo]

end

end State

/-- What the scanner tells has its place everywhere. -/
theorem Phase.legal_quiet {φ ψ : Phase} {actions : List Action} (h : Legal φ actions ψ) :
    Legal φ (quiet actions) ψ := by
  induction h with
  | nil φ => exact .nil φ
  | begin _ ih => exact .begin ih
  | @cons φ χ ψ a actions here _ ih =>
    by_cases hscan : a.isScan = true
    · rw [quiet_cons_scan hscan]
      cases a with
      | scan item =>
        have hsame : φ.next? (.scan item) = some φ := by cases φ <;> rfl
        rw [hsame] at here
        cases here
        exact ih
      | _ => cases hscan
    · rw [quiet_cons hscan]
      exact .cons here ih

end Triad
