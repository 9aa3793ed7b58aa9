import Triad.Proofs.Moves
import Triad.Proofs.Temporaries

/-!
What the code of a body does, step by step. A value is put down for a name, an old value is put
down, a new one is worked out in a word of its own, or values are used up by instructions; whatever
an instruction refers to is at hand or known by a name. The five cases are listed here once
(`Coded`). All other actions leave values and warnings as they are (`tally_apply`).
-/

namespace Triad

/-- What an instruction reads and writes. -/
def Instr.operands : Instr → List Operand
  | push source => [source]
  | binary dest left _ right => [dest, left, right]
  | assign dest source => [dest, source]
  | negate dest source => [dest, source]
  | readInt dest => [dest]
  | writeInt source => [source]
  | _ => []

def Operand.isFrame : Operand → Bool
  | frame _ => true
  | _ => false

/-- How many values an action takes. -/
def Action.pops : Action → Nat
  | negate | returnValue => 1
  | binary _ | assign _ => 2
  | call _ _ count => count
  | _ => 0

/-- How many values an action leaves in place of those it takes. -/
def Action.pushes : Action → Nat
  | load _ _ | literal _ | target _ _ | result | park | negate | binary _ => 1
  | _ => 0

/-- The name that an action asks the value or the place of. -/
def Action.mentioned? : Action → Option String
  | load _ name | target _ name => some name
  | _ => none

/-- Whether the action takes a new word of the frame in the state. -/
def Action.drawsWord (s : State) : Action → Bool
  | negate =>
    match s.operands with
    | source :: _ => !source.isLiteral
    | [] => false
  | binary op =>
    match s.operands with
    | right :: left :: _ => (State.identity? left op right).isNone
    | _ => false
  | park => true
  | _ => false

namespace State

/-- The operand is at hand, lies in no frame, or is the slot of a live record. -/
def Known (s : State) (o : Operand) : Prop :=
  o ∈ s.operands ∨ o.isFrame = false ∨ ∃ id r, s.symbols.get? id = some r ∧ o = .frame r.offset

/-- What an action of a body makes of the state once it succeeds. -/
inductive Coded (s : State) (a : Action) : State → Prop
  | named {line : Nat} {name : String} {found : SymbolId × State} {o : Operand}
      (pops : a.pops = 0) (pushes : a.pushes = 1) (resolved : s.resolve line name = .ok found)
      (known : found.2.Known o) (mentions : a.mentioned? = some name) :
      Coded s a (found.2.pushOperand o)
  | pushed {rest : List Operand} {o : Operand} (taken : rest = s.operands.drop a.pops)
      (pushes : a.pushes = 1) (known : s.Known o) :
      Coded s a ({ s with operands := rest }.pushOperand o)
  | computed {rest : List Operand} {i : Instr} (taken : rest = s.operands.drop a.pops)
      (pushes : a.pushes = 1)
      (known : ∀ o ∈ i.operands, o = .frame s.tempRecord.offset ∨ s.Known o)
      (draws : a.drawsWord s = true) :
      Coded s a (({ s with operands := rest }.newTemp.2.emit i).pushOperand
        (.frame s.tempRecord.offset))
  | emitted {t : State} {more : Code} (pushes : a.pushes = 0)
      (symbols : t.symbols = s.symbols) (warnings : t.warnings = s.warnings)
      (inParams : t.inParams = s.inParams) (taken : t.operands = s.operands.drop a.pops)
      (code : t.code.toList = s.code.toList ++ more)
      (known : ∀ i ∈ more, ∀ o ∈ i.operands, s.Known o) (cursor : t.cursor = s.cursor) :
      Coded s a t
  | still (few : s.operands.length < a.pops) : Coded s a s

variable {s t : State}

/-! ## Code -/

theorem known_operandOf {id : SymbolId} {o : Operand} (h : s.operandOf id = .ok o) : s.Known o := by
  obtain ⟨r, hr, ⟨value, -, rfl⟩ | ⟨-, rfl⟩⟩ := record_of_operandOf h
  · exact .inr (.inl rfl)
  · split
    · exact .inr (.inl rfl)
    · exact .inr (.inr ⟨id, r, hr, rfl⟩)

/-- An operation that changes nothing gives one of its values. -/
theorem identity?_cases {left right same : Operand} {op : BinOp}
    (h : identity? left op right = some same) : same = left ∨ same = right := by
  unfold identity? at h
  cases op <;> dsimp only at h <;> grind

/-- Only code and log are longer behind a call. -/
theorem emitCall_eq (s : State) (arguments : List Operand) (target : String) :
    ∃ log, Action.emitCall s arguments target =
      { s with
        code := s.code ++ (arguments.map Instr.push ++ [Instr.call target]).toArray
        log := log } := by
  induction arguments generalizing s with
  | nil => exact ⟨s.log.push (.emitted (.call target)), by simp [Action.emitCall, emit, note]⟩
  | cons o arguments ih =>
    obtain ⟨log, heq⟩ := ih (s.emit (.push o))
    refine ⟨log, ?_⟩
    change Action.emitCall (s.emit (.push o)) arguments target = _
    rw [heq]
    simp [emit, note]

theorem coded_negate {source : Operand} {rest : List Operand} (h : s.operands = source :: rest) :
    s.Coded .negate ({ s with operands := rest }.negate source) := by
  have hsource : s.Known source := .inl (h ▸ List.mem_cons_self)
  have htaken : rest = s.operands.drop 1 := by rw [h]; rfl
  unfold negate
  split
  · exact .pushed htaken rfl (.inr (.inl rfl))
  · rename_i hvalue
    refine .computed (i := .negate _ _) htaken rfl ?_ ?_
    · simp [Instr.operands, tempRecord, hsource]
    · rw [Action.drawsWord, h]
      cases source <;> first | rfl | exact absurd rfl (hvalue _)

theorem coded_binary {left right : Operand} {rest : List Operand} (op : BinOp)
    (h : s.operands = right :: left :: rest) :
    s.Coded (.binary op) ({ s with operands := rest }.combine left op right) := by
  have hright : s.Known right := .inl (by simp [h])
  have hleft : s.Known left := .inl (by simp [h])
  have htaken : rest = s.operands.drop 2 := by rw [h]; rfl
  unfold combine
  split
  · rename_i same hsame
    refine .pushed htaken rfl ?_
    rcases identity?_cases hsame with rfl | rfl
    · exact hleft
    · exact hright
  · rename_i hneeded
    refine .computed (i := .binary _ _ _ _) htaken rfl ?_ ?_
    · simp [Instr.operands, tempRecord, hleft, hright]
    · simp [Action.drawsWord, h, hneeded]

/-- An assignment has to do with its destination and its source only. -/
theorem mem_operands_assignInstr {dest source o : Operand} {op : Option BinOp}
    (h : o ∈ (assignInstr dest op source).operands) : o = dest ∨ o = source := by
  unfold assignInstr at h
  split at h
  · simpa [Instr.operands] using h
  · split at h
    · rename_i same hsame
      rcases identity?_cases hsame with rfl | rfl
      · exact .inl (by simpa [Instr.operands] using h)
      · simpa [Instr.operands] using h
    · simpa [Instr.operands] using h

theorem known_assignInstr {dest source : Operand} (op : Option BinOp) (hdest : s.Known dest)
    (hsource : s.Known source) : ∀ o ∈ (assignInstr dest op source).operands, s.Known o := by
  intro o ho
  rcases mem_operands_assignInstr ho with rfl | rfl
  · exact hdest
  · exact hsource

/-- One instruction behind the others. -/
theorem coded_emit {a : Action} {rest : List Operand} {i : Instr}
    (taken : rest = s.operands.drop a.pops) (pushes : a.pushes = 0)
    (known : ∀ o ∈ i.operands, s.Known o) : s.Coded a ({ s with operands := rest }.emit i) :=
  .emitted pushes rfl rfl rfl taken Array.toList_push (by simpa using known) rfl

/-- The arguments of a call are pushed, and the call follows. -/
theorem coded_call (qualifier : Option String) (method : String) (count : Nat) (target : String) :
    s.Coded (.call qualifier method count)
      (Action.emitCall { s with operands := s.operands.drop count } (s.operands.take count)
        target) := by
  obtain ⟨log, heq⟩ := emitCall_eq { s with operands := s.operands.drop count }
    (s.operands.take count) target
  rw [heq]
  refine .emitted rfl rfl rfl rfl rfl (Array.toList_append ..) (fun i hi o ho => ?_) rfl
  rcases List.mem_append.mp hi with hi | hi
  · obtain ⟨argument, hargument, rfl⟩ := List.mem_map.mp hi
    rw [List.mem_singleton.mp ho]
    exact .inl (List.mem_of_mem_take hargument)
  · rw [List.mem_singleton.mp hi] at ho
    cases ho

/-- Code that succeeds does one of the five. -/
theorem coded_of_apply {a : Action} (hcode : a.isCode = true) (h : a.apply s = .ok t) :
    s.Coded a t := by
  cases outcome_of_ok h with
  | loaded resolved refers => exact .named rfl rfl resolved (known_operandOf refers) rfl
  | targeted resolved _ _ refers => exact .named rfl rfl resolved (known_operandOf refers) rfl
  | literal | result => exact .pushed rfl rfl (.inr (.inl rfl))
  | parked =>
    refine .computed (i := .assign (.frame s.tempRecord.offset) .accumulator) rfl rfl ?_ rfl
    simp [Instr.operands, Known, Operand.isFrame]
  | negated operands => exact coded_negate operands
  | notNegated operands => exact .still (by simp [operands, Action.pops])
  | combined operands => exact coded_binary _ operands
  | notCombined few => exact .still few
  | assigned operands =>
    refine coded_emit (by rw [operands]; rfl) rfl ?_
    exact known_assignInstr _ (.inl (by simp [operands])) (.inl (by simp [operands]))
  | notAssigned few => exact .still few
  | called => exact coded_call _ _ _ _
  | @returned value rest operands =>
    have htaken : rest = s.operands.drop 1 := by rw [operands]; rfl
    split
    · exact .emitted rfl rfl rfl rfl htaken (List.append_nil _).symm
        (fun i hi => absurd hi List.not_mem_nil) rfl
    · refine coded_emit htaken rfl ?_
      simp [Instr.operands, Known, Operand.isFrame, operands]
  | notReturned operands => exact .still (by simp [operands, Action.pops])
  | read _ _ _ refers =>
    exact coded_emit rfl rfl (by simpa [Instr.operands] using known_operandOf refers)
  | wroteName _ refers =>
    exact coded_emit rfl rfl (by simpa [Instr.operands] using known_operandOf refers)
  | wroteNumber => exact coded_emit rfl rfl (by simp [Instr.operands, Known, Operand.isFrame])
  | wroteText =>
    rw [noteAll_eq]
    exact .emitted rfl rfl rfl rfl rfl Array.toList_push (by simp [Instr.operands]) rfl
  | wroteLine => exact coded_emit rfl rfl (by simp [Instr.operands])
  | _ => cases hcode

/-! ## Values and warnings -/

/-- What code alone changes: the values at hand, and the warnings. -/
def tally (s : State) : List Operand × Array Warning := (s.operands, s.warnings)

/-- The same, and whether parameters are read. -/
def margin (s : State) : (List Operand × Array Warning) × Bool := (s.tally, s.inParams)

theorem margin_modifySymbol (s : State) (id : Option SymbolId) (f : Symbol → Symbol) :
    (s.modifySymbol id f).margin = s.margin := by
  cases id <;> rfl

theorem margin_newTemp (s : State) : s.newTemp.2.margin = s.margin := margin_modifySymbol _ _ _

theorem symbols_newTemp_congr (s : State) (operands : List Operand) :
    { s with operands := operands }.newTemp.2.symbols = s.newTemp.2.symbols := by
  unfold newTemp modifySymbol
  dsimp only
  cases s.currentMethod <;> rfl

theorem margin_leaveScope (s : State) : s.leaveScope.margin = s.margin := by
  have hsummarize : ∀ (u : State) (id : Option SymbolId), (u.summarize id).margin = u.margin := by
    intro u id
    cases id <;> rfl
  have hclose : ∀ u : State, u.closeScope.margin = u.margin := by
    intro u
    unfold closeScope
    dsimp only
    rw [noteAll_eq]
    rfl
  unfold leaveScope
  rw [hclose, hsummarize, hsummarize]

theorem margin_enroll (s : State) (name : String) (entity : Entity) :
    (s.enroll name entity).margin = s.margin :=
  margin_modifySymbol { s with symbols := s.symbols.insert (s.recordOf name entity) } s.parent
    (s.charge entity)

theorem margin_apply {a : Action} (hcode : a.isCode = false) (hopen : a ≠ .openParams)
    (hclose : a ≠ .closeParams) (h : a.apply s = .ok t) : t.margin = s.margin := by
  cases outcome_of_ok h with
  | scanned =>
    rw [noteAll_eq]
    rfl
  | spaceOpened | declared | methodOpened | constructorOpened => exact (margin_enroll s _ _ :)
  | classOpened => exact (margin_enroll { s with depth := s.depth + 1 } _ _ :)
  | paramsEntered | noParams => exact absurd rfl hopen
  | paramsClosed => exact absurd rfl hclose
  | classClosed | methodClosed => exact (margin_leaveScope s :)
  | used | spaceClosed | derived | classEntered | noClass | bodyOpened | frameSized | noFrame => rfl
  | _ => cases hcode

theorem tally_apply {a : Action} (hcode : a.isCode = false) (h : a.apply s = .ok t) :
    t.tally = s.tally := by
  cases a with
  | openParams => cases outcome_of_ok h <;> rfl
  | closeParams =>
    cases outcome_of_ok h
    rfl
  | _ => exact congrArg Prod.fst (margin_apply hcode nofun nofun h)

theorem tally_run {actions : List Action} (hall : ∀ a ∈ actions, a.isCode = false)
    (hrun : s.run actions = (t, none)) : t.tally = s.tally := by
  induction actions generalizing s with
  | nil =>
    cases hrun
    rfl
  | cons a actions ih =>
    obtain ⟨u, happly, hu⟩ := run_cons_eq_none.mp hrun
    exact (ih (fun b hb => hall b (List.mem_cons_of_mem a hb)) hu).trans
      (tally_apply (hall a List.mem_cons_self) happly)

/-- The name has no record, and gets one and a warning. -/
structure Warned (line : Nat) (name : String) (s t : State) : Prop where
  unknown : s.symbols.lookup name = none
  symbols : t.symbols = (s.enroll name .placeholder).symbols
  warnings : t.warnings = s.warnings.push ⟨line, name⟩

theorem margin_resolve {line : Nat} {name : String} {found : SymbolId × State}
    (h : s.resolve line name = .ok found) :
    found.2.operands = s.operands ∧ found.2.inParams = s.inParams ∧
      ((found.2 = s ∧ s.symbols.lookup name = some found.1) ∨ Warned line name s found.2) := by
  rcases found_of_resolve h with ⟨hknown, hsame⟩ | ⟨hunknown, -, hmade⟩
  · rw [hsame]
    exact ⟨rfl, rfl, .inl ⟨rfl, hknown⟩⟩
  · have hmargin := margin_enroll (s.warn line name) name .placeholder
    rw [hmade]
    refine ⟨congrArg (·.1.1) hmargin, congrArg Prod.snd hmargin, .inr ⟨hunknown, ?_,
      congrArg (·.1.2) hmargin⟩⟩
    exact symbols_enroll_congr name .placeholder ⟨rfl, rfl, rfl, rfl, rfl⟩

namespace Coded

variable {a : Action}

/-- Code takes and leaves as many values as it says. -/
theorem length (h : s.Coded a t) (henough : a.pops ≤ s.operands.length) :
    t.operands.length = s.operands.length - a.pops + a.pushes := by
  cases h with
  | named pops pushes resolved =>
    rw [pops, pushes, ← (margin_resolve resolved).1]
    rfl
  | pushed taken pushes =>
    rw [pushes, ← List.length_drop, ← taken]
    rfl
  | @computed rest i taken pushes =>
    rw [pushes, ← List.length_drop, ← taken]
    exact congrArg (·.1.1.length + 1) (margin_newTemp { s with operands := rest })
  | emitted pushes _ _ _ taken => rw [pushes, taken, List.length_drop, Nat.add_zero]
  | still few => omega

/-- The table stays as it is, but for a new word or for a name that is warned of. -/
theorem warnings_cases (h : s.Coded a t) :
    (t.warnings = s.warnings ∧
        (t.symbols = s.symbols ∨ t.symbols = s.newTemp.2.symbols)) ∨
      ∃ line name, Warned line name s t := by
  cases h with
  | named _ _ resolved =>
    rcases (margin_resolve resolved).2.2 with ⟨hsame, -⟩ | hwarned
    · rw [hsame]
      exact .inl ⟨rfl, .inl rfl⟩
    · exact .inr ⟨_, _, hwarned.unknown, hwarned.symbols, hwarned.warnings⟩
  | pushed => exact .inl ⟨rfl, .inl rfl⟩
  | @computed rest =>
    have hwarnings : { s with operands := rest }.newTemp.2.warnings = s.warnings :=
      congrArg (·.1.2) (margin_newTemp { s with operands := rest })
    exact .inl ⟨hwarnings, .inr (symbols_newTemp_congr s rest)⟩
  | emitted _ symbols warnings => exact .inl ⟨warnings, .inl symbols⟩
  | still => exact .inl ⟨rfl, .inl rfl⟩

/-- Code reads no parameters. -/
theorem inParams_eq (h : s.Coded a t) : t.inParams = s.inParams := by
  cases h with
  | named _ _ resolved => exact (margin_resolve resolved).2.1
  | pushed => rfl
  | @computed rest => exact congrArg Prod.snd (margin_newTemp { s with operands := rest })
  | emitted _ _ _ inParams => exact inParams
  | still => rfl

/-- Without a new warning, there is at most a new word in the table. -/
theorem symbols_cases (h : s.Coded a t) (hquiet : t.warnings = s.warnings) :
    t.symbols = s.symbols ∨ t.symbols = s.newTemp.2.symbols := by
  rcases h.warnings_cases with ⟨-, hsymbols⟩ | ⟨line, name, hwarned⟩
  · exact hsymbols
  · exact absurd (congrArg Array.size (hwarned.warnings.symm.trans hquiet)) (by simp)

end Coded

/-- Warnings are never taken back. -/
theorem quiet_of_run {actions : List Action} (hrun : s.run actions = (t, none))
    (ht : t.warnings = #[]) : s.warnings = #[] := by
  induction actions generalizing s with
  | nil =>
    cases hrun
    exact ht
  | cons a actions ih =>
    obtain ⟨u, happly, hu⟩ := run_cons_eq_none.mp hrun
    have hquiet := ih hu
    cases hcode : a.isCode with
    | true =>
      rcases (coded_of_apply hcode happly).warnings_cases with ⟨hsame, -⟩ | ⟨line, name, hwarned⟩
      · exact hsame.symm.trans hquiet
      · exact absurd (hwarned.warnings.symm.trans hquiet) Array.push_ne_empty
    | false => exact (congrArg Prod.snd (tally_apply hcode happly)).symm.trans hquiet

end State

end Triad
