import Triad.Proofs.MethodPlaces
import Triad.Proofs.OperandStack

/-!
The desk that code is written at: the values at hand, the code and the strings so far, and what is
known of the open procedure. What each action does to it is listed here once (`Desk.Step`), with all
that is left of a name: what code refers to it by. A legal run is a run at the desk
(`State.run_desk`).
-/

namespace Triad

/-- What code may refer to a name by: the value of a constant, the name of a record outside methods,
or a slot of a frame. -/
inductive SymbolTable.Denotes (t : SymbolTable) : Operand → Prop
  | value (text : String) : Denotes t (.literal text)
  | outer {id : SymbolId} {r : Symbol} (live : t.get? id = some r) (depth : r.depth ≤ 1)
      (changeable : r.entity.isConst = false) : Denotes t (.global r.name)
  | slot (offset : Int) : Denotes t (.frame offset)

/-- Records outside methods stay, and so does what they are referred to by. -/
theorem SymbolTable.Denotes.keep {t t' : SymbolTable} {o : Operand} (h : t.Denotes o)
    (hkeep : ∀ id r, t.get? id = some r → r.depth ≤ 1 →
      ∃ r', t'.get? id = some r' ∧ r'.outline = r.outline) : t'.Denotes o := by
  cases h with
  | value text => exact .value text
  | @outer id r live depth changeable =>
    obtain ⟨r', hr', hout⟩ := hkeep id r live depth
    rw [← Symbol.name_of_outline hout]
    exact .outer hr' (Symbol.depth_of_outline hout ▸ depth)
      ((Symbol.isConst_of_outline hout).trans changeable)
  | slot offset => exact .slot offset

theorem SymbolTable.Denotes.ne_accumulator {t : SymbolTable} {o : Operand} (h : t.Denotes o) :
    o ≠ .accumulator := by
  rintro rfl
  cases h

/-- The action writes nothing, not even the beginning or the end of a procedure. -/
def Action.isStill : Action → Bool
  | openMethod _ _ _ | openConstructor _ _ | closeMethod => false
  | a => !a.isCode

structure Desk where
  operands : List Operand
  code : Code
  strings : StringPool
  procedure : String
  inMain : Bool

namespace Desk

def put (d : Desk) (o : Operand) : Desk := { d with operands := o :: d.operands }

def write (d : Desk) (more : Code) : Desk := { d with code := d.code ++ more }

theorem write_nil (d : Desk) : d.write [] = d := by simp [write]

theorem write_write (d : Desk) (first later : Code) :
    (d.write first).write later = d.write (first ++ later) := by simp [write]

/-- What an action does at the desk. A name may be referred to by any operand that the relation
admits. -/
inductive Step (R : Operand → Prop) (d : Desk) : Action → Desk → Prop
  | idle {a : Action} (still : a.isStill = true) : Step R d a d
  | methodOpened {line : Nat} {name : String} {returns : ValueType} (procedure : String) :
      Step R d (.openMethod line name returns)
        { d.write [.proc procedure] with procedure := procedure, inMain := name == "Main" }
  | constructorOpened {line : Nat} {name : String} (procedure : String) :
      Step R d (.openConstructor line name)
        { d.write [.proc procedure] with procedure := procedure }
  | methodClosed : Step R d .closeMethod { d.write [.endp d.procedure] with inMain := false }
  | load {line : Nat} {name : String} {o : Operand} (refers : R o) :
      Step R d (.load line name) (d.put o)
  | literal {text : String} : Step R d (.literal text) (d.put (.literal text))
  | turned {text : String} {rest : List Operand} (taken : d.operands = .literal text :: rest) :
      Step R d .negate ({ d with operands := rest }.put (.literal (State.negateText text)))
  | negated {source : Operand} {rest : List Operand} {offset : Int}
      (taken : d.operands = source :: rest) :
      Step R d .negate
        (({ d with operands := rest }.write [.negate (.frame offset) source]).put (.frame offset))
  | kept {op : BinOp} {left right same : Operand} {rest : List Operand}
      (taken : d.operands = right :: left :: rest)
      (unchanged : State.identity? left op right = some same) :
      Step R d (.binary op) ({ d with operands := rest }.put same)
  | combined {op : BinOp} {left right : Operand} {rest : List Operand} {offset : Int}
      (taken : d.operands = right :: left :: rest) :
      Step R d (.binary op)
        (({ d with operands := rest }.write [.binary (.frame offset) left op right]).put
          (.frame offset))
  | target {line : Nat} {name : String} {o : Operand} (refers : R o)
      (changeable : o.isLiteral = false) : Step R d (.target line name) (d.put o)
  | assigned {op : Option BinOp} {source dest : Operand} {rest : List Operand}
      (taken : d.operands = source :: dest :: rest) :
      Step R d (.assign op)
        ({ d with operands := rest }.write [State.assignInstr dest op source])
  | called {qualifier : Option String} {method : String} {count : Nat} (target : String) :
      Step R d (.call qualifier method count)
        ({ d with operands := d.operands.drop count }.write
          ((d.operands.take count).map Instr.push ++ [Instr.call target]))
  | result : Step R d .result (d.put .accumulator)
  | parked {offset : Int} :
      Step R d .park ((d.write [.assign (.frame offset) .accumulator]).put (.frame offset))
  | returned {value : Operand} {rest : List Operand} (taken : d.operands = value :: rest) :
      Step R d .returnValue
        ({ d with operands := rest }.write
          (if d.inMain then [] else [.assign .accumulator value]))
  | read {line : Nat} {name : String} {o : Operand} (refers : R o)
      (changeable : o.isLiteral = false) : Step R d (.read line name) (d.write [.readInt o])
  | wroteName {line : Nat} {name : String} {o : Operand} (refers : R o) :
      Step R d (.writeName line name) (d.write [.writeInt o])
  | wroteNumber {text : String} :
      Step R d (.writeNumber text) (d.write [.writeInt (.literal text)])
  | wroteText {lexeme : String} :
      Step R d (.writeText lexeme)
        { d.write [.writeStr (d.strings.entryFor lexeme).1.label] with
          strings := d.strings.intern lexeme }
  | wroteLine : Step R d .writeLine (d.write [.writeLn])

/-- Actions taken one after another. -/
inductive Run (R : Operand → Prop) : Desk → List Action → Desk → Prop
  | nil (d : Desk) : Run R d [] d
  | cons {d e f : Desk} {a : Action} {actions : List Action} (first : d.Step R a e)
      (later : Run R e actions f) : Run R d (a :: actions) f

variable {R R' : Operand → Prop} {d e : Desk}

theorem Step.mono {a : Action} (h : d.Step R a e) (hR : ∀ o, R o → R' o) : d.Step R' a e := by
  cases h with
  | idle still => exact .idle still
  | methodOpened procedure => exact .methodOpened procedure
  | constructorOpened procedure => exact .constructorOpened procedure
  | methodClosed => exact .methodClosed
  | load refers => exact .load (hR _ refers)
  | literal => exact .literal
  | turned taken => exact .turned taken
  | negated taken => exact .negated taken
  | kept taken unchanged => exact .kept taken unchanged
  | combined taken => exact .combined taken
  | target refers changeable => exact .target (hR _ refers) changeable
  | assigned taken => exact .assigned taken
  | called target => exact .called target
  | result => exact .result
  | parked => exact .parked
  | returned taken => exact .returned taken
  | read refers changeable => exact .read (hR _ refers) changeable
  | wroteName refers => exact .wroteName (hR _ refers)
  | wroteNumber => exact .wroteNumber
  | wroteText => exact .wroteText
  | wroteLine => exact .wroteLine

namespace Run

variable {as bs : List Action}

theorem single {a : Action} (h : d.Run R [a] e) : d.Step R a e := by
  cases h with
  | cons first later =>
    cases later
    exact first

theorem split (h : d.Run R (as ++ bs) e) : ∃ m, d.Run R as m ∧ m.Run R bs e := by
  induction as generalizing d with
  | nil => exact ⟨d, .nil d, h⟩
  | cons a as ih =>
    cases h with
    | cons first later =>
      obtain ⟨m, has, hbs⟩ := ih later
      exact ⟨m, .cons first has, hbs⟩

/-- What each step keeps, a run keeps. -/
theorem induction {I : Desk → Prop} (hstep : ∀ d a e, I d → d.Step R a e → I e)
    (h : d.Run R as e) (hd : I d) : I e := by
  induction h with
  | nil d => exact hd
  | cons first later ih => exact ih (hstep _ _ _ hd first)

/-- Actions that write nothing leave the desk as it is. -/
theorem idle (hidle : ∀ a ∈ as, a.isStill = true) (h : d.Run R as e) : e = d := by
  induction h with
  | nil d => rfl
  | @cons d e f a actions first later ih =>
    have hstill := hidle a List.mem_cons_self
    have hfirst : e = d := by
      cases first with
      | idle => rfl
      | _ => cases hstill
    exact (ih fun b hb => hidle b (List.mem_cons_of_mem a hb)).trans hfirst

end Run

/-! ## Where operands come from -/

/-- Every operand at hand or in the code is as told. -/
structure Holds (P : Operand → Prop) (d : Desk) : Prop where
  operands : ∀ o ∈ d.operands, P o
  code : ∀ i ∈ d.code, ∀ o ∈ i.operands, P o

namespace Holds

variable {P : Operand → Prop}

theorem put (h : d.Holds P) {o : Operand} (ho : P o) : (d.put o).Holds P :=
  ⟨List.forall_mem_cons.mpr ⟨ho, h.operands⟩, h.code⟩

theorem write (h : d.Holds P) {more : Code} (hmore : ∀ i ∈ more, ∀ o ∈ i.operands, P o) :
    (d.write more).Holds P :=
  ⟨h.operands, List.forall_mem_append.mpr ⟨h.code, hmore⟩⟩

theorem write_one (h : d.Holds P) {i : Instr} (hi : ∀ o ∈ i.operands, P o) :
    (d.write [i]).Holds P :=
  h.write (List.forall_mem_singleton.mpr hi)

theorem take (h : d.Holds P) {rest : List Operand} (hrest : ∀ o ∈ rest, o ∈ d.operands) :
    { d with operands := rest }.Holds P :=
  ⟨fun o ho => h.operands o (hrest o ho), h.code⟩

end Holds

/-- An operand comes from a name, or is a literal, a slot or the accumulator. -/
theorem Step.holds {P : Operand → Prop} {a : Action} (hR : ∀ o, R o → P o)
    (hliteral : ∀ text, P (.literal text)) (hframe : ∀ offset, P (.frame offset))
    (haccumulator : P .accumulator) (h : d.Step R a e) (hd : d.Holds P) : e.Holds P := by
  -- what is taken from the values at hand is as told, and so is what is left of them
  have htaken : ∀ values {rest : List Operand}, d.operands = values ++ rest →
      (∀ o ∈ values, P o) ∧ { d with operands := rest }.Holds P := by
    intro values rest hoperands
    refine ⟨fun o ho => hd.operands o ?_, hd.take fun o ho => ?_⟩ <;> rw [hoperands] <;>
      simp [ho]
  cases h with
  | idle => exact hd
  | methodOpened procedure | constructorOpened procedure =>
    have hwritten := hd.write_one (i := .proc procedure) (by simp [Instr.operands])
    exact ⟨hwritten.operands, hwritten.code⟩
  | methodClosed =>
    have hwritten := hd.write_one (i := .endp d.procedure) (by simp [Instr.operands])
    exact ⟨hwritten.operands, hwritten.code⟩
  | load refers | target refers => exact hd.put (hR _ refers)
  | literal => exact hd.put (hliteral _)
  | turned taken =>
    obtain ⟨-, hrest⟩ := htaken [_] taken
    exact hrest.put (hliteral _)
  | negated taken =>
    obtain ⟨hvalues, hrest⟩ := htaken [_] taken
    refine (hrest.write_one ?_).put (hframe _)
    simpa [Instr.operands, hframe] using hvalues
  | @kept op left right same rest taken unchanged =>
    obtain ⟨hvalues, hrest⟩ := htaken [right, left] taken
    refine hrest.put (hvalues same ?_)
    rcases State.identity?_cases unchanged with rfl | rfl <;> simp
  | @combined op left right rest offset taken =>
    obtain ⟨hvalues, hrest⟩ := htaken [right, left] taken
    refine (hrest.write_one ?_).put (hframe _)
    simpa [Instr.operands, hframe, and_comm] using hvalues
  | @assigned op source dest rest taken =>
    obtain ⟨hvalues, hrest⟩ := htaken [source, dest] taken
    refine hrest.write_one fun o ho => hvalues o ?_
    rcases State.mem_operands_assignInstr ho with rfl | rfl <;> simp
  | @called qualifier method count target =>
    obtain ⟨hvalues, hrest⟩ := htaken _ (List.take_append_drop count d.operands).symm
    refine hrest.write ?_
    intro i hi
    rcases List.mem_append.mp hi with hi | hi
    · obtain ⟨argument, hargument, rfl⟩ := List.mem_map.mp hi
      simpa [Instr.operands] using hvalues argument hargument
    · rw [List.mem_singleton.mp hi]
      simp [Instr.operands]
  | result => exact hd.put haccumulator
  | parked =>
    refine (hd.write_one ?_).put (hframe _)
    simp [Instr.operands, hframe, haccumulator]
  | returned taken =>
    obtain ⟨hvalues, hrest⟩ := htaken [_] taken
    refine hrest.write ?_
    split
    · simp
    · simpa [Instr.operands, haccumulator] using hvalues
  | read refers => exact hd.write_one (by simpa [Instr.operands] using hR _ refers)
  | wroteName refers => exact hd.write_one (by simpa [Instr.operands] using hR _ refers)
  | wroteNumber => exact hd.write_one (by simpa [Instr.operands] using hliteral _)
  | @wroteText lexeme =>
    have hwritten := hd.write_one (i := .writeStr (d.strings.entryFor lexeme).1.label)
      (by simp [Instr.operands])
    exact ⟨hwritten.operands, hwritten.code⟩
  | wroteLine => exact hd.write_one (by simp [Instr.operands])

end Desk

/-! ## States -/

namespace State

variable {s t : State}

def desk (s : State) : Desk := ⟨s.operands, s.code.toList, s.strings, s.procedure, s.inMain⟩

theorem desk_modifySymbol (s : State) (id : Option SymbolId) (f : Symbol → Symbol) :
    (s.modifySymbol id f).desk = s.desk := by
  cases id <;> rfl

theorem desk_newTemp (s : State) : s.newTemp.2.desk = s.desk := desk_modifySymbol _ _ _

theorem desk_leaveScope (s : State) : s.leaveScope.desk = s.desk := by
  have hsummarize : ∀ (u : State) (id : Option SymbolId), (u.summarize id).desk = u.desk := by
    intro u id
    cases id <;> rfl
  have hclose : ∀ u : State, u.closeScope.desk = u.desk := by
    intro u
    unfold closeScope
    dsimp only
    rw [noteAll_eq]
    rfl
  unfold leaveScope
  rw [hclose, hsummarize, hsummarize]

theorem desk_enroll (s : State) (name : String) (entity : Entity) :
    (s.enroll name entity).desk = s.desk :=
  desk_modifySymbol { s with symbols := s.symbols.insert (s.recordOf name entity) } s.parent
    (s.charge entity)

theorem desk_emit (s : State) (i : Instr) : (s.emit i).desk = s.desk.write [i] := by
  simp [desk, Desk.write, emit, note]

theorem desk_resolve {line : Nat} {name : String} {found : SymbolId × State}
    (h : s.resolve line name = .ok found) : found.2.desk = s.desk := by
  rcases found_of_resolve h with ⟨-, hsame⟩ | ⟨-, -, hmade⟩
  · rw [hsame]
  · rw [hmade]
    exact (desk_enroll (s.warn line name) name .placeholder :)

theorem desk_beginProcedure (s : State) (name : String) (returns : ValueType)
    (procedure : String) : (s.beginProcedure name returns procedure).desk =
      { s.desk.write [.proc procedure] with procedure := procedure } := by
  rw [← desk_enroll s name (.newMethod returns), ← desk_emit]
  rfl

/-- A name is referred to as its record says. -/
theorem denotes_of_operandOf {id : SymbolId} {o : Operand} (h : s.operandOf id = .ok o) :
    s.symbols.Denotes o := by
  obtain ⟨r, hr, ⟨value, -, rfl⟩ | ⟨hconst, rfl⟩⟩ := record_of_operandOf h
  · exact .value _
  · split
    · refine .outer hr ‹_› ?_
      unfold Symbol.constantValue? at hconst
      cases hentity : r.entity with
      | const type value => simp [hentity] at hconst
      | _ => rfl
    · exact .slot _

theorem isLiteral_of_operandOf {id : SymbolId} {r : Symbol} {o : Operand}
    (hr : s.symbols.get? id = some r) (hconst : r.entity.isConst = false)
    (h : s.operandOf id = .ok o) : o.isLiteral = false := by
  obtain ⟨r', hr', ⟨value, hvalue, -⟩ | ⟨-, rfl⟩⟩ := record_of_operandOf h <;>
    cases hr.symm.trans hr'
  · unfold Symbol.constantValue? at hvalue
    split at hvalue
    · rename_i hentity
      rw [hentity] at hconst
      cases hconst
    · cases hvalue
  · split <;> rfl

theorem desk_emitCall (s : State) (arguments : List Operand) (target : String) :
    (Action.emitCall s arguments target).desk =
      s.desk.write (arguments.map Instr.push ++ [Instr.call target]) := by
  obtain ⟨log, heq⟩ := emitCall_eq s arguments target
  rw [heq]
  simp [desk, Desk.write]

/-- What only declares or opens and closes scopes leaves the desk as it is. -/
theorem desk_apply {a : Action} (h : a.apply s = .ok t) (still : a.isStill = true) :
    t.desk = s.desk := by
  cases outcome_of_ok h with
  | scanned =>
    rw [noteAll_eq]
    rfl
  | spaceOpened | declared => exact (desk_enroll s _ _ :)
  | classOpened => exact (desk_enroll { s with depth := s.depth + 1 } _ _ :)
  | classClosed => exact desk_leaveScope s
  | used | spaceClosed | derived | classEntered | noClass | paramsEntered | noParams | paramsClosed
  | bodyOpened | frameSized | noFrame => rfl
  | _ => cases still

theorem step_negate {R : Operand → Prop} {source : Operand} {rest : List Operand}
    (h : s.operands = source :: rest) :
    s.desk.Step R .negate ({ s with operands := rest }.negate source).desk := by
  unfold negate
  split
  · exact .turned (d := s.desk) h
  · change s.desk.Step R .negate
      (({ s with operands := rest }.newTemp.2.emit (.negate _ source)).desk.put _)
    rw [desk_emit, desk_newTemp]
    exact .negated (d := s.desk) h

theorem step_binary {R : Operand → Prop} {left right : Operand} {rest : List Operand} (op : BinOp)
    (h : s.operands = right :: left :: rest) :
    s.desk.Step R (.binary op) ({ s with operands := rest }.combine left op right).desk := by
  unfold combine
  split
  · rename_i same hsame
    exact .kept (d := s.desk) h hsame
  · change s.desk.Step R (.binary op)
      (({ s with operands := rest }.newTemp.2.emit (.binary _ left op right)).desk.put _)
    rw [desk_emit, desk_newTemp]
    exact .combined (d := s.desk) h

/-- An action that finds enough values takes the step that is listed for it. -/
theorem step_desk {a : Action} (h : a.apply s = .ok t) (henough : a.pops ≤ s.operands.length) :
    s.desk.Step t.symbols.Denotes a t.desk := by
  cases outcome_of_ok h with
  | @methodOpened _ name procedure returns =>
    change s.desk.Step _ _
      { (s.beginProcedure name returns procedure).desk with inMain := name == "Main" }
    rw [desk_beginProcedure]
    exact .methodOpened procedure
  | @constructorOpened _ name procedure =>
    rw [desk_beginProcedure]
    exact .constructorOpened procedure
  | methodClosed =>
    change s.desk.Step _ _ { (s.leaveScope.emit (.endp s.procedure)).desk with inMain := false }
    rw [desk_emit, desk_leaveScope]
    exact .methodClosed
  | @loaded _ _ found _ resolved refers =>
    rw [← desk_resolve resolved]
    exact .load (d := found.2.desk) (denotes_of_operandOf refers)
  | @targeted _ _ found _ _ resolved live changeable refers =>
    rw [← desk_resolve resolved]
    exact .target (d := found.2.desk) (denotes_of_operandOf refers)
      (isLiteral_of_operandOf live changeable refers)
  | literal => exact .literal (d := s.desk)
  | result => exact .result (d := s.desk)
  | parked =>
    change s.desk.Step _ .park ((s.newTemp.2.emit (.assign _ .accumulator)).desk.put _)
    rw [desk_emit, desk_newTemp]
    exact .parked
  | negated operands => exact step_negate operands
  | notNegated operands | notReturned operands =>
    rw [operands] at henough
    cases henough
  | combined operands => exact step_binary _ operands
  | notCombined few | notAssigned few => exact absurd henough (Nat.not_le.mpr few)
  | assigned operands =>
    rw [desk_emit]
    exact .assigned (d := s.desk) operands
  | @called _ _ _ target =>
    rw [desk_emitCall]
    exact .called (d := s.desk) target
  | @returned value rest operands =>
    have hstep := Desk.Step.returned (R := s.symbols.Denotes) (d := s.desk) operands
    by_cases hmain : s.inMain = true
    · rw [if_pos hmain]
      rwa [if_pos (show s.desk.inMain = true from hmain), Desk.write_nil] at hstep
    · rw [if_neg hmain, desk_emit]
      rwa [if_neg (show ¬ s.desk.inMain = true from hmain)] at hstep
  | read _ live changeable refers =>
    rw [desk_emit]
    exact .read (denotes_of_operandOf refers) (isLiteral_of_operandOf live changeable refers)
  | wroteName _ refers =>
    rw [desk_emit]
    exact .wroteName (denotes_of_operandOf refers)
  | wroteNumber =>
    rw [desk_emit]
    exact .wroteNumber
  | wroteText =>
    rw [noteAll_eq, desk_emit]
    exact .wroteText (d := s.desk)
  | wroteLine =>
    rw [desk_emit]
    exact .wroteLine
  | _ =>
    rw [desk_apply h rfl]
    exact .idle rfl

/-- A legal run is a run at the desk. Names are referred to by what is still in the table at its
end. -/
theorem run_desk {φ ψ : Phase} {actions : List Action} (hlegal : Phase.Legal φ actions ψ)
    {n : Nat} (hbalanced : Balanced s.operands.length actions n) (hs : Stands φ s)
    (hrun : s.run actions = (t, none)) : s.desk.Run t.symbols.Denotes actions t.desk := by
  induction hlegal generalizing s with
  | nil φ =>
    cases hrun
    exact .nil _
  | begin _ ih => exact ih hbalanced hs.begin hrun
  | cons here later ih =>
    obtain ⟨u, happly, hu⟩ := run_cons_eq_none.mp hrun
    have hstands := stands_apply hs here happly
    cases hbalanced with
    | cons enough opened rest =>
      have hsingle := length_operands_run (.cons enough opened (.nil _))
        (run_cons_eq_none.mpr ⟨u, happly, rfl⟩)
      refine .cons ((step_desk happly enough).mono fun o ho => ?_) (ih (hsingle ▸ rest) hstands hu)
      exact ho.keep fun id r hr hdepth => record_run later hstands hu hr hdepth

end State

open Syntax in
/-- A program is compiled by a run at the desk. -/
theorem IsTree.exists_desk {source : String} {p : Program} {c : Compilation} (hp : IsTree source p)
    (hc : compile source = .ok c) :
    ∃ d, State.initial.desk.Run c.symbols.Denotes p.actions d ∧
      c.code = d.code ++ [.start c.entry] ∧ c.strings = d.strings := by
  obtain ⟨tokens, htokens, htree⟩ := hp
  obtain ⟨hquiet, -, hlegal⟩ := legal_actions htokens htree
  obtain ⟨s, hrun, -, hsymbols, hcode⟩ := exists_run_of_compile hquiet hc
  refine ⟨s.desk, ?_, hcode, strings_of_compile (hquiet.symm ▸ hrun) hc⟩
  rw [hsymbols]
  exact State.run_desk hlegal p.balanced_actions stands_initial hrun

end Triad
