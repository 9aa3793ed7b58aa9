import Mathlib.Data.List.Forall2
import Triad.Proofs.Accumulator
import Triad.Proofs.FrameWords
import Triad.Proofs.Machine
import Triad.Proofs.QualifiedNames

/-!
Where a caller leaves arguments and where the method that is called looks for them. The caller
pushes a word for each argument, the first one last. The method counts the bytes of its types. Main
statement: the two agree on all places just if every parameter but the last one is a whole number,
and also on the bytes that are given back just if all of them are (`arguments_meet_parameters_iff`).
-/

namespace Triad

open Syntax

/-! ## Words on the stack -/

namespace Asm

namespace Machine

/-- A byte of the stack, so many above its top. The low byte of a word comes first. -/
def byte? (m : Machine) (k : Nat) : Option (BitVec 8) :=
  m.stack[k / 2]?.map fun w => w.extractLsb' (8 * (k % 2)) 8

/-- The word that begins so many bytes above the top of the stack. -/
def wordAt? (m : Machine) : Int → Option Word
  | .ofNat k => do return (← m.byte? (k + 1)) ++ (← m.byte? k)
  | .negSucc _ => none

theorem high_append_low (w : Word) : w.extractLsb' 8 8 ++ w.extractLsb' 0 8 = w := by
  apply BitVec.eq_of_getLsbD_eq
  intro i hi
  simp only [BitVec.getLsbD_append, BitVec.getLsbD_extractLsb']
  by_cases hlow : i < 8
  · simp [hlow]
  · have hhigh : i - 8 < 8 := by omega
    have hsum : 8 + (i - 8) = i := by omega
    simp [hlow, hhigh, hsum]

theorem wordAt?_even (m : Machine) (i : Nat) : m.wordAt? (2 * i) = m.stack[i]? := by
  have hlow : m.byte? (2 * i) = m.stack[i]?.map fun w => w.extractLsb' 0 8 := by
    have hindex : 2 * i / 2 = i := by omega
    have hbyte : 2 * i % 2 = 0 := by omega
    rw [byte?, hindex, hbyte]
  have hhigh : m.byte? (2 * i + 1) = m.stack[i]?.map fun w => w.extractLsb' 8 8 := by
    have hindex : (2 * i + 1) / 2 = i := by omega
    have hbyte : (2 * i + 1) % 2 = 1 := by omega
    rw [byte?, hindex, hbyte]
  change (do return (← m.byte? (2 * i + 1)) ++ (← m.byte? (2 * i)) : Option Word) = _
  rw [hlow, hhigh]
  cases m.stack[i]? with
  | none => rfl
  | some w => exact congrArg some (high_append_low w)

/-- The operand holds the word, whatever is pushed meanwhile. -/
def Offers (m : Machine) (o : Operand) (w : Word) : Prop :=
  ∀ sp stack, (sizedAddress o).read { m with sp := sp, stack := stack } = some w

end Machine

variable {m : Machine} {args : List Operand} {words : List Word}

theorem execLines_append (m : Machine) (first later : List Line) :
    execLines m (first ++ later) = (execLines m first).bind fun m => execLines m later :=
  List.foldlM_append

/-- Every operand can be pushed. -/
theorem exec_push (table : SymbolTable) {o : Operand} {w : Word} (h : m.Offers o w) (sp : Word)
    (stack : List Word) :
    execLines { m with sp := sp, stack := stack } (lower table (.push o)) =
      some { m with sp := sp - 2, stack := w :: stack } := by
  have hcan : ((sizedAddress o).hasWidth || !(sizedAddress o).isMemory) = true := by
    cases o <;> rfl
  change (Op.exec _ (.push (sizedAddress o))).bind some = _
  rw [Op.exec, if_pos hcan, h sp stack]
  rfl

/-- Pushed from the last one on, the words end up in the order of the arguments. -/
theorem exec_pushes (table : SymbolTable) (h : List.Forall₂ m.Offers args words) :
    execLines m ((args.reverse.map Instr.push).flatMap (lower table)) =
      some { m with
        sp := m.sp - BitVec.ofNat 16 (2 * args.length)
        stack := words ++ m.stack } := by
  induction h with
  | nil =>
    change some m = some { m with sp := m.sp - 0#16, stack := m.stack }
    rw [BitVec.sub_zero]
  | @cons o w args words ho hrest ih =>
    have hsp : m.sp - BitVec.ofNat 16 (2 * args.length) - 2 =
        m.sp - BitVec.ofNat 16 (2 * (args.length + 1)) := by
      rw [Nat.mul_succ, BitVec.ofNat_add]
      bv_omega
    rw [List.reverse_cons, List.map_append, List.flatMap_append, execLines_append, ih,
      Option.bind_some, List.map_singleton, List.flatMap_singleton, exec_push table ho, hsp]
    rfl

/-- How a procedure begins: the arguments are pushed, the last one first, and the place to come back
to; then its first two instructions are carried out. -/
def enter? (table : SymbolTable) (args : List Operand) (target : String) (back : Word)
    (m : Machine) : Option Machine := do
  let pushed ← execLines m ((args.reverse.map Instr.push).flatMap (lower table))
  execLines (pushed.push back) (((lower table (.proc target)).drop 1).take 2)

/-- The callee has the arguments behind the frame of the caller and the place to come back to. -/
theorem enter?_eq (table : SymbolTable) (target : String) (back : Word)
    (h : List.Forall₂ m.Offers args words) :
    ∃ e, enter? table args target back m = some e ∧ e.bp = e.sp ∧
      e.sp + BitVec.ofNat 16 (4 + 2 * args.length) = m.sp ∧
      e.stack = m.bp :: back :: (words ++ m.stack) := by
  have hsp : m.sp - BitVec.ofNat 16 (2 * args.length) - 2 - 2 +
      BitVec.ofNat 16 (4 + 2 * args.length) = m.sp := by
    rw [BitVec.ofNat_add]
    bv_omega
  rw [enter?, exec_pushes table h]
  exact ⟨_, rfl, rfl, hsp, rfl⟩

/-- The places of so many arguments, counted from where the frame begins. -/
def argumentPlaces (n : Nat) : List Int := (List.range n).map fun i : Nat => 4 + 2 * (i : Int)

theorem map_wordAt? {e : Machine} {saved back : Word} {rest : List Word}
    (h : e.stack = saved :: back :: (words ++ rest)) :
    (argumentPlaces words.length).map e.wordAt? = words.map some := by
  refine List.ext_getElem (by simp [argumentPlaces]) fun i hi hi' => ?_
  have hlt : i < words.length := by simpa using hi'
  have hplace : (4 + 2 * (i : Int)) = 2 * ((i + 2 : Nat) : Int) := by omega
  simp only [argumentPlaces, List.getElem_map, List.getElem_range]
  rw [hplace, Machine.wordAt?_even, h, List.getElem?_cons_succ, List.getElem?_cons_succ,
    List.getElem?_append_left hlt, List.getElem?_eq_getElem hlt]

end Asm

/-! ## Calls -/

namespace Syntax

def Statement.calls : Statement → List Call
  | assign _ _ (.call k) => [k]
  | call k => [k]
  | _ => []

def Program.calls (p : Program) : List Call :=
  p.routines.flatMap fun r => r.body.steps.flatMap Statement.calls

theorem Statement.infix_call {st : Statement} {k : Call} (h : k ∈ st.calls) :
    k.actions <:+: st.actions := by
  unfold calls at h
  split at h
  · rename_i target op k'
    cases List.mem_singleton.mp h
    exact ⟨[.target target.1.line target.1.lexeme],
      [if op.meaning.isSome then .park else .result, .assign op.meaning],
      by simp [Statement.actions, Source.actions]⟩
  · cases List.mem_singleton.mp h
    exact List.infix_rfl
  · cases h

theorem Routine.infix_call {r : Routine} {k : Call}
    (h : k ∈ r.body.steps.flatMap Statement.calls) :
    k.actions <:+: r.heading ++ r.body.actions := by
  obtain ⟨st, hst, hk⟩ := List.mem_flatMap.mp h
  have hsteps : st.actions <:+: r.body.steps.flatMap Statement.actions :=
    List.infix_of_mem_flatten (List.mem_map_of_mem hst)
  have hbody : r.body.steps.flatMap Statement.actions <:+: r.body.actions :=
    ⟨r.body.declarations.flatMap Declaration.actions,
      r.body.returns.toList.flatMap Return.actions,
      by simp [Body.actions, Body.steps, List.flatMap_map]⟩
  exact (Statement.infix_call hk).trans
    (hsteps.trans (hbody.trans (List.suffix_append _ _).isInfix))

theorem Program.infix_call {p : Program} {k : Call} (h : k ∈ p.calls) :
    k.actions <:+: p.actions := by
  obtain ⟨r, hr, h⟩ := List.mem_flatMap.mp h
  exact (Routine.infix_call h).trans (Program.infix_actions hr)

end Syntax

/-- What becomes of a call behind the actions `before`: each argument leaves its value at hand, and
behind their code the values are pushed, the last one first. -/
structure Passed (c : Compilation) (before : List Action) (k : Call) (args : List Operand)
    (target : String) : Prop where
  length : args.length = k.argumentList.length
  values : ∀ i < args.length, ∃ u : State,
    State.initial.run (before ++ (k.argumentList.take (i + 1)).flatMap Expr.actions) = (u, none) ∧
      u.operands.head? = args[i]?
  call : ∃ (u : State) (later : Code),
    State.initial.run (before ++ k.argumentList.flatMap Expr.actions) = (u, none) ∧
      u.callTarget k.target.1 k.target.2 = .ok target ∧
      c.code = u.code.toList ++ (args.reverse.map Instr.push ++ .call target :: later)

section Calls

variable {φ ψ : Phase} {s t : State}

theorem exists_value {r : Rank} (e : Expr r) (hlegal : Phase.Legal φ e.actions ψ)
    (hs : Stands φ s) (hrun : s.run e.actions = (t, none)) :
    ∃ o, t.operands = o :: s.operands := by
  have hdesk := State.run_desk hlegal (e.balanced_actions s.operands.length) hs hrun
  obtain ⟨o, more, -, -, heq⟩ := e.run_tidy (fun _ ho => ho.ne_accumulator) hdesk
  exact ⟨o, congrArg Desk.operands heq⟩

/-- Arguments leave a value each, the last one on top. -/
theorem exists_values {arguments : List (Expr .expr)}
    (hlegal : Phase.Legal φ (arguments.flatMap Expr.actions) ψ) (hs : Stands φ s)
    (hrun : s.run (arguments.flatMap Expr.actions) = (t, none)) :
    ∃ args : List Operand, args.length = arguments.length ∧
      t.operands = args.reverse ++ s.operands ∧
      ∀ i < args.length, ∃ u : State,
        s.run ((arguments.take (i + 1)).flatMap Expr.actions) = (u, none) ∧
          u.operands.head? = args[i]? := by
  induction arguments generalizing s φ with
  | nil =>
    cases hrun
    exact ⟨[], rfl, rfl, fun i hi => absurd hi (Nat.not_lt_zero i)⟩
  | cons e arguments ih =>
    obtain ⟨χ, hfirst, hrest⟩ := Phase.Legal.split hlegal
    obtain ⟨u, hu, hlater⟩ := State.run_append_eq_none.mp hrun
    obtain ⟨o, ho⟩ := exists_value e hfirst hs hu
    obtain ⟨args, hlength, hoperands, hvalues⟩ := ih hrest (stands_run hfirst hs hu) hlater
    refine ⟨o :: args, congrArg (· + 1) hlength, by simp [hoperands, ho], fun i hi => ?_⟩
    cases i with
    | zero => exact ⟨u, by simpa using hu, by simp [ho]⟩
    | succ i =>
      obtain ⟨v, hv, hhead⟩ := hvalues i (Nat.lt_of_succ_lt_succ hi)
      exact ⟨v, State.run_append_eq_none.mpr ⟨u, hu, hv⟩, by simpa using hhead⟩

/-- Behind the arguments of a call of a compiled text, the code goes on with the values at hand, and
the call. -/
theorem exists_called {source : String} {c : Compilation} (hc : compile source = .ok c)
    {p : Program} (hp : IsTree source p) {before after : List Action} {k : Call}
    (hk : p.actions = before ++ k.actions ++ after) :
    ∃ (s u : State) (φ ψ : Phase) (target : String) (later : Code),
      State.initial.run before = (s, none) ∧ Stands φ s ∧
      Phase.Legal φ (k.argumentList.flatMap Expr.actions) ψ ∧
      s.run (k.argumentList.flatMap Expr.actions) = (u, none) ∧
      u.callTarget k.target.1 k.target.2 = .ok target ∧
      c.code = u.code.toList ++
        ((u.operands.take k.argumentList.length).map Instr.push ++ .call target :: later) := by
  obtain ⟨tokens, htokens, htree⟩ := hp
  obtain ⟨hactions, -, hlegal⟩ := legal_actions htokens htree
  obtain ⟨final, hfinal, -, -, hcode⟩ := exists_run_of_compile hactions hc
  have hsplit : p.actions = before ++ (k.argumentList.flatMap Expr.actions ++
      (.call k.target.1 k.target.2 k.argumentList.length :: after)) := by
    rw [hk, Call.actions]
    simp
  rw [hsplit] at hlegal hfinal
  obtain ⟨s, hs, hrest⟩ := State.run_append_eq_none.mp hfinal
  obtain ⟨u, hu, hcall⟩ := State.run_append_eq_none.mp hrest
  obtain ⟨t, ht, hafter⟩ := State.run_cons_eq_none.mp hcall
  obtain ⟨φ, hstands, hlegals⟩ := exists_phase hlegal hs
  obtain ⟨ψ, harguments, -⟩ := hlegals.split
  obtain ⟨target, htarget, hcalled⟩ := called_of_apply ht
  obtain ⟨rest, hcoderest⟩ := State.code_run t after
  rw [hafter] at hcoderest
  have hpushed : t.code.toList = u.code.toList ++
      ((u.operands.take k.argumentList.length).map Instr.push ++ [.call target]) := by
    rw [hcalled]
    exact congrArg Desk.code (State.desk_emitCall
      { u with operands := u.operands.drop k.argumentList.length }
      (u.operands.take k.argumentList.length) target)
  refine ⟨s, u, φ, ψ, target, rest ++ [.start c.entry], hs, hstands, harguments, hu, htarget, ?_⟩
  rw [hcode, hcoderest, hpushed]
  simp

/-- Every call of a compiled text is in its code. -/
theorem exists_passed {source : String} {c : Compilation} (hc : compile source = .ok c)
    {p : Program} (hp : IsTree source p) {before after : List Action} {k : Call}
    (hk : p.actions = before ++ k.actions ++ after) :
    ∃ args target, Passed c before k args target := by
  obtain ⟨s, u, φ, ψ, target, later, hs, hstands, harguments, hu, htarget, hcode⟩ :=
    exists_called hc hp hk
  obtain ⟨args, hlength, hoperands, hvalues⟩ := exists_values harguments hstands hu
  have htaken : u.operands.take k.argumentList.length = args.reverse := by
    rw [hoperands, ← hlength, ← List.length_reverse, List.take_left]
  rw [htaken] at hcode
  refine ⟨args, target, hlength, fun i hi => ?_, u, later,
    State.run_append_eq_none.mpr ⟨s, hs, hu⟩, htarget, hcode⟩
  obtain ⟨v, hv, hhead⟩ := hvalues i hi
  exact ⟨v, State.run_append_eq_none.mpr ⟨s, hs, hv⟩, hhead⟩

variable {c : Compilation} {before : List Action} {k : Call} {args : List Operand}
  {target : String}

/-- There is one list of values. -/
theorem Passed.args_eq (h : Passed c before k args target) {expected : List Operand}
    (hlength : expected.length = k.argumentList.length)
    (hvalues : ∀ i < expected.length, (State.initial.run (before ++
      (k.argumentList.take (i + 1)).flatMap Expr.actions)).1.operands.head? = expected[i]?) :
    args = expected := by
  have hsame : args.length = expected.length := h.length.trans hlength.symm
  refine List.ext_getElem? fun i => ?_
  rcases Nat.lt_or_ge i args.length with hlt | hge
  · obtain ⟨u, hu, hhead⟩ := h.values i hlt
    have hexpected := hvalues i (hsame ▸ hlt)
    rw [hu] at hexpected
    exact hhead.symm.trans hexpected
  · rw [List.getElem?_eq_none hge, List.getElem?_eq_none (hsame ▸ hge)]

theorem Passed.target_eq (h : Passed c before k args target) {name : String}
    (hname : ((State.initial.run (before ++ k.argumentList.flatMap Expr.actions)).1.callTarget
      k.target.1 k.target.2).toOption = some name) : target = name := by
  obtain ⟨u, later, hu, htarget, -⟩ := h.call
  rw [hu, htarget] at hname
  exact Option.some.inj hname

end Calls

/-! ## Parameters -/

/-- The place of a parameter is behind the bytes of those before it. -/
theorem FrameCursor.slots_eq {c : FrameCursor} (hstep : c.step = 1) (types : List ValueType) :
    c.slots types =
      (List.range types.length).map fun i : Nat => c.offset + bytes (types.take i) := by
  induction types generalizing c with
  | nil => rfl
  | cons type types ih =>
    have hoffset : (c.declare type.size).offset = c.offset + type.size := by
      simp [declare, hstep]
    rw [slots, ih (c := c.declare type.size) hstep, hoffset, List.length_cons,
      List.range_succ_eq_map, List.map_cons, List.map_map]
    congr 1
    · simp [bytes]
    · refine List.map_congr_left fun i _ => ?_
      simp [bytes_cons, Int.add_assoc]

theorem ValueType.size_eq_two_iff (type : ValueType) : type.size = 2 ↔ type = .int := by
  cases type <;> decide

/-- Only whole numbers fill a word each. -/
theorem bytes_take_iff (types : List ValueType) :
    (∀ i ≤ types.length, bytes (types.take i) = 2 * i) ↔ ∀ type ∈ types, type = .int := by
  induction types with
  | nil => simp [bytes]
  | cons type types ih =>
    rw [List.forall_mem_cons, ← ih, ← type.size_eq_two_iff]
    constructor
    · intro h
      have hfirst : type.size = 2 := by simpa [bytes] using h 1 (Nat.le_add_left 1 _)
      refine ⟨hfirst, fun i hi => ?_⟩
      have hnext := h (i + 1) (Nat.succ_le_succ hi)
      rw [List.take_succ_cons, bytes_cons] at hnext
      omega
    · rintro ⟨hfirst, hrest⟩ i hi
      cases i with
      | zero => rfl
      | succ i =>
        have hlater := hrest i (Nat.le_of_succ_le_succ hi)
        rw [List.take_succ_cons, bytes_cons]
        omega

theorem bytes_take_dropLast_iff (types : List ValueType) :
    (∀ i < types.length, bytes (types.take i) = 2 * i) ↔
      ∀ type ∈ types.dropLast, type = .int := by
  rw [← bytes_take_iff, List.length_dropLast]
  have htake : ∀ i ≤ types.length - 1, types.dropLast.take i = types.take i := by
    intro i hi
    rw [List.dropLast_eq_take, List.take_take, Nat.min_eq_left hi]
  constructor
  · intro h i hi
    rw [htake i hi]
    rcases Nat.lt_or_ge i types.length with hlt | hge
    · exact h i hlt
    · have hzero : i = 0 := by omega
      subst hzero
      rfl
  · intro h i hi
    have hle : i ≤ types.length - 1 := by omega
    rw [← htake i hle]
    exact h i hle

/-- What a method has of its parameters, from the record of the method to the places in its frame. -/
structure Takes {p : Program} (c : Compilation) (place : Place p) (id : SymbolId) (s : State)
    (m : Symbol) (q : Procedure) (params : List Symbol) : Prop extends
    Framed c place id s m q where
  frame : params <+: s.frame
  names : params.map Symbol.name = place.routine.paramNames
  types : params.map Symbol.valueType = place.routine.paramTypes
  offsets : params.map Symbol.offset =
    (List.range params.length).map fun i : Nat => 4 + bytes (place.routine.paramTypes.take i)
  count : m.entity.numParams = params.length
  size : m.sizeOfParams = bytes place.routine.paramTypes

section Parameters

variable {source : String} {p : Program} {c : Compilation} {place : Place p} {id : SymbolId}
  {t s : State} {m : Symbol} {q : Procedure} {params : List Symbol}

theorem Takes.length_paramTypes (h : Takes c place id s m q params) :
    place.routine.paramTypes.length = params.length := by
  rw [← h.types, List.length_map]

theorem Takes.offsets_eq_iff (h : Takes c place id s m q params) :
    params.map Symbol.offset = Asm.argumentPlaces params.length ↔
      ∀ type ∈ place.routine.paramTypes.dropLast, type = .int := by
  rw [h.offsets, Asm.argumentPlaces, List.map_inj_left, ← bytes_take_dropLast_iff,
    h.length_paramTypes]
  simp [List.mem_range]

theorem Takes.agrees_iff (h : Takes c place id s m q params) :
    params.map Symbol.offset = Asm.argumentPlaces params.length ∧
        m.sizeOfParams = 2 * params.length ↔
      ∀ type ∈ place.routine.paramTypes, type = .int := by
  rw [h.offsets_eq_iff, ← bytes_take_dropLast_iff, h.size, ← bytes_take_iff, h.length_paramTypes]
  have hall : bytes (place.routine.paramTypes.take params.length) =
      bytes place.routine.paramTypes := by
    rw [← h.length_paramTypes, List.take_length]
  constructor
  · rintro ⟨hbefore, hsize⟩ i hi
    rcases Nat.lt_or_eq_of_le hi with hlt | rfl
    · exact hbefore i hlt
    · rw [hall, hsize]
  · intro hbytes
    exact ⟨fun i hi => hbytes i (Nat.le_of_lt hi), hall ▸ hbytes _ (Nat.le_refl _)⟩

/-- The parameters come first in the frame, whatever else the method declares. -/
theorem Traced.exists_takes (h : Traced c place id t s m q) (hp : IsTree source p) :
    ∃ params, Takes c place id s m q params := by
  obtain ⟨_, _, _, returns, -, -, -, -, -, hentity⟩ := h.exists_account hp
  obtain ⟨tokens, htokens, htree⟩ := hp
  obtain ⟨u, x, w, hsteps⟩ := place.routine.exists_steps h.body
  have hfits := fits_of_run h.stands.fits (legal_declarations_body place.routine) hsteps.before
  obtain ⟨hparamNames, hlocalNames⟩ :=
    beforeEnd_declarations (place.beforeEnd (htree ▸ wellSpelled_of_tokenize htokens))
  obtain ⟨params, haccount, htypes, hnames, -⟩ := account_params place.routine h.stands.fits
    h.method h.fresh hparamNames hsteps.opened hsteps.params
  obtain ⟨locals, scratch, hend, -⟩ :=
    account_body place.routine hfits hlocalNames haccount hsteps.locals hsteps.code
  obtain ⟨r, _, hr, hdepth, -⟩ := h.fresh
  obtain ⟨hframe, hcursor, -⟩ :=
    frame_openParams h.stands.fits h.stands.placed h.method ⟨r, hr, hdepth⟩ hsteps.opened
  have hslots :=
    (hframe.run_declarations place.routine.isDeclaration_paramActions hsteps.params).1.offsets
  have hlength : place.routine.paramTypes.length = params.length := by
    rw [← htypes, List.length_map]
  rw [hcursor, place.routine.filterMap_paramActions.1, haccount.frame, List.append_nil,
    List.nil_append, FrameCursor.slots_eq rfl, hlength] at hslots
  refine ⟨params, h.toFramed, ?_, hnames, htypes, hslots, ?_, ?_⟩
  · rw [hend.frame]
    exact List.prefix_append _ _
  · rw [hentity, ← hlength]
    rfl
  · rw [Symbol.sizeOfParams, hentity]

/-- A method that is the only one of its name gives back the bytes of its parameters. -/
theorem ret_of_unique (hc : compile source = .ok c) (hp : IsTree source p)
    (hid : id ∈ c.symbols.methods) (hm : c.symbols.get? id = some m) {target : String}
    (hname : c.symbols.qualifiedName? id = some target)
    (hunique : ∀ j ∈ c.symbols.methods, c.symbols.qualifiedName? j = some target → j = id) :
    [.op (.ret m.sizeOfParams), .procEnd (Asm.procLabel target)] <:+
      Asm.lower c.symbols (.endp target) := by
  obtain ⟨final, -, hsymbols, -, hs, htitled⟩ := hp.exists_titled hc
  rw [hsymbols] at hid hm hname hunique ⊢
  obtain ⟨first, m', hfirst, hkind, -, hfound⟩ := htitled.exists_methodOf? hs hid hname
  have hsame : first = id := by
    rcases hkind with heq | htwins
    · exact heq
    · exact hunique first htwins.mem_methods.1 (htwins.qualifiedName?_eq.trans hname)
  subst hsame
  cases hm.symm.trans hfirst
  have hframe : Asm.frameOf final.symbols target = (m.sizeOfLocals, m.sizeOfParams) := by
    rw [Asm.frameOf, hfound]
  rw [Asm.lower, Asm.leaveLines, hframe]
  exact ⟨(if m.sizeOfLocals = 0 then [] else [.op (.add (.reg .sp) (.number m.sizeOfLocals))]) ++
    [.op (.pop (.reg .bp))], by simp⟩

end Parameters

/-- Caller and callee on the arguments of a call. The words of the arguments lie two bytes apart in
the frame of the callee, the first one four bytes above its beginning. The place of a parameter is
behind the bytes of those before it. So a method that is called with as many arguments as it has
parameters finds all of them just if every parameter but the last is a whole number; and it also
gives back as many bytes as were pushed just if all of them are. -/
theorem arguments_meet_parameters_iff {source : String} {c : Compilation}
    (hc : compile source = .ok c) :
    (∃ p, IsTree source p) ∧ ∀ p, IsTree source p →
      (∀ k ∈ p.calls, k.actions <:+: p.actions) ∧
      ∀ before k after, p.actions = before ++ k.actions ++ after →
        ∃ args target, Passed c before k args target ∧
          (∀ (m : Asm.Machine) (words : List Asm.Word) (back : Asm.Word),
            List.Forall₂ m.Offers args words →
            ∃ e, Asm.enter? c.symbols args target back m = some e ∧ e.bp = e.sp ∧
              e.sp + BitVec.ofNat 16 (4 + 2 * args.length) = m.sp ∧
              e.stack = m.bp :: back :: (words ++ m.stack) ∧
              (Asm.argumentPlaces args.length).map e.wordAt? = words.map some) ∧
          ∀ id ∈ c.symbols.methods, c.symbols.qualifiedName? id = some target →
            ∃ (place : Place p) (s : State) (m : Symbol) (q : Procedure) (params : List Symbol),
              Takes c place id s m q params ∧ q.name = target ∧
              (m.entity.numParams = args.length →
                (params.map Symbol.offset = Asm.argumentPlaces args.length ↔
                  ∀ type ∈ place.routine.paramTypes.dropLast, type = .int) ∧
                (params.map Symbol.offset = Asm.argumentPlaces args.length ∧
                    m.sizeOfParams = 2 * args.length ↔
                  ∀ type ∈ place.routine.paramTypes, type = .int)) ∧
              ((∀ j ∈ c.symbols.methods, c.symbols.qualifiedName? j = some target → j = id) →
                [.op (.ret m.sizeOfParams), .procEnd (Asm.procLabel target)] <:+
                  Asm.lower c.symbols (.endp target)) := by
  refine ⟨exists_tree (completes_of_readsThrough (.inl ⟨c, hc⟩)), fun p hp =>
    ⟨fun k hk => Program.infix_call hk, fun before k after hk => ?_⟩⟩
  obtain ⟨args, target, hpassed⟩ := exists_passed hc hp hk
  refine ⟨args, target, hpassed, fun m words back hoffers => ?_, fun id hid hname => ?_⟩
  · obtain ⟨e, he, hbp, hsp, hstack⟩ := Asm.enter?_eq c.symbols target back hoffers
    exact ⟨e, he, hbp, hsp, hstack, hoffers.length_eq ▸ Asm.map_wordAt? hstack⟩
  · obtain ⟨place, t, s, m, q, htraced⟩ := exists_traced hc hp hid
    obtain ⟨params, htakes⟩ := htraced.exists_takes hp
    refine ⟨place, s, m, q, params, htakes, ?_, fun hcount => ?_,
      ret_of_unique hc hp hid htakes.record hname⟩
    · exact Option.some.inj (htraced.name.symm.trans hname)
    · rw [← hcount, htakes.count]
      exact ⟨htakes.offsets_eq_iff, htakes.agrees_iff⟩

/-! ## A method that calls itself -/

namespace Sample

/-- The call `Main(1,b)`. -/
def selfCall : Call where
  name := tok .identifier "Main"
  member := none
  left := tok .leftParen "("
  arguments := some ⟨.ofTerm (.ofFactor (.numeral ⟨⟨.number 1, "1", 1⟩, rfl⟩)),
    [(tok .comma ",", .ofTerm (.ofFactor (.name (tok .identifier "b"))))]⟩
  right := tok .rightParen ")"

/-- The method whose first parameter has the type, and whose second one is a whole number. -/
def callingMain (type : TypeName) : Routine :=
  { emptyMain with
    params := some ⟨⟨none, type, tok .identifier "a"⟩,
      [(tok .comma ",", ⟨none, intName, tok .identifier "b"⟩)]⟩
    body := ⟨[], [(.call selfCall, tok .semicolon ";")], none⟩ }

/-- What is called for before the call. -/
def untilCall (type : TypeName) : List Action :=
  (placeOf (callingMain type)).before ++ (callingMain type).heading

theorem actions_calling (type : TypeName) :
    (programOf (callingMain type)).actions =
      untilCall type ++ selfCall.actions ++ [.closeMethod, .closeClass] := by
  rw [(placeOf (callingMain type)).actions_eq]
  simp [untilCall, placeOf, callingMain, Body.actions, Statement.actions]

/-- All slots but one are empty. -/
def slotted (offset : Int) (w : Asm.Word) : Asm.Machine :=
  ⟨0, 0, 0, 0, 0, [], fun o => if o = offset then w else 0, fun _ => 0⟩

theorem offers_slotted (offset : Int) (w : Asm.Word) :
    List.Forall₂ (slotted offset w).Offers [.literal "1", .frame offset] [1, w] := by
  have hone : (Asm.Immediate.ofLiteral "1").word? = some 1 := by decide +kernel
  refine .cons (fun _ _ => hone) (.cons (fun _ _ => ?_) .nil)
  simp [Asm.sizedAddress, Asm.Arg.read, slotted]

/-- Both parameters are whole numbers. -/
def paired : String := "class A\x7bvoid Main(int a,int b)\x7bMain(1,b);\x7d\x7d"

/-- The first parameter takes less than a word. -/
def shifted : String := "class A\x7bvoid Main(char a,int b)\x7bMain(1,b);\x7d\x7d"

theorem isTree_paired : IsTree paired (programOf (callingMain intName)) :=
  ⟨(programOf (callingMain intName)).tokens, by decide +kernel, by decide +kernel⟩

theorem isTree_shifted : IsTree shifted (programOf (callingMain charName)) :=
  ⟨(programOf (callingMain charName)).tokens, by decide +kernel, by decide +kernel⟩

/-- The text has the one method, and the name of it. -/
theorem exists_compile_calling {source : String} {type : TypeName}
    (htree : IsTree source (programOf (callingMain type)))
    (hread : (State.initial.run (placeOf (callingMain type)).reading).2 = none)
    (hempty : (read (callingMain type)).symbols.localsAt? 1 = some 0)
    (hname : (read (callingMain type)).symbols.qualifiedName? 1 = some "A.Main")
    (hend : (State.initial.run (programOf (callingMain type)).actions).2 = none)
    (hentry : (ended (callingMain type)).entry = some "A.Main")
    (hquiet : (ended (callingMain type)).warnings = #[]) :
    ∃ c, compile source = .ok c ∧ c.symbols.methods = [1] ∧
      c.symbols.qualifiedName? 1 = some "A.Main" := by
  obtain ⟨c, hc, -, hz, -⟩ := exists_compile_of_read htree hread hempty hend hentry hquiet
  have hmethod := SymbolTable.mem_methods_of_localsAt? hz
  obtain ⟨tokens, htokens, hp⟩ := id htree
  obtain ⟨hactions, -, hlegal⟩ := legal_actions htokens hp
  obtain ⟨final, hfinal, -, hsymbols, -⟩ := exists_run_of_compile hactions hc
  refine ⟨c, hc, ?_, ?_⟩
  · -- as many methods as are declared
    obtain ⟨hnames, -⟩ := htree.shaped hfinal
    have hlength := congrArg List.length hnames
    rw [SymbolTable.methodNames, List.length_map, ← hsymbols] at hlength
    obtain ⟨id, hid⟩ := List.length_eq_one_iff.mp (hlength.trans (by rfl))
    rw [hid] at hmethod ⊢
    rw [List.mem_singleton.mp hmethod]
  · obtain ⟨-, s, -, -, hs, hafter⟩ := (placeOf (callingMain type)).exists_states hfinal
    obtain ⟨hstands, hlegals⟩ := (placeOf (callingMain type)).at_end hlegal hs
    cases (State.run_eq_of_none hread).symm.trans hs
    rw [hsymbols, qualifiedName?_run hlegals hstands hafter
      (SymbolTable.mem_methods_of_localsAt? hempty)]
    exact hname

end Sample

open Sample in
theorem arguments_meet_parameters_iff_paired :
    ∃ (c : Compilation) (place : Place (programOf (callingMain intName))) (s : State) (m : Symbol)
      (q : Procedure) (params : List Symbol), compile paired = .ok c ∧
      IsTree paired (programOf (callingMain intName)) ∧
      selfCall ∈ (programOf (callingMain intName)).calls ∧
      Passed c (untilCall intName) selfCall [.literal "1", .frame 6] "A.Main" ∧
      Takes c place 1 s m q params ∧
      (∃ e, Asm.enter? c.symbols [.literal "1", .frame 6] "A.Main" 9 (slotted 6 7) = some e ∧
        (params.map Symbol.offset).map e.wordAt? = [some 1, some 7]) ∧
      m.sizeOfParams = 2 * 2 ∧
      [.op (.ret (2 * 2)), .procEnd "A_Main"] <:+ Asm.lower c.symbols (.endp "A.Main") := by
  obtain ⟨c, hc, hmethods, hname⟩ := exists_compile_calling isTree_paired (by decide +kernel)
    (by decide +kernel) (by decide +kernel) (by decide +kernel) (by decide +kernel)
    (by decide +kernel)
  obtain ⟨-, htrees⟩ := arguments_meet_parameters_iff hc
  obtain ⟨-, hcalls⟩ := htrees _ isTree_paired
  obtain ⟨args, target, hpassed, hmachine, hmethod⟩ := hcalls _ _ _ (actions_calling intName)
  have hargs : args = [.literal "1", .frame 6] := hpassed.args_eq rfl (by decide +kernel)
  have htarget : target = "A.Main" := hpassed.target_eq (by decide +kernel)
  subst hargs htarget
  obtain ⟨place, s, m, q, params, htakes, -, hagree, hret⟩ := hmethod 1 (by simp [hmethods]) hname
  obtain ⟨e, he, -, -, -, hwords⟩ := hmachine (slotted 6 7) [1, 7] 9 (offers_slotted 6 7)
  have hroutine : place.routine = callingMain intName := List.mem_singleton.mp place.mem
  have hcount : m.entity.numParams = 2 := by
    rw [htakes.count, ← htakes.length_paramTypes, hroutine]
    rfl
  obtain ⟨hoffsets, hsize⟩ := (hagree hcount).2.mpr (by rw [hroutine]; decide)
  refine ⟨c, place, s, m, q, params, hc, isTree_paired, List.mem_singleton_self _, hpassed, htakes,
    ⟨e, he, by rw [hoffsets, hwords]; rfl⟩, hsize, ?_⟩
  have hlines := hret (by simp [hmethods])
  rw [hsize] at hlines
  exact hlines

open Sample in
/-- A method that is called with a word for each of its two parameters looks for the second one in
the middle of both, and gives back a byte less than was pushed. -/
theorem arguments_miss_parameters :
    ∃ (c : Compilation) (place : Place (programOf (callingMain charName))) (s : State) (m : Symbol)
      (q : Procedure) (params : List Symbol), compile shifted = .ok c ∧
      IsTree shifted (programOf (callingMain charName)) ∧
      selfCall ∈ (programOf (callingMain charName)).calls ∧
      Passed c (untilCall charName) selfCall [.literal "1", .frame 5] "A.Main" ∧
      Takes c place 1 s m q params ∧ m.entity.numParams = 2 ∧
      params.map Symbol.offset ≠ [4 + 2 * 0, 4 + 2 * 1] ∧ m.sizeOfParams ≠ 2 * 2 ∧
      ∃ e, Asm.enter? c.symbols [.literal "1", .frame 5] "A.Main" 9 (slotted 5 7) = some e ∧
        (params.map Symbol.offset).map e.wordAt? ≠ [some 1, some 7] := by
  obtain ⟨c, hc, hmethods, hname⟩ := exists_compile_calling isTree_shifted (by decide +kernel)
    (by decide +kernel) (by decide +kernel) (by decide +kernel) (by decide +kernel)
    (by decide +kernel)
  obtain ⟨args, target, hpassed⟩ := exists_passed hc isTree_shifted (actions_calling charName)
  have hargs : args = [.literal "1", .frame 5] := hpassed.args_eq rfl (by decide +kernel)
  have htarget : target = "A.Main" := hpassed.target_eq (by decide +kernel)
  subst hargs htarget
  have hid : 1 ∈ c.symbols.methods := by simp [hmethods]
  obtain ⟨place, t, s, m, q, htraced⟩ := exists_traced hc isTree_shifted hid
  obtain ⟨params, htakes⟩ := htraced.exists_takes isTree_shifted
  have hroutine : place.routine = callingMain charName := List.mem_singleton.mp place.mem
  have hlength : params.length = 2 := by
    rw [← htakes.length_paramTypes, hroutine]
    rfl
  have hoffsets : params.map Symbol.offset = [4, 5] := by
    rw [htakes.offsets, hlength, hroutine]
    rfl
  obtain ⟨e, he, -, -, hstack⟩ :=
    Asm.enter?_eq c.symbols "A.Main" 9 (offers_slotted 5 7)
  refine ⟨c, place, s, m, q, params, hc, isTree_shifted, List.mem_singleton_self _, hpassed, htakes,
    htakes.count.trans hlength, ?_, ?_, e, he, ?_⟩
  · rw [hoffsets]
    decide
  · rw [htakes.size, hroutine]
    decide
  · -- half of the first argument and half of the second
    have hmiddle : e.wordAt? 5 = some 1792 := by
      change (do return (← e.byte? 6) ++ (← e.byte? 5) : Option Asm.Word) = _
      rw [Asm.Machine.byte?, Asm.Machine.byte?, hstack]
      rfl
    rw [hoffsets, List.map_cons, List.map_singleton, hmiddle]
    simp

end Triad
