import Triad.Proofs.CodeSteps
import Triad.Proofs.ProgramActions

/-!
What a method is charged with. Its parameters, its locals, the placeholders and the new words in its
body are records inside it, and each is charged to the method as it is made. Main statement: at the
end of the body, the record of the method has the number and the bytes of the parameters, and the
bytes of all else inside it that takes room (`account_routine`).
-/

namespace Triad

/-! ## Bytes of records -/

/-- The bytes of all the records. -/
def totalSize (records : List Symbol) : Int := (records.map Symbol.size).foldr (· + ·) 0

theorem foldr_add (sizes : List Int) (n : Int) :
    sizes.foldr (· + ·) n = sizes.foldr (· + ·) 0 + n := by
  induction sizes with
  | nil => exact (Int.zero_add n).symm
  | cons size sizes ih => rw [List.foldr_cons, List.foldr_cons, ih, Int.add_assoc]

theorem totalSize_append (records more : List Symbol) :
    totalSize (records ++ more) = totalSize records + totalSize more := by
  rw [totalSize, List.map_append, List.foldr_append, foldr_add]
  rfl

theorem totalSize_concat (records : List Symbol) (r : Symbol) :
    totalSize (records ++ [r]) = totalSize records + r.size := by
  rw [totalSize_append]
  simp [totalSize]

/-- Records without bytes may be left out. -/
theorem totalSize_filter {p : Symbol → Bool} {records : List Symbol}
    (h : ∀ r ∈ records, p r = false → r.size = 0) :
    totalSize (records.filter p) = totalSize records := by
  induction records with
  | nil => rfl
  | cons r records ih =>
    have hrest := ih fun q hq => h q (List.mem_cons_of_mem r hq)
    cases hr : p r with
    | true =>
      simp only [totalSize] at hrest
      simp [totalSize, hr, hrest]
    | false =>
      have hzero := h r List.mem_cons_self hr
      simp only [totalSize] at hrest
      simp [totalSize, hr, hrest, hzero]

namespace SymbolTable

variable {t : SymbolTable} {id : SymbolId} {r m : Symbol} {f : Symbol → Symbol}

theorem symbols_eq (t : SymbolTable) : t.symbols = (List.range t.nextId).filterMap t.get? := by
  rw [symbols, t.toList_eq (Nat.le_refl _), List.map_filterMap]
  congr 1
  funext id
  cases t.get? id <;> rfl

theorem symbols_insert (t : SymbolTable) (r : Symbol) :
    (t.insert r).symbols = t.symbols ++ [r] := by
  rw [symbols_eq, symbols_eq, nextId_insert, List.range_succ, List.filterMap_append]
  congr 1
  · refine List.filterMap_congr fun id hid => ?_
    rw [get?_insert, if_neg (Nat.ne_of_lt (List.mem_range.mp hid))]
  · simp [get?_insert]

theorem atDepth_insert (t : SymbolTable) (r : Symbol) :
    (t.insert r).atDepth r.depth = t.atDepth r.depth ++ [r] := by
  simp [atDepth, symbols_insert]

/-- A change of a record of another depth. -/
theorem atDepth_modify {depth : Nat} (hm : t.get? id = some m) (hne : m.depth ≠ depth)
    (hf : (f m).depth = m.depth) : (t.modify id f).atDepth depth = t.atDepth depth := by
  simp only [atDepth, symbols_eq, nextId_modify, List.filter_filterMap]
  refine List.filterMap_congr fun i _ => ?_
  rw [get?_modify]
  split
  · rename_i hi
    rw [hi, hm]
    simp [Option.filter, hf, hne]
  · rfl

/-- A record more at a depth, and a change of a record of another one. -/
theorem charge_spec {depth : Nat} (hm : t.get? id = some m) (hne : m.depth ≠ depth)
    (hr : r.depth = depth) (hf : (f m).depth = m.depth) :
    ((t.insert r).modify id f).get? id = some (f m) ∧
      ((t.insert r).modify id f).atDepth depth = t.atDepth depth ++ [r] := by
  have hm' : (t.insert r).get? id = some m := by
    rw [get?_insert, if_neg (Nat.ne_of_lt (get?_lt hm))]
    exact hm
  constructor
  · rw [get?_modify, if_pos rfl, hm']
    rfl
  · rw [atDepth_modify hm' hne hf, ← hr]
    exact t.atDepth_insert r

theorem depthSize_eq (t : SymbolTable) (depth : Nat) :
    t.depthSize depth = totalSize (t.atDepth depth) := by
  rw [depthSize, totalSize, List.foldr_map]

end SymbolTable

/-! ## Accounts -/

namespace State

/-- The variables of the open method: parameters, locals and new words. -/
def frame (s : State) : List Symbol :=
  (s.symbols.atDepth 2).filter fun r => !r.entity.isConst

/-- The method of the number is open. It is charged with the parameters, one by one, and with the
bytes of the locals, and nothing else inside it takes room. -/
structure Account (id : SymbolId) (params locals : List Symbol) (s : State) : Prop where
  depth : s.depth = 2
  parent : s.parent = some id
  method : s.currentMethod = some id
  record : ∃ m returns, s.symbols.get? id = some m ∧ m.depth = 1 ∧
    m.entity = .method returns params.length (totalSize locals) (totalSize params)
  frame : s.frame = params ++ locals
  constants : ∀ r ∈ s.symbols.atDepth 2, r.entity.isConst = true → r.size = 0

variable {s t : State} {id : SymbolId} {params locals : List Symbol}

/-- All bytes at the depth of the method. -/
theorem Account.depthSize (h : s.Account id params locals) :
    s.symbols.depthSize 2 = totalSize params + totalSize locals := by
  have hframe : totalSize s.frame = totalSize (s.symbols.atDepth 2) := by
    refine totalSize_filter fun r hr hconst => h.constants r hr ?_
    simpa using hconst
  rw [SymbolTable.depthSize_eq, ← hframe, h.frame, totalSize_append]

/-- Only the table and the open method matter. -/
theorem Account.same (h : s.Account id params locals) (hsymbols : t.symbols = s.symbols)
    (hdepth : t.depth = s.depth) (hparent : t.parent = s.parent)
    (hmethod : t.currentMethod = s.currentMethod) : t.Account id params locals where
  depth := hdepth.trans h.depth
  parent := hparent.trans h.parent
  method := hmethod.trans h.method
  record := hsymbols ▸ h.record
  frame := by
    rw [State.frame, hsymbols]
    exact h.frame
  constants := hsymbols ▸ h.constants

/-- A record more inside the method, and the charge for it. -/
theorem Account.charge (h : s.Account id params locals) {r : Symbol} {f : Symbol → Symbol}
    {params' locals' : List Symbol} (hsymbols : t.symbols = (s.symbols.insert r).modify id f)
    (hwithin : s.Within t) (hr : r.depth = 2) (hf : ∀ m, (f m).outline = m.outline)
    (hconst : r.entity.isConst = true → r.size = 0)
    (hframe : params ++ locals ++ (if r.entity.isConst then [] else [r]) = params' ++ locals')
    (hentity : ∀ (m : Symbol) returns,
      m.entity = .method returns params.length (totalSize locals) (totalSize params) →
      (f m).entity = .method returns params'.length (totalSize locals') (totalSize params')) :
    t.Account id params' locals' := by
  obtain ⟨m, returns, hm, hdepth, hmethod⟩ := h.record
  obtain ⟨hm', hinner⟩ :=
    SymbolTable.charge_spec hm (by omega) hr (Symbol.depth_of_outline (hf m))
  rw [← hsymbols] at hm' hinner
  refine ⟨hwithin.depth.trans h.depth, hwithin.parent.trans h.parent,
    hwithin.currentMethod.trans h.method,
    ⟨f m, returns, hm', (Symbol.depth_of_outline (hf m)).trans hdepth, hentity m returns hmethod⟩,
    ?_, ?_⟩
  · rw [← hframe, ← h.frame, State.frame, hinner, List.filter_append]
    cases hr : r.entity.isConst <;> simp [State.frame, hr]
  · rw [hinner]
    intro q hq
    rcases List.mem_append.mp hq with hq | hq
    · exact h.constants q hq
    · exact List.mem_singleton.mp hq ▸ hconst

/-- A new word is a local of two bytes. -/
theorem Account.newTemp (h : s.Account id params locals) :
    s.newTemp.2.Account id params (locals ++ [s.tempRecord]) := by
  have hsymbols : s.newTemp.2.symbols = (s.symbols.insert s.tempRecord).modify id
      fun m => { m with entity := m.entity.growLocals 2 } := by
    unfold State.newTemp modifySymbol
    rw [h.method]
  refine h.charge hsymbols (within_newTemp s) h.depth
    (fun m => m.outline_entity (Entity.outline_growLocals _ _)) nofun (List.append_assoc ..) ?_
  intro m returns hm
  change m.entity.growLocals 2 = _
  rw [hm, totalSize_concat]
  rfl

theorem size_recordOf (s : State) (name : String) (entity : Entity) :
    (s.recordOf name entity).size = entity.size := by
  cases entity <;> rfl

theorem isConst_recordOf (s : State) (name : String) (entity : Entity) :
    (s.recordOf name entity).entity.isConst = entity.isConst := by
  cases entity <;> rfl

/-- A declaration, with what it makes of the record of the method. -/
theorem Account.enroll (h : s.Account id params locals) (name : String) {entity : Entity}
    (hinner : entity.isInner = true) {params' locals' : List Symbol}
    (hframe : params ++ locals ++ (if entity.isConst then [] else [s.recordOf name entity]) =
      params' ++ locals')
    (hentity : ∀ (m : Symbol) returns,
      m.entity = .method returns params.length (totalSize locals) (totalSize params) →
      (s.charge entity m).entity =
        .method returns params'.length (totalSize locals') (totalSize params')) :
    (s.enroll name entity).Account id params' locals' := by
  have hsymbols : (s.enroll name entity).symbols =
      (s.symbols.insert (s.recordOf name entity)).modify id (s.charge entity) := by
    rw [symbols_enroll, h.parent]
    rfl
  refine h.charge hsymbols (within_enroll s name hinner) h.depth (outline_charge s entity) ?_ ?_
    hentity
  · rw [isConst_recordOf, size_recordOf]
    cases entity <;> first | exact fun _ => rfl | nofun
  · rw [isConst_recordOf]
    exact hframe

theorem Account.enroll_const (h : s.Account id params locals) (name : String) (type : ValueType)
    (value : ConstantValue) : (s.enroll name (.const type value)).Account id params locals :=
  h.enroll name rfl (List.append_nil _) fun _ _ hm => hm

/-- While parameters are read, a variable is one more of them. -/
theorem Account.enroll_param (h : s.Account id params []) (hin : s.inParams = true) (name : String)
    (type : ValueType) (mode : PassingMode) (location : Nat) :
    (s.enroll name (.var type mode location)).Account id
      (params ++ [s.recordOf name (.var type mode location)]) [] := by
  refine h.enroll name rfl (by simp [Entity.isConst]) fun m returns hm => ?_
  unfold State.charge
  rw [hin]
  change m.entity.addParam type.size = _
  rw [hm, totalSize_concat, List.length_append, size_recordOf]
  rfl

/-- Behind the parameters, all that takes room is a local. -/
theorem Account.enroll_local (h : s.Account id params locals) (hin : s.inParams = false)
    (name : String) (entity : Entity) (hinner : entity.isInner = true)
    (hconst : entity.isConst = false) :
    (s.enroll name entity).Account id params (locals ++ [s.recordOf name entity]) := by
  refine h.enroll name hinner ?_ fun m returns hm => ?_
  · rw [hconst]
    exact List.append_assoc ..
  · unfold State.charge
    rw [hin, hconst]
    change m.entity.growLocals entity.size = _
    rw [hm, totalSize_concat, size_recordOf]
    rfl

end State

/-! ## Declarations -/

/-- The type of the variable that an action declares. -/
def Action.varType? : Action → Option ValueType
  | declare _ _ (.var type _ _) => some type
  | _ => none

/-- The name of the variable that an action declares. -/
def Action.varName? : Action → Option String
  | declare _ name (.var _ _ _) => some name
  | _ => none

/-- The bytes of variables of the types. -/
def bytes (types : List ValueType) : Int := types.foldr (fun type total => type.size + total) 0

theorem bytes_cons (type : ValueType) (types : List ValueType) :
    bytes (type :: types) = type.size + bytes types := rfl

theorem bytes_nonneg (types : List ValueType) : 0 ≤ bytes types := by
  induction types with
  | nil => exact Int.le_refl 0
  | cons type types ih =>
    have hsize := type.size_nonneg
    rw [bytes_cons]
    omega

/-- The record is that of a variable declared in a text. -/
structure Symbol.IsVariable (r : Symbol) : Prop where
  entity : r.entity.isVar = true
  size : r.size = r.valueType.size
  name : IsWord r.name

theorem totalSize_variables {records : List Symbol} (h : ∀ r ∈ records, r.IsVariable) :
    totalSize records = bytes (records.map Symbol.valueType) := by
  induction records with
  | nil => rfl
  | cons r records ih =>
    rw [List.map_cons, bytes_cons, ← (h r List.mem_cons_self).size,
      ← ih fun q hq => h q (List.mem_cons_of_mem r hq)]
    simp [totalSize]

namespace State

variable {s t : State} {id : SymbolId} {params locals : List Symbol}

theorem inParams_enroll (s : State) (name : String) (entity : Entity) :
    (s.enroll name entity).inParams = s.inParams := by
  unfold enroll modifySymbol
  cases s.parent <;> rfl

theorem isVariable_recordOf (s : State) {name : String} (hname : IsWord name) (type : ValueType)
    (mode : PassingMode) (location : Nat) :
    (s.recordOf name (.var type mode location)).IsVariable :=
  ⟨rfl, rfl, hname⟩

/-- Declarations are charged to the parameters or to the locals, one after the other. -/
theorem Account.run_declarations {actions : List Action}
    (hall : ∀ a ∈ actions, a.isDeclaration = true) (hnames : ∀ a ∈ actions, a.BeforeEnd)
    (h : s.Account id params locals) (hnone : s.inParams = true → locals = [])
    (hrun : s.run actions = (t, none)) :
    ∃ more, more.map Symbol.valueType = actions.filterMap Action.varType? ∧
      more.map Symbol.name = actions.filterMap Action.varName? ∧
      (∀ r ∈ more, r.IsVariable) ∧ t.inParams = s.inParams ∧
      t.Account id (params ++ if s.inParams then more else [])
        (locals ++ if s.inParams then [] else more) := by
  induction actions generalizing s params locals with
  | nil =>
    cases hrun
    refine ⟨[], rfl, rfl, fun r hr => absurd hr List.not_mem_nil, rfl, ?_⟩
    simpa using h
  | cons a actions ih =>
    obtain ⟨u, ha, hu⟩ := run_cons_eq_none.mp hrun
    have hdeclares := hall a List.mem_cons_self
    have hname := hnames a List.mem_cons_self
    have hlater := fun ps ls => @ih u ps ls (fun b hb => hall b (List.mem_cons_of_mem _ hb))
      (fun b hb => hnames b (List.mem_cons_of_mem _ hb))
    cases a with
    | declare line name entity =>
      cases eq_of_declare ha
      rw [inParams_enroll] at hlater
      cases entity with
      | const type value => exact hlater _ _ (h.enroll_const name type value) hnone hu
      | var type mode location =>
        have hvariable := s.isVariable_recordOf hname type mode location
        cases hin : s.inParams with
        | true =>
          cases hnone hin
          rw [hin] at hlater
          obtain ⟨more, htypes, hwords, hmore, hsame, haccount⟩ :=
            hlater _ _ (h.enroll_param hin name type mode location) (fun _ => rfl) hu
          refine ⟨s.recordOf name (.var type mode location) :: more,
            congrArg (type :: ·) htypes, congrArg (name :: ·) hwords,
            List.forall_mem_cons.mpr ⟨hvariable, hmore⟩, hsame, ?_⟩
          rwa [if_pos rfl, List.append_assoc] at haccount
        | false =>
          rw [hin] at hlater
          obtain ⟨more, htypes, hwords, hmore, hsame, haccount⟩ :=
            hlater _ _ (h.enroll_local hin name (.var type mode location) rfl rfl) nofun hu
          refine ⟨s.recordOf name (.var type mode location) :: more,
            congrArg (type :: ·) htypes, congrArg (name :: ·) hwords,
            List.forall_mem_cons.mpr ⟨hvariable, hmore⟩, hsame, ?_⟩
          rwa [if_neg nofun, if_neg nofun, List.append_assoc] at haccount
      | _ => cases hdeclares
    | _ => cases hdeclares

end State

/-! ## Code -/

/-- The record is that of a new word of the frame. -/
def Symbol.isTemporary (r : Symbol) : Bool := r.entity.isVar && r.name == frameSlot r.offset

/-- The record takes a word for a name that was never declared, or for a value worked out on the
way. -/
structure Symbol.IsScratch (r : Symbol) : Prop where
  size : r.size = 2
  kind : r.entity = .placeholder ∨ r.entity.isVar = true ∧ r.name = frameSlot r.offset

theorem totalSize_scratch {records : List Symbol} (h : ∀ r ∈ records, r.IsScratch) :
    totalSize records = 2 * records.length := by
  induction records with
  | nil => rfl
  | cons r records ih =>
    have hrest := ih fun q hq => h q (List.mem_cons_of_mem r hq)
    have hsize := (h r List.mem_cons_self).size
    simp only [totalSize, List.map_cons, List.foldr_cons, List.length_cons] at hrest ⊢
    omega

namespace State

variable {s t : State} {id : SymbolId} {params locals : List Symbol}

theorem isScratch_tempRecord (s : State) : s.tempRecord.IsScratch := ⟨rfl, .inr ⟨rfl, rfl⟩⟩

theorem isScratch_placeholder (s : State) (name : String) :
    (s.recordOf name .placeholder).IsScratch := ⟨rfl, .inl rfl⟩

/-- Code adds words for placeholders and for values. -/
theorem Account.run_code {actions : List Action} (hall : ∀ a ∈ actions, a.isCode = true)
    (hfits : Fits .body s) (hin : s.inParams = false) (h : s.Account id params locals)
    (hrun : s.run actions = (t, none)) :
    ∃ scratch, (∀ r ∈ scratch, r.IsScratch) ∧ t.Account id params (locals ++ scratch) := by
  induction actions generalizing s locals with
  | nil =>
    cases hrun
    refine ⟨[], fun r hr => absurd hr List.not_mem_nil, ?_⟩
    rwa [List.append_nil]
  | cons a actions ih =>
    obtain ⟨u, happly, hu⟩ := run_cons_eq_none.mp hrun
    have hcode := hall a List.mem_cons_self
    have hwithin := within_code hfits.chained hcode (outcome_of_ok happly)
    have hcoded := coded_of_apply hcode happly
    have hlater := fun more => @ih u more (fun b hb => hall b (List.mem_cons_of_mem a hb))
      (hfits.within rfl hwithin) (hcoded.inParams_eq.trans hin)
    -- the record that the table has more, if any, is a word
    have hword : ∀ {v : State} {r : Symbol}, r.IsScratch → u.symbols = v.symbols →
        s.Within v → v.Account id params (locals ++ [r]) →
        ∃ scratch, (∀ r ∈ scratch, r.IsScratch) ∧ t.Account id params (locals ++ scratch) := by
      intro v r hr hsymbols hv haccount
      obtain ⟨scratch, hscratch, hend⟩ := hlater _ (haccount.same hsymbols
        (hwithin.depth.trans hv.depth.symm) (hwithin.parent.trans hv.parent.symm)
        (hwithin.currentMethod.trans hv.currentMethod.symm)) hu
      refine ⟨r :: scratch, List.forall_mem_cons.mpr ⟨hr, hscratch⟩, ?_⟩
      rwa [List.append_assoc] at hend
    rcases hcoded.warnings_cases with ⟨-, hsame | hsame⟩ | ⟨line, name, hwarned⟩
    · exact hlater _ (h.same hsame hwithin.depth hwithin.parent hwithin.currentMethod) hu
    · exact hword s.isScratch_tempRecord hsame (within_newTemp s) h.newTemp
    · exact hword (s.isScratch_placeholder name) hwarned.symbols (within_enroll s name rfl)
        (h.enroll_local hin name .placeholder rfl rfl)

end State

/-! ## Methods -/

/-- Before the parameters nothing is inside a method. -/
theorem Fits.atDepth_two {φ : Phase} {s : State} (hfits : Fits φ s) (hφ : φ.bound ≤ 1) :
    s.symbols.atDepth 2 = [] := by
  refine List.filter_eq_nil_iff.mpr fun r hr => ?_
  obtain ⟨i, hi⟩ := (s.symbols.mem_symbols_iff r).mp hr
  have hle := hfits.bounded_le hφ i r hi
  simp
  omega

/-- Behind its name, a method is charged with nothing. -/
theorem account_openParams {s t : State} {id : SymbolId} (hfits : Fits .methodHead s)
    (hmethod : s.currentMethod = some id)
    (hfresh : ∃ m returns, s.symbols.get? id = some m ∧ m.depth = 1 ∧
      m.entity = .newMethod returns) (happly : Action.openParams.apply s = .ok t) :
    t.Account id [] [] ∧ t.inParams = true := by
  obtain ⟨owner, rfl⟩ := eq_of_openParams hmethod happly
  have hnone : s.symbols.atDepth 2 = [] := hfits.atDepth_two (Nat.le_refl 1)
  refine ⟨⟨?_, rfl, hmethod, hfresh, ?_, ?_⟩, rfl⟩
  · change s.depth + 1 = 2
    rw [hfits.depth]
    rfl
  · change (s.symbols.atDepth 2).filter _ = []
    rw [hnone]
    rfl
  · change ∀ r ∈ s.symbols.atDepth 2, _
    rw [hnone]
    exact fun r hr => absurd hr List.not_mem_nil

namespace Syntax

/-- The types of the parameters. -/
def Routine.paramTypes (r : Routine) : List ValueType :=
  r.params.toList.flatMap fun l => l.toList.map fun q => q.type.type

/-- The names of the parameters. -/
def Routine.paramNames (r : Routine) : List String :=
  r.params.toList.flatMap fun l => l.toList.map fun q => q.name.1.lexeme

def Declaration.varTypes : Declaration → List ValueType
  | constants _ _ _ _ => []
  | vars type names _ => names.toList.map fun _ => type.type

/-- The types of the locals that are no constants. -/
def Body.localTypes (b : Body) : List ValueType := b.declarations.flatMap Declaration.varTypes

theorem Routine.filterMap_paramActions (r : Routine) :
    r.paramActions.filterMap Action.varType? = r.paramTypes ∧
      r.paramActions.filterMap Action.varName? = r.paramNames := by
  unfold paramActions paramTypes paramNames
  rw [List.filterMap_flatMap, List.filterMap_flatMap]
  constructor <;> congr 1 <;> funext l <;> rw [List.filterMap_map] <;>
    exact congrFun List.filterMap_eq_map' _

theorem Declaration.filterMap_actions (d : Declaration) :
    d.actions.filterMap Action.varType? = d.varTypes := by
  cases d with
  | constants keyword type items semicolon =>
    rw [actions, List.filterMap_map]
    exact List.filterMap_eq_nil_iff.mpr fun _ _ => rfl
  | vars type names semicolon =>
    rw [actions, List.filterMap_map]
    exact congrFun List.filterMap_eq_map' _

theorem Body.filterMap_declarations (b : Body) :
    (b.declarations.flatMap Declaration.actions).filterMap Action.varType? = b.localTypes := by
  rw [List.filterMap_flatMap, localTypes]
  congr 1
  funext d
  exact d.filterMap_actions

/-- The statements of a body call for code only. -/
def Body.codeActions (b : Body) : List Action :=
  (b.statements.flatMap fun step => step.1.actions) ++ b.returns.toList.flatMap Return.actions

theorem Body.isCode_codeActions (b : Body) : ∀ a ∈ b.codeActions, a.isCode = true := by
  intro a ha
  rcases List.mem_append.mp ha with ha | ha
  · obtain ⟨step, -, hstep⟩ := List.mem_flatMap.mp ha
    exact step.1.isCode_actions a hstep
  · obtain ⟨r, -, hr⟩ := List.mem_flatMap.mp ha
    exact r.isCode_actions a hr

theorem Body.actions_eq (b : Body) :
    b.actions = b.declarations.flatMap Declaration.actions ++ b.codeActions :=
  List.append_assoc ..

/-- The steps of a method: its parameters, its locals and its code. -/
structure Routine.Steps (r : Routine) (s u x w t : State) : Prop where
  opened : Action.openParams.apply s = .ok u
  params : u.run r.paramActions = (x, none)
  locals : { x with inParams := false, cursor := .locals }.run
    (r.body.declarations.flatMap Declaration.actions) = (w, none)
  code : w.run r.body.codeActions = (t, none)
  before : s.run (r.heading ++ r.body.declarations.flatMap Declaration.actions) = (w, none)

theorem Routine.exists_steps (r : Routine) {s t : State}
    (hrun : s.run (r.heading ++ r.body.actions) = (t, none)) : ∃ u x w, r.Steps s u x w t := by
  rw [r.body.actions_eq, ← List.append_assoc] at hrun
  obtain ⟨w, hbefore, hcode⟩ := State.run_append_eq_none.mp hrun
  obtain ⟨v, hheading, hlocals⟩ := State.run_append_eq_none.mp hbefore
  obtain ⟨u, hopen, hu⟩ := State.run_cons_eq_none.mp hheading
  obtain ⟨x, hparams, hx⟩ := State.run_append_eq_none.mp hu
  cases hx
  exact ⟨u, x, w, hopen, hparams, hlocals, hcode, hbefore⟩

end Syntax

/-- Behind its parameters, a method is charged with its locals and with the words that its code
takes. -/
theorem account_body (r : Syntax.Routine) {x w t : State} {id : SymbolId} {params : List Symbol}
    (hbody : Fits .body w)
    (hnames : ∀ a ∈ r.body.declarations.flatMap Syntax.Declaration.actions, a.BeforeEnd)
    (h : x.Account id params [])
    (hlocals : { x with inParams := false, cursor := .locals }.run
      (r.body.declarations.flatMap Syntax.Declaration.actions) = (w, none))
    (hcode : w.run r.body.codeActions = (t, none)) :
    ∃ locals scratch, t.Account id params (locals ++ scratch) ∧
      locals.map Symbol.valueType = r.body.localTypes ∧ (∀ q ∈ locals, q.IsVariable) ∧
      ∀ q ∈ scratch, q.IsScratch := by
  obtain ⟨locals, htypes, -, hvars, hinw, haccount⟩ := State.Account.run_declarations
    r.body.isDeclaration_declarations hnames
    (h.same (t := { x with inParams := false, cursor := .locals }) rfl rfl rfl rfl)
    (fun h => absurd h Bool.false_ne_true) hlocals
  obtain ⟨scratch, hscratch, hend⟩ :=
    haccount.run_code r.body.isCode_codeActions hbody hinw hcode
  refine ⟨locals, scratch, ?_, htypes.trans r.body.filterMap_declarations, hvars, hscratch⟩
  simpa using hend

/-- Every name that a method declares is a word, those of its parameters and those of its locals. -/
theorem beforeEnd_declarations {r : Syntax.Routine}
    (hnames : ∀ a ∈ r.heading ++ r.body.actions, a.BeforeEnd) :
    (∀ a ∈ r.paramActions, a.BeforeEnd) ∧
      ∀ a ∈ r.body.declarations.flatMap Syntax.Declaration.actions, a.BeforeEnd := by
  rw [r.body.actions_eq] at hnames
  refine ⟨fun a ha => hnames a ?_, fun a ha => hnames a ?_⟩ <;>
    simp [Syntax.Routine.heading, ha]

/-- Up to its locals, a method is charged with its parameters. -/
theorem account_params (r : Syntax.Routine) {s u x : State} {id : SymbolId}
    (hfits : Fits .methodHead s) (hmethod : s.currentMethod = some id)
    (hfresh : ∃ m returns, s.symbols.get? id = some m ∧ m.depth = 1 ∧
      m.entity = .newMethod returns)
    (hnames : ∀ a ∈ r.paramActions, a.BeforeEnd) (hopened : Action.openParams.apply s = .ok u)
    (hrun : u.run r.paramActions = (x, none)) :
    ∃ params, x.Account id params [] ∧ params.map Symbol.valueType = r.paramTypes ∧
      params.map Symbol.name = r.paramNames ∧ ∀ q ∈ params, q.IsVariable := by
  obtain ⟨hopen, hin⟩ := account_openParams hfits hmethod hfresh hopened
  obtain ⟨params, htypes, hwords, hvars, -, haccount⟩ := hopen.run_declarations
    r.isDeclaration_paramActions hnames (fun _ => rfl) hrun
  rw [hin] at haccount
  exact ⟨params, haccount, htypes.trans r.filterMap_paramActions.1,
    hwords.trans r.filterMap_paramActions.2, hvars⟩

/-- From its name to its end, a method is charged with its parameters, with its locals, and with the
words that its code takes. -/
theorem account_routine (r : Syntax.Routine) {s t : State} {id : SymbolId}
    (hfits : Fits .methodHead s) (hmethod : s.currentMethod = some id)
    (hfresh : ∃ m returns, s.symbols.get? id = some m ∧ m.depth = 1 ∧
      m.entity = .newMethod returns)
    (hnames : ∀ a ∈ r.heading ++ r.body.actions, a.BeforeEnd)
    (hrun : s.run (r.heading ++ r.body.actions) = (t, none)) :
    ∃ params locals scratch, t.Account id params (locals ++ scratch) ∧
      params.map Symbol.valueType = r.paramTypes ∧
      locals.map Symbol.valueType = r.body.localTypes ∧
      (∀ q ∈ params ++ locals, q.IsVariable) ∧ ∀ q ∈ scratch, q.IsScratch := by
  obtain ⟨u, x, w, hsteps⟩ := r.exists_steps hrun
  have hbody := fits_of_run hfits (legal_declarations_body r) hsteps.before
  obtain ⟨hparamNames, hlocalNames⟩ := beforeEnd_declarations hnames
  obtain ⟨params, haccount, hparams, -, hvars⟩ :=
    account_params r hfits hmethod hfresh hparamNames hsteps.opened hsteps.params
  obtain ⟨locals, scratch, hend, hlocals, hvars', hscratch⟩ :=
    account_body r hbody hlocalNames haccount hsteps.locals hsteps.code
  exact ⟨params, locals, scratch, hend, hparams, hlocals,
    List.forall_mem_append.mpr ⟨hvars, hvars'⟩, hscratch⟩

end Triad
