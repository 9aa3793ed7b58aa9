import Triad.Proofs.FrameAccounts

/-!
How the frame of a method is filled. Parameters and locals take their slots where the cursor stands,
and every new word lies two bytes below all records. Main statements: behind the declarations and
the code of a body, the slots are those that the declared types lead to, with new words below them
(`Frame.run_declarations`, `Frame.run_code`); no instruction refers to a slot below the lowest
record (`Grounded`). Both together are `frame_routine`.
-/

namespace Triad

/-! ## The lowest record -/

namespace SymbolTable

variable {f : Symbol → Symbol}

/-- What a change leaves alone is the same for all records. -/
theorem map_symbols_modify {β : Type} {g : Symbol → β} (hf : ∀ r, g (f r) = g r)
    (t : SymbolTable) (id : SymbolId) : (t.modify id f).symbols.map g = t.symbols.map g := by
  rw [symbols_eq, symbols_eq, nextId_modify, List.map_filterMap, List.map_filterMap]
  refine List.filterMap_congr fun i _ => ?_
  rw [get?_modify]
  split
  · cases t.get? i with
    | none => rfl
    | some r => exact congrArg some (hf r)
  · rfl

theorem minOffset_eq (t : SymbolTable) :
    t.minOffset = (t.symbols.map Symbol.offset).foldl min 0 := by
  rw [minOffset, List.foldl_map]

theorem minOffset_nonpos (t : SymbolTable) : t.minOffset ≤ 0 :=
  ((le_minOffset_iff t t.minOffset).mp (Int.le_refl _)).1

theorem minOffset_insert (t : SymbolTable) (r : Symbol) :
    (t.insert r).minOffset = min t.minOffset r.offset := by
  simp [minOffset_eq, symbols_insert, List.foldl_append]

theorem minOffset_modify (hf : ∀ r, (f r).offset = r.offset) (t : SymbolTable) (id : SymbolId) :
    (t.modify id f).minOffset = t.minOffset := by
  rw [minOffset_eq, minOffset_eq, map_symbols_modify hf]

end SymbolTable

/-! ## Frames -/

namespace State

/-- The method of the number is open. Its variables have the offsets, in the order of their
declaration, and the lowest place in use is `low`. -/
structure Frame (id : SymbolId) (offsets : List Int) (low : Int) (s : State) : Prop where
  depth : s.depth = 2
  parent : s.parent = some id
  method : s.currentMethod = some id
  record : ∃ m, s.symbols.get? id = some m ∧ m.depth = 1
  offsets : s.frame.map Symbol.offset = offsets
  low : s.symbols.minOffset = low

variable {s t : State} {id : SymbolId} {offsets : List Int} {low : Int}

theorem Frame.low_nonpos (h : s.Frame id offsets low) : low ≤ 0 :=
  h.low ▸ s.symbols.minOffset_nonpos

/-- Only the table and the open method matter. -/
theorem Frame.same (h : s.Frame id offsets low) (hsymbols : t.symbols = s.symbols)
    (hdepth : t.depth = s.depth) (hparent : t.parent = s.parent)
    (hmethod : t.currentMethod = s.currentMethod) : t.Frame id offsets low where
  depth := hdepth.trans h.depth
  parent := hparent.trans h.parent
  method := hmethod.trans h.method
  record := hsymbols ▸ h.record
  offsets := by
    rw [frame, hsymbols]
    exact h.offsets
  low := hsymbols ▸ h.low

/-- A record more inside the method, and the charge for it. -/
theorem Frame.charge (h : s.Frame id offsets low) {r : Symbol} {f : Symbol → Symbol}
    (hsymbols : t.symbols = (s.symbols.insert r).modify id f) (hwithin : s.Within t)
    (hr : r.depth = 2) (hf : ∀ m, (f m).outline = m.outline) :
    t.Frame id (offsets ++ if r.entity.isConst then [] else [r.offset]) (min low r.offset) := by
  obtain ⟨m, hm, hdepth⟩ := h.record
  obtain ⟨hm', hinner⟩ :=
    SymbolTable.charge_spec hm (by omega) hr (Symbol.depth_of_outline (hf m))
  rw [← hsymbols] at hm' hinner
  refine ⟨hwithin.depth.trans h.depth, hwithin.parent.trans h.parent,
    hwithin.currentMethod.trans h.method,
    ⟨f m, hm', (Symbol.depth_of_outline (hf m)).trans hdepth⟩, ?_, ?_⟩
  · rw [frame, hinner, List.filter_append, List.map_append, ← h.offsets]
    cases hconst : r.entity.isConst <;> simp [frame, hconst]
  · rw [hsymbols, SymbolTable.minOffset_modify (fun q => Symbol.offset_of_outline (hf q)),
      SymbolTable.minOffset_insert, h.low]

/-- A new word lies two bytes below all records. -/
theorem Frame.newTemp (h : s.Frame id offsets low) :
    s.newTemp.2.Frame id (offsets ++ [low - 2]) (low - 2) := by
  have hsymbols : s.newTemp.2.symbols = (s.symbols.insert s.tempRecord).modify id
      fun m => { m with entity := m.entity.growLocals 2 } := by
    unfold State.newTemp modifySymbol
    rw [h.method]
  have hoffset : s.tempRecord.offset = low - 2 := by
    rw [← h.low]
    rfl
  have hframe := h.charge hsymbols (within_newTemp s) h.depth
    (fun m => m.outline_entity (Entity.outline_growLocals _ _))
  rw [hoffset, Int.min_eq_right (by omega)] at hframe
  exact hframe

theorem takesSlot_eq (hdepth : s.depth = 2) (entity : Entity) :
    s.takesSlot entity = !entity.isConst := by
  simp [takesSlot, hdepth]

/-- A declaration takes the place where the cursor stands, unless it is that of a constant. -/
theorem Frame.enroll (h : s.Frame id offsets low) (name : String) {entity : Entity}
    (hplain : entity.isPlain = true) :
    (s.enroll name entity).Frame id
      (offsets ++ if entity.isConst then [] else [s.cursor.offset])
      (min low (if entity.isConst then 0 else s.cursor.offset)) := by
  have hinner : entity.isInner = true := by cases entity <;> first | rfl | cases hplain
  have hsymbols : (s.enroll name entity).symbols =
      (s.symbols.insert (s.recordOf name entity)).modify id (s.charge entity) := by
    rw [symbols_enroll, h.parent]
    rfl
  have hoffset : (s.recordOf name entity).offset =
      if entity.isConst then 0 else s.cursor.offset := by
    simp only [recordOf, takesSlot_eq h.depth]
    cases entity.isConst <;> rfl
  have hframe := h.charge hsymbols (within_enroll s name hinner) h.depth (outline_charge s entity)
  rw [isConst_recordOf, hoffset] at hframe
  cases hentity : entity.isConst <;> rw [hentity] at hframe <;> exact hframe

end State

/-! ## The slots of a list of types -/

/-- The offsets that variables of the types get from the cursor. -/
def FrameCursor.slots : FrameCursor → List ValueType → List Int
  | _, [] => []
  | c, type :: types => c.offset :: (c.declare type.size).slots types

/-- What the last variable is short of a word. It is less than nothing for one that takes more. -/
def shortfall (types : List ValueType) : Int :=
  match types.getLast? with
  | none => 0
  | some type => 2 - type.size

theorem FrameCursor.le_of_mem_slots {c : FrameCursor} (hstep : c.step = 1)
    {types : List ValueType} {o : Int} (h : o ∈ c.slots types) : c.offset ≤ o := by
  induction types generalizing c with
  | nil => cases h
  | cons type types ih =>
    rcases List.mem_cons.mp h with rfl | h
    · exact Int.le_refl _
    · have hle := ih (c := c.declare type.size) hstep h
      have hsize := type.size_nonneg
      simp only [declare, hstep] at hle
      omega

theorem FrameCursor.ge_of_mem_slots {c : FrameCursor} (hstep : c.step = -1)
    {types : List ValueType} {o : Int} (h : o ∈ c.slots types) : o ≤ c.offset := by
  induction types generalizing c with
  | nil => cases h
  | cons type types ih =>
    rcases List.mem_cons.mp h with rfl | h
    · exact Int.le_refl _
    · have hle := ih (c := c.declare type.size) hstep h
      have hsize := type.size_nonneg
      simp only [declare, hstep] at hle
      omega

/-- Slots above do not lower the lowest place. -/
theorem foldl_min_of_le {low : Int} {offsets : List Int} (h : ∀ o ∈ offsets, low ≤ o) :
    offsets.foldl min low = low := by
  induction offsets with
  | nil => rfl
  | cons o offsets ih =>
    rw [List.foldl_cons, Int.min_eq_left (h o List.mem_cons_self)]
    exact ih fun b hb => h b (List.mem_cons_of_mem o hb)

/-- On the way down the last slot is the lowest one. -/
theorem FrameCursor.foldl_min_slots {c : FrameCursor} (hstep : c.step = -1) {low : Int}
    (hle : c.offset ≤ low) (type : ValueType) (types : List ValueType) :
    (c.slots (type :: types)).foldl min low =
      c.offset + 2 - bytes (type :: types) - shortfall (type :: types) := by
  have hsize := type.size_nonneg
  rw [slots, List.foldl_cons, Int.min_eq_right hle]
  induction types generalizing c type low with
  | nil =>
    simp only [slots, List.foldl_nil, bytes_cons, shortfall, List.getLast?_singleton]
    simp only [bytes, List.foldr_nil]
    omega
  | cons next types ih =>
    have hoffset : (c.declare type.size).offset = c.offset - type.size := by
      simp only [declare, hstep]
      omega
    have hbelow : (c.declare type.size).offset ≤ c.offset := by omega
    have hnext := ih (c := c.declare type.size) hstep hbelow next next.size_nonneg
    have hshort : shortfall (type :: next :: types) = shortfall (next :: types) := by
      simp [shortfall]
    rw [slots, List.foldl_cons, Int.min_eq_right hbelow, hnext, hoffset, hshort, bytes_cons type]
    omega

theorem foldl_min_locals (types : List ValueType) :
    (FrameCursor.locals.slots types).foldl min 0 = -(bytes types + shortfall types) := by
  cases types with
  | nil => rfl
  | cons type types =>
    have hbelow : FrameCursor.locals.offset ≤ 0 := by decide
    have hlow := FrameCursor.foldl_min_slots rfl hbelow type types
    have hoffset : FrameCursor.locals.offset = -2 := rfl
    omega

theorem foldl_min_params (types : List ValueType) :
    (FrameCursor.params.slots types).foldl min 0 = 0 := by
  refine foldl_min_of_le fun o ho => ?_
  have hle := FrameCursor.le_of_mem_slots (c := .params) rfl ho
  have hoffset : FrameCursor.params.offset = 4 := rfl
  omega

/-! ## Declarations -/

namespace State

variable {s t : State} {id : SymbolId} {offsets : List Int} {low : Int}

/-- Declarations fill the slots of their types. -/
theorem Frame.run_declarations {actions : List Action}
    (hall : ∀ a ∈ actions, a.isDeclaration = true) (h : s.Frame id offsets low)
    (hrun : s.run actions = (t, none)) :
    t.Frame id (offsets ++ s.cursor.slots (actions.filterMap Action.varType?))
        ((s.cursor.slots (actions.filterMap Action.varType?)).foldl min low) ∧
      t.code = s.code := by
  induction actions generalizing s offsets low with
  | nil =>
    cases hrun
    rw [List.filterMap_nil, FrameCursor.slots, List.append_nil]
    exact ⟨h, rfl⟩
  | cons a actions ih =>
    obtain ⟨u, ha, hu⟩ := run_cons_eq_none.mp hrun
    have hdeclares := hall a List.mem_cons_self
    cases a with
    | declare line name entity =>
      have hframe := h.enroll name hdeclares
      have hnext := ih (fun b hb => hall b (List.mem_cons_of_mem _ hb))
        (eq_of_declare ha ▸ hframe) hu
      rw [eq_of_declare ha, cursor_enroll, takesSlot_eq h.depth,
        show (s.enroll name entity).code = s.code from
          congrArg Spine.code (spine_enroll s name entity)] at hnext
      cases entity with
      | const type value =>
        simp only [Entity.isConst, if_true, List.append_nil,
          Int.min_eq_left h.low_nonpos] at hnext
        exact hnext
      | var type mode location =>
        simp only [Entity.isConst, Bool.false_eq_true, if_false, Bool.not_false, if_true,
          List.append_assoc, Entity.size] at hnext
        exact hnext
      | _ => cases hdeclares
    | _ => cases hdeclares

end State

/-! ## Code -/

/-- The operand lies in no frame, or not below the place. -/
def Operand.From (low : Int) (o : Operand) : Prop := ∀ offset, o = .frame offset → low ≤ offset

theorem Operand.From.mono {low low' : Int} {o : Operand} (h : o.From low) (hle : low' ≤ low) :
    o.From low' :=
  fun offset ho => Int.le_trans hle (h offset ho)

namespace State

variable {s t : State} {id : SymbolId} {offsets : List Int} {low : Int} {base : Code}

/-- Neither the values at hand nor the code behind `base` refer to a place below all records. -/
structure Grounded (base : Code) (s : State) : Prop where
  operands : ∀ o ∈ s.operands, o.From s.symbols.minOffset
  code : ∃ more, s.code.toList = base ++ more ∧
    ∀ i ∈ more, ∀ o ∈ i.operands, o.From s.symbols.minOffset

theorem Grounded.known (h : s.Grounded base) {o : Operand} (ho : s.Known o) :
    o.From s.symbols.minOffset := by
  rcases ho with ho | ho | ⟨id, r, hr, rfl⟩
  · exact h.operands o ho
  · rintro offset rfl
    cases ho
  · rintro offset ⟨⟩
    exact SymbolTable.minOffset_le hr

/-- More code, and other values at hand, in a table that goes as low or lower. -/
theorem Grounded.extend (h : s.Grounded base) {more : Code}
    (hlow : t.symbols.minOffset ≤ s.symbols.minOffset)
    (hcode : t.code.toList = s.code.toList ++ more)
    (hmore : ∀ i ∈ more, ∀ o ∈ i.operands, o.From t.symbols.minOffset)
    (hoperands : ∀ o ∈ t.operands, o ∈ s.operands ∨ o.From t.symbols.minOffset) :
    t.Grounded base where
  operands := by
    intro o ho
    rcases hoperands o ho with hold | hnew
    · exact (h.operands o hold).mono hlow
    · exact hnew
  code := by
    obtain ⟨old, hold, hfrom⟩ := h.code
    refine ⟨old ++ more, by rw [hcode, hold, List.append_assoc], fun i hi => ?_⟩
    rcases List.mem_append.mp hi with hi | hi
    · exact fun o ho => (hfrom i hi o ho).mono hlow
    · exact hmore i hi

/-- A value is put down in place of some of those at hand. -/
theorem Grounded.pushed (h : s.Grounded base) {o : Operand} (n : Nat) (ho : s.Known o) :
    ({ s with operands := s.operands.drop n }.pushOperand o).Grounded base := by
  refine h.extend (Int.le_refl _) (List.append_nil _).symm
    (fun i hi => absurd hi List.not_mem_nil) fun q hq => ?_
  rcases List.mem_cons.mp hq with rfl | hq
  · exact .inr (h.known ho)
  · exact .inl (List.mem_of_mem_drop hq)

/-- A new word lies below all that code has referred to. -/
theorem Grounded.computed (h : s.Grounded base) {i : Instr} (n : Nat)
    (hi : ∀ o ∈ i.operands, o = .frame s.tempRecord.offset ∨ s.Known o) :
    (({ s with operands := s.operands.drop n }.newTemp.2.emit i).pushOperand
      (.frame s.tempRecord.offset)).Grounded base := by
  have hcode := code_newTemp { s with operands := s.operands.drop n }
  have hoperands := operands_newTemp { s with operands := s.operands.drop n }
  have hword := low_newTemp { s with operands := s.operands.drop n }
  change _ ≤ s.symbols.minOffset - 2 at hword
  generalize { s with operands := s.operands.drop n }.newTemp.2 = u at hcode hoperands hword ⊢
  have hlow : u.symbols.minOffset ≤ s.symbols.minOffset := by omega
  have hnew : (Operand.frame s.tempRecord.offset).From u.symbols.minOffset := by
    rintro offset ⟨⟩
    exact hword
  have hemitted : (u.code.push i).toList = s.code.toList ++ [i] := by
    rw [hcode, Array.toList_push]
  refine h.extend hlow hemitted ?_ fun q hq => ?_
  · intro j hj o ho
    rw [List.mem_singleton.mp hj] at ho
    rcases hi o ho with rfl | hknown
    · exact hnew
    · exact (h.known hknown).mono hlow
  · rcases List.mem_cons.mp hq with rfl | hq
    · exact .inr hnew
    · change q ∈ u.operands at hq
      rw [hoperands] at hq
      exact .inl (List.mem_of_mem_drop hq)

theorem Grounded.coded (h : s.Grounded base) {a : Action} (hcoded : s.Coded a t)
    (hquiet : t.warnings = s.warnings) : t.Grounded base := by
  cases hcoded with
  | @named line name found o _ _ resolved known =>
    rcases (margin_resolve resolved).2.2 with ⟨hsame, -⟩ | hwarned
    · rw [hsame] at known ⊢
      exact h.pushed 0 known
    · have hpushed : s.warnings.push ⟨line, name⟩ = s.warnings :=
        hwarned.warnings.symm.trans hquiet
      exact absurd (congrArg Array.size hpushed) (by simp)
  | pushed taken _ known => exact taken ▸ h.pushed a.pops known
  | computed taken _ known => exact taken ▸ h.computed a.pops known
  | emitted _ symbols _ _ taken code known =>
    refine h.extend (Int.le_of_eq (congrArg SymbolTable.minOffset symbols)) code ?_ fun q hq => ?_
    · rw [symbols]
      exact fun i hi o ho => h.known (known i hi o ho)
    · rw [taken] at hq
      exact .inl (List.mem_of_mem_drop hq)
  | still => exact h

/-- So many new words, each two bytes below the one before. -/
def words : Int → Nat → List Int
  | _, 0 => []
  | low, n + 1 => (low - 2) :: words (low - 2) n

/-- Code without warnings adds new words below the others, and refers to nothing below them. -/
theorem Frame.run_code {actions : List Action} (hall : ∀ a ∈ actions, a.isCode = true)
    (hfits : Fits .body s) (h : s.Frame id offsets low) (hgrounded : s.Grounded base)
    (hrun : s.run actions = (t, none)) (hquiet : t.warnings = #[]) :
    ∃ n : Nat, t.Frame id (offsets ++ words low n) (low - 2 * n) ∧ t.Grounded base := by
  induction actions generalizing s offsets low with
  | nil =>
    cases hrun
    refine ⟨0, ?_, hgrounded⟩
    simpa [words] using h
  | cons a actions ih =>
    obtain ⟨u, happly, hu⟩ := run_cons_eq_none.mp hrun
    have hcode := hall a List.mem_cons_self
    have hwithin := within_code hfits.chained hcode (outcome_of_ok happly)
    have hcoded := coded_of_apply hcode happly
    have hquietu := quiet_of_run hu hquiet
    have hsame : u.warnings = s.warnings := hquietu.trans (quiet_of_run hrun hquiet).symm
    have hlater : ∀ b ∈ actions, b.isCode = true := fun b hb => hall b (List.mem_cons_of_mem a hb)
    have hground := hgrounded.coded hcoded hsame
    have hfits' := hfits.within rfl hwithin
    rcases hcoded.symbols_cases hsame with htable | htable
    · exact ih hlater hfits'
        (h.same htable hwithin.depth hwithin.parent hwithin.currentMethod) hground hu
    · have hword := within_newTemp s
      have hframe := h.newTemp.same htable (hwithin.depth.trans hword.depth.symm)
        (hwithin.parent.trans hword.parent.symm)
        (hwithin.currentMethod.trans hword.currentMethod.symm)
      obtain ⟨n, hframe, hground⟩ := ih hlater hfits' hframe hground hu
      refine ⟨n + 1, ?_, hground⟩
      have hlow : low - 2 * ((n + 1 : Nat) : Int) = low - 2 - 2 * n := by omega
      rw [hlow, words]
      rwa [List.append_assoc] at hframe

end State

/-! ## Methods -/

/-- Behind its name, a method has an empty frame. -/
theorem frame_openParams {N : String → Prop} {s t : State} {id : SymbolId}
    (hfits : Fits .methodHead s) (hplaced : Placed N .methodHead s.spine)
    (hmethod : s.currentMethod = some id)
    (hrecord : ∃ m, s.symbols.get? id = some m ∧ m.depth = 1)
    (happly : Action.openParams.apply s = .ok t) :
    t.Frame id [] 0 ∧ t.cursor = .params ∧ t.code = s.code := by
  obtain ⟨owner, rfl⟩ := eq_of_openParams hmethod happly
  have hlow : s.symbols.minOffset = 0 := by
    refine Int.le_antisymm s.symbols.minOffset_nonpos
      ((s.symbols.le_minOffset_iff 0).mpr ⟨Int.le_refl 0, fun i r hr => ?_⟩)
    have hle := hfits.bounded_le (Nat.le_refl 1) i r hr
    cases hplaced.records i r hr with
    | space _ _ offset => exact Int.le_of_eq offset.symm
    | classType _ _ offset => exact Int.le_of_eq offset.symm
    | member _ _ offset => exact Int.le_of_eq offset.symm
    | inner depth => omega
  refine ⟨⟨?_, rfl, hmethod, hrecord, ?_, hlow⟩, rfl, rfl⟩
  · change s.depth + 1 = 2
    rw [hfits.depth]
    rfl
  · change ((s.symbols.atDepth 2).filter _).map _ = []
    rw [hfits.atDepth_two (Nat.le_refl 1)]
    rfl

theorem isCode_of_isDeclaration {a : Action} (h : a.isDeclaration = true) : a.isCode = false := by
  cases a <;> first | rfl | cases h

theorem Syntax.Routine.isCode_opening (r : Syntax.Routine) :
    ∀ a ∈ r.heading ++ r.body.declarations.flatMap Syntax.Declaration.actions,
      a.isCode = false := by
  intro a ha
  simp only [heading, List.cons_append, List.append_assoc, List.mem_cons, List.mem_append,
    List.not_mem_nil, false_or] at ha
  rcases ha with rfl | ha | rfl | rfl | ha
  · rfl
  · exact isCode_of_isDeclaration (r.isDeclaration_paramActions a ha)
  · rfl
  · rfl
  · exact isCode_of_isDeclaration (r.body.isDeclaration_declarations a ha)

/-- The slots of a method, in the order of their declaration, once so many words are new. -/
def Syntax.Routine.slots (r : Syntax.Routine) (n : Nat) : List Int :=
  FrameCursor.params.slots r.paramTypes ++ FrameCursor.locals.slots r.body.localTypes ++
    State.words (-(bytes r.body.localTypes + shortfall r.body.localTypes)) n

/-- From its name to its end, a method without warnings fills its frame with the slots of its
parameters and locals and with new words, and its code refers to nothing below them. -/
theorem frame_routine {N : String → Prop} (r : Syntax.Routine) {s t : State} {id : SymbolId}
    (hfits : Fits .methodHead s) (hplaced : Placed N .methodHead s.spine)
    (hmethod : s.currentMethod = some id)
    (hrecord : ∃ m, s.symbols.get? id = some m ∧ m.depth = 1) (hoperands : s.operands = [])
    (hrun : s.run (r.heading ++ r.body.actions) = (t, none)) (hquiet : t.warnings = #[]) :
    (∃ n : Nat, t.Frame id (r.slots n)
      (-(bytes r.body.localTypes + shortfall r.body.localTypes) - 2 * n)) ∧
      ∃ more, t.code.toList = s.code.toList ++ more ∧
        ∀ i ∈ more, ∀ o ∈ i.operands, o.From t.symbols.minOffset := by
  obtain ⟨u, x, w, hsteps⟩ := r.exists_steps hrun
  have hbody := fits_of_run hfits (legal_declarations_body r) hsteps.before
  have htally := State.tally_run r.isCode_opening hsteps.before
  obtain ⟨hframe, hcursor, hcodeu⟩ :=
    frame_openParams hfits hplaced hmethod hrecord hsteps.opened
  obtain ⟨hframex, hcodex⟩ := hframe.run_declarations r.isDeclaration_paramActions hsteps.params
  rw [hcursor, r.filterMap_paramActions.1, foldl_min_params] at hframex
  obtain ⟨hframew, hcodew⟩ := State.Frame.run_declarations r.body.isDeclaration_declarations
    (hframex.same (t := { x with inParams := false, cursor := .locals }) rfl rfl rfl rfl)
    hsteps.locals
  rw [r.body.filterMap_declarations, foldl_min_locals] at hframew
  have hgrounded : w.Grounded s.code.toList := by
    have hnone : w.operands = [] := (congrArg Prod.fst htally).trans hoperands
    have hsame : w.code = s.code := hcodew.trans (hcodex.trans hcodeu)
    refine ⟨?_, [], ?_, fun i hi => absurd hi List.not_mem_nil⟩
    · rw [hnone]
      exact fun o ho => absurd ho List.not_mem_nil
    · rw [hsame, List.append_nil]
  obtain ⟨n, hend, -, hcode⟩ :=
    hframew.run_code r.body.isCode_codeActions hbody hgrounded hsteps.code hquiet
  exact ⟨⟨n, hend⟩, hcode⟩

end Triad
