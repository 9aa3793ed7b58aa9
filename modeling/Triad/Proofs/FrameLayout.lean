import Triad.Proofs.Scopes
import Triad.Proofs.Syntax

/-!
Where the variables of a method lie. A declaration takes the place where the cursor of the frame
stands, and the cursor moves past it: up from the base while the parameters are read, and down from
it for the locals. Main statement: behind the declarations of a body, all variables that take room
have places of their own (`laid_declarations`).
-/

namespace Triad

/-! ## Slots -/

theorem Entity.isVar_outline (e : Entity) : e.outline.isVar = e.isVar := by
  cases e <;> rfl

theorem Entity.size_outline (e : Entity) : e.outline.size = e.size := by
  cases e <;> rfl

theorem ValueType.size_nonneg (type : ValueType) : 0 ≤ type.size := by
  cases type <;> decide

/-- A variable of the open method that takes room in the frame. -/
def Symbol.isSlot (r : Symbol) : Bool :=
  r.depth == 2 && r.entity.isVar && decide (0 < r.entity.size)

theorem Symbol.isSlot_of_outline {r q : Symbol} (h : q.outline = r.outline) :
    q.isSlot = r.isSlot := by
  have hentity : q.entity.outline = r.entity.outline := congrArg Symbol.entity h
  unfold isSlot
  rw [depth_of_outline h, ← Entity.isVar_outline, ← Entity.size_outline, hentity,
    Entity.isVar_outline, Entity.size_outline]

def SymbolTable.Slot (t : SymbolTable) (id : SymbolId) (r : Symbol) : Prop :=
  t.get? id = some r ∧ r.isSlot = true

namespace State

theorem isSlot_recordOf {s : State} {name : String} {entity : Entity}
    (h : (s.recordOf name entity).isSlot = true) :
    s.takesSlot entity = true ∧ 0 < entity.size ∧
      (s.recordOf name entity).offset = s.cursor.offset := by
  simp only [Symbol.isSlot, recordOf, Symbol.new, Bool.and_eq_true, beq_iff_eq] at h
  obtain ⟨⟨hdepth, hvar⟩, hsize⟩ := h
  cases entity with
  | var type mode location =>
    have htakes : s.takesSlot (.var type mode location) = true := by
      simp [takesSlot, Entity.isConst, hdepth]
    exact ⟨htakes, of_decide_eq_true hsize, if_pos htakes⟩
  | _ => cases hvar

/-- A slot behind a declaration is one from before it, or the new one at the cursor. -/
theorem slot_enroll {s : State} {name : String} {entity : Entity} {id : SymbolId} {r : Symbol}
    (h : (s.enroll name entity).symbols.Slot id r) :
    (∃ q, s.symbols.Slot id q ∧ q.offset = r.offset) ∨
      (id = s.symbols.nextId ∧ r.offset = s.cursor.offset ∧ s.takesSlot entity = true ∧
        0 < entity.size) := by
  obtain ⟨hr, hslot⟩ := h
  rcases get?_enroll_cases hr with ⟨hid, hout⟩ | ⟨q, hq, hout⟩
  · right
    rw [Symbol.isSlot_of_outline hout] at hslot
    obtain ⟨htakes, hsize, hoffset⟩ := isSlot_recordOf hslot
    exact ⟨hid, (Symbol.offset_of_outline hout).trans hoffset, htakes, hsize⟩
  · left
    rw [← Symbol.isSlot_of_outline hout] at hslot
    exact ⟨q, ⟨hq, hslot⟩, Symbol.offset_of_outline hout⟩

/-- The slots lie apart, and the cursor stands beyond all of them on its way up or down. -/
structure Laid (step : Int) (s : State) : Prop where
  depth : s.depth = 2
  step_eq : s.cursor.step = step
  direction : step = 1 ∧ 4 ≤ s.cursor.offset ∨ step = -1
  beyond : ∀ id r, s.symbols.Slot id r →
    step = 1 ∧ 4 ≤ r.offset ∧ r.offset < s.cursor.offset ∨ step = -1 ∧ s.cursor.offset < r.offset
  apart : ∀ i j r q, s.symbols.Slot i r → s.symbols.Slot j q → i ≠ j → r.offset ≠ q.offset

theorem cursor_enroll (s : State) (name : String) (entity : Entity) :
    (s.enroll name entity).cursor =
      if s.takesSlot entity then s.cursor.declare entity.size else s.cursor := rfl

theorem size_nonneg_of_isPlain {entity : Entity} (h : entity.isPlain = true) : 0 ≤ entity.size := by
  cases entity with
  | var type mode location => exact type.size_nonneg
  | const type value => exact Int.le_refl 0
  | _ => cases h

theorem Laid.enroll {step : Int} {s : State} (h : s.Laid step) (name : String) {entity : Entity}
    (hplain : entity.isPlain = true) : (s.enroll name entity).Laid step := by
  have hsize := size_nonneg_of_isPlain hplain
  -- what the cursor stands beyond, it also stands beyond once it has moved on
  have hmoved : ∀ offset, (step = 1 ∧ 4 ≤ offset ∧ offset < s.cursor.offset ∨
        step = -1 ∧ s.cursor.offset < offset) ∨
        (offset = s.cursor.offset ∧ s.takesSlot entity = true ∧ 0 < entity.size) →
      step = 1 ∧ 4 ≤ offset ∧ offset < (s.enroll name entity).cursor.offset ∨
        step = -1 ∧ (s.enroll name entity).cursor.offset < offset := by
    intro offset hoffset
    rw [cursor_enroll]
    split
    · simp only [FrameCursor.declare, h.step_eq]
      rcases h.direction with ⟨hstep, hlow⟩ | hstep
      · subst hstep
        omega
      · subst hstep
        omega
    · rename_i htakes
      rcases hoffset with hoffset | ⟨-, htakes', -⟩
      · exact hoffset
      · exact absurd htakes' htakes
  refine ⟨(depth_enroll s name entity).trans h.depth, ?_, ?_, ?_, ?_⟩
  · rw [cursor_enroll]
    split <;> exact h.step_eq
  · rcases h.direction with ⟨hstep, hlow⟩ | hstep
    · refine .inl ⟨hstep, ?_⟩
      rw [cursor_enroll]
      split
      · simp only [FrameCursor.declare, h.step_eq, hstep]
        omega
      · exact hlow
    · exact .inr hstep
  · intro id r hr
    apply hmoved
    rcases slot_enroll hr with ⟨q, hq, hoffset⟩ | ⟨-, hnew⟩
    · rw [← hoffset]
      exact .inl (h.beyond id q hq)
    · exact .inr hnew
  · intro i j r q hr hq hne
    rcases slot_enroll hr with ⟨r', hr', hroffset⟩ | ⟨hi, hroffset, -⟩
    · rcases slot_enroll hq with ⟨q', hq', hqoffset⟩ | ⟨-, hqoffset, -⟩
      · rw [← hroffset, ← hqoffset]
        exact h.apart i j r' q' hr' hq' hne
      · have hbeyond := h.beyond i r' hr'
        omega
    · rcases slot_enroll hq with ⟨q', hq', hqoffset⟩ | ⟨hj, -⟩
      · have hbeyond := h.beyond j q' hq'
        omega
      · exact absurd (hi.trans hj.symm) hne

end State

/-! ## From the name of a method to its statements -/

/-- A declaration of a variable or a constant. -/
def Action.isDeclaration : Action → Bool
  | declare _ _ entity => entity.isPlain
  | _ => false

theorem run_declarations {step : Int} {s t : State} {actions : List Action}
    (hall : ∀ a ∈ actions, a.isDeclaration = true) (h : s.Laid step)
    (hrun : s.run actions = (t, none)) : t.Laid step := by
  induction actions generalizing s with
  | nil =>
    cases hrun
    exact h
  | cons a actions ih =>
    obtain ⟨u, ha, hu⟩ := State.run_cons_eq_none.mp hrun
    have hdeclares := hall a List.mem_cons_self
    refine ih (fun b hb => hall b (List.mem_cons_of_mem a hb)) ?_ hu
    cases a with
    | declare line name entity =>
      change s.declare line name entity = .ok u at ha
      unfold State.declare at ha
      split at ha
      · cases ha
      · cases ha
        exact h.enroll name hdeclares
    | _ => cases hdeclares

theorem legal_declarations {φ : Phase} {actions : List Action}
    (hφ : ∀ line name entity, entity.isPlain = true →
      φ.next? (.declare line name entity) = some φ)
    (hall : ∀ a ∈ actions, a.isDeclaration = true) : Phase.Legal φ actions φ := by
  induction actions with
  | nil => exact .nil φ
  | cons a actions ih =>
    have hdeclares := hall a List.mem_cons_self
    refine .cons ?_ (ih fun b hb => hall b (List.mem_cons_of_mem a hb))
    cases a with
    | declare line name entity => exact hφ line name entity hdeclares
    | _ => cases hdeclares

/-- Where no method is open, no record is a slot. -/
theorem Fits.laid_params {s t : State} (h : Fits .methodHead s)
    (happly : Action.openParams.apply s = .ok t) : t.Laid 1 := by
  obtain ⟨id, r, hid, hr⟩ := h.openMethod rfl
  change s.enterParams = .ok t at happly
  unfold State.enterParams at happly
  rw [hid] at happly
  dsimp only at happly
  rw [State.fetch_eq_ok hr] at happly
  cases happly
  have hnone : ∀ i q, ¬ s.symbols.Slot i q := by
    rintro i q ⟨hq, hslot⟩
    have hle : q.depth ≤ 1 := h.bounded i q hq
    simp only [Symbol.isSlot, Bool.and_eq_true, beq_iff_eq] at hslot
    omega
  have hdepth : s.depth = 1 := h.depth
  refine ⟨?_, rfl, .inl ⟨rfl, Int.le_refl 4⟩, fun i q hq => absurd hq (hnone i q),
    fun i _ r _ hr => absurd hr (hnone i r)⟩
  change s.depth + 1 = 2
  omega

/-- The cursor of the locals starts below all parameters. -/
theorem State.Laid.locals {s : State} (h : s.Laid 1) : { s with cursor := .locals }.Laid (-1) := by
  refine ⟨h.depth, rfl, .inr rfl, ?_, h.apart⟩
  intro id r hr
  have hbeyond := h.beyond id r hr
  change _ ∨ -1 = -1 ∧ (-2 : Int) < r.offset
  omega

namespace Syntax

theorem Routine.isDeclaration_paramActions (r : Routine) :
    ∀ a ∈ r.paramActions, a.isDeclaration = true := by
  intro a ha
  simp only [Routine.paramActions, List.mem_flatMap, List.mem_map] at ha
  obtain ⟨_, _, p, _, rfl⟩ := ha
  rfl

theorem Declaration.isDeclaration_actions (d : Declaration) :
    ∀ a ∈ d.actions, a.isDeclaration = true := by
  cases d with
  | constants keyword type items semicolon =>
    intro a ha
    simp only [Declaration.actions, List.mem_map] at ha
    obtain ⟨c, _, rfl⟩ := ha
    rfl
  | vars type names semicolon =>
    intro a ha
    simp only [Declaration.actions, List.mem_map] at ha
    obtain ⟨t, _, rfl⟩ := ha
    rfl

theorem Body.isDeclaration_declarations (b : Body) :
    ∀ a ∈ b.declarations.flatMap Declaration.actions, a.isDeclaration = true := by
  intro a ha
  obtain ⟨d, _, hd⟩ := List.mem_flatMap.mp ha
  exact d.isDeclaration_actions a hd

end Syntax

/-- Behind the declarations of a body, its slots lie apart. -/
theorem laid_declarations {s t : State} (h : Fits .methodHead s) (r : Syntax.Routine)
    (hrun : s.run (r.heading ++ r.body.declarations.flatMap Syntax.Declaration.actions) =
      (t, none)) : t.Laid (-1) := by
  obtain ⟨v, hheading, hlocals⟩ := State.run_append_eq_none.mp hrun
  obtain ⟨u, hopen, hu⟩ := State.run_cons_eq_none.mp hheading
  obtain ⟨w, hparams, hw⟩ := State.run_append_eq_none.mp hu
  have hlaid := run_declarations r.isDeclaration_paramActions (h.laid_params hopen) hparams
  cases hw
  refine run_declarations r.body.isDeclaration_declarations ?_ hlocals
  exact State.Laid.locals ⟨hlaid.depth, hlaid.step_eq, hlaid.direction, hlaid.beyond, hlaid.apart⟩

/-- And the phase is that of a body. -/
theorem legal_declarations_body (r : Syntax.Routine) :
    Phase.Legal .methodHead
      (r.heading ++ r.body.declarations.flatMap Syntax.Declaration.actions) .body := by
  have hparams : Phase.Legal .params r.paramActions .params :=
    legal_declarations (Phase.next_declare (by decide)) r.isDeclaration_paramActions
  have hlocals := legal_declarations (φ := .body) (Phase.next_declare (by decide))
    r.body.isDeclaration_declarations
  have hheading : Phase.Legal .methodHead r.heading .body :=
    .cons rfl (hparams.append (.cons rfl (.cons rfl (.nil _))))
  exact hheading.append hlocals

end Triad
