import Triad.Proofs.ScopeSteps

/-!
What the state holds in each phase of the reading: how deep the open scope lies, how deep the live
records lie, and that the open class and the open method are live. Main statements: a legal action
keeps to this or fails with a fault of meaning (`fits_apply`), and so do all actions of a text
(`fits_run`); no record is asked for after its removal.
-/

namespace Triad

/-! ## The state in each phase -/

namespace Phase

/-- The depth of the open scope. -/
def depth : Phase → Nat
  | preface | file => 0
  | classHead | classBody | methodHead => 1
  | params | signature | body => 2

/-- How deep a record may lie. Classes and their members outlive the scope they were declared in. -/
def bound : Phase → Nat
  | preface => 0
  | file | classHead | classBody | methodHead => 1
  | params | signature | body => 2

def inMethod : Phase → Bool
  | methodHead | params | signature | body => true
  | _ => false

end Phase

structure Fits (φ : Phase) (s : State) : Prop where
  chained : s.symbols.Chained
  nested : s.symbols.Nested
  depth : s.depth = φ.depth
  bounded : ∀ id r, s.symbols.get? id = some r → r.depth ≤ φ.bound
  openClass : φ = .classHead → ∃ id r, s.currentClass = some id ∧ s.symbols.get? id = some r
  openMethod : φ.inMethod = true → ∃ id r, s.currentMethod = some id ∧ s.symbols.get? id = some r

theorem SymbolTable.nested_of_evolves {depth : Nat} {t t' : SymbolTable} (h : t.Nested)
    (hbound : ∀ id r, t.get? id = some r → r.depth ≤ depth) (hev : t.Evolves depth t') :
    t'.Nested := by
  intro i j r q hi hj hlt
  rcases Nat.lt_or_ge j t.nextId with hjlt | hjge
  · obtain ⟨q', hq', hqout⟩ := hev.get?_old hjlt hj
    obtain ⟨r', hr', hrout⟩ := hev.get?_old (Nat.lt_trans hlt hjlt) hi
    rw [← Symbol.depth_of_outline hqout, ← Symbol.depth_of_outline hrout]
    exact h i j r' q' hr' hq' hlt
  · rw [hev.new j q hjge hj]
    rcases Nat.lt_or_ge i t.nextId with hilt | hige
    · obtain ⟨r', hr', hrout⟩ := hev.get?_old hilt hi
      rw [← Symbol.depth_of_outline hrout]
      exact hbound i r' hr'
    · exact Nat.le_of_eq (hev.new i r hige hi)

namespace Fits

variable {φ ψ : Phase} {s t : State}

/-- From one phase to the next, with new records no less deep than all others. -/
theorem evolve {depth : Nat} (h : Fits φ s) (hsymbols : s.symbols.Evolves depth t.symbols)
    (hle : φ.bound ≤ depth) (hle' : depth ≤ ψ.bound) (hdepth : t.depth = ψ.depth)
    (hclass : ψ = .classHead → ∃ id r, t.currentClass = some id ∧ t.symbols.get? id = some r)
    (hmethod : ψ.inMethod = true →
      ∃ id r, t.currentMethod = some id ∧ t.symbols.get? id = some r) : Fits ψ t where
  chained := hsymbols.chained h.chained
  nested := SymbolTable.nested_of_evolves h.nested
    (fun id r hr => Nat.le_trans (h.bounded id r hr) hle) hsymbols
  depth := hdepth
  bounded := by
    intro id r hr
    rcases Nat.lt_or_ge id s.symbols.nextId with hlt | hge
    · obtain ⟨q, hq, hout⟩ := hsymbols.get?_old hlt hr
      rw [← Symbol.depth_of_outline hout]
      exact Nat.le_trans (h.bounded id q hq) (Nat.le_trans hle hle')
    · rw [hsymbols.new id r hge hr]
      exact hle'
  openClass := hclass
  openMethod := hmethod

/-- A live record stays live. -/
theorem live {depth : Nat} {current : Option SymbolId}
    (hlive : ∃ id r, current = some id ∧ s.symbols.get? id = some r)
    (hsymbols : s.symbols.Evolves depth t.symbols) :
    ∃ id r, current = some id ∧ t.symbols.get? id = some r := by
  obtain ⟨id, r, hid, hr⟩ := hlive
  obtain ⟨r', hr', -⟩ := hsymbols.get? hr
  exact ⟨id, r', hid, hr'⟩

/-- Steps within the innermost scope keep to the phase. -/
theorem within (h : Fits φ s) (hφ : φ.depth = φ.bound) (hst : s.Within t) : Fits φ t := by
  have hsymbols := hst.symbols
  rw [h.depth, hφ] at hsymbols
  refine h.evolve hsymbols (Nat.le_refl _) (Nat.le_refl _) (hst.depth.trans h.depth) ?_ ?_
  · rw [hst.currentClass]
    exact fun hclass => live (h.openClass hclass) hsymbols
  · rw [hst.currentMethod]
    exact fun hmethod => live (h.openMethod hmethod) hsymbols

/-- A change of other parts of the state keeps to the phase. -/
theorem same (h : Fits φ s) (hsymbols : t.symbols = s.symbols) (hdepth : t.depth = s.depth)
    (hclass : t.currentClass = s.currentClass) (hmethod : t.currentMethod = s.currentMethod) :
    Fits φ t := by
  refine ⟨?_, ?_, ?_, ?_, ?_, ?_⟩
  · rw [hsymbols]
    exact h.chained
  · rw [hsymbols]
    exact h.nested
  · rw [hdepth]
    exact h.depth
  · rw [hsymbols]
    exact h.bounded
  · rw [hsymbols, hclass]
    exact h.openClass
  · rw [hsymbols, hmethod]
    exact h.openMethod

/-- Where nothing has been declared, classes may follow. -/
theorem begin (h : Fits .preface s) : Fits .file s :=
  h.evolve (.refl 0 _) (Nat.le_refl _) (Nat.zero_le _) h.depth nofun nofun

end Fits

/-! ## Steps between scopes -/

theorem fits_initial : Fits .preface .initial where
  chained := SymbolTable.chained_empty
  nested := by
    intro i j r q hi
    cases hi
  depth := rfl
  bounded := by
    intro id r hr
    cases hr
  openClass := nofun
  openMethod := nofun

section Steps

variable {s : State}

theorem fits_enrollSpace (h : Fits .preface s) (name : String) :
    Fits .file (s.enroll name .space) := by
  have hsymbols := State.evolves_enroll s name .space
  rw [h.depth] at hsymbols
  refine h.evolve hsymbols (Nat.le_refl _) (Nat.zero_le _) ?_ nofun nofun
  exact (State.depth_enroll s name .space).trans h.depth

theorem fits_enrollClass (h : Fits .file s) (name : String) :
    Fits .classHead ({ s with depth := s.depth + 1 }.enroll name .newClass) := by
  have hsymbols := State.evolves_enroll { s with depth := s.depth + 1 } name .newClass
  obtain ⟨r, hr, -⟩ := State.get?_enroll { s with depth := s.depth + 1 } name .newClass
  have hdepth : s.depth + 1 = 1 := by
    rw [h.depth]
    rfl
  refine h.evolve hsymbols (Nat.le_of_eq hdepth.symm) (Nat.le_of_eq hdepth) ?_
    (fun _ => ⟨_, r, rfl, hr⟩) nofun
  rw [State.depth_enroll]
  exact hdepth

theorem fits_enrollMethod (h : Fits .classBody s) (name : String) (returns : ValueType) :
    Fits .methodHead (s.enroll name (.newMethod returns)) := by
  have hsymbols := State.evolves_enroll s name (.newMethod returns)
  obtain ⟨r, hr, -⟩ := State.get?_enroll s name (.newMethod returns)
  rw [h.depth] at hsymbols
  refine h.evolve hsymbols (Nat.le_refl _) (Nat.le_refl _) ?_ nofun fun _ => ⟨_, r, rfl, hr⟩
  rw [State.depth_enroll]
  exact h.depth

theorem fits_enroll {φ : Phase} (h : Fits φ s) (hφ : φ.depth = φ.bound) (name : String)
    {entity : Entity} (hplain : entity.isPlain = true) : Fits φ (s.enroll name entity) := by
  refine h.within hφ (State.within_enroll s name ?_)
  cases entity <;> first | rfl | cases hplain

theorem fits_openParams {t : State} (h : Fits .methodHead s)
    (houtcome : Outcome s .openParams (.ok t)) : Fits .params t := by
  obtain ⟨id, r, hid, hr⟩ := h.openMethod rfl
  cases houtcome with
  | noParams current => cases hid.symm.trans current
  | paramsEntered current =>
    cases hid.symm.trans current
    refine h.evolve (.refl 2 _) (Nat.le_succ 1) (Nat.le_refl _) ?_ nofun fun _ => ⟨id, r, hid, hr⟩
    change s.depth + 1 = 2
    rw [h.depth]
    rfl

theorem within_sizeFrame {t : State} (houtcome : Outcome s .sizeFrame (.ok t)) : s.Within t := by
  cases houtcome with
  | noFrame => exact .refl s
  | @frameSized id =>
    refine State.Within.trans (State.within_note s _) (State.within_modifySymbol _ (some id) ?_)
    exact fun q => q.outline_entity (Entity.outline_setLocals _ _)

theorem within_summarize (s : State) (id : Option SymbolId) : s.Within (s.summarize id) := by
  unfold State.summarize
  cases id with
  | none => exact .refl s
  | some id => exact State.within_modifySymbol s (some id) fun _ => rfl

/-- The state in which a scope is closed. -/
theorem within_told (s : State) : s.Within ((s.summarize s.parent).summarize s.current) :=
  (within_summarize s s.parent).trans (within_summarize (s.summarize s.parent) s.current)

theorem fits_leaveMethod (h : Fits .body s) : Fits .classBody s.leaveScope := by
  have htold := h.within rfl (within_told s)
  have hdepth := htold.depth
  have hget := SymbolTable.get?_deleteDepth htold.chained htold.nested (Nat.le_refl 2)
  unfold State.leaveScope
  generalize (s.summarize s.parent).summarize s.current = told at htold hdepth hget ⊢
  refine ⟨SymbolTable.chained_deleteDepth htold.chained _, ?_, ?_, ?_, nofun, nofun⟩
  · change (told.symbols.deleteDepth told.depth).Nested
    rw [hdepth]
    exact SymbolTable.nested_of_get? htold.nested fun id r hr => ((hget id r).mp hr).1
  · change told.depth - 1 = 1
    rw [hdepth]
    rfl
  · change ∀ id r, (told.symbols.deleteDepth told.depth).get? id = some r → _
    rw [hdepth]
    intro id r hr
    obtain ⟨hr, hne⟩ := (hget id r).mp hr
    have hle : r.depth ≤ 2 := htold.bounded id r hr
    change r.depth ≤ 1
    omega

theorem fits_leaveClass (h : Fits .classBody s) : Fits .file s.leaveScope := by
  have hdepth : ((s.summarize s.parent).summarize s.current).depth = 1 :=
    (within_told s).depth.trans h.depth
  have hsymbols := (within_told s).symbols
  have hkept : s.leaveScope.symbols = ((s.summarize s.parent).summarize s.current).symbols := by
    change SymbolTable.deleteDepth _ (State.depth _) = _
    rw [hdepth]
    rfl
  rw [h.depth, ← hkept] at hsymbols
  refine h.evolve hsymbols (Nat.le_refl _) (Nat.le_refl _) ?_ nofun nofun
  change ((s.summarize s.parent).summarize s.current).depth - 1 = 0
  rw [hdepth]

end Steps

/-! ## Every step and every run -/

/-- What a legal action asks the table for is there. -/
theorem Fits.live_of_asks {φ ψ : Phase} {s : State} {a : Action} (h : Fits φ s)
    (hnext : φ.next? a = some ψ) {t : SymbolTable} {id : SymbolId} (hasks : a.Asks s t id) :
    ∃ r, t.get? id = some r := by
  cases hasks with
  | openClass current =>
    have hhead : φ = .classHead := by
      cases φ <;> first | rfl | cases hnext
    obtain ⟨id', r, hid, hr⟩ := h.openClass hhead
    cases hid.symm.trans current
    exact ⟨r, hr⟩
  | openMethod asks current =>
    have hinner : φ.inMethod = true := by
      rcases asks with rfl | rfl <;> cases φ <;> first | rfl | cases hnext
    obtain ⟨id', r, hid, hr⟩ := h.openMethod hinner
    cases hid.symm.trans current
    exact ⟨r, hr⟩
  | @newMethod _ _ name returns _ _ =>
    obtain ⟨r, hr, -⟩ := State.get?_enroll s name (.newMethod returns)
    exact ⟨r, hr⟩
  | mentioned mentions resolved =>
    refine State.live_of_asks h.chained ?_ (.mentioned mentions resolved)
    rcases mentions with rfl | rfl <;> rfl
  | accessed _ found | called found => exact State.exists_get?_of_lookup h.chained found

/-- A legal action that succeeds leads to the state of the next phase. -/
theorem fits_of_outcome {φ ψ : Phase} {s t : State} {a : Action} (h : Fits φ s)
    (hnext : φ.next? a = some ψ) (houtcome : Outcome s a (.ok t)) : Fits ψ t := by
  unfold Phase.next? at hnext
  split at hnext
  -- the phases are `preface`, `file` and `classHead`, behind the step of the scanner
  · cases hnext
    cases houtcome
    rw [State.noteAll_eq]
    exact h.same rfl rfl rfl rfl
  · cases hnext
    cases houtcome
    exact h.same rfl rfl rfl rfl
  · cases hnext
    cases houtcome
    exact (fits_enrollSpace h _).same rfl rfl rfl rfl
  · cases hnext
    cases houtcome
    exact h.same rfl rfl rfl rfl
  · cases hnext
    cases houtcome
    exact fits_enrollClass h _
  · cases hnext
    cases houtcome
    exact h.same rfl rfl rfl rfl
  · cases hnext
    cases houtcome <;>
      exact h.evolve (.refl 1 _) (Nat.le_refl _) (Nat.le_refl _) h.depth nofun nofun
  -- `classBody`
  · split at hnext <;> cases hnext
    cases houtcome
    exact fits_enroll h rfl _ ‹_›
  · cases hnext
    cases houtcome
    exact (fits_enrollMethod h _ _).same rfl rfl rfl rfl
  · cases hnext
    cases houtcome
    exact (fits_enrollMethod h _ _).same rfl rfl rfl rfl
  · cases hnext
    cases houtcome
    exact fits_leaveClass h
  -- `methodHead`, `params` and `signature`
  · cases hnext
    exact fits_openParams h houtcome
  · split at hnext <;> cases hnext
    cases houtcome
    exact fits_enroll h rfl _ ‹_›
  · cases hnext
    cases houtcome
    exact h.evolve (.refl 2 _) (Nat.le_refl _) (Nat.le_refl _) h.depth
      (fun hhead => absurd hhead (by decide)) h.openMethod
  · cases hnext
    cases houtcome
    exact h.evolve (.refl 2 _) (Nat.le_refl _) (Nat.le_refl _) h.depth
      (fun hhead => absurd hhead (by decide)) h.openMethod
  -- `body`
  · split at hnext <;> cases hnext
    cases houtcome
    exact fits_enroll h rfl _ ‹_›
  · cases hnext
    exact h.within rfl (within_sizeFrame houtcome)
  · cases hnext
    cases houtcome
    exact (fits_leaveMethod h).same rfl rfl rfl rfl
  · split at hnext <;> cases hnext
    exact h.within rfl (State.within_code h.chained ‹_› houtcome)
  · cases hnext

/-- A legal action leads to the state of the next phase, or ends with a fault of meaning. -/
theorem fits_apply {φ ψ : Phase} {s : State} {a : Action} (h : Fits φ s)
    (hnext : φ.next? a = some ψ) : Yields (a.apply s) (Fits ψ) :=
  State.yields_apply (fun _ _ => h.live_of_asks hnext) fun _ => fits_of_outcome h hnext

/-- Legal actions lead to the state of the last phase, or end with a fault of meaning. -/
theorem fits_run {φ ψ : Phase} {s : State} {actions : List Action} (h : Fits φ s)
    (hlegal : Phase.Legal φ actions ψ) :
    Fits ψ (s.run actions).1 ∧ (s.run actions).2 = none ∨
      ∃ fault, (s.run actions).2 = some fault ∧ fault.isMeaning = true := by
  induction hlegal generalizing s with
  | nil φ => exact .inl ⟨h, rfl⟩
  | begin _ ih => exact ih h.begin
  | @cons φ χ ψ action actions here _ ih =>
    have hstep := fits_apply h here
    rw [State.run]
    cases happly : action.apply s with
    | ok t =>
      rw [happly] at hstep
      exact ih hstep
    | error fault =>
      rw [happly] at hstep
      exact .inr ⟨fault, rfl, hstep⟩

theorem fits_of_run {φ ψ : Phase} {s t : State} {actions : List Action} (h : Fits φ s)
    (hlegal : Phase.Legal φ actions ψ) (hrun : s.run actions = (t, none)) : Fits ψ t := by
  have hfits := fits_run h hlegal
  rw [hrun] at hfits
  rcases hfits with ⟨hfits, -⟩ | ⟨fault, hfault, -⟩
  · exact hfits
  · cases hfault

/-! ## Runs in parts -/

namespace State

theorem run_cons_eq_none {s t : State} {a : Action} {actions : List Action} :
    s.run (a :: actions) = (t, none) ↔ ∃ u, a.apply s = .ok u ∧ u.run actions = (t, none) := by
  rw [run]
  cases a.apply s with
  | ok u => simp
  | error fault => simp

theorem run_eq_of_none {s : State} {actions : List Action}
    (h : (s.run actions).2 = none) : s.run actions = ((s.run actions).1, none) :=
  Prod.ext rfl h

theorem run_append_eq_none {s t : State} {as bs : List Action} :
    s.run (as ++ bs) = (t, none) ↔ ∃ u, s.run as = (u, none) ∧ u.run bs = (t, none) := by
  induction as generalizing s with
  | nil => simp [run]
  | cons a as ih =>
    simp only [List.cons_append, run_cons_eq_none, ih]
    constructor
    · rintro ⟨v, ha, u, has, hbs⟩
      exact ⟨u, ⟨v, ha, has⟩, hbs⟩
    · rintro ⟨u, ⟨v, ha, has⟩, hbs⟩
      exact ⟨v, ha, u, has, hbs⟩

end State

end Triad
