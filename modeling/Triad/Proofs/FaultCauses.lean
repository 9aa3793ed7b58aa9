import Triad.Proofs.LiveRecords

/-!
Why the reading of a text stops. An action fails because the open scope has the name it declares,
because it assigns to a constant, or because it reads or writes a name that has no record. A fault
of meaning is that of the first action that fails. Main statements: `Action.apply_eq_duplicate_iff`,
`Action.apply_eq_undeclaredTarget_iff`, `compile_eq_error_iff`.
-/

namespace Triad

/-! ## Actions that fail -/

section Failures

variable {s : State} {a : Action} {line : Nat} {name : String}

namespace Action

/-- A name must be new where it is declared. -/
theorem apply_eq_duplicate_iff :
    a.apply s = .error (.duplicate line name) ↔
      a.declaration? = some (line, name) ∧ (a.site s).declares name = true := by
  constructor
  · intro h
    cases outcome_of_error h with
    | duplicate declares taken => exact ⟨declares, taken⟩
  · rintro ⟨hdeclares, htaken⟩
    cases a <;> cases hdeclares <;> dsimp only [site] at htaken <;>
      simp [apply, beginMethod, State.declare, htaken, Bind.bind, Except.bind]

/-- A name that is read or written must have a record. -/
theorem apply_eq_undeclaredTarget_iff {access : Access} :
    a.apply s = .error (.undeclaredTarget line access name) ↔
      a.access? = some access ∧ a.use? = some (line, name) ∧ s.symbols.lookup name = none := by
  constructor
  · intro h
    cases outcome_of_error h with
    | unknown accesses uses unknown => exact ⟨accesses, uses, unknown⟩
  · rintro ⟨haccess, huse, hunknown⟩
    cases a <;> cases haccess <;> cases huse <;>
      simp [apply, State.resolveTarget, hunknown, Bind.bind, Except.bind]

end Action

end Failures

/-! ## Runs that fail -/

/-- A run fails at the first action that fails, and leaves the state that it comes to. -/
theorem State.run_eq_some_iff {s t : State} {actions : List Action} {fault : Fault} :
    s.run actions = (t, some fault) ↔ ∃ done a rest, actions = done ++ a :: rest ∧
      s.run done = (t, none) ∧ a.apply t = .error fault := by
  induction actions generalizing s with
  | nil => simp [State.run]
  | cons b actions ih =>
    constructor
    · intro h
      rw [State.run] at h
      split at h
      · rename_i u hu
        obtain ⟨done, a, rest, rfl, hdone, ha⟩ := ih.mp h
        exact ⟨b :: done, a, rest, rfl, State.run_cons_eq_none.mpr ⟨u, hu, hdone⟩, ha⟩
      · rename_i fault' hfault
        cases h
        exact ⟨[], b, actions, rfl, rfl, hfault⟩
    · rintro ⟨done, a, rest, hsplit, hdone, ha⟩
      cases done with
      | nil =>
        cases hsplit
        cases hdone
        rw [State.run, ha]
      | cons b' done =>
        cases hsplit
        obtain ⟨u, hu, hdone⟩ := State.run_cons_eq_none.mp hdone
        rw [State.run, hu]
        exact ih.mpr ⟨done, a, rest, rfl, hdone, ha⟩

/-- Where the form of a text is at fault, its meaning is not. -/
theorem Grammar.not_isMeaning_of_parse {source : String} {fault : Fault}
    (h : (parse (Scanner.ofString source).scan).2 = some fault) : fault.isMeaning = false := by
  have hlegal := legal_parse (Scanner.ofString source).scan
  rw [h] at hlegal
  rcases hlegal.2 with ⟨_, _, _, rfl⟩ | hbroken
  · rfl
  · obtain ⟨_, _, rfl⟩ := Scanner.broken_scan hbroken
    rfl

/-- A text fails for its meaning at the first action that fails. -/
theorem compile_eq_error_iff {source : String} {fault : Fault} (hmeaning : fault.isMeaning = true) :
    compile source = .error fault ↔ ∃ done a rest s,
      (Grammar.parse (Scanner.ofString source).scan).1 = done ++ a :: rest ∧
        State.initial.run done = (s, none) ∧ a.apply s = .error fault := by
  have hrun : compile source = .error fault ↔ (State.initial.run
      (Grammar.parse (Scanner.ofString source).scan).1).2 = some fault := by
    rw [compile_eq]
    have hform : ∀ fault, (Grammar.parse (Scanner.ofString source).scan).2 = some fault →
        fault.isMeaning = false := fun _ => Grammar.not_isMeaning_of_parse
    generalize Grammar.parse (Scanner.ofString source).scan = parsed at hform ⊢
    obtain ⟨actions, formFault⟩ := parsed
    dsimp only
    cases (State.initial.run actions).2 with
    | some fault' => simp
    | none =>
      cases formFault with
      | some fault' =>
        have hother := hform fault' rfl
        refine ⟨fun h => ?_, fun h => by cases h⟩
        cases h
        rw [hmeaning] at hother
        cases hother
      | none =>
        refine ⟨fun h => ?_, fun h => by cases h⟩
        rcases result_finish (State.initial.run actions).1 with ⟨c, hok⟩ | hmissing
        · cases hok.symm.trans h
        · cases hmissing.symm.trans h
          cases hmeaning
  rw [hrun]
  constructor
  · intro h
    obtain ⟨done, a, rest, hsplit, hdone, ha⟩ := State.run_eq_some_iff.mp (Prod.ext rfl h)
    exact ⟨done, a, rest, _, hsplit, hdone, ha⟩
  · rintro ⟨done, a, rest, s, hsplit, hdone, ha⟩
    rw [State.run_eq_some_iff.mpr ⟨done, a, rest, hsplit, hdone, ha⟩]

end Triad
