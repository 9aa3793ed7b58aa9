import Triad.Proofs.CodeSteps
import Triad.Proofs.ProgramActions

/-!
Values worked out but not used yet. Each action takes some of them and leaves others in their place.
Main statements: the actions of a program never find too few values, and where a method begins none
is left over (`Program.balanced_actions`); a run has as many values at hand as its actions leave
(`length_operands_run`).
-/

namespace Triad

/-! ## Values taken and left -/

/-- From `n` values the actions come to `m`. No action finds too few of them, and a procedure is
opened only where none is left. -/
inductive Balanced : Nat → List Action → Nat → Prop
  | nil (n : Nat) : Balanced n [] n
  | cons {n m : Nat} {a : Action} {actions : List Action} (enough : a.pops ≤ n)
      (opened : a.routine?.isSome = true → n = 0)
      (later : Balanced (n - a.pops + a.pushes) actions m) : Balanced n (a :: actions) m

namespace Balanced

variable {n m k : Nat} {a : Action} {as bs : List Action}

theorem append (has : Balanced n as k) (hbs : Balanced k bs m) : Balanced n (as ++ bs) m := by
  induction has with
  | nil n => exact hbs
  | cons enough opened _ ih => exact .cons enough opened (ih hbs)

theorem split (h : Balanced n (as ++ bs) m) : ∃ k, Balanced n as k ∧ Balanced k bs m := by
  induction as generalizing n with
  | nil => exact ⟨n, .nil n, h⟩
  | cons a as ih =>
    cases h with
    | cons enough opened later =>
      obtain ⟨k, has, hbs⟩ := ih later
      exact ⟨k, .cons enough opened has, hbs⟩

theorem single (henough : a.pops ≤ n) (hplain : a.routine? = none) :
    Balanced n [a] (n - a.pops + a.pushes) :=
  .cons henough (fun hsome => by rw [hplain] at hsome; cases hsome) (.nil _)

end Balanced

/-- An action that has nothing to do with values. -/
def Action.isIdle (a : Action) : Bool :=
  a.pops == 0 && a.pushes == 0 && a.routine?.isNone

theorem balanced_idle {actions : List Action} (h : ∀ a ∈ actions, a.isIdle = true) (n : Nat) :
    Balanced n actions n := by
  induction actions with
  | nil => exact .nil n
  | cons a actions ih =>
    have hidle := h a List.mem_cons_self
    simp only [Action.isIdle, Bool.and_eq_true, beq_iff_eq, Option.isNone_iff_eq_none] at hidle
    obtain ⟨⟨hpops, hpushes⟩, hplain⟩ := hidle
    have hsingle := Balanced.single (n := n) (hpops ▸ Nat.zero_le n) hplain
    rw [hpops, hpushes] at hsingle
    exact hsingle.append (ih fun b hb => h b (List.mem_cons_of_mem a hb))

theorem isIdle_of_isDeclaration {a : Action} (h : a.isDeclaration = true) : a.isIdle = true := by
  cases a <;> first | rfl | cases h

theorem balanced_flatMap {α : Type} {f : α → List Action} {xs : List α} {n : Nat}
    (h : ∀ x ∈ xs, Balanced n (f x) n) : Balanced n (xs.flatMap f) n := by
  induction xs with
  | nil => exact .nil n
  | cons x xs ih =>
    exact (h x List.mem_cons_self).append (ih fun y hy => h y (List.mem_cons_of_mem x hy))

/-! ## Programs -/

namespace Syntax

/-- An expression leaves one value. -/
theorem Expr.balanced_actions {r : Rank} (e : Expr r) (n : Nat) :
    Balanced n e.actions (n + 1) := by
  induction e generalizing n with
  | name t => exact .single (Nat.zero_le n) rfl
  | numeral t => exact .single (Nat.zero_le n) rfl
  | paren left e right ih => exact ih n
  | minus sign f ih => exact (ih n).append (.single (Nat.le_add_left 1 n) rfl)
  | ofFactor f ih => exact ih n
  | ofTerm t ih => exact ih n
  | product l op f ihl ihf | sum l op f ihl ihf =>
    exact ((ihl n).append (ihf (n + 1))).append (.single (Nat.le_add_left 2 n) rfl)

theorem balanced_arguments (arguments : List (Expr .expr)) (n : Nat) :
    Balanced n (arguments.flatMap Expr.actions) (n + arguments.length) := by
  induction arguments generalizing n with
  | nil => exact .nil n
  | cons e arguments ih =>
    have hrest := ih (n + 1)
    rw [Nat.add_right_comm] at hrest
    exact (e.balanced_actions n).append hrest

/-- A call takes its arguments. -/
theorem Call.balanced_actions (c : Call) (n : Nat) : Balanced n c.actions n := by
  have hcall := Balanced.single (n := n + c.argumentList.length)
    (a := .call c.target.1 c.target.2 c.argumentList.length) (Nat.le_add_left _ n) rfl
  simp only [Action.pops, Action.pushes, Nat.add_sub_cancel, Nat.add_zero] at hcall
  exact (balanced_arguments c.argumentList n).append hcall

theorem Source.balanced_actions (op : Option BinOp) (s : Source) (n : Nat) :
    Balanced n (s.actions op) (n + 1) := by
  cases s with
  | call c =>
    refine (c.balanced_actions n).append ?_
    cases op with
    | none => exact .single (Nat.zero_le n) rfl
    | some op => exact .single (Nat.zero_le n) rfl
  | expr e => exact e.balanced_actions n

theorem WriteItem.isIdle_action (i : WriteItem) : i.action.isIdle = true := by
  cases i <;> rfl

/-- A statement leaves no value. -/
theorem Statement.balanced_actions (st : Statement) (n : Nat) : Balanced n st.actions n := by
  cases st with
  | assign target op source =>
    have hassign := Balanced.single (n := n + 1 + 1) (a := .assign op.meaning)
      (Nat.le_add_left 2 n) rfl
    exact (Balanced.single (Nat.zero_le n) rfl).append
      ((source.balanced_actions op.meaning (n + 1)).append hassign)
  | call c => exact c.balanced_actions n
  | read keyword left names right =>
    refine balanced_idle (fun a ha => ?_) n
    obtain ⟨t, -, rfl⟩ := List.mem_map.mp ha
    rfl
  | write keyword left items right =>
    refine balanced_idle (fun a ha => ?_) n
    obtain ⟨i, -, rfl⟩ := List.mem_map.mp ha
    exact i.isIdle_action
  | writeln keyword left items right =>
    refine balanced_idle (fun a ha => ?_) n
    rcases List.mem_append.mp ha with ha | ha
    · obtain ⟨l, -, hl⟩ := List.mem_flatMap.mp ha
      obtain ⟨i, -, rfl⟩ := List.mem_map.mp hl
      exact i.isIdle_action
    · rw [List.mem_singleton.mp ha]
      rfl

theorem Return.balanced_actions (r : Return) (n : Nat) : Balanced n r.actions n :=
  balanced_flatMap fun e _ => (e.balanced_actions n).append (.single (Nat.le_add_left 1 n) rfl)

theorem Body.balanced_actions (b : Body) (n : Nat) : Balanced n b.actions n := by
  have hdeclarations := balanced_idle
    (fun a ha => isIdle_of_isDeclaration (b.isDeclaration_declarations a ha)) n
  exact (hdeclarations.append (balanced_flatMap fun step _ => step.1.balanced_actions n)).append
    (balanced_flatMap fun r _ => r.balanced_actions n)

theorem Routine.balanced_heading (r : Routine) (n : Nat) : Balanced n r.heading n := by
  refine balanced_idle (fun a ha => ?_) n
  simp only [heading, List.cons_append, List.mem_cons, List.mem_append, List.not_mem_nil,
    or_false] at ha
  rcases ha with rfl | ha | rfl | rfl
  · rfl
  · exact isIdle_of_isDeclaration (r.isDeclaration_paramActions a ha)
  · rfl
  · rfl

/-- A member of a class begins and ends with no value at hand. -/
theorem MemberCore.balanced_actions {className : String} (core : MemberCore className) :
    Balanced 0 core.actions 0 := by
  cases core with
  | declaration d =>
    exact balanced_idle (fun a ha => isIdle_of_isDeclaration (d.isDeclaration_actions a ha)) 0
  | constructor r named =>
    refine .cons (Nat.le_refl 0) (fun _ => rfl) ?_
    refine ((r.balanced_heading 0).append (r.body.balanced_actions 0)).append ?_
    exact balanced_idle (by decide) 0
  | method type r =>
    refine .cons (Nat.le_refl 0) (fun _ => rfl) ?_
    refine ((r.balanced_heading 0).append (r.body.balanced_actions 0)).append ?_
    exact balanced_idle (by decide) 0

theorem ClassDecl.balanced_actions (c : ClassDecl) : Balanced 0 c.actions 0 := by
  have hheading : ∀ a ∈ c.heading, a.isIdle = true := by
    intro a ha
    simp only [heading, List.cons_append, List.mem_cons, List.mem_append, List.mem_map,
      List.not_mem_nil, or_false] at ha
    rcases ha with rfl | ⟨base, -, rfl⟩ | rfl <;> rfl
  refine ((balanced_idle hheading 0).append ?_).append (balanced_idle (by decide) 0)
  exact balanced_flatMap fun m _ => m.core.balanced_actions

/-- The actions of a program never find too few values, and leave none. -/
theorem Program.balanced_actions (p : Program) : Balanced 0 p.actions 0 := by
  have husings : ∀ a ∈ p.usings.map fun u => Action.usingName u.name.text, a.isIdle = true := by
    intro a ha
    obtain ⟨u, -, rfl⟩ := List.mem_map.mp ha
    rfl
  have hclasses : ∀ classes : List ClassDecl,
      Balanced 0 (classes.flatMap ClassDecl.actions) 0 :=
    fun classes => balanced_flatMap fun c _ => c.balanced_actions
  refine (balanced_idle husings 0).append ?_
  cases p.block with
  | spaced keyword name left classes right =>
    refine .cons (Nat.le_refl 0) nofun ?_
    exact (hclasses classes).append (balanced_idle (by decide) 0)
  | bare classes => exact hclasses classes

end Syntax

/-! ## Runs -/

namespace State

variable {s t : State}

/-- A run has as many values at hand as its actions leave. -/
theorem length_operands_run {actions : List Action} {m : Nat}
    (h : Balanced s.operands.length actions m) (hrun : s.run actions = (t, none)) :
    t.operands.length = m := by
  induction actions generalizing s with
  | nil =>
    cases hrun
    cases h
    rfl
  | cons a actions ih =>
    obtain ⟨u, happly, hu⟩ := run_cons_eq_none.mp hrun
    cases h with
    | cons enough opened later =>
      refine ih ?_ hu
      cases hcode : a.isCode with
      | true =>
        rw [(coded_of_apply hcode happly).length enough]
        exact later
      | false =>
        have hidle : a.pops = 0 ∧ a.pushes = 0 := by
          cases a <;> first | exact ⟨rfl, rfl⟩ | cases hcode
        rw [hidle.1, hidle.2] at later
        rw [show u.operands = s.operands from congrArg Prod.fst (tally_apply hcode happly)]
        exact later

end State

/-- Where a program opens a procedure, no value is left over. -/
theorem operands_of_opened {p : Syntax.Program} {done rest : List Action} {a : Action}
    (hactions : p.actions = done ++ a :: rest) (hopens : a.routine?.isSome = true) {s t : State}
    (hs : State.initial.run done = (s, none)) (ht : a.apply s = .ok t) : t.operands = [] := by
  have hbalanced := p.balanced_actions
  rw [hactions] at hbalanced
  obtain ⟨n, hdone, hrest⟩ := hbalanced.split
  have hlength := State.length_operands_run (s := State.initial) hdone hs
  cases hrest with
  | cons enough opened later =>
    have hcode : a.isCode = false := by cases a <;> first | rfl | cases hopens
    have hkept : t.operands = s.operands := congrArg Prod.fst (State.tally_apply hcode ht)
    rw [hkept, ← List.length_eq_zero_iff, hlength]
    exact opened hopens

end Triad
