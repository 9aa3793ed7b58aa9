import Triad.Proofs.WholeNumbers

/-!
What three-address code computes, over any kind of number: the integers for what a program means, or
the words of a machine for what its assembly does.
-/

namespace Triad

/-- The numbers that code computes with. -/
structure Arithmetic (α : Type) where
  ofInt : Int → α
  neg : α → α
  apply : BinOp → α → α → α

/-- A value in every slot of the frame, in every variable of a class and in the accumulator. -/
structure Store (α : Type) where
  frame : Int → α
  global : String → α
  accumulator : α

namespace Operand

variable {α : Type}

/-- The value of an operand; a literal has one if it spells a whole number. -/
def eval (A : Arithmetic α) (σ : Store α) : Operand → Option α
  | literal text => (wholeNumber? text).map A.ofInt
  | frame offset => some (σ.frame offset)
  | global name => some (σ.global name)
  | accumulator => some σ.accumulator

/-- The store with a new value at an operand, which must not be a literal. -/
def assign (σ : Store α) (v : α) : Operand → Option (Store α)
  | literal _ => none
  | frame offset => some { σ with frame := fun o => if o = offset then v else σ.frame o }
  | global name => some { σ with global := fun n => if n = name then v else σ.global n }
  | accumulator => some { σ with accumulator := v }

/-- Assignment changes its own operand and no other. -/
theorem eval_assign (A : Arithmetic α) {σ σ' : Store α} {v : α} {dest : Operand}
    (h : dest.assign σ v = some σ') (o : Operand) :
    o.eval A σ' = if o = dest then some v else o.eval A σ := by
  cases dest with
  | literal text => cases h
  | frame offset =>
    cases h
    cases o <;> simp [eval]
    split <;> rfl
  | global name =>
    cases h
    cases o <;> simp [eval]
    split <;> rfl
  | accumulator =>
    cases h
    cases o <;> simp [eval]

end Operand

namespace Instr

variable {α : Type}

/-- Where the value of an instruction goes. -/
def dest? : Instr → Option Operand
  | binary dest _ _ _ => some dest
  | assign dest _ => some dest
  | negate dest _ => some dest
  | _ => none

/-- The value of an instruction that computes one. -/
def value (A : Arithmetic α) (σ : Store α) : Instr → Option α
  | binary _ left op right => do return A.apply op (← left.eval A σ) (← right.eval A σ)
  | assign _ source => source.eval A σ
  | negate _ source => (source.eval A σ).map A.neg
  | _ => none

/-- One instruction carried out; there is no result if it does not compute a value. -/
def exec (A : Arithmetic α) (σ : Store α) (i : Instr) : Option (Store α) := do
  (← i.dest?).assign σ (← i.value A σ)

end Instr

/-- Instructions carried out in order. -/
def Code.exec {α : Type} (A : Arithmetic α) (σ : Store α) (code : Code) : Option (Store α) :=
  code.foldlM (Instr.exec A) σ

theorem Code.exec_append {α : Type} (A : Arithmetic α) (σ : Store α) (xs ys : Code) :
    Code.exec A σ (xs ++ ys) = (Code.exec A σ xs).bind fun σ' => Code.exec A σ' ys := by
  unfold Code.exec
  rw [List.foldlM_append]
  rfl

end Triad
