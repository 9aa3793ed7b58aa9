import Triad.Proofs.CodeSemantics
import Triad.Proofs.Syntax

/-!
What expressions and assignments mean by themselves: the value of an expression for given values of
its names, and the values of all names after an assignment. The trees settle the order of the
operations.
-/

namespace Triad

/-- Whole numbers. Division is bound only for the divisor one; `||` and `&&` are left open. -/
structure Arithmetic.IsInteger (A : Arithmetic Int) : Prop where
  ofInt : ∀ n, A.ofInt n = n
  neg : ∀ x, A.neg x = -x
  add : ∀ x y, A.apply .add x y = x + y
  sub : ∀ x y, A.apply .sub x y = x - y
  mul : ∀ x y, A.apply .mul x y = x * y
  div_one : ∀ x, A.apply .div x 1 = x

/-- Whole numbers with quotients cut off, the greater number for `||` and the lesser for `&&`. -/
def Arithmetic.cutOff : Arithmetic Int where
  ofInt := id
  neg := Int.neg
  apply
    | .add => Int.add
    | .sub => Int.sub
    | .mul => Int.mul
    | .div => Int.tdiv
    | .or => max
    | .and => min

theorem Arithmetic.isInteger_cutOff : cutOff.IsInteger :=
  ⟨fun _ => rfl, fun _ => rfl, fun _ _ => rfl, fun _ _ => rfl, fun _ _ => rfl, Int.tdiv_one⟩

namespace Syntax

variable {α : Type}

namespace Expr

def names {r : Rank} : Expr r → List String
  | name t => [t.1.lexeme]
  | numeral _ => []
  | paren _ e _ => e.names
  | minus _ f => f.names
  | ofFactor f => f.names
  | product t _ f => t.names ++ f.names
  | ofTerm t => t.names
  | sum e _ t => e.names ++ t.names

def isWholeNumber : Kind → Bool
  | .number _ => true
  | _ => false

/-- All numerals are whole numbers. -/
def isWhole {r : Rank} : Expr r → Bool
  | name _ => true
  | numeral t => isWholeNumber t.1.kind
  | paren _ e _ => e.isWhole
  | minus _ f => f.isWhole
  | ofFactor f => f.isWhole
  | product t _ f => t.isWhole && f.isWhole
  | ofTerm t => t.isWhole
  | sum e _ t => e.isWhole && t.isWhole

def numeralValue : Kind → Int
  | .number n => n
  | _ => 0

/-- The value of an expression of whole numbers, if the names have the values `ρ`. -/
def eval (A : Arithmetic α) (ρ : String → α) {r : Rank} : Expr r → α
  | name t => ρ t.1.lexeme
  | numeral t => A.ofInt (numeralValue t.1.kind)
  | paren _ e _ => e.eval A ρ
  | minus _ f => A.neg (f.eval A ρ)
  | ofFactor f => f.eval A ρ
  | product t op f => A.apply op.meaning (t.eval A ρ) (f.eval A ρ)
  | ofTerm t => t.eval A ρ
  | sum e op t => A.apply op.meaning (e.eval A ρ) (t.eval A ρ)

end Expr

namespace Statement

/-- The statement assigns an expression of whole numbers. -/
def isArithmetic : Statement → Bool
  | assign _ _ (.expr e) => e.isWhole
  | _ => false

/-- The name that an assignment changes. -/
def target? : Statement → Option String
  | assign target _ _ => some target.1.lexeme
  | _ => none

/-- The names that an assignment uses, the one it changes among them. -/
def names : Statement → List String
  | assign target _ (.expr e) => target.1.lexeme :: e.names
  | _ => []

/-- The value that an assignment gives to a name of the value `old`. -/
def assigned (A : Arithmetic α) (op : Option BinOp) (old new : α) : α :=
  match op with
  | none => new
  | some op => A.apply op old new

/-- The values of the names after an assignment. -/
def eval (A : Arithmetic α) (ρ : String → α) : Statement → String → α
  | assign target op (.expr e) =>
    let x := target.1.lexeme
    fun name => if name = x then assigned A op.meaning (ρ x) (e.eval A ρ) else ρ name
  | _ => ρ

end Statement

namespace Body

/-- The statements without the marks of their ends. -/
def steps (b : Body) : List Statement := b.statements.map Prod.fst

def names (b : Body) : List String := b.steps.flatMap Statement.names

def targets (b : Body) : List String := b.steps.filterMap Statement.target?

def isArithmetic (b : Body) : Bool := b.steps.all Statement.isArithmetic

/-- The values of the names after all statements. -/
def eval (A : Arithmetic α) (ρ : String → α) (b : Body) : String → α :=
  b.steps.foldl (fun ρ st => st.eval A ρ) ρ

end Body

end Syntax

end Triad
