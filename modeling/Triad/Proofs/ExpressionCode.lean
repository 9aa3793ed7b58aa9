import Triad.Proofs.Evaluation
import Triad.Proofs.FrameLayout
import Triad.Proofs.Temporaries
import Triad.Proofs.TokenStream

/-!
Code for expressions. The code of an expression writes to new words only, and what waits as an
operand meanwhile keeps its value. Main statement: the operand that an expression leaves has the
value of the expression (`computes_expr`).
-/

namespace Triad

/-! ## Operands that keep their values -/

/-- The second store has the values of the first one from `low` on in the frame and in the variables
of classes. -/
def Store.Untouched {α : Type} (low : Int) (σ σ' : Store α) : Prop :=
  (∀ offset, low ≤ offset → σ'.frame offset = σ.frame offset) ∧ σ'.global = σ.global

theorem Store.Untouched.trans {α : Type} {low low' : Int} {σ σ' σ'' : Store α}
    (h : σ.Untouched low σ') (hle : low' ≤ low) (h' : σ'.Untouched low' σ'') :
    σ.Untouched low σ'' := by
  refine ⟨fun offset hoffset => ?_, h'.2.trans h.2⟩
  rw [h'.1 offset (by omega), h.1 offset hoffset]

namespace Operand

/-- The operand does not lie below `low`, and a literal is spelled as a whole number. -/
def Settled (low : Int) : Operand → Prop
  | literal text => ∃ v, Numeral text v
  | frame offset => low ≤ offset
  | global _ => True
  | accumulator => False

theorem Settled.mono {low low' : Int} {o : Operand} (h : o.Settled low) (hle : low' ≤ low) :
    o.Settled low' := by
  cases o with
  | frame offset => exact Int.le_trans hle h
  | _ => exact h

theorem Settled.eval_eq {low : Int} {o : Operand} (h : o.Settled low) (A : Arithmetic Int)
    {σ σ' : Store Int} (hσ : σ.Untouched low σ') : o.eval A σ' = o.eval A σ := by
  cases o with
  | literal text => rfl
  | frame offset => exact congrArg some (hσ.1 offset h)
  | global name => simp [eval, hσ.2]
  | accumulator => cases h

variable {A : Arithmetic Int} {σ : Store Int} {low : Int} {o : Operand} {v : Int}

theorem eval_literal (hA : A.IsInteger) {text : String} (h : Numeral text v) :
    (literal text).eval A σ = some v := by
  simp [eval, wholeNumber?_of_numeral h, hA.ofInt]

theorem Settled.exists_eval (hA : A.IsInteger) (h : o.Settled low) : ∃ v, o.eval A σ = some v := by
  cases o with
  | literal text =>
    obtain ⟨v, hv⟩ := h
    exact ⟨v, eval_literal hA hv⟩
  | accumulator => cases h
  | _ => exact ⟨_, rfl⟩

theorem eq_zero_of_isZero (hA : A.IsInteger) (h : o.Settled low) (hzero : o.isZero = true)
    (hv : o.eval A σ = some v) : v = 0 := by
  cases o with
  | literal text =>
    obtain ⟨w, hw⟩ := h
    rw [isZero_literal (wholeNumber?_of_numeral hw)] at hzero
    rw [eval_literal hA hw] at hv
    cases hv
    exact of_decide_eq_true hzero
  | _ => cases hzero

theorem eq_one_of_isOne (hA : A.IsInteger) (h : o.Settled low) (hone : o.isOne = true)
    (hv : o.eval A σ = some v) : v = 1 := by
  cases o with
  | literal text =>
    obtain ⟨w, hw⟩ := h
    rw [isOne_literal (wholeNumber?_of_numeral hw)] at hone
    rw [eval_literal hA hw] at hv
    cases hv
    exact of_decide_eq_true hone
  | _ => cases hone

end Operand

namespace State

/-- An operation is left out if zero is added or subtracted or one is a factor or the divisor. -/
theorem identity?_eq_some {left right o : Operand} {op : BinOp}
    (h : identity? left op right = some o) :
    (o = left ∧ ((op = .add ∨ op = .sub) ∧ right.isZero = true ∨
      (op = .mul ∨ op = .div) ∧ right.isOne = true)) ∨
    (o = right ∧ (op = .add ∧ left.isZero = true ∨ op = .mul ∧ left.isOne = true)) := by
  cases op <;> grind [identity?]

/-- An operation that is left out would not have changed the value. -/
theorem eval_identity? {A : Arithmetic Int} (hA : A.IsInteger) {σ : Store Int} {low : Int}
    {left right o : Operand} {op : BinOp} {x y : Int} (hleft : left.Settled low)
    (hright : right.Settled low) (hx : left.eval A σ = some x) (hy : right.eval A σ = some y)
    (h : identity? left op right = some o) : o.eval A σ = some (A.apply op x y) := by
  rcases identity?_eq_some h with
    ⟨rfl, ⟨hop, hzero⟩ | ⟨hop, hone⟩⟩ | ⟨rfl, ⟨rfl, hzero⟩ | ⟨rfl, hone⟩⟩
  · have hy0 := Operand.eq_zero_of_isZero hA hright hzero hy
    rw [hx, hy0]
    rcases hop with rfl | rfl
    · rw [hA.add, Int.add_zero]
    · rw [hA.sub, Int.sub_zero]
  · have hy1 := Operand.eq_one_of_isOne hA hright hone hy
    rw [hx, hy1]
    rcases hop with rfl | rfl
    · rw [hA.mul, Int.mul_one]
    · rw [hA.div_one]
  · have hx0 := Operand.eq_zero_of_isZero hA hleft hzero hx
    rw [hy, hx0, hA.add, Int.zero_add]
  · have hx1 := Operand.eq_one_of_isOne hA hleft hone hx
    rw [hy, hx1, hA.mul, Int.one_mul]

end State

/-! ## What names stand for -/

/-- How code refers to a record. -/
def Symbol.operand (r : Symbol) : Operand :=
  match r.constantValue? with
  | some value => .literal value.render
  | none => if r.depth ≤ 1 then .global r.name else .frame r.offset

/-- The record can be used as a whole number: a variable, of type `int` if it lies in a frame, or a
constant that is an integer or a character. -/
def Symbol.isWhole (r : Symbol) : Bool :=
  match r.entity with
  | .var type _ _ => decide (r.depth ≤ 1) || type == .int
  | .const _ (.int _) => true
  | .const _ (.char _) => true
  | _ => false

theorem Symbol.constantValue?_outline (r : Symbol) :
    r.outline.constantValue? = r.constantValue? := by
  unfold constantValue? outline
  cases r.entity <;> rfl

theorem Symbol.operand_of_outline {r q : Symbol} (h : q.outline = r.outline) :
    q.operand = r.operand := by
  have hvalue : q.constantValue? = r.constantValue? := by
    rw [← constantValue?_outline q, h, constantValue?_outline]
  unfold operand
  rw [hvalue, depth_of_outline h, name_of_outline h, offset_of_outline h]

namespace State

theorem operandOf_eq {s : State} {id : SymbolId} {r : Symbol} (h : s.symbols.get? id = some r) :
    s.operandOf id = .ok r.operand := by
  unfold operandOf Symbol.operand
  rw [fetch_eq_ok h]
  change (match r.constantValue? with | some _ => _ | none => _) = _
  cases r.constantValue? <;> rfl

/-- The name is declared and can be used as a whole number. -/
def isUsable (s : State) (name : String) : Bool :=
  (s.symbols.lookupSymbol name).any Symbol.isWhole

/-- The name is declared, and not as a constant. -/
def isAssignable (s : State) (name : String) : Bool :=
  (s.symbols.lookupSymbol name).any fun r => !r.entity.isConst

/-- The operand of the name has the value. -/
def Holds (s : State) (A : Arithmetic Int) (σ : Store Int) (name : String) (v : Int) : Prop :=
  ∃ id o, s.symbols.lookup name = some id ∧ s.operandOf id = .ok o ∧ o.eval A σ = some v

/-- A name has one operand. -/
theorem Holds.eval_eq {s : State} {A : Arithmetic Int} {σ : Store Int} {name : String} {v : Int}
    (h : s.Holds A σ name v) {id : SymbolId} {o : Operand} (hid : s.symbols.lookup name = some id)
    (ho : s.operandOf id = .ok o) : o.eval A σ = some v := by
  obtain ⟨id', o', hid', ho', hv⟩ := h
  rw [hid] at hid'
  cases hid'
  rw [ho] at ho'
  cases ho'
  exact hv

theorem exists_of_isUsable {s : State} {name : String} (h : s.isUsable name = true) :
    ∃ id r, s.symbols.lookup name = some id ∧ s.symbols.get? id = some r ∧ r.isWhole = true := by
  unfold isUsable SymbolTable.lookupSymbol at h
  cases hid : s.symbols.lookup name with
  | none => simp [hid] at h
  | some id =>
    cases hr : s.symbols.get? id with
    | none => simp [hid, hr] at h
    | some r => exact ⟨id, r, rfl, hr, by simpa [hid, hr] using h⟩

theorem settled_operand {s : State} {id : SymbolId} {r : Symbol} (h : s.symbols.get? id = some r)
    (hwhole : r.isWhole = true) : r.operand.Settled s.symbols.minOffset := by
  have hlow := SymbolTable.minOffset_le h
  unfold Symbol.isWhole at hwhole
  unfold Symbol.operand Symbol.constantValue?
  cases hentity : r.entity with
  | var type mode location =>
    dsimp only
    split
    · trivial
    · exact hlow
  | const type value =>
    cases value with
    | int v => exact ⟨v, numeral_toString_int v⟩
    | char c => exact ⟨_, numeral_toString_nat c.toNat⟩
    | float x => simp [hentity] at hwhole
  | _ => simp [hentity] at hwhole

/-- The operands of the names have the values `ρ`. -/
def Agrees (s : State) (names : List String) (A : Arithmetic Int) (σ : Store Int)
    (ρ : String → Int) : Prop :=
  ∀ name ∈ names, s.Holds A σ name (ρ name)

/-- In every store, names that can be used have values. -/
theorem exists_agrees {s : State} {names : List String}
    (hnames : ∀ name ∈ names, s.isUsable name = true) {A : Arithmetic Int} (hA : A.IsInteger)
    (σ : Store Int) : ∃ ρ, s.Agrees names A σ ρ := by
  have hvalue : ∀ name, ∃ v, name ∈ names → s.Holds A σ name v := by
    intro name
    by_cases hname : name ∈ names
    · obtain ⟨id, r, hid, hr, hwhole⟩ := exists_of_isUsable (hnames name hname)
      obtain ⟨v, hv⟩ := (settled_operand hr hwhole).exists_eval (σ := σ) hA
      exact ⟨v, fun _ => ⟨id, r.operand, hid, operandOf_eq hr, hv⟩⟩
    · exact ⟨0, fun h => absurd h hname⟩
  exact Classical.axiomOfChoice hvalue

/-- What is written below all records changes the value of no name. -/
theorem Agrees.untouched {s : State} {names : List String} {A : Arithmetic Int} {σ σ' : Store Int}
    {ρ : String → Int} {low : Int} (h : s.Agrees names A σ ρ)
    (hnames : ∀ name ∈ names, s.isUsable name = true) (hσ : σ.Untouched low σ')
    (hlow : low ≤ s.symbols.minOffset) : s.Agrees names A σ' ρ := by
  intro name hname
  obtain ⟨id, r, hid, hr, hwhole⟩ := exists_of_isUsable (hnames name hname)
  have hsettled := (settled_operand hr hwhole).mono hlow
  refine ⟨id, r.operand, hid, operandOf_eq hr, ?_⟩
  rw [hsettled.eval_eq A hσ]
  exact (h name hname).eval_eq hid (operandOf_eq hr)

end State

/-! ## Values worked out -/

theorem Code.exec_singleton {α : Type} (A : Arithmetic α) (σ : Store α) (i : Instr) :
    Code.exec A σ [i] = i.exec A σ := by
  simp [Code.exec]

/-- A value written to a word below all others leaves these alone. -/
theorem Instr.exec_frame {A : Arithmetic Int} {σ : Store Int} {i : Instr} {offset low : Int}
    {v : Int} (hdest : i.dest? = some (.frame offset)) (hvalue : i.value A σ = some v)
    (hlow : offset < low) :
    ∃ σ', i.exec A σ = some σ' ∧ σ.Untouched low σ' ∧
      (Operand.frame offset).eval A σ' = some v := by
  have hexec : i.exec A σ = (Operand.frame offset).assign σ v := by
    simp [Instr.exec, hdest, hvalue]
  refine ⟨_, hexec, ⟨fun other hother => ?_, rfl⟩, ?_⟩
  · have hne : other ≠ offset := by omega
    simp [hne]
  · simp [Operand.eval]

/-- Between the states, code was written that leaves the value in the operand on top. -/
structure Computes (b : State) (names : List String) (s t : State) (code : Code) (o : Operand)
    (value : Arithmetic Int → (String → Int) → Int) : Prop where
  follows : b.Follows t
  code_eq : t.code.toList = s.code.toList ++ code
  low : t.symbols.minOffset ≤ s.symbols.minOffset
  operands : t.operands = o :: s.operands
  settled : o.Settled t.symbols.minOffset
  exec : ∀ A : Arithmetic Int, A.IsInteger → ∀ σ ρ, b.Agrees names A σ ρ →
    ∃ σ', Code.exec A σ code = some σ' ∧ σ.Untouched s.symbols.minOffset σ' ∧
      o.eval A σ' = some (value A ρ)

section

variable {b s t t' : State} {names : List String} {code code' : Code} {o o' : Operand}
  {value value' : Arithmetic Int → (String → Int) → Int}

/-- An operand that needs no code. -/
theorem computes_pushOperand (h : b.Follows s) (hsettled : o.Settled s.symbols.minOffset)
    (heval : ∀ A : Arithmetic Int, A.IsInteger → ∀ σ ρ, b.Agrees names A σ ρ →
      o.eval A σ = some (value A ρ)) :
    Computes b names s (s.pushOperand o) [] o value where
  follows := h.same rfl rfl
  code_eq := (List.append_nil _).symm
  low := Int.le_refl _
  operands := rfl
  settled := hsettled
  exec := fun A hA σ ρ hρ => ⟨σ, rfl, ⟨fun _ _ => rfl, rfl⟩, heval A hA σ ρ hρ⟩

/-- The value of an instruction, written to a new word. -/
theorem computes_newTemp (hfollows : b.Follows t) (hcode : t.code.toList = s.code.toList ++ code)
    (hlow : t.symbols.minOffset ≤ s.symbols.minOffset) (hoperands : t.operands = s.operands)
    {i : Operand → Instr} (hdest : ∀ d, (i d).dest? = some d)
    (hexec : ∀ A : Arithmetic Int, A.IsInteger → ∀ σ ρ, b.Agrees names A σ ρ →
      ∃ σ', Code.exec A σ code = some σ' ∧ σ.Untouched s.symbols.minOffset σ' ∧
        ∀ d, (i d).value A σ' = some (value A ρ)) :
    Computes b names s ((t.newTemp.2.emit (i t.newTemp.1)).pushOperand t.newTemp.1)
      (code ++ [i t.newTemp.1]) t.newTemp.1 value := by
  have htemp := State.low_newTemp t
  have hoffset : t.tempRecord.offset = t.symbols.minOffset - 2 := rfl
  refine ⟨hfollows.newTemp.same rfl rfl, ?_, ?_, ?_, htemp, ?_⟩
  · change (t.newTemp.2.code.push _).toList = _
    rw [Array.toList_push, State.code_newTemp, hcode, List.append_assoc]
  · change t.newTemp.2.symbols.minOffset ≤ _
    omega
  · change _ :: t.newTemp.2.operands = _
    rw [State.operands_newTemp, hoperands]
  · intro A hA σ ρ hρ
    obtain ⟨σ₁, hσ₁, huntouched, hvalue⟩ := hexec A hA σ ρ hρ
    have hbelow : t.tempRecord.offset < t.symbols.minOffset := by omega
    obtain ⟨σ₂, hσ₂, huntouched₂, heval⟩ := Instr.exec_frame (hdest _) (hvalue _) hbelow
    refine ⟨σ₂, ?_, huntouched.trans hlow huntouched₂, heval⟩
    rw [Code.exec_append, hσ₁, Option.bind_some, Code.exec_singleton]
    exact hσ₂

theorem computes_negate (h : Computes b names s t code o value) :
    ∃ code' o', Computes b names s ({ t with operands := s.operands }.negate o) code' o'
      fun A ρ => A.neg (value A ρ) := by
  have hfollows : b.Follows { t with operands := s.operands } := h.follows.same rfl rfl
  unfold State.negate
  split
  · rename_i text
    obtain ⟨v, hv⟩ := h.settled
    refine ⟨code, _, hfollows.same rfl rfl, h.code_eq, h.low, rfl,
      ⟨-v, numeral_negateText hv⟩, ?_⟩
    intro A hA σ ρ hρ
    obtain ⟨σ', hσ', huntouched, heval⟩ := h.exec A hA σ ρ hρ
    refine ⟨σ', hσ', huntouched, ?_⟩
    rw [Operand.eval_literal hA hv] at heval
    rw [Operand.eval_literal hA (numeral_negateText hv), hA.neg]
    cases heval
    rfl
  · refine ⟨_, _, computes_newTemp hfollows h.code_eq h.low rfl (i := fun d => .negate d o)
      (fun _ => rfl) ?_⟩
    intro A hA σ ρ hρ
    obtain ⟨σ', hσ', huntouched, heval⟩ := h.exec A hA σ ρ hρ
    refine ⟨σ', hσ', huntouched, fun d => ?_⟩
    simp [Instr.value, heval]

/-- While the second value is worked out, the first one waits. -/
theorem exec_both (hnames : ∀ name ∈ names, b.isUsable name = true)
    (h : Computes b names s t code o value) (h' : Computes b names t t' code' o' value')
    (hs : b.Follows s) {A : Arithmetic Int} (hA : A.IsInteger) {σ : Store Int} {ρ : String → Int}
    (hρ : b.Agrees names A σ ρ) :
    ∃ σ', Code.exec A σ (code ++ code') = some σ' ∧ σ.Untouched s.symbols.minOffset σ' ∧
      o.eval A σ' = some (value A ρ) ∧ o'.eval A σ' = some (value' A ρ) := by
  obtain ⟨σ₁, hσ₁, huntouched₁, heval₁⟩ := h.exec A hA σ ρ hρ
  have hρ₁ := hρ.untouched hnames huntouched₁ hs.low
  obtain ⟨σ₂, hσ₂, huntouched₂, heval₂⟩ := h'.exec A hA σ₁ ρ hρ₁
  refine ⟨σ₂, ?_, huntouched₁.trans h.low huntouched₂, ?_, heval₂⟩
  · rw [Code.exec_append, hσ₁]
    exact hσ₂
  · rw [h.settled.eval_eq A huntouched₂]
    exact heval₁

theorem computes_combine (hnames : ∀ name ∈ names, b.isUsable name = true) (hs : b.Follows s)
    (h : Computes b names s t code o value) (h' : Computes b names t t' code' o' value')
    (op : BinOp) :
    ∃ code'' o'', Computes b names s ({ t' with operands := s.operands }.combine o op o') code'' o''
      fun A ρ => A.apply op (value A ρ) (value' A ρ) := by
  have hfollows : b.Follows { t' with operands := s.operands } := h'.follows.same rfl rfl
  have hcode : t'.code.toList = s.code.toList ++ (code ++ code') := by
    rw [h'.code_eq, h.code_eq, List.append_assoc]
  have hlow := Int.le_trans h'.low h.low
  have hsettled := h.settled.mono h'.low
  unfold State.combine
  split
  · rename_i same hsame
    refine ⟨code ++ code', same, hfollows.same rfl rfl, hcode, hlow, rfl, ?_, ?_⟩
    · rcases State.identity?_eq_some hsame with ⟨rfl, -⟩ | ⟨rfl, -⟩
      · exact hsettled
      · exact h'.settled
    · intro A hA σ ρ hρ
      obtain ⟨σ', hσ', huntouched, heval, heval'⟩ := exec_both hnames h h' hs hA hρ
      exact ⟨σ', hσ', huntouched,
        State.eval_identity? hA hsettled h'.settled heval heval' hsame⟩
  · refine ⟨_, _, computes_newTemp hfollows hcode hlow rfl (i := fun d => .binary d o op o')
      (fun _ => rfl) ?_⟩
    intro A hA σ ρ hρ
    obtain ⟨σ', hσ', huntouched, heval, heval'⟩ := exec_both hnames h h' hs hA hρ
    refine ⟨σ', hσ', huntouched, fun d => ?_⟩
    simp [Instr.value, heval, heval']

/-! ## Expressions -/

theorem numeral_of_wellSpelled {t : Token} (h : t.WellSpelled)
    (hwhole : Syntax.Expr.isWholeNumber t.kind = true) :
    Numeral t.lexeme (Syntax.Expr.numeralValue t.kind) := by
  unfold Token.WellSpelled at h
  cases hkind : t.kind with
  | number n =>
    rw [hkind] at h
    exact ⟨n, .inl ⟨(digitsValue?_eq_some_iff _ n).mpr h, rfl⟩⟩
  | _ =>
    rw [hkind] at hwhole
    cases hwhole

theorem resolve_eq (line : Nat) {name : String} {id : SymbolId} (h : b.Follows s)
    (hword : IsWord name) (hid : b.symbols.lookup name = some id) :
    s.resolve line name = .ok (id, s) := by
  rw [State.resolve, h.lookup name hword, hid]

/-- The operand of a declared name needs no code. -/
theorem computes_name {name : String} {id : SymbolId} {r : Symbol} (h : b.Follows s)
    (hid : b.symbols.lookup name = some id) (hr : b.symbols.get? id = some r)
    (hwhole : r.isWhole = true) (hmem : name ∈ names) :
    Computes b names s (s.pushOperand r.operand) [] r.operand fun _ ρ => ρ name := by
  refine computes_pushOperand h ((State.settled_operand hr hwhole).mono h.low) ?_
  intro A _ σ ρ hρ
  exact (hρ name hmem).eval_eq hid (State.operandOf_eq hr)

theorem computes_load (line : Nat) {name : String} (h : b.Follows s) (hword : IsWord name)
    (husable : b.isUsable name = true) (hmem : name ∈ names) :
    ∃ t o, (Action.load line name).apply s = .ok t ∧
      Computes b names s t [] o fun _ ρ => ρ name := by
  obtain ⟨id, r, hid, hr, hwhole⟩ := State.exists_of_isUsable husable
  obtain ⟨q, hq, hout⟩ := h.records id r hr
  refine ⟨_, _, ?_, computes_name h hid hr hwhole hmem⟩
  rw [Action.apply, resolve_eq line h hword hid]
  change (s.operandOf id >>= fun o => Except.ok (s.pushOperand o)) = _
  rw [State.operandOf_eq hq, Symbol.operand_of_outline hout]
  rfl

/-- Two values and an operation on them. -/
theorem computes_binary {as bs : List Action} (hnames : ∀ name ∈ names, b.isUsable name = true)
    (hs : b.Follows s) (has : s.run as = (t, none)) (h : Computes b names s t code o value)
    (hbs : t.run bs = (t', none)) (h' : Computes b names t t' code' o' value') (op : BinOp) :
    ∃ u code'' o'', s.run (as ++ bs ++ [.binary op]) = (u, none) ∧
      Computes b names s u code'' o'' fun A ρ => A.apply op (value A ρ) (value' A ρ) := by
  obtain ⟨code'', o'', hcombine⟩ := computes_combine hnames hs h h' op
  have hboth := State.run_append_eq_none.mpr ⟨t, has, hbs⟩
  refine ⟨_, code'', o'', State.run_append_eq_none.mpr ⟨t', hboth, ?_⟩, hcombine⟩
  refine State.run_cons_eq_none.mpr ⟨_, ?_, rfl⟩
  rw [Action.apply, h'.operands, h.operands]

/-- The actions of an expression leave an operand with its value. -/
theorem computes_expr (hnames : ∀ name ∈ names, IsWord name ∧ b.isUsable name = true)
    {r : Syntax.Rank} (e : Syntax.Expr r) (hs : b.Follows s) (hwhole : e.isWhole = true)
    (hspelled : ∀ t ∈ e.tokens, t.WellSpelled) (huses : ∀ name ∈ e.names, name ∈ names) :
    ∃ t code o, s.run e.actions = (t, none) ∧ Computes b names s t code o e.eval := by
  induction e generalizing s with
  | name t =>
    have hmem := huses t.1.lexeme List.mem_cons_self
    obtain ⟨hword, husable⟩ := hnames _ hmem
    obtain ⟨u, o, happly, hcomputes⟩ := computes_load t.1.line hs hword husable hmem
    exact ⟨u, [], o, State.run_cons_eq_none.mpr ⟨u, happly, rfl⟩, hcomputes⟩
  | numeral t =>
    have hnumeral := numeral_of_wellSpelled (hspelled t.1 List.mem_cons_self) hwhole
    refine ⟨_, [], .literal t.1.lexeme, rfl, computes_pushOperand hs ⟨_, hnumeral⟩ ?_⟩
    intro A hA σ ρ _
    rw [Operand.eval_literal hA hnumeral]
    exact congrArg some (hA.ofInt _).symm
  | paren left e right ih =>
    refine ih hs hwhole (fun t ht => hspelled t ?_) huses
    simp [Syntax.Expr.tokens, ht]
  | minus sign f ih =>
    obtain ⟨u, code, o, hrun, hcomputes⟩ :=
      ih hs hwhole (fun t ht => hspelled t (List.mem_cons_of_mem _ ht)) huses
    obtain ⟨code', o', hnegate⟩ := computes_negate hcomputes
    refine ⟨_, code', o', State.run_append_eq_none.mpr ⟨u, hrun, ?_⟩, hnegate⟩
    refine State.run_cons_eq_none.mpr ⟨_, ?_, rfl⟩
    rw [Action.apply, hcomputes.operands]
  | ofFactor f ih => exact ih hs hwhole hspelled huses
  | ofTerm t ih => exact ih hs hwhole hspelled huses
  | product l op f ihl ihf | sum l op f ihl ihf =>
    rw [Syntax.Expr.isWhole, Bool.and_eq_true] at hwhole
    obtain ⟨u, code, o, hrun, hcomputes⟩ := ihl hs hwhole.1
      (fun t ht => hspelled t (List.mem_append_left _ ht))
      (fun name hname => huses name (List.mem_append_left _ hname))
    obtain ⟨u', code', o', hrun', hcomputes'⟩ := ihf hcomputes.follows hwhole.2
      (fun t ht => hspelled t (List.mem_append_right _ (List.mem_cons_of_mem _ ht)))
      (fun name hname => huses name (List.mem_append_right _ hname))
    exact computes_binary (fun name hname => (hnames name hname).2) hs hrun hcomputes hrun'
      hcomputes' op.meaning

end

end Triad
