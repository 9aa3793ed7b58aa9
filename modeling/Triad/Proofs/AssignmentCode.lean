import Triad.Proofs.ExpressionCode

/-!
Code for assignments. Names of variables share no place, so an assignment changes the value of its
target and of no other name. Main statement: the code of a list of assignments changes the values of
the names as the assignments do (`carries_statements`).
-/

namespace Triad

open Syntax

/-! ## Distinct names -/

/-- A record that is used as a whole number is a literal, a variable of a class, or a slot. -/
theorem Symbol.operand_cases {r : Symbol} (h : r.isWhole = true) (hdepth : r.depth ≤ 2) :
    (r.entity.isConst = true ∧ ∃ text, r.operand = .literal text) ∨
      r.operand = .global r.name ∨ (r.operand = .frame r.offset ∧ r.isSlot = true) := by
  unfold isWhole at h
  cases hentity : r.entity with
  | const type value =>
    exact .inl ⟨rfl, value.render, by simp [operand, constantValue?, hentity]⟩
  | var type mode location =>
    right
    by_cases hle : r.depth ≤ 1
    · left
      simp [operand, constantValue?, hentity, hle]
    · right
      have htwo : r.depth = 2 := by omega
      have htype : type = .int := by simpa [hentity, hle] using h
      subst htype
      refine ⟨by simp [operand, constantValue?, hentity, hle], ?_⟩
      simp only [isSlot, hentity, htwo]
      rfl
  | _ => simp [hentity] at h

theorem SymbolTable.name_of_lookup {t : SymbolTable} (h : t.Chained) {name : String}
    {id : SymbolId} {r : Symbol} (hid : t.lookup name = some id) (hr : t.get? id = some r) :
    r.name = name := by
  obtain ⟨⟨q, hq, hname⟩, -⟩ := (lookup_eq_some_iff h name id).mp hid
  rw [hr] at hq
  cases hq
  exact hname

/-- Two names share no operand that can be changed. -/
theorem operand_ne {step : Int} {s : State} (hfits : Fits .body s) (hlaid : s.Laid step)
    {name other : String} {i j : SymbolId} {r q : Symbol} (hi : s.symbols.lookup name = some i)
    (hr : s.symbols.get? i = some r) (hrwhole : r.isWhole = true)
    (hj : s.symbols.lookup other = some j) (hq : s.symbols.get? j = some q)
    (hqwhole : q.isWhole = true) (hvar : r.entity.isConst = false) (hne : other ≠ name) :
    q.operand ≠ r.operand := by
  have hrname := SymbolTable.name_of_lookup hfits.chained hi hr
  have hqname := SymbolTable.name_of_lookup hfits.chained hj hq
  have hij : j ≠ i := by
    rintro rfl
    rw [hr] at hq
    cases hq
    exact hne (hqname.symm.trans hrname)
  have hqcases := Symbol.operand_cases hqwhole (hfits.bounded j q hq)
  rcases Symbol.operand_cases hrwhole (hfits.bounded i r hr) with
    ⟨hconst, -⟩ | hro | ⟨hro, hrslot⟩
  · rw [hvar] at hconst
    cases hconst
  · rcases hqcases with ⟨-, text, hqo⟩ | hqo | ⟨hqo, -⟩
    · simp [hro, hqo]
    · simp [hro, hqo, hrname, hqname, hne]
    · simp [hro, hqo]
  · rcases hqcases with ⟨-, text, hqo⟩ | hqo | ⟨hqo, hqslot⟩
    · simp [hro, hqo]
    · simp [hro, hqo]
    · simp [hro, hqo, hlaid.apart j i q r ⟨hq, hqslot⟩ ⟨hr, hrslot⟩ hij]

/-! ## Assignments -/

theorem exec_assignInstr {A : Arithmetic Int} (hA : A.IsInteger) {σ : Store Int} {low : Int}
    {dest source : Operand} {d v : Int} (op : Option BinOp) (hdest : dest.Settled low)
    (hsource : source.Settled low) (hd : dest.eval A σ = some d)
    (hv : source.eval A σ = some v) :
    (State.assignInstr dest op source).exec A σ =
      dest.assign σ (Statement.assigned A op d v) := by
  cases op with
  | none => simp [State.assignInstr, Instr.exec, Instr.dest?, Instr.value, hv, Statement.assigned]
  | some op =>
    cases hsame : State.identity? dest op source with
    | none =>
      simp [State.assignInstr, hsame, Instr.exec, Instr.dest?, Instr.value, hd, hv,
        Statement.assigned]
    | some same =>
      have heval := State.eval_identity? hA hdest hsource hd hv hsame
      simp [State.assignInstr, hsame, Instr.exec, Instr.dest?, Instr.value, heval,
        Statement.assigned]

theorem Entity.isConst_outline (e : Entity) : e.outline.isConst = e.isConst := by
  cases e <;> rfl

theorem Symbol.isConst_of_outline {r q : Symbol} (h : q.outline = r.outline) :
    q.entity.isConst = r.entity.isConst := by
  have hentity : q.entity.outline = r.entity.outline := congrArg Symbol.entity h
  rw [← Entity.isConst_outline, hentity, Entity.isConst_outline]

/-- Between the states, code was written that changes the values of the names as told. -/
structure Carries (b : State) (names : List String) (s t : State) (code : Code)
    (effect : Arithmetic Int → (String → Int) → String → Int) : Prop where
  follows : b.Follows t
  code_eq : t.code.toList = s.code.toList ++ code
  exec : ∀ A : Arithmetic Int, A.IsInteger → ∀ σ ρ, b.Agrees names A σ ρ →
    ∃ σ', Code.exec A σ code = some σ' ∧ b.Agrees names A σ' (effect A ρ)

section

variable {b s : State} {names : List String}

theorem apply_target (line : Nat) {name : String} {id : SymbolId} {r : Symbol} (h : b.Follows s)
    (hword : IsWord name) (hid : b.symbols.lookup name = some id)
    (hr : b.symbols.get? id = some r) (hvar : r.entity.isConst = false) :
    (Action.target line name).apply s = .ok (s.pushOperand r.operand) := by
  obtain ⟨q, hq, hout⟩ := h.records id r hr
  rw [Action.apply, resolve_eq line h hword hid]
  change (s.symbols.fetch id >>= fun q => if q.entity.isConst then _ else
    s.operandOf id >>= fun o => Except.ok (s.pushOperand o)) = _
  rw [State.fetch_eq_ok hq]
  change (if q.entity.isConst then _ else _) = _
  rw [Symbol.isConst_of_outline hout, hvar, State.operandOf_eq hq, Symbol.operand_of_outline hout]
  rfl

theorem exists_assign {o : Operand} (h : o.isLiteral = false) (σ : Store Int) (v : Int) :
    ∃ σ', o.assign σ v = some σ' := by
  cases o with
  | literal text => cases h
  | _ => exact ⟨_, rfl⟩

variable {step : Int} (hfits : Fits .body b) (hlaid : b.Laid step)
  (hnames : ∀ name ∈ names, IsWord name ∧ b.isUsable name = true)
include hfits hlaid hnames

/-- A new value for one name leaves the values of all others. -/
theorem agrees_assign {A : Arithmetic Int} {σ σ' : Store Int} {ρ : String → Int} {name : String}
    {id : SymbolId} {r : Symbol} {v : Int} (hρ : b.Agrees names A σ ρ)
    (hid : b.symbols.lookup name = some id) (hr : b.symbols.get? id = some r)
    (hwhole : r.isWhole = true) (hvar : r.entity.isConst = false)
    (hassign : r.operand.assign σ v = some σ') :
    b.Agrees names A σ' fun other => if other = name then v else ρ other := by
  intro other hother
  obtain ⟨j, q, hj, hq, hqwhole⟩ := State.exists_of_isUsable (hnames other hother).2
  have hvalue := (hρ other hother).eval_eq hj (State.operandOf_eq hq)
  refine ⟨j, q.operand, hj, State.operandOf_eq hq, ?_⟩
  rw [Operand.eval_assign A hassign]
  by_cases hsame : other = name
  · subst hsame
    rw [hid] at hj
    cases hj
    rw [hr] at hq
    cases hq
    simp
  · have hne := operand_ne hfits hlaid hid hr hwhole hj hq hqwhole hvar hsame
    simp [hne, hsame, hvalue]

/-- The actions of an assignment change its target as they should. -/
theorem carries_assign (target : Tok .identifier) (op : Operator assignops) (e : Expr .expr)
    (hs : b.Follows s) (hwhole : e.isWhole = true) (hspelled : ∀ t ∈ e.tokens, t.WellSpelled)
    (huses : ∀ name ∈ target.1.lexeme :: e.names, name ∈ names)
    (htarget : b.isAssignable target.1.lexeme = true) :
    ∃ t code, s.run (Statement.assign target op (.expr e)).actions = (t, none) ∧
      Carries b names s t code fun A ρ => (Statement.assign target op (.expr e)).eval A ρ := by
  have hmem := huses target.1.lexeme List.mem_cons_self
  obtain ⟨hword, husable⟩ := hnames _ hmem
  obtain ⟨id, r, hid, hr, hrwhole⟩ := State.exists_of_isUsable husable
  have hvar : r.entity.isConst = false := by
    simpa [State.isAssignable, SymbolTable.lookupSymbol, hid, hr] using htarget
  -- the target waits as an operand while the expression is worked out
  have hname := computes_name hs hid hr hrwhole hmem
  obtain ⟨t, code, o, hrun, hexpr⟩ := computes_expr hnames e hname.follows hwhole hspelled
    fun name hname => huses name (List.mem_cons_of_mem _ hname)
  refine ⟨{ t with operands := s.operands }.emit (State.assignInstr r.operand op.meaning o),
    code ++ [State.assignInstr r.operand op.meaning o], ?_, hexpr.follows.same rfl rfl, ?_, ?_⟩
  · refine State.run_append_eq_none.mpr ⟨t, State.run_cons_eq_none.mpr
      ⟨_, apply_target target.1.line hs hword hid hr hvar, hrun⟩, ?_⟩
    refine State.run_cons_eq_none.mpr ⟨_, ?_, rfl⟩
    rw [Action.apply, hexpr.operands]
    rfl
  · change (t.code.push _).toList = _
    rw [Array.toList_push, hexpr.code_eq, List.append_assoc]
    rfl
  · intro A hA σ ρ hρ
    obtain ⟨σ₁, hσ₁, huntouched, hold, hnew⟩ :=
      exec_both (fun name hname => (hnames name hname).2) hname hexpr hs hA hρ
    have hliteral : r.operand.isLiteral = false := by
      rcases Symbol.operand_cases hrwhole (hfits.bounded id r hr) with ⟨hconst, -⟩ | hro | ⟨hro, -⟩
      · rw [hvar] at hconst
        cases hconst
      · rw [hro]
        rfl
      · rw [hro]
        rfl
    obtain ⟨σ₂, hσ₂⟩ := exists_assign hliteral σ₁
      (Statement.assigned A op.meaning (ρ target.1.lexeme) (e.eval A ρ))
    have hρ₁ := hρ.untouched (fun name hname => (hnames name hname).2) huntouched hs.low
    refine ⟨σ₂, ?_, ?_⟩
    · rw [Code.exec_append]
      rw [List.nil_append] at hσ₁
      rw [hσ₁, Option.bind_some, Code.exec_singleton,
        exec_assignInstr hA op.meaning (hname.settled.mono hexpr.low) hexpr.settled hold hnew]
      exact hσ₂
    · exact agrees_assign hfits hlaid hnames hρ₁ hid hr hrwhole hvar hσ₂

theorem carries_statement (st : Statement) (hs : b.Follows s) (harithmetic : st.isArithmetic = true)
    (hspelled : ∀ t ∈ st.tokens, t.WellSpelled) (huses : ∀ name ∈ st.names, name ∈ names)
    (htarget : ∀ name, st.target? = some name → b.isAssignable name = true) :
    ∃ t code, s.run st.actions = (t, none) ∧ Carries b names s t code fun A ρ => st.eval A ρ := by
  unfold Statement.isArithmetic at harithmetic
  split at harithmetic
  · exact carries_assign hfits hlaid hnames _ _ _ hs harithmetic
      (fun t ht => hspelled t (List.mem_cons_of_mem _ (List.mem_cons_of_mem _ ht))) huses
      (htarget _ rfl)
  · cases harithmetic

/-- One assignment after another. -/
theorem carries_statements (statements : List Statement) (hs : b.Follows s)
    (harithmetic : ∀ st ∈ statements, st.isArithmetic = true)
    (hspelled : ∀ st ∈ statements, ∀ t ∈ st.tokens, t.WellSpelled)
    (huses : ∀ st ∈ statements, ∀ name ∈ st.names, name ∈ names)
    (htargets : ∀ st ∈ statements, ∀ name, st.target? = some name → b.isAssignable name = true) :
    ∃ t code, s.run (statements.flatMap Statement.actions) = (t, none) ∧
      Carries b names s t code fun A ρ => statements.foldl (fun ρ st => st.eval A ρ) ρ := by
  induction statements generalizing s with
  | nil =>
    refine ⟨s, [], rfl, hs, (List.append_nil _).symm, ?_⟩
    intro A hA σ ρ hρ
    exact ⟨σ, rfl, hρ⟩
  | cons st statements ih =>
    obtain ⟨t, code, hrun, hcarries⟩ := carries_statement hfits hlaid hnames st hs
      (harithmetic st List.mem_cons_self) (hspelled st List.mem_cons_self)
      (huses st List.mem_cons_self) (htargets st List.mem_cons_self)
    obtain ⟨u, code', hrun', hcarries'⟩ := ih hcarries.follows
      (fun st hst => harithmetic st (List.mem_cons_of_mem _ hst))
      (fun st hst => hspelled st (List.mem_cons_of_mem _ hst))
      (fun st hst => huses st (List.mem_cons_of_mem _ hst))
      (fun st hst => htargets st (List.mem_cons_of_mem _ hst))
    refine ⟨u, code ++ code', State.run_append_eq_none.mpr ⟨t, hrun, hrun'⟩, hcarries'.follows, ?_,
      ?_⟩
    · rw [hcarries'.code_eq, hcarries.code_eq, List.append_assoc]
    · intro A hA σ ρ hρ
      obtain ⟨σ', hσ', hρ'⟩ := hcarries.exec A hA σ ρ hρ
      obtain ⟨σ'', hσ'', hρ''⟩ := hcarries'.exec A hA σ' _ hρ'
      refine ⟨σ'', ?_, hρ''⟩
      rw [Code.exec_append, hσ']
      exact hσ''

end

end Triad
