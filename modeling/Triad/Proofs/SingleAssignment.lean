import Mathlib.Data.List.Forall2
import Triad.Proofs.FrameWords
import Triad.Proofs.FreshWords

/-!
The words of a frame are set once. What is assigned to is a place that was there before the code of
the method, so that a word which the code draws is set by one instruction only, the one that it was
drawn for. Main statement: wherever the translation of a text stands, a new word is apart from all
that is live, and in a text without warnings every word that a method draws is set by exactly one
instruction of its procedure, before any other instruction reads it (`words_set_once`).
-/

namespace Triad

/-! ## Places at hand -/

/-- Which of the values at hand are places to be assigned to, behind the action. -/
def Action.remark (a : Action) (marks : List Bool) : List Bool :=
  (match a with
    | target _ _ => [true]
    | _ => List.replicate a.pushes false) ++ marks.drop a.pops

/-- The actions lead from the first marks to the second ones, and an assignment finds a place below
the last value. -/
inductive Marked : List Bool → List Action → List Bool → Prop
  | nil (marks : List Bool) : Marked marks [] marks
  | cons {marks marks' : List Bool} {a : Action} {actions : List Action}
      (enough : a.pops ≤ marks.length)
      (place : ∀ op, a = .assign op → ∃ value rest, marks = value :: true :: rest)
      (later : Marked (a.remark marks) actions marks') : Marked marks (a :: actions) marks'

namespace Marked

variable {marks marks' marks'' : List Bool} {a : Action} {as bs : List Action}

theorem append (has : Marked marks as marks') (hbs : Marked marks' bs marks'') :
    Marked marks (as ++ bs) marks'' := by
  induction has with
  | nil => exact hbs
  | cons enough place _ ih => exact .cons enough place (ih hbs)

/-- An action that is no assignment. -/
theorem single (enough : a.pops ≤ marks.length) (hplain : ∀ op, a ≠ .assign op) :
    Marked marks [a] (a.remark marks) :=
  .cons enough (fun op heq => absurd heq (hplain op)) (.nil _)

theorem flatMap {α : Type} {f : α → List Action} {xs : List α}
    (h : ∀ x ∈ xs, Marked marks (f x) marks) : Marked marks (xs.flatMap f) marks := by
  induction xs with
  | nil => exact .nil marks
  | cons x xs ih =>
    exact (h x List.mem_cons_self).append (ih fun y hy => h y (List.mem_cons_of_mem x hy))

/-- Actions that take no value and leave none. -/
theorem idle (h : ∀ a ∈ as, a.isIdle = true) : Marked marks as marks := by
  induction as with
  | nil => exact .nil marks
  | cons a as ih =>
    have hidle := h a List.mem_cons_self
    have hvalues := hidle
    simp only [Action.isIdle, Bool.and_eq_true, beq_iff_eq] at hvalues
    obtain ⟨⟨hpops, hpushes⟩, -⟩ := hvalues
    have hremark : a.remark marks = marks := by
      unfold Action.remark
      split
      · cases hidle
      · rw [hpops, hpushes]
        rfl
    have hlater := ih fun b hb => h b (List.mem_cons_of_mem a hb)
    refine .cons (hpops ▸ Nat.zero_le _) ?_ (hremark.symm ▸ hlater)
    rintro op rfl
    cases hidle

end Marked

namespace Syntax

theorem Expr.marked_actions {r : Rank} (e : Expr r) (marks : List Bool) :
    Marked marks e.actions (false :: marks) := by
  induction e generalizing marks with
  | name t => exact .single (Nat.zero_le _) (by simp)
  | numeral t => exact .single (Nat.zero_le _) (by simp)
  | paren left e right ih => exact ih marks
  | minus sign f ih =>
    exact (ih marks).append (.single (a := .negate) (by simp [Action.pops]) (by simp))
  | ofFactor f ih => exact ih marks
  | ofTerm t ih => exact ih marks
  | product l op f ihl ihf | sum l op f ihl ihf =>
    exact ((ihl marks).append (ihf (false :: marks))).append
      (.single (a := .binary _) (by simp [Action.pops]) (by simp))

theorem marked_arguments (arguments : List (Expr .expr)) (marks : List Bool) :
    ∃ values : List Bool, values.length = arguments.length ∧
      Marked marks (arguments.flatMap Expr.actions) (values ++ marks) := by
  induction arguments generalizing marks with
  | nil => exact ⟨[], rfl, .nil marks⟩
  | cons e arguments ih =>
    obtain ⟨values, hlength, hvalues⟩ := ih (false :: marks)
    refine ⟨values ++ [false], by simp [hlength], ?_⟩
    rw [List.append_assoc]
    exact (e.marked_actions marks).append hvalues

theorem Call.marked_actions (c : Call) (marks : List Bool) : Marked marks c.actions marks := by
  obtain ⟨values, hlength, hvalues⟩ := marked_arguments c.argumentList marks
  have hremark : (Action.call c.target.1 c.target.2 c.argumentList.length).remark
      (values ++ marks) = marks := List.drop_left' hlength
  have hcall : Marked (values ++ marks) [.call c.target.1 c.target.2 c.argumentList.length]
      (Action.remark _ (values ++ marks)) := .single (by simp [Action.pops, hlength]) (by simp)
  rw [hremark] at hcall
  exact hvalues.append hcall

theorem Source.marked_actions (op : Option BinOp) (s : Source) (marks : List Bool) :
    Marked marks (s.actions op) (false :: marks) := by
  cases s with
  | call c =>
    refine (c.marked_actions marks).append ?_
    cases op with
    | none => exact .single (Nat.zero_le _) (by simp)
    | some op => exact .single (Nat.zero_le _) (by simp)
  | expr e => exact e.marked_actions marks

theorem Statement.marked_actions (st : Statement) (marks : List Bool) :
    Marked marks st.actions marks := by
  cases st with
  | assign target op source =>
    have htarget : Marked marks [.target target.1.line target.1.lexeme] (true :: marks) :=
      .single (Nat.zero_le _) (by simp)
    have hassign : Marked (false :: true :: marks) [.assign op.meaning] marks :=
      .cons (by simp [Action.pops]) (fun _ _ => ⟨_, _, rfl⟩) (.nil _)
    exact htarget.append ((source.marked_actions op.meaning (true :: marks)).append hassign)
  | call c => exact c.marked_actions marks
  | read keyword left names right =>
    refine .idle fun a ha => ?_
    obtain ⟨t, -, rfl⟩ := List.mem_map.mp ha
    rfl
  | write keyword left items right =>
    refine .idle fun a ha => ?_
    obtain ⟨i, -, rfl⟩ := List.mem_map.mp ha
    exact i.isIdle_action
  | writeln keyword left items right =>
    refine .idle fun a ha => ?_
    rcases List.mem_append.mp ha with ha | ha
    · obtain ⟨l, -, hl⟩ := List.mem_flatMap.mp ha
      obtain ⟨i, -, rfl⟩ := List.mem_map.mp hl
      exact i.isIdle_action
    · rw [List.mem_singleton.mp ha]
      rfl

theorem Body.marked_codeActions (b : Body) : Marked [] b.codeActions [] := by
  refine Marked.append (.flatMap fun step _ => step.1.marked_actions []) (.flatMap fun r _ => ?_)
  exact .flatMap fun e _ => (e.marked_actions []).append
    (.single (a := .returnValue) (by simp [Action.pops]) (by simp))

end Syntax

/-! ## Words that are set once -/

/-- The word at the offset is set by exactly one instruction, and no instruction up to that one
reads it. -/
def Code.SetsOnce (code : Code) (offset : Int) : Prop :=
  ∃ before i after, code = before ++ i :: after ∧ i.changes = some (.frame offset) ∧
    .frame offset ∉ i.sources ∧
    (∀ j ∈ before, j.changes ≠ some (.frame offset) ∧ .frame offset ∉ j.sources) ∧
    ∀ j ∈ after, j.changes ≠ some (.frame offset)

namespace Code

variable {code more : Code} {offset : Int} {i : Instr}

theorem SetsOnce.append (h : code.SetsOnce offset)
    (hmore : ∀ j ∈ more, j.changes ≠ some (.frame offset)) : SetsOnce (code ++ more) offset := by
  obtain ⟨before, i, after, rfl, hset, hapart, hbefore, hafter⟩ := h
  refine ⟨before, i, after ++ more, by simp, hset, hapart, hbefore, ?_⟩
  exact List.forall_mem_append.mpr ⟨hafter, hmore⟩

theorem SetsOnce.prepend (h : code.SetsOnce offset)
    (hmore : ∀ j ∈ more, .frame offset ∉ j.operands) : SetsOnce (more ++ code) offset := by
  obtain ⟨before, i, after, rfl, hset, hapart, hbefore, hafter⟩ := h
  refine ⟨more ++ before, i, after, by simp, hset, hapart, ?_, hafter⟩
  refine List.forall_mem_append.mpr ⟨fun j hj => ?_, hbefore⟩
  have hnot := (j.mem_operands_iff (.frame offset)).not.mp (hmore j hj)
  exact not_or.mp hnot

/-- The first instruction that has to do with a word sets it. -/
theorem setsOnce_last (hold : ∀ j ∈ code, .frame offset ∉ j.operands)
    (hset : i.changes = some (.frame offset)) (hapart : .frame offset ∉ i.sources) :
    SetsOnce (code ++ [i]) offset :=
  SetsOnce.prepend ⟨[], i, [], rfl, hset, hapart, fun _ hj => absurd hj List.not_mem_nil,
    fun _ hj => absurd hj List.not_mem_nil⟩ hold

end Code

/-! ## What code sets -/

namespace State

variable {s t w : State} {a : Action} {base : Code} {marks : List Bool} {slots : List Int}

/-- The place that the action sets, if it takes no new word. -/
inductive Sets (s : State) : Action → Int → Prop
  | assign {op : Option BinOp} {source : Operand} {rest : List Operand} {offset : Int}
      (operands : s.operands = source :: .frame offset :: rest) : Sets s (.assign op) offset
  | read {line : Nat} {name : String} {id : SymbolId} {offset : Int}
      (found : s.symbols.lookup name = some id) (place : s.operandOf id = .ok (.frame offset)) :
      Sets s (.read line name) offset

theorem changes_assignInstr (dest source : Operand) (op : Option BinOp) :
    (assignInstr dest op source).changes = some dest := by
  unfold assignInstr
  split
  · rfl
  · split <;> rfl

/-- A name that is not warned of stands for what its record says. -/
theorem named_of_apply {name : String} (hname : a.mentioned? = some name)
    (happly : a.apply s = .ok t) (hquiet : t.warnings = s.warnings) :
    ∃ id o, s.symbols.lookup name = some id ∧ s.operandOf id = .ok o ∧ t = s.pushOperand o := by
  have hresolved : ∀ {line : Nat} {found : SymbolId × State} {o : Operand},
      s.resolve line name = .ok found → found.2.warnings = s.warnings →
      found.2.operandOf found.1 = .ok o →
      ∃ id o', s.symbols.lookup name = some id ∧ s.operandOf id = .ok o' ∧
        found.2.pushOperand o = s.pushOperand o' := by
    intro line found o hfound hquiet ho
    rcases (margin_resolve hfound).2.2 with ⟨hsame, hid⟩ | hwarned
    · rw [hsame] at ho ⊢
      exact ⟨_, o, hid, ho, rfl⟩
    · have hpushed := hwarned.warnings.symm.trans hquiet
      exact absurd (congrArg Array.size hpushed) (by simp)
  cases outcome_of_ok happly with
  | loaded resolved refers =>
    cases hname
    exact hresolved resolved hquiet refers
  | targeted resolved _ _ refers =>
    cases hname
    exact hresolved resolved hquiet refers
  | _ => cases hname

/-- Code that takes no new word leaves the table as it is, and sets places only that it is told. -/
theorem sets_of_apply (hcode : a.isCode = true) (hdraws : a.drawsWord s = false)
    (happly : a.apply s = .ok t) (hquiet : t.warnings = s.warnings) :
    t.symbols = s.symbols ∧ ∃ more, t.code.toList = s.code.toList ++ more ∧
      ∀ i ∈ more, ∀ offset, i.changes = some (.frame offset) → s.Sets a offset := by
  have hnone : ∀ {u : State}, u.code = s.code → ∃ more, u.code.toList = s.code.toList ++ more ∧
      ∀ i ∈ more, ∀ offset, i.changes = some (.frame offset) → s.Sets a offset :=
    fun hsame => ⟨[], by rw [hsame, List.append_nil], fun i hi => absurd hi List.not_mem_nil⟩
  have hone : ∀ {i : Instr}, (∀ offset, i.changes = some (.frame offset) → s.Sets a offset) →
      ∃ more, (s.code.push i).toList = s.code.toList ++ more ∧
        ∀ i ∈ more, ∀ offset, i.changes = some (.frame offset) → s.Sets a offset := by
    intro i hi
    refine ⟨[i], Array.toList_push, fun j hj => ?_⟩
    rw [List.mem_singleton.mp hj]
    exact hi
  have hidle : ∀ {i : Instr}, i.changes = none →
      ∃ more, (s.code.push i).toList = s.code.toList ++ more ∧
        ∀ i ∈ more, ∀ offset, i.changes = some (.frame offset) → s.Sets a offset :=
    fun hi => hone fun offset hset => by cases hi.symm.trans hset
  cases outcome_of_ok happly with
  | loaded | targeted =>
    obtain ⟨id, o, -, -, hpushed⟩ := named_of_apply rfl happly hquiet
    rw [hpushed]
    exact ⟨rfl, hnone rfl⟩
  | literal | result | notNegated | notCombined | notAssigned | notReturned =>
    exact ⟨rfl, hnone rfl⟩
  | parked => cases hdraws
  | @negated source _ operands =>
    rw [Action.drawsWord, operands] at hdraws
    cases source <;> first | exact ⟨rfl, hnone rfl⟩ | cases hdraws
  | combined operands =>
    rw [Action.drawsWord, operands] at hdraws
    unfold combine
    split
    · exact ⟨rfl, hnone rfl⟩
    · rename_i hidentity
      simp [hidentity] at hdraws
  | assigned operands =>
    refine ⟨rfl, hone fun offset hset => ?_⟩
    rw [changes_assignInstr] at hset
    cases hset
    exact .assign operands
  | @called _ _ count target =>
    obtain ⟨log, hemit⟩ := emitCall_eq { s with operands := s.operands.drop count }
      (s.operands.take count) target
    rw [hemit]
    refine ⟨rfl, _, Array.toList_append, fun i hi offset hset => ?_⟩
    simp only [List.mem_append, List.mem_map, List.mem_singleton] at hi
    rcases hi with ⟨o, -, rfl⟩ | rfl <;> cases hset
  | returned =>
    split
    · exact ⟨rfl, hnone rfl⟩
    · refine ⟨rfl, hone fun offset hset => ?_⟩
      cases hset
  | read found _ _ refers =>
    refine ⟨rfl, hone fun offset hset => ?_⟩
    cases hset
    exact .read found refers
  | wroteName | wroteNumber | wroteLine => exact ⟨rfl, hidle rfl⟩
  | wroteText =>
    rw [noteAll_eq]
    exact ⟨rfl, hidle rfl⟩
  | _ => cases hcode

/-- What the code makes of the table, as long as no name is warned of. -/
theorem symbols_of_apply (hcode : a.isCode = true) (happly : a.apply s = .ok t)
    (hquiet : t.warnings = s.warnings) :
    t.symbols = if a.drawsWord s then s.newTemp.2.symbols else s.symbols := by
  cases hdraws : a.drawsWord s with
  | true => exact (draws_of_apply hdraws happly).symbols
  | false => exact (sets_of_apply hcode hdraws happly hquiet).1

/-- Code puts as many values as it says in place of those it takes. -/
theorem Coded.operands_eq (h : s.Coded a t) (henough : a.pops ≤ s.operands.length) :
    ∃ new, new.length = a.pushes ∧ t.operands = new ++ s.operands.drop a.pops := by
  cases h with
  | @named _ _ _ o pops pushes resolved =>
    refine ⟨[o], pushes.symm, ?_⟩
    rw [pops, ← (margin_resolve resolved).1]
    rfl
  | @pushed _ o taken pushes => exact ⟨[o], pushes.symm, by rw [← taken]; rfl⟩
  | @computed rest i taken pushes =>
    refine ⟨[.frame s.tempRecord.offset], pushes.symm, ?_⟩
    rw [← taken]
    exact congrArg (_ :: ·) (operands_newTemp { s with operands := rest })
  | emitted pushes _ _ _ taken => exact ⟨[], pushes.symm, taken⟩
  | still few => omega

/-- The name of a record from before the code stands for no word that the code has drawn. -/
theorem Follows.from_named (h : w.Follows s) (hw : w.symbols.Chained) {name : String}
    (hname : IsWord name) {id : SymbolId} (hid : s.symbols.lookup name = some id) {o : Operand}
    (ho : s.operandOf id = .ok o) : o.From w.symbols.minOffset := by
  rw [h.lookup name hname] at hid
  obtain ⟨⟨r, hr, -⟩, -⟩ := (SymbolTable.lookup_eq_some_iff hw name id).mp hid
  obtain ⟨q, hq, hout⟩ := h.records id r hr
  have hlow := SymbolTable.minOffset_le hr
  rw [← Symbol.offset_of_outline hout] at hlow
  rintro offset rfl
  obtain ⟨q', hq', ⟨value, -, hplace⟩ | ⟨-, hplace⟩⟩ := record_of_operandOf ho
  · cases hplace
  · cases hq.symm.trans hq'
    split at hplace <;> cases hplace
    exact hlow

/-- Between the actions of the code of a method, which begins in the state `w` behind `base`: what
is marked as a place was there before the code, and the words drawn so far lie below all that was
and are set once. -/
structure Steady (w : State) (base : Code) (marks : List Bool) (slots : List Int) (s : State) :
    Prop where
  follows : w.Follows s
  grounded : s.Grounded base
  marked : List.Forall₂ (fun mark o => mark = true → o.From w.symbols.minOffset) marks s.operands
  low : ∀ offset ∈ slots, s.symbols.minOffset ≤ offset ∧ offset < w.symbols.minOffset
  once : ∀ more, s.code.toList = base ++ more → ∀ offset ∈ slots, Code.SetsOnce more offset

theorem Steady.remark (h : Steady w base marks slots s) (hw : w.symbols.Chained)
    (hcoded : s.Coded a t) (ha : a.IsSpelled) (henough : a.pops ≤ marks.length)
    (happly : a.apply s = .ok t) (hquiet : t.warnings = s.warnings) :
    List.Forall₂ (fun mark o => mark = true → o.From w.symbols.minOffset) (a.remark marks)
      t.operands := by
  rw [h.marked.length_eq] at henough
  unfold Action.remark
  split
  · rename_i line name
    obtain ⟨id, o, hid, ho, rfl⟩ := named_of_apply rfl happly hquiet
    exact .cons (fun _ => h.follows.from_named hw ha hid ho) h.marked
  · obtain ⟨new, hnew, hoperands⟩ := hcoded.operands_eq henough
    have hvalues : List.Forall₂ (fun mark o => mark = true → o.From w.symbols.minOffset)
        (List.replicate new.length false) new := by
      clear hnew hoperands
      induction new with
      | nil => exact .nil
      | cons o new ih => exact .cons (fun hmark => absurd hmark Bool.false_ne_true) ih
    rw [hoperands, ← hnew]
    exact List.rel_append hvalues (List.forall₂_drop a.pops h.marked)

/-- What an action sets without taking a new word is no word that the code has drawn. -/
theorem Steady.from_sets (h : Steady w base marks slots s) (hw : w.symbols.Chained)
    (ha : a.IsSpelled) (hplace : ∀ op, a = .assign op → ∃ value rest, marks = value :: true :: rest)
    {offset : Int} (hsets : s.Sets a offset) : w.symbols.minOffset ≤ offset := by
  cases hsets with
  | @assign op source rest _ operands =>
    obtain ⟨value, rest', rfl⟩ := hplace op rfl
    have hmarked := h.marked
    rw [operands] at hmarked
    cases hmarked with
    | cons _ hmarked =>
      cases hmarked with
      | cons hdest _ => exact hdest rfl offset rfl
  | read found place => exact h.follows.from_named hw ha found place offset rfl

theorem Steady.draw (h : Steady w base marks slots s) (hdraws : s.Draws a t) {more : Code}
    (hmore : t.code.toList = base ++ more) :
    ∀ offset ∈ slots ++ [s.tempRecord.offset], Code.SetsOnce more offset := by
  obtain ⟨old, hold, hfrom⟩ := h.grounded.code
  obtain ⟨i, hcode, hset, hsources⟩ := hdraws.code
  rw [hold, List.append_assoc] at hcode
  cases List.append_cancel_left (hmore.symm.trans hcode)
  have hword : s.tempRecord.offset = s.symbols.minOffset - 2 := rfl
  -- All that was there before lies above the new word.
  have hapart : ∀ {o : Operand}, o.From s.symbols.minOffset → o ≠ .frame s.tempRecord.offset := by
    intro o ho heq
    have hle := ho _ heq
    omega
  refine List.forall_mem_append.mpr ⟨fun offset hoffset => ?_, fun offset hoffset => ?_⟩
  · refine (h.once old hold offset hoffset).append fun j hj heq => ?_
    rw [List.mem_singleton.mp hj, hset] at heq
    have hle := (h.low offset hoffset).1
    cases heq
    omega
  · rw [List.mem_singleton.mp hoffset]
    refine Code.setsOnce_last (fun j hj hmem => hapart (hfrom j hj _ hmem) rfl) hset fun hmem => ?_
    rcases hsources _ hmem with hvalue | hvalue
    · exact hapart (h.grounded.operands _ hvalue) rfl
    · cases hvalue

/-- One action of the code. -/
theorem Steady.step (h : Steady w base marks slots s) (hw : w.symbols.Chained)
    (hcode : a.isCode = true) (ha : a.IsSpelled) (henough : a.pops ≤ marks.length)
    (hplace : ∀ op, a = .assign op → ∃ value rest, marks = value :: true :: rest)
    (happly : a.apply s = .ok t) (hquiet : t.warnings = s.warnings) :
    Steady w base (a.remark marks)
      (slots ++ if a.drawsWord s then [s.tempRecord.offset] else []) t := by
  have hcoded := coded_of_apply hcode happly
  have hgrounded := h.grounded.coded hcoded hquiet
  have hmarked := h.remark hw hcoded ha henough happly hquiet
  have hnew : (w.Follows t ∧ t.symbols.minOffset ≤ s.symbols.minOffset) := by
    have hword := h.follows.newTemp
    have hlow := low_newTemp s
    have hoffset : s.tempRecord.offset = s.symbols.minOffset - 2 := rfl
    rcases hcoded.symbols_cases hquiet with hsame | hsame
    · exact ⟨h.follows.same hsame hquiet, Int.le_of_eq (congrArg _ hsame)⟩
    · refine ⟨hword.same hsame (hquiet.trans ?_), ?_⟩
      · exact h.follows.warnings.trans hword.warnings.symm
      · rw [hsame]
        omega
  have hlow : ∀ offset ∈ slots, t.symbols.minOffset ≤ offset ∧ offset < w.symbols.minOffset :=
    fun offset hoffset => (h.low offset hoffset).imp_left (Int.le_trans hnew.2)
  cases hdraws : a.drawsWord s with
  | true =>
    have hdrawn := draws_of_apply hdraws happly
    refine ⟨hnew.1, hgrounded, hmarked, List.forall_mem_append.mpr ⟨hlow, ?_⟩, fun more hmore =>
      h.draw hdrawn hmore⟩
    intro offset hoffset
    rw [List.mem_singleton.mp hoffset, hdrawn.symbols]
    refine ⟨low_newTemp s, ?_⟩
    have hbase := h.follows.low
    have hoffset : s.tempRecord.offset = s.symbols.minOffset - 2 := rfl
    omega
  | false =>
    simp only [Bool.false_eq_true, if_false, List.append_nil]
    refine ⟨hnew.1, hgrounded, hmarked, hlow, fun more hmore offset hoffset => ?_⟩
    obtain ⟨old, hold, -⟩ := h.grounded.code
    obtain ⟨-, new, hcode, hsets⟩ := sets_of_apply hcode hdraws happly hquiet
    rw [hold, List.append_assoc] at hcode
    cases List.append_cancel_left (hmore.symm.trans hcode)
    refine (h.once old hold offset hoffset).append fun j hj heq => ?_
    have hle := h.from_sets hw ha hplace (hsets j hj offset heq)
    have hlt := (h.low offset hoffset).2
    omega

/-- The code of a method. -/
theorem Steady.run {actions : List Action} {marks' : List Bool}
    (hmarked : Marked marks actions marks') (h : Steady w base marks slots s)
    (hw : w.symbols.Chained) (hcode : ∀ a ∈ actions, a.isCode = true)
    (hspelled : ∀ a ∈ actions, a.IsSpelled) (hrun : s.run actions = (t, none))
    (hquiet : t.warnings = #[]) : Steady w base marks' (slots ++ s.drawn actions) t := by
  induction hmarked generalizing s slots with
  | nil marks =>
    cases hrun
    rw [drawn, List.append_nil]
    exact h
  | @cons marks marks' a actions enough place later ih =>
    obtain ⟨u, happly, hu⟩ := run_cons_eq_none.mp hrun
    have hsame : u.warnings = s.warnings :=
      (quiet_of_run hu hquiet).trans (quiet_of_run hrun hquiet).symm
    have hstep := h.step hw (hcode a List.mem_cons_self) (hspelled a List.mem_cons_self) enough
      place happly hsame
    have hlater := ih hstep (fun b hb => hcode b (List.mem_cons_of_mem a hb))
      (fun b hb => hspelled b (List.mem_cons_of_mem a hb)) hu
    rw [drawn, happly, ← List.append_assoc]
    exact hlater

/-! ## Methods -/

theorem drawn_append {as bs : List Action} (hrun : s.run as = (t, none)) :
    s.drawn (as ++ bs) = s.drawn as ++ t.drawn bs := by
  induction as generalizing s with
  | nil =>
    cases hrun
    rfl
  | cons a as ih =>
    obtain ⟨u, happly, hu⟩ := run_cons_eq_none.mp hrun
    rw [List.cons_append, drawn, drawn, happly]
    dsimp only
    rw [ih hu, List.append_assoc]

/-- Only code draws words. -/
theorem drawn_eq_nil {actions : List Action} (h : ∀ a ∈ actions, a.isCode = false)
    (hrun : s.run actions = (t, none)) : s.drawn actions = [] := by
  induction actions generalizing s with
  | nil => rfl
  | cons a actions ih =>
    obtain ⟨u, happly, hu⟩ := run_cons_eq_none.mp hrun
    rw [drawn, happly, drawsWord_eq_false (h a List.mem_cons_self)]
    exact ih (fun b hb => h b (List.mem_cons_of_mem a hb)) hu

/-- The heading of a method and its declarations write no code. -/
theorem code_opening {actions : List Action} (hall : ∀ a ∈ actions,
    a ∈ [Action.openParams, .closeParams, .openBody] ∨ a.isDeclaration = true)
    (hrun : s.run actions = (t, none)) : t.code = s.code := by
  induction actions generalizing s with
  | nil =>
    cases hrun
    rfl
  | cons a actions ih =>
    obtain ⟨u, happly, hu⟩ := run_cons_eq_none.mp hrun
    rw [ih (fun b hb => hall b (List.mem_cons_of_mem a hb)) hu]
    have ha := hall a List.mem_cons_self
    cases a with
    | declare line name entity =>
      rw [eq_of_declare happly]
      exact congrArg Spine.code (spine_enroll s name entity)
    | openParams => cases outcome_of_ok happly <;> rfl
    | closeParams =>
      cases happly
      rfl
    | openBody =>
      cases happly
      rfl
    | _ => simp [Action.isDeclaration] at ha

end State

/-- In the procedure of a method without warnings, each word that the method draws is set once. -/
theorem sets_once_of_traced {p : Syntax.Program} {c : Compilation} {place : Place p}
    {id : SymbolId} {t s : State} {m : Symbol} {q : Procedure}
    (h : Traced c place id t s m q) (hquiet : s.warnings = #[])
    (hspelled : ∀ a ∈ place.routine.body.codeActions, a.IsSpelled) :
    ∀ offset ∈ t.drawn (place.routine.heading ++ place.routine.body.actions),
      q.code.SetsOnce offset := by
  obtain ⟨u, x, w, hsteps⟩ := place.routine.exists_steps h.body
  have hfits := fits_of_run h.stands.fits (legal_declarations_body place.routine) hsteps.before
  have hopening := place.routine.isCode_opening
  have hcode : w.code = t.code := by
    refine State.code_opening (fun a ha => ?_) hsteps.before
    have hmem : a ∈ place.routine.heading ++ place.routine.body.actions := by
      rw [place.routine.body.actions_eq, ← List.append_assoc]
      exact List.mem_append_left _ ha
    rcases Syntax.Routine.mem_actions hmem with hplain | hdeclares | hiscode
    · exact .inl hplain
    · exact .inr hdeclares
    · cases (hopening a ha).symm.trans hiscode
  have hoperands : w.operands = [] :=
    (congrArg Prod.fst (State.tally_run hopening hsteps.before)).trans h.operands
  have hbegin : State.Steady w t.code.toList [] [] w := by
    refine ⟨.refl hfits.chained, ⟨?_, [], ?_, fun _ hi => absurd hi List.not_mem_nil⟩, ?_,
      fun _ ho => absurd ho List.not_mem_nil, fun _ _ _ ho => absurd ho List.not_mem_nil⟩
    · rw [hoperands]
      exact fun o ho => absurd ho List.not_mem_nil
    · rw [hcode, List.append_nil]
    · rw [hoperands]
      exact .nil
  have hend := State.Steady.run place.routine.body.marked_codeActions hbegin hfits.chained
    place.routine.body.isCode_codeActions hspelled hsteps.code hquiet
  have hdrawn : t.drawn (place.routine.heading ++ place.routine.body.actions) =
      w.drawn place.routine.body.codeActions := by
    rw [place.routine.body.actions_eq, ← List.append_assoc, State.drawn_append hsteps.before,
      State.drawn_eq_nil hopening hsteps.before, List.nil_append]
  rw [hdrawn]
  intro offset hoffset
  -- The two instructions around the body have no operands.
  have hbody : Code.SetsOnce q.body offset := hend.once q.body h.emitted offset hoffset
  have hcloses : Code.SetsOnce (q.body ++ [.endp q.name]) offset :=
    hbody.append fun j hj => by rw [List.mem_singleton.mp hj]; simp [Instr.changes]
  have hproc : ∀ j ∈ [Instr.proc q.name], .frame offset ∉ j.operands := fun j hj => by
    rw [List.mem_singleton.mp hj]
    exact List.not_mem_nil
  exact hcloses.prepend hproc

/-! ## Texts -/

/-- What a new word is where the translation stands behind the actions: it lies below all that is
live and below the words that were drawn in the open method before, and its record has a name of its
own. The code that comes next takes it, or leaves the table as it is. -/
structure FreshWord (done : List Action) (s : State) (offset : Int) : Prop where
  slot : s.newTemp.1 = .frame offset
  below : ∀ id r, s.symbols.get? id = some r → offset + 2 ≤ r.offset
  belowDrawn : ∀ before a later u earlier, done = before ++ a :: later →
    State.initial.run before = (u, none) → a.drawsWord u = true → u.newTemp.1 = .frame earlier →
    .closeMethod ∉ later → offset + 2 ≤ earlier
  record : ∃ r, s.newTemp.2.symbols.get? s.symbols.nextId = some r ∧ r.offset = offset ∧
    ∀ id q, s.symbols.get? id = some q → q.name ≠ r.name
  taken : ∀ (a : Action) (t : State), a.isCode = true → a.apply s = .ok t →
    t.warnings = s.warnings → t.symbols = if a.drawsWord s then s.newTemp.2.symbols else s.symbols

theorem freshWord_of_parse {source : String} {done rest : List Action} {s : State}
    (hactions : (Grammar.parse (Scanner.ofString source).scan).1 = done ++ rest)
    (hrun : State.initial.run done = (s, none)) : FreshWord done s s.tempRecord.offset := by
  obtain ⟨φ, hlegal⟩ := legal_of_parse hactions
  have hspelled : ∀ a ∈ done, a.IsSpelled := fun a ha =>
    Grammar.spelled_parse source a (hactions ▸ List.mem_append_left _ ha)
  have hnamed := wellNamed_run hlegal hspelled hrun
  refine ⟨rfl, s.tempRecord_below, ?_, ?_, fun _ _ => State.symbols_of_apply⟩
  · rintro before a later u _ rfl hbefore hdraws ⟨⟩ hopen
    exact below_drawn hlegal hbefore hdraws hopen hrun
  · obtain ⟨r, hr, hout⟩ := (State.grows_newTemp s).new
    refine ⟨r, hr, Symbol.offset_of_outline hout, ?_⟩
    rw [Symbol.name_of_outline hout]
    refine hnamed.name_ne fun id q hq => ?_
    have hbelow := s.tempRecord_below id q hq
    have hoffset : s.tempRecord.offset = s.symbols.minOffset - 2 := rfl
    omega

/-- Wherever the translation of a text stands, a new word is apart from all that is live. In a text
that is compiled without warnings, every word that a method draws is set by exactly one instruction
of its procedure, and no instruction up to that one reads it. -/
theorem words_set_once (source : String) :
    (∀ done rest s, (Grammar.parse (Scanner.ofString source).scan).1 = done ++ rest →
      State.initial.run done = (s, none) → ∃ offset, FreshWord done s offset) ∧
    ∀ c, compile source = .ok c → c.warnings = [] →
      (∃ p, IsTree source p) ∧
      ∀ p, IsTree source p → ∀ id ∈ c.symbols.methods,
        ∃ (place : Place p) (t s : State) (m : Symbol) (q : Procedure),
          State.initial.run place.before = (t, none) ∧ Traced c place id t s m q ∧
          ∀ offset ∈ t.drawn (place.routine.heading ++ place.routine.body.actions),
            q.code.SetsOnce offset := by
  refine ⟨fun done rest s hactions hrun => ⟨_, freshWord_of_parse hactions hrun⟩,
    fun c hc hquiet => ⟨exists_tree (completes_of_readsThrough (.inl ⟨c, hc⟩)),
      fun p hp id hid => ?_⟩⟩
  obtain ⟨place, t, s, m, q, ht, htraced⟩ := exists_traced_run hc hp hid
  refine ⟨place, t, s, m, q, ht, htraced, sets_once_of_traced htraced ?_ fun a ha => ?_⟩
  · obtain ⟨final, hafter, -, hwarnings⟩ := htraced.ended
    rw [hquiet] at hwarnings
    exact State.quiet_of_run hafter (Array.toList_eq_nil_iff.mp hwarnings.symm)
  · refine place.isSpelled hp a ?_
    rw [place.routine.body.actions_eq]
    simp [ha]

namespace Sample

open Syntax

def parked : String :=
  "class A\x7bvoid Main(int g)\x7bint x;x=-(g+2)*x;x*=Main();\x7d\x7d"

/-- What is done for the text up to the end of its method. -/
def parkedActions : List Action :=
  (Grammar.parse (Scanner.ofString parked).scan).1.takeWhile fun a => a ≠ .closeMethod

/-- The expression `-(g+2)*x`. -/
def product : Expr .expr :=
  .ofTerm (.product
    (.ofFactor (.minus (tok .signOp "-") (.paren (tok .leftParen "(")
      (.sum (.ofTerm (.ofFactor (.name (tok .identifier "g")))) plus
        (.ofFactor (.numeral (numberOf 2 "2"))))
      (tok .rightParen ")"))))
    times (.name (tok .identifier "x")))

/-- Three words for the first assignment, and one for the result of the call. -/
def parkedMain : Routine :=
  { emptyMain with
    params := some ⟨⟨none, intName, tok .identifier "g"⟩, []⟩
    body :=
      { declarations := [.vars intName ⟨tok .identifier "x", []⟩ (tok .semicolon ";")]
        statements := [assignTo "x" product,
          (.assign (tok .identifier "x") ⟨⟨.assignOp, "*=", 1⟩, some .mul, by decide⟩
            (.call ⟨tok .identifier "Main", none, tok .leftParen "(", none, tok .rightParen ")"⟩),
            tok .semicolon ";")]
        returns := none } }

end Sample

open Sample in
theorem words_set_once_parked :
    FreshWord parkedActions (State.initial.run parkedActions).1 (-12) ∧
    ∃ c, compile parked = .ok c ∧ c.warnings = [] ∧ 1 ∈ c.symbols.methods ∧
      ∃ (place : Place (programOf parkedMain)) (t s : State) (m : Symbol) (q : Procedure),
        State.initial.run place.before = (t, none) ∧ Traced c place 1 t s m q ∧
        t.drawn (parkedMain.heading ++ parkedMain.body.actions) = [-4, -6, -8, -10] ∧
        ∀ offset ∈ [-4, -6, -8, -10], q.code.SetsOnce offset := by
  have htree : IsTree parked (programOf parkedMain) :=
    ⟨(programOf parkedMain).tokens, by decide +kernel, by decide +kernel⟩
  obtain ⟨c, hc, hquiet, hz, -⟩ := exists_compile_of_read (z := 10) htree (by decide +kernel)
    (by decide +kernel) (by decide +kernel) (by decide +kernel) (by decide +kernel)
  have hid := SymbolTable.mem_methods_of_localsAt? hz
  obtain ⟨hslot, hrun⟩ : (State.initial.run parkedActions).1.newTemp.1 = .frame (-12) ∧
      (State.initial.run parkedActions).2 = none := by decide +kernel
  obtain ⟨offset, hfresh⟩ := (words_set_once parked).1 parkedActions _ _
    List.takeWhile_append_dropWhile.symm (Prod.ext rfl hrun)
  cases hfresh.slot.symm.trans hslot
  obtain ⟨-, hframes⟩ := (words_set_once parked).2 c hc hquiet
  obtain ⟨place, t, s, m, q, ht, htraced, honce⟩ := hframes _ htree 1 hid
  have hroutine : place.routine = parkedMain := List.mem_singleton.mp place.mem
  have hstate : t = (State.initial.run ((programOf parkedMain).actions.takeWhile
      fun a => a ≠ .openParams)).1 := by
    rw [← place.before_eq (by decide +kernel), ht]
  have hdrawn : t.drawn (parkedMain.heading ++ parkedMain.body.actions) = [-4, -6, -8, -10] := by
    rw [hstate]
    decide +kernel
  rw [hroutine, hdrawn] at honce
  exact ⟨hfresh, c, hc, hquiet, hid, place, t, s, m, q, ht, htraced, hdrawn, honce⟩

end Triad
