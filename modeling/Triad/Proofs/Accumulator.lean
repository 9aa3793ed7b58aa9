import Mathlib.Data.List.Forall2
import Triad.Proofs.Desk

/-!
The accumulator holds what a method gives back. Nearly every instruction is lowered through it, so
that what lies in it is good only right behind a call, and what a method leaves in it only right
before its end. Main statement: `accumulator_discipline`.
-/

namespace Triad

/-- What an instruction reads. -/
def Instr.sources : Instr → List Operand
  | push source => [source]
  | binary _ left _ right => [left, right]
  | assign _ source => [source]
  | negate _ source => [source]
  | writeInt source => [source]
  | _ => []

/-- What an instruction changes. -/
def Instr.changes : Instr → Option Operand
  | binary dest _ _ _ => some dest
  | assign dest _ => some dest
  | negate dest _ => some dest
  | readInt dest => some dest
  | _ => none

theorem Instr.mem_operands_iff (i : Instr) (o : Operand) :
    o ∈ i.operands ↔ i.changes = some o ∨ o ∈ i.sources := by
  cases i <;> simp [operands, changes, sources, eq_comm]

/-- The instruction changes no literal, and leaves the accumulator alone. -/
structure Instr.IsPlain (i : Instr) : Prop where
  inner : i.isInner = true
  apart : .accumulator ∉ i.operands
  changeable : ∀ text, i.changes ≠ some (.literal text)

/-- The accumulator is read only behind a call, and is set only at the end of the code, if at
all. -/
inductive Tidy : Bool → Code → Prop
  | nil : Tidy false []
  | plain {code : Code} {i : Instr} (before : Tidy false code) (plain : i.IsPlain) :
      Tidy false (code ++ [i])
  | taken {code : Code} {dest : Operand} (before : Tidy false code) (name : String)
      (apart : dest ≠ .accumulator) (changeable : dest.isLiteral = false) :
      Tidy false (code ++ [.call name, .assign dest .accumulator])
  | left {code : Code} {value : Operand} (before : Tidy false code)
      (apart : value ≠ .accumulator) : Tidy true (code ++ [.assign .accumulator value])

/-- How an instruction stands between others in tidy code. -/
inductive Instr.Fits (returned : Bool) (before after : Code) : Instr → Prop
  | plain {i : Instr} (plain : i.IsPlain) : Fits returned before after i
  | taken {dest : Operand} {earlier : Code} {name : String} (apart : dest ≠ .accumulator)
      (changeable : dest.isLiteral = false) (behind : before = earlier ++ [.call name]) :
      Fits returned before after (.assign dest .accumulator)
  | left {value : Operand} (apart : value ≠ .accumulator) (last : returned = true ∧ after = []) :
      Fits returned before after (.assign .accumulator value)

/-- An element of a joined list lies in one of its parts. -/
theorem append_eq_split {α : Type} {xs ys before after : List α} {a : α}
    (h : xs ++ ys = before ++ a :: after) :
    (∃ mid, before = xs ++ mid ∧ ys = mid ++ a :: after) ∨
      ∃ mid, xs = before ++ a :: mid ∧ after = mid ++ ys := by
  rcases List.append_eq_append_iff.mp h with ⟨mid, hbefore, hys⟩ | ⟨mid, hxs, hafter⟩
  · exact .inl ⟨mid, hbefore, hys⟩
  · cases mid with
    | nil => exact .inl ⟨[], by simpa using hxs.symm, hafter.symm⟩
    | cons b mid =>
      obtain ⟨rfl, rfl⟩ := List.cons.inj hafter
      exact .inr ⟨mid, hxs, rfl⟩

theorem concat_eq_split {α : Type} {xs before after : List α} {a b : α}
    (h : xs ++ [b] = before ++ a :: after) :
    (before = xs ∧ a = b ∧ after = []) ∨ ∃ mid, xs = before ++ a :: mid ∧ after = mid ++ [b] := by
  rcases append_eq_split h with ⟨mid, rfl, hlast⟩ | hfirst
  · cases mid <;> simp_all
  · exact .inr hfirst

theorem isPlain_call (name : String) : (Instr.call name).IsPlain :=
  ⟨rfl, List.not_mem_nil, nofun⟩

theorem Instr.Fits.extend {b : Bool} {before after : Code} {i : Instr} (h : i.Fits false before after)
    (later : Code) : i.Fits b before later := by
  cases h with
  | plain plain => exact .plain plain
  | taken apart changeable behind => exact .taken apart changeable behind
  | left _ last => cases last.1

namespace Tidy

variable {b : Bool} {as bs code : Code}

theorem append (has : Tidy false as) (hbs : Tidy b bs) : Tidy b (as ++ bs) := by
  induction hbs with
  | nil =>
    rw [List.append_nil]
    exact has
  | plain _ plain ih =>
    rw [← List.append_assoc]
    exact .plain ih plain
  | taken _ name apart changeable ih =>
    rw [← List.append_assoc]
    exact .taken ih name apart changeable
  | left _ apart ih =>
    rw [← List.append_assoc]
    exact .left ih apart

theorem ofPlain (h : ∀ i ∈ code, i.IsPlain) : Tidy false code := by
  induction code with
  | nil => exact .nil
  | cons i code ih =>
    have hrest := ih fun j hj => h j (List.mem_cons_of_mem i hj)
    exact (Tidy.plain .nil (h i List.mem_cons_self)).append hrest

/-- Nothing in tidy code begins or ends a procedure. -/
theorem inner (h : Tidy b code) : ∀ i ∈ code, i.isInner = true := by
  induction h with
  | nil => exact fun i hi => absurd hi List.not_mem_nil
  | plain _ plain ih =>
    intro i hi
    rcases List.mem_append.mp hi with hi | hi
    · exact ih i hi
    · rw [List.mem_singleton.mp hi]
      exact plain.inner
  | taken _ name _ _ ih =>
    intro i hi
    simp only [List.mem_append, List.mem_cons, List.not_mem_nil, or_false] at hi
    rcases hi with hi | rfl | rfl
    · exact ih i hi
    · rfl
    · rfl
  | left _ _ ih =>
    intro i hi
    rcases List.mem_append.mp hi with hi | hi
    · exact ih i hi
    · rw [List.mem_singleton.mp hi]
      rfl

/-- Every instruction of tidy code stands as it should. -/
theorem fits (h : Tidy b code) {before after : Code} {i : Instr}
    (hcode : code = before ++ i :: after) : i.Fits b before after := by
  induction h generalizing before after i with
  | nil => simp at hcode
  | plain _ plain ih =>
    rcases concat_eq_split hcode with ⟨-, rfl, -⟩ | ⟨mid, hfirst, -⟩
    · exact .plain plain
    · exact (ih hfirst).extend _
  | taken _ name apart changeable ih =>
    rw [List.append_cons] at hcode
    rcases concat_eq_split hcode with ⟨rfl, rfl, -⟩ | ⟨mid, hfirst, -⟩
    · exact .taken apart changeable rfl
    · rcases concat_eq_split hfirst with ⟨-, rfl, -⟩ | ⟨mid, hfirst, -⟩
      · exact .plain (isPlain_call name)
      · exact (ih hfirst).extend _
  | left _ apart ih =>
    rcases concat_eq_split hcode with ⟨-, rfl, rfl⟩ | ⟨mid, hfirst, -⟩
    · exact .left apart ⟨rfl, rfl⟩
    · exact (ih hfirst).extend _

end Tidy

/-! ## Instructions -/

theorem isPlain_binary {dest left right : Operand} (op : BinOp) (hdest : dest ≠ .accumulator)
    (hchangeable : dest.isLiteral = false) (hleft : left ≠ .accumulator)
    (hright : right ≠ .accumulator) : (Instr.binary dest left op right).IsPlain := by
  refine ⟨rfl, by simp [Instr.operands, hdest.symm, hleft.symm, hright.symm], ?_⟩
  rintro text ⟨⟩
  cases hchangeable

theorem isPlain_assign {dest source : Operand} (hdest : dest ≠ .accumulator)
    (hchangeable : dest.isLiteral = false) (hsource : source ≠ .accumulator) :
    (Instr.assign dest source).IsPlain := by
  refine ⟨rfl, by simp [Instr.operands, hdest.symm, hsource.symm], ?_⟩
  rintro text ⟨⟩
  cases hchangeable

theorem isPlain_negate {source : Operand} (offset : Int) (hsource : source ≠ .accumulator) :
    (Instr.negate (.frame offset) source).IsPlain :=
  ⟨rfl, by simp [Instr.operands, hsource.symm], nofun⟩

theorem isPlain_push {source : Operand} (hsource : source ≠ .accumulator) :
    (Instr.push source).IsPlain :=
  ⟨rfl, by simp [Instr.operands, hsource.symm], nofun⟩

theorem isPlain_readInt {dest : Operand} (hdest : dest ≠ .accumulator)
    (hchangeable : dest.isLiteral = false) : (Instr.readInt dest).IsPlain := by
  refine ⟨rfl, by simp [Instr.operands, hdest.symm], ?_⟩
  rintro text ⟨⟩
  cases hchangeable

theorem isPlain_writeInt {source : Operand} (hsource : source ≠ .accumulator) :
    (Instr.writeInt source).IsPlain :=
  ⟨rfl, by simp [Instr.operands, hsource.symm], nofun⟩

theorem isPlain_assignInstr {dest source : Operand} (op : Option BinOp)
    (hdest : dest ≠ .accumulator) (hchangeable : dest.isLiteral = false)
    (hsource : source ≠ .accumulator) : (State.assignInstr dest op source).IsPlain := by
  unfold State.assignInstr
  split
  · exact isPlain_assign hdest hchangeable hsource
  · split
    · rename_i op same hsame
      refine isPlain_assign hdest hchangeable ?_
      rcases State.identity?_cases hsame with rfl | rfl
      · exact hdest
      · exact hsource
    · exact isPlain_binary _ hdest hchangeable hdest hsource

/-! ## Trees -/

theorem isStill_of_isDeclaration {a : Action} (h : a.isDeclaration = true) :
    a.isStill = true := by
  cases a with
  | declare line name entity => rfl
  | _ => cases h

namespace Syntax

theorem Routine.isStill_heading (r : Routine) : ∀ a ∈ r.heading, a.isStill = true := by
  intro a ha
  simp only [heading, List.cons_append, List.mem_cons, List.mem_append, List.not_mem_nil,
    or_false] at ha
  rcases ha with rfl | ha | rfl | rfl
  · rfl
  · exact isStill_of_isDeclaration (r.isDeclaration_paramActions a ha)
  · rfl
  · rfl

variable {R : Operand → Prop} {d d' : Desk}

/-- An expression adds tidy code and puts down one value, which is not the accumulator. -/
theorem Expr.run_tidy {r : Rank} (e : Expr r) (hR : ∀ o, R o → o ≠ .accumulator)
    (h : d.Run R e.actions d') :
    ∃ o more, o ≠ .accumulator ∧ Tidy false more ∧ d' = (d.write more).put o := by
  induction e generalizing d d' with
  | name t =>
    cases h.single with
    | idle still => cases still
    | load refers => exact ⟨_, [], hR _ refers, .nil, by rw [Desk.write_nil]⟩
  | numeral t =>
    cases h.single with
    | idle still => cases still
    | literal => exact ⟨.literal _, [], nofun, .nil, by rw [Desk.write_nil]⟩
  | paren left e right ih => exact ih h
  | ofFactor f ih => exact ih h
  | ofTerm t ih => exact ih h
  | minus sign f ih =>
    obtain ⟨m, hf, hnegate⟩ := h.split
    obtain ⟨o, more, ho, hmore, rfl⟩ := ih hf
    cases hnegate.single with
    | idle still => cases still
    | turned taken =>
      cases taken
      exact ⟨.literal _, more, nofun, hmore, rfl⟩
    | @negated source rest offset taken =>
      cases taken
      refine ⟨.frame offset, more ++ [.negate (.frame offset) o], nofun,
        .plain hmore (isPlain_negate offset ho), ?_⟩
      rw [← Desk.write_write]
      rfl
  | product l op f ihl ihf | sum l op f ihl ihf =>
    obtain ⟨m, hboth, hbinary⟩ := h.split
    obtain ⟨k, hl, hf⟩ := hboth.split
    obtain ⟨left, first, hleft, hfirst, rfl⟩ := ihl hl
    obtain ⟨right, second, hright, hsecond, rfl⟩ := ihf hf
    have htidy := hfirst.append hsecond
    cases hbinary.single with
    | idle still => cases still
    | kept taken unchanged =>
      cases taken
      rename_i same
      refine ⟨same, first ++ second, ?_, htidy, ?_⟩
      · rcases State.identity?_cases unchanged with rfl | rfl
        · exact hleft
        · exact hright
      · rw [← Desk.write_write]
        rfl
    | @combined _ _ _ rest offset taken =>
      cases taken
      refine ⟨.frame offset, first ++ second ++ [.binary (.frame offset) left op.meaning right],
        nofun, .plain htidy (isPlain_binary _ nofun rfl hleft hright), ?_⟩
      rw [← Desk.write_write, ← Desk.write_write]
      rfl

/-- Arguments add tidy code and put down a value each. -/
theorem run_arguments {arguments : List (Expr .expr)} (hR : ∀ o, R o → o ≠ .accumulator)
    (h : d.Run R (arguments.flatMap Expr.actions) d') :
    ∃ values more, values.length = arguments.length ∧ .accumulator ∉ values ∧ Tidy false more ∧
      d' = { d.write more with operands := values ++ d.operands } := by
  induction arguments generalizing d with
  | nil =>
    cases h
    exact ⟨[], [], rfl, List.not_mem_nil, .nil, by rw [Desk.write_nil]; rfl⟩
  | cons e arguments ih =>
    obtain ⟨m, he, hrest⟩ := h.split
    obtain ⟨o, first, ho, hfirst, rfl⟩ := e.run_tidy hR he
    obtain ⟨values, more, hlength, hvalues, hmore, rfl⟩ := ih hrest
    refine ⟨values ++ [o], first ++ more, by simp [hlength], by simp [hvalues, ho.symm],
      hfirst.append hmore, ?_⟩
    simp [Desk.write, Desk.put]

/-- A call leaves the values as they were, and its last instruction is the call. -/
theorem Call.run_tidy (c : Call) (hR : ∀ o, R o → o ≠ .accumulator) (h : d.Run R c.actions d') :
    ∃ more target, Tidy false more ∧ d' = d.write (more ++ [.call target]) := by
  obtain ⟨m, harguments, hcall⟩ := h.split
  obtain ⟨values, more, hlength, hvalues, hmore, rfl⟩ := run_arguments hR harguments
  cases hcall.single with
  | idle still => cases still
  | called target =>
    have hpushes : ∀ i ∈ values.map Instr.push, i.IsPlain := by
      intro i hi
      obtain ⟨o, ho, rfl⟩ := List.mem_map.mp hi
      exact isPlain_push fun heq => hvalues (heq ▸ ho)
    refine ⟨more ++ values.map .push, target, hmore.append (.ofPlain hpushes), ?_⟩
    simp [Desk.write, ← hlength]

/-- Between the desks, code was added, and strings perhaps, but nothing else is new. -/
structure Adds (d : Desk) (more : Code) (d' : Desk) : Prop where
  operands : d'.operands = d.operands
  code : d'.code = d.code ++ more
  procedure : d'.procedure = d.procedure
  inMain : d'.inMain = d.inMain

theorem adds_write (d : Desk) (more : Code) : Adds d more (d.write more) := ⟨rfl, rfl, rfl, rfl⟩

theorem Adds.trans {d₁ d₂ d₃ : Desk} {first second : Code} (h : Adds d₁ first d₂)
    (h' : Adds d₂ second d₃) : Adds d₁ (first ++ second) d₃ where
  operands := h'.operands.trans h.operands
  code := by rw [h'.code, h.code, List.append_assoc]
  procedure := h'.procedure.trans h.procedure
  inMain := h'.inMain.trans h.inMain

/-- The actions add tidy code, and leave the values as they were. -/
def Tidies (R : Operand → Prop) (actions : List Action) : Prop :=
  ∀ d d' : Desk, d.Run R actions d' → ∃ more, Tidy false more ∧ Adds d more d'

theorem Tidies.append {as bs : List Action} (has : Tidies R as) (hbs : Tidies R bs) :
    Tidies R (as ++ bs) := by
  intro d d' h
  obtain ⟨m, h, hrest⟩ := h.split
  obtain ⟨first, hfirst, hadds⟩ := has d m h
  obtain ⟨second, hsecond, hadds'⟩ := hbs m d' hrest
  exact ⟨first ++ second, hfirst.append hsecond, hadds.trans hadds'⟩

theorem tidies_flatMap {α : Type} {f : α → List Action} {xs : List α}
    (h : ∀ x ∈ xs, Tidies R (f x)) : Tidies R (xs.flatMap f) := by
  induction xs with
  | nil =>
    rintro d d' ⟨⟩
    exact ⟨[], .nil, rfl, (List.append_nil _).symm, rfl, rfl⟩
  | cons x xs ih =>
    exact (h x List.mem_cons_self).append (ih fun y hy => h y (List.mem_cons_of_mem x hy))

theorem tidies_map {α : Type} {f : α → Action} {xs : List α} (h : ∀ x, Tidies R [f x]) :
    Tidies R (xs.map f) := by
  rw [List.map_eq_flatMap]
  exact tidies_flatMap fun x _ => h x

theorem tidies_read (t : Tok .identifier) (hR : ∀ o, R o → o ≠ .accumulator) :
    Tidies R [.read t.1.line t.1.lexeme] := by
  intro d d' h
  cases h.single with
  | idle still => cases still
  | read refers changeable =>
    exact ⟨_, .plain .nil (isPlain_readInt (hR _ refers) changeable), adds_write d _⟩

theorem WriteItem.tidies (i : WriteItem) (hR : ∀ o, R o → o ≠ .accumulator) :
    Tidies R [i.action] := by
  intro d d' h
  cases i with
  | name t =>
    cases h.single with
    | idle still => cases still
    | wroteName refers =>
      exact ⟨_, .plain .nil (isPlain_writeInt (hR _ refers)), adds_write d _⟩
  | numeral t =>
    cases h.single with
    | idle still => cases still
    | wroteNumber =>
      exact ⟨[.writeInt (.literal _)], .plain .nil (isPlain_writeInt nofun), adds_write d _⟩
  | literal t =>
    cases h.single with
    | idle still => cases still
    | wroteText =>
      exact ⟨[.writeStr _], .plain .nil ⟨rfl, List.not_mem_nil, nofun⟩, rfl, rfl, rfl, rfl⟩

/-- What a call gave back goes straight from the accumulator to its place; any other value is used
by an instruction that does without it. -/
theorem tidies_assign (target : Tok .identifier) (op : Option BinOp) (source : Source)
    (hR : ∀ o, R o → o ≠ .accumulator) :
    Tidies R (.target target.1.line target.1.lexeme :: source.actions op ++ [.assign op]) := by
  intro d d' h
  cases h with
  | @cons _ m _ _ _ first later =>
    cases first with
    | idle still => cases still
    | @target _ _ dest refers changeable =>
      have hdest := hR dest refers
      obtain ⟨n, hsource, hassign⟩ := later.split
      cases hassign.single with
      | idle still => cases still
      | @assigned _ value place rest taken =>
        cases source with
        | expr e =>
          obtain ⟨o, more, ho, hmore, rfl⟩ := e.run_tidy hR hsource
          cases taken
          refine ⟨_, .plain hmore (isPlain_assignInstr op hdest changeable ho), ?_⟩
          exact (adds_write d more).trans ⟨rfl, rfl, rfl, rfl⟩
        | call c =>
          obtain ⟨k, hcall, hplace⟩ := hsource.split
          obtain ⟨more, name, hmore, rfl⟩ := c.run_tidy hR hcall
          cases op with
          | none =>
            cases hplace.single with
            | idle still => cases still
            | result =>
              cases taken
              refine ⟨more ++ [.call name, .assign dest .accumulator],
                .taken hmore name hdest changeable, ?_⟩
              have hadds := (adds_write d (more ++ [.call name])).trans
                (adds_write _ [.assign dest .accumulator])
              rw [List.append_assoc] at hadds
              exact ⟨rfl, hadds.code, rfl, rfl⟩
          | some op =>
            cases hplace.single with
            | idle still => cases still
            | @parked offset =>
              cases taken
              have hframe : Operand.frame offset ≠ .accumulator := nofun
              refine ⟨_, .plain (.taken hmore name hframe rfl)
                (isPlain_assignInstr (some op) hdest changeable hframe), ?_⟩
              exact ⟨rfl, by simp [Desk.write, Desk.put], rfl, rfl⟩

theorem Statement.tidies (st : Statement) (hR : ∀ o, R o → o ≠ .accumulator) :
    Tidies R st.actions := by
  cases st with
  | assign target op source => exact tidies_assign target op.meaning source hR
  | call c =>
    intro d d' h
    obtain ⟨more, target, hmore, rfl⟩ := c.run_tidy hR h
    exact ⟨_, .plain hmore (isPlain_call target), adds_write d _⟩
  | read keyword left names right => exact tidies_map fun t => tidies_read t hR
  | write keyword left items right => exact tidies_map fun i => i.tidies hR
  | writeln keyword left items right =>
    refine (tidies_flatMap fun l _ => tidies_map fun i => i.tidies hR).append ?_
    intro d d' h
    cases h.single with
    | idle still => cases still
    | wroteLine => exact ⟨[.writeLn], .plain .nil ⟨rfl, List.not_mem_nil, nofun⟩, adds_write d _⟩

/-- A return sets the accumulator last, unless the entry is open. -/
theorem Return.run_tidy (r : Return) (hR : ∀ o, R o → o ≠ .accumulator)
    (h : d.Run R r.actions d') :
    ∃ returned more, Tidy returned more ∧ Adds d more d' ∧
      (d.inMain = true → returned = false) := by
  unfold Return.actions at h
  cases hvalue : r.value with
  | none =>
    rw [hvalue] at h
    cases h
    exact ⟨false, [], .nil, ⟨rfl, (List.append_nil _).symm, rfl, rfl⟩, fun _ => rfl⟩
  | some e =>
    rw [hvalue, Option.toList_some, List.flatMap_singleton] at h
    obtain ⟨m, he, hreturn⟩ := h.split
    obtain ⟨o, more, ho, hmore, rfl⟩ := e.run_tidy hR he
    cases hreturn.single with
    | idle still => cases still
    | returned taken =>
      cases taken
      cases hmain : d.inMain with
      | true =>
        refine ⟨false, more, hmore, ⟨rfl, ?_, rfl, rfl⟩, fun _ => rfl⟩
        simp [Desk.write, Desk.put, hmain]
      | false =>
        refine ⟨true, _, .left hmore ho, ⟨rfl, ?_, rfl, rfl⟩, fun h => absurd h Bool.false_ne_true⟩
        simp [Desk.write, Desk.put, hmain]

theorem Body.run_tidy (b : Body) (hR : ∀ o, R o → o ≠ .accumulator) (h : d.Run R b.actions d') :
    ∃ returned body, Tidy returned body ∧ Adds d body d' ∧
      (d.inMain = true → returned = false) := by
  obtain ⟨m, hstatements, hreturns⟩ := h.split
  obtain ⟨k, hdeclarations, hstatements⟩ := hstatements.split
  cases hdeclarations.idle fun a ha => isStill_of_isDeclaration (b.isDeclaration_declarations a ha)
  obtain ⟨first, hfirst, hadds⟩ :=
    tidies_flatMap (fun step _ => step.1.tidies hR) d m hstatements
  cases hreturn : b.returns with
  | none =>
    rw [hreturn] at hreturns
    cases hreturns
    exact ⟨false, first, hfirst, hadds, fun _ => rfl⟩
  | some r =>
    rw [hreturn, Option.toList_some, List.flatMap_singleton] at hreturns
    obtain ⟨returned, more, hmore, hadds', hmain⟩ := r.run_tidy hR hreturns
    exact ⟨returned, first ++ more, hfirst.append hmore, hadds.trans hadds',
      fun h => hmain (hadds.inMain.trans h)⟩

/-- A routine from its parameters on adds a tidy body and the end of the open procedure. -/
theorem Routine.run_tidy (r : Routine) {ending : List Action}
    (hending : ending = [.closeMethod] ∨ ending = [.sizeFrame, .closeMethod])
    (hR : ∀ o, R o → o ≠ .accumulator) (h : d.Run R (r.heading ++ r.body.actions ++ ending) d') :
    ∃ returned body, Tidy returned body ∧ d'.code = d.code ++ body ++ [.endp d.procedure] ∧
      d'.inMain = false ∧ (d.inMain = true → returned = false) := by
  obtain ⟨m, hbody, hclose⟩ := h.split
  obtain ⟨k, hheading, hbody⟩ := hbody.split
  cases hheading.idle r.isStill_heading
  obtain ⟨returned, body, htidy, hadds, hmain⟩ := r.body.run_tidy hR hbody
  have hclosed : m.Step R .closeMethod d' := by
    rcases hending with rfl | rfl
    · exact hclose.single
    · cases hclose with
      | cons first later =>
        cases first
        exact later.single
  refine ⟨returned, body, htidy, ?_⟩
  cases hclosed with
  | idle still => cases still
  | methodClosed =>
    refine ⟨?_, rfl, hmain⟩
    rw [← hadds.code, ← hadds.procedure]
    rfl

end Syntax

/-- The body is tidy, and that of an entry leaves nothing in the accumulator. -/
def Declared.IsTidy (d : Declared) (q : Procedure) : Prop :=
  ∃ returned, Tidy returned q.body ∧ (d.isMain = true → returned = false)

namespace Syntax

variable {R : Operand → Prop}

/-- The actions add tidy procedures for what they declare. Between procedures no entry is open. -/
def Produces (R : Operand → Prop) (actions : List Action) (declared : List Declared) : Prop :=
  ∀ d d' : Desk, d.Run R actions d' → d.inMain = false →
    d'.inMain = false ∧ ∃ procedures : List Procedure,
      d'.code = d.code ++ procedures.flatMap Procedure.code ∧
        List.Forall₂ Declared.IsTidy declared procedures

theorem Produces.append {as bs : List Action} {first second : List Declared}
    (has : Produces R as first) (hbs : Produces R bs second) :
    Produces R (as ++ bs) (first ++ second) := by
  intro d d' h hd
  obtain ⟨m, h, hrest⟩ := h.split
  obtain ⟨hm, procedures, hcode, htidy⟩ := has d m h hd
  obtain ⟨hd', procedures', hcode', htidy'⟩ := hbs m d' hrest hm
  refine ⟨hd', procedures ++ procedures', ?_, List.rel_append htidy htidy'⟩
  rw [hcode', hcode, List.flatMap_append, List.append_assoc]

theorem produces_flatMap {α : Type} {f : α → List Action} {g : α → List Declared} {xs : List α}
    (h : ∀ x ∈ xs, Produces R (f x) (g x)) : Produces R (xs.flatMap f) (xs.flatMap g) := by
  induction xs with
  | nil =>
    rintro d d' ⟨⟩ hd
    exact ⟨hd, [], (List.append_nil _).symm, .nil⟩
  | cons x xs ih =>
    exact (h x List.mem_cons_self).append (ih fun y hy => h y (List.mem_cons_of_mem x hy))

theorem produces_idle {actions : List Action} (hidle : ∀ a ∈ actions, a.isStill = true) :
    Produces R actions [] := by
  intro d d' h hd
  cases h.idle hidle
  exact ⟨hd, [], (List.append_nil _).symm, .nil⟩

theorem MemberCore.produces {className : String} (core : MemberCore className)
    (hR : ∀ o, R o → o ≠ .accumulator) : Produces R core.actions core.declared := by
  cases core with
  | declaration d =>
    exact produces_idle fun a ha => isStill_of_isDeclaration (d.isDeclaration_actions a ha)
  | constructor r named =>
    intro d d' h hd
    cases h with
    | cons first later =>
      cases first with
      | idle still => cases still
      | constructorOpened procedure =>
        obtain ⟨returned, body, htidy, hcode, hmain, -⟩ := r.run_tidy (.inr rfl) hR later
        refine ⟨hmain, [⟨procedure, body, htidy.inner⟩], ?_, .cons ⟨returned, htidy, nofun⟩ .nil⟩
        simp [hcode, Desk.write, Procedure.code]
  | method type r =>
    intro d d' h hd
    cases h with
    | cons first later =>
      cases first with
      | idle still => cases still
      | methodOpened procedure =>
        obtain ⟨returned, body, htidy, hcode, hmain, hreturned⟩ :=
          r.run_tidy (.inl rfl) hR later
        refine ⟨hmain, [⟨procedure, body, htidy.inner⟩], ?_, .cons ⟨returned, htidy, ?_⟩ .nil⟩
        · simp [hcode, Desk.write, Procedure.code]
        · intro hentry
          exact hreturned hentry

theorem ClassDecl.produces (c : ClassDecl) (hR : ∀ o, R o → o ≠ .accumulator) :
    Produces R c.actions c.declared := by
  have hheading : ∀ a ∈ c.heading, a.isStill = true := by
    intro a ha
    simp only [heading, List.cons_append, List.mem_cons, List.mem_append, List.mem_map,
      List.not_mem_nil, or_false] at ha
    rcases ha with rfl | ⟨base, -, rfl⟩ | rfl <;> rfl
  have hclose : Produces R [.closeClass] [] := produces_idle (by decide)
  have hmembers := produces_flatMap fun m (_ : m ∈ c.members) => m.core.produces hR
  have hall := ((produces_idle hheading).append hmembers).append hclose
  rw [List.nil_append, List.append_nil] at hall
  exact hall

theorem Program.produces (p : Program) (hR : ∀ o, R o → o ≠ .accumulator) :
    Produces R p.actions p.declared := by
  have husings : Produces R (p.usings.map fun u => Action.usingName u.name.text) [] := by
    refine produces_idle fun a ha => ?_
    obtain ⟨u, -, rfl⟩ := List.mem_map.mp ha
    rfl
  have hclasses : ∀ classes : List ClassDecl,
      Produces R (classes.flatMap ClassDecl.actions) (classes.flatMap ClassDecl.declared) :=
    fun classes => produces_flatMap fun c _ => c.produces hR
  have hblock : Produces R p.block.actions p.declared := by
    unfold Program.declared
    cases p.block with
    | spaced keyword name left classes right =>
      have hopen : Produces R [.openNamespace left.1.line name.text name.first.1.line] [] :=
        produces_idle (by simp [Action.isStill, Action.isCode])
      have hclose : Produces R [.closeNamespace] [] := produces_idle (by decide)
      have hall := (hopen.append (hclasses classes)).append hclose
      rw [List.nil_append, List.append_nil] at hall
      exact hall
    | bare classes => exact hclasses classes
  exact husings.append hblock

end Syntax

/-! ## Whole programs -/

/-- An instruction of a program stands between procedures, or in the body of one. -/
theorem split_of_procedures {procedures : List Procedure} {entry : String} {before after : Code}
    {i : Instr}
    (h : procedures.flatMap Procedure.code ++ [.start entry] = before ++ i :: after) :
    i.isInner = false ∨
      ∃ q ∈ procedures, ∃ outer first last rest, q.body = first ++ i :: last ∧
        before = outer ++ .proc q.name :: first ∧ after = last ++ .endp q.name :: rest := by
  induction procedures generalizing before with
  | nil =>
    rcases concat_eq_split h with ⟨-, rfl, -⟩ | ⟨mid, hfirst, -⟩
    · exact .inl rfl
    · simp at hfirst
  | cons q procedures ih =>
    rw [List.flatMap_cons, List.append_assoc] at h
    rcases append_eq_split h with ⟨mid, rfl, hlater⟩ | ⟨mid, hhere, rfl⟩
    · rcases ih hlater with houter | ⟨q', hq', outer, first, last, rest, hbody, rfl, hafter⟩
      · exact .inl houter
      · exact .inr ⟨q', List.mem_cons_of_mem q hq', q.code ++ outer, first, last, rest, hbody,
          (List.append_assoc ..).symm, hafter⟩
    · rcases concat_eq_split hhere with ⟨-, rfl, -⟩ | ⟨last, hinside, rfl⟩
      · exact .inl rfl
      · cases before with
        | nil =>
          obtain ⟨rfl, -⟩ := List.cons.inj hinside
          exact .inl rfl
        | cons j first =>
          obtain ⟨rfl, hbody⟩ := List.cons.inj hinside
          exact .inr ⟨q, List.mem_cons_self, [], first, last, _, hbody, rfl,
            by rw [List.append_assoc]; rfl⟩

def Instr.begins? : Instr → Option String
  | proc name => some name
  | _ => none

/-- The names of procedures can be read off their code. -/
theorem filterMap_begins? (procedures : List Procedure) :
    (procedures.flatMap Procedure.code).filterMap Instr.begins? =
      procedures.map Procedure.name := by
  induction procedures with
  | nil => rfl
  | cons q procedures ih =>
    have hbody : q.body.filterMap Instr.begins? = [] := by
      refine List.filterMap_eq_nil_iff.mpr fun i hi => ?_
      have hinner := q.inner i hi
      cases i <;> first | rfl | cases hinner
    rw [List.flatMap_cons, List.filterMap_append, ih]
    simp [Procedure.code, hbody, Instr.begins?]

open Syntax

/-- The procedures of a program are tidy, and each has the name of its method. -/
theorem IsTree.exists_tidy {source : String} {p : Program} {c : Compilation}
    (hp : IsTree source p) (hc : compile source = .ok c) :
    ∃ procedures : List Procedure,
      c.code = procedures.flatMap Procedure.code ++ [.start c.entry] ∧
        procedures.map Procedure.name = p.declared.map Declared.fullName ∧
        List.Forall₂ Declared.IsTidy p.declared procedures := by
  obtain ⟨d, hrun, hcode, -⟩ := hp.exists_desk hc
  obtain ⟨-, procedures, hprocedures, htidy⟩ :=
    p.produces (fun _ ho => ho.ne_accumulator) _ d hrun rfl
  rw [hprocedures] at hcode
  refine ⟨procedures, hcode, ?_, htidy⟩
  obtain ⟨tokens, htokens, htree⟩ := hp
  obtain ⟨s, hs, -, -, hcode'⟩ := exists_run_of_compile (legal_actions htokens htree).1 hc
  obtain ⟨-, -, hwritten⟩ := IsTree.shaped ⟨tokens, htokens, htree⟩ hs
  obtain ⟨procedures', hprocedures', hnames⟩ := hwritten.exists_procedures
  have hsame := List.append_cancel_right (hcode.symm.trans hcode')
  rw [hprocedures'] at hsame
  rw [hnames, ← filterMap_begins?, ← filterMap_begins?, ← hsame]
  rfl

theorem exists_tidy_of_mem {declared : List Declared} {procedures : List Procedure} {q : Procedure}
    (h : List.Forall₂ Declared.IsTidy declared procedures) (hq : q ∈ procedures) :
    ∃ returned, Tidy returned q.body := by
  induction h with
  | nil => cases hq
  | cons first _ ih =>
    rcases List.mem_cons.mp hq with rfl | hq
    · obtain ⟨returned, htidy, -⟩ := first
      exact ⟨returned, htidy⟩
    · exact ih hq

/-- An instruction between others reads the accumulator only in an assignment right behind a call,
and sets it only in an assignment right before the end of a procedure. Nothing else has to do with
it, and no literal is changed. -/
structure Instr.Orderly (before after : Code) (i : Instr) : Prop where
  read : .accumulator ∈ i.sources →
    (∃ dest, i = .assign dest .accumulator) ∧ ∃ earlier name, before = earlier ++ [.call name]
  changed : i.changes = some .accumulator →
    (∃ value, i = .assign .accumulator value) ∧ ∃ name later, after = .endp name :: later
  assigned : .accumulator ∈ i.operands → ∃ dest value, i = .assign dest value
  changeable : ∀ text, i.changes ≠ some (.literal text)

theorem Instr.Fits.orderly {returned : Bool} {first last outer before rest : Code} {i : Instr}
    {name : String} (h : i.Fits returned first last) (hbefore : before = outer ++ first) :
    i.Orderly before (last ++ .endp name :: rest) := by
  cases h with
  | plain plain =>
    have hapart := (i.mem_operands_iff .accumulator).not.mp plain.apart
    exact ⟨fun h => absurd (.inr h) hapart, fun h => absurd (.inl h) hapart,
      fun h => absurd h plain.apart, plain.changeable⟩
  | @taken dest earlier name apart changeable behind =>
    refine ⟨fun _ => ⟨⟨dest, rfl⟩, outer ++ earlier, name, ?_⟩, ?_, fun _ => ⟨_, _, rfl⟩, ?_⟩
    · rw [hbefore, behind, List.append_assoc]
    · exact fun h => absurd (Option.some.inj h) apart
    · rintro text ⟨⟩
      cases changeable
  | @left value apart last =>
    refine ⟨fun h => absurd (List.mem_singleton.mp h).symm apart, fun _ => ⟨⟨value, rfl⟩, ?_⟩,
      fun _ => ⟨_, _, rfl⟩, nofun⟩
    rw [last.2]
    exact ⟨name, rest, rfl⟩

theorem orderly_of_not_inner {i : Instr} (h : i.isInner = false) (before after : Code) :
    i.Orderly before after := by
  cases i <;> first
    | cases h; done
    | exact ⟨nofun, nofun, nofun, nofun⟩

theorem Tidy.changes_ne {code : Code} (h : Tidy false code) :
    ∀ i ∈ code, i.changes ≠ some .accumulator := by
  intro i hi hchanges
  obtain ⟨before, after, hcode⟩ := List.append_of_mem hi
  cases h.fits hcode with
  | plain plain => exact plain.apart ((i.mem_operands_iff _).mpr (.inl hchanges))
  | taken apart => exact apart (Option.some.inj hchanges)
  | left _ last => cases last.1

/-- Every instruction of a program is orderly, and in the procedure of an entry the accumulator is
never set. -/
theorem accumulator_discipline {source : String} {c : Compilation} (hc : compile source = .ok c) :
    (∀ before i after, c.code = before ++ i :: after → i.Orderly before after) ∧
      (∃ p, IsTree source p) ∧
      ∀ p, IsTree source p → ∃ procedures : List Procedure,
        c.code = procedures.flatMap Procedure.code ++ [.start c.entry] ∧
          List.Forall₂ (fun d q => q.name = d.fullName ∧
            (d.isMain = true → ∀ i ∈ q.body, i.changes ≠ some .accumulator))
            p.declared procedures := by
  obtain ⟨p, hp⟩ := exists_tree (completes_of_readsThrough (.inl ⟨c, hc⟩))
  refine ⟨fun before i after hsplit => ?_, ⟨p, hp⟩, fun p hp => ?_⟩
  · obtain ⟨procedures, hcode, -, htidy⟩ := hp.exists_tidy hc
    rcases split_of_procedures (hcode.symm.trans hsplit) with
      houter | ⟨q, hq, outer, first, last, rest, hbody, hbefore, rfl⟩
    · exact orderly_of_not_inner houter before after
    · obtain ⟨returned, htidy⟩ := exists_tidy_of_mem htidy hq
      rw [List.append_cons] at hbefore
      exact (htidy.fits hbody).orderly hbefore
  · obtain ⟨procedures, hcode, hnames, htidy⟩ := hp.exists_tidy hc
    rw [← List.forall₂_eq_eq_eq, List.forall₂_map_left_iff, List.forall₂_map_right_iff] at hnames
    refine ⟨procedures, hcode, htidy.mp (fun d q hq hname => ⟨hname, ?_⟩) hnames.flip⟩
    obtain ⟨returned, htidy, hmain⟩ := hq
    intro hentry
    rw [hmain hentry] at htidy
    exact htidy.changes_ne

/-- A result is taken as it is, and taken into a sum. Only the second return counts. -/
def Sample.handed : String :=
  "class A\x7bint Main()\x7bint x;x=F();x+=F();return x;\x7dint F()\x7breturn 1;\x7d\x7d"

def Sample.handedCode : Code :=
  [.proc "A.Main", .call "A.F", .assign (.frame (-2)) .accumulator, .call "A.F",
    .assign (.frame (-4)) .accumulator, .binary (.frame (-2)) (.frame (-2)) .add (.frame (-4)),
    .endp "A.Main", .proc "A.F", .assign .accumulator (.literal "1"), .endp "A.F",
    .start "A.Main"]

open Sample in
theorem accumulator_discipline_handed :
    ∃ c, compile handed = .ok c ∧ c.code = handedCode ∧
      (∀ before i after, c.code = before ++ i :: after → i.Orderly before after) ∧
      ∃ p, IsTree handed p ∧ ∃ procedures : List Procedure,
        c.code = procedures.flatMap Procedure.code ++ [.start c.entry] ∧
          List.Forall₂ (fun d q => q.name = d.fullName ∧
            (d.isMain = true → ∀ i ∈ q.body, i.changes ≠ some .accumulator))
            p.declared procedures := by
  have hvalue : (compile handed).toOption.map Compilation.code = some handedCode := by
    decide +kernel
  obtain ⟨c, hc, hcode⟩ := exists_of_map_compile hvalue
  obtain ⟨horderly, ⟨p, hp⟩, htrees⟩ := accumulator_discipline hc
  exact ⟨c, hc, hcode, horderly, p, hp, htrees p hp⟩

end Triad
