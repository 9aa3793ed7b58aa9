import Triad.Proofs.CodeText
import Triad.Proofs.ScopeEnds

/-!
The summaries in the records of classes and methods. When a scope is closed, its owner is told the
lines of all that it owns, and so is the record inserted last, which owns nothing. So a summary that
is written stays as it is to the end. Main statement: `child_summaries`.
-/

namespace Triad

/-! ## Runs through a scope -/

/-- The actions lead to the state, and to the phase. -/
structure Reaches (done : List Action) (φ : Phase) (s : State) : Prop where
  run : State.initial.run done = (s, none)
  stands : Stands φ s
  scope : (roll done).scope = φ.openScope
  barren : s.Barren

/-- The class or method of the number is opened by one of the actions. -/
def OpenedIn (done : List Action) (id : SymbolId) : Prop :=
  ∃ before opening later, done = before ++ opening :: later ∧
    (Action.opened? opening).isSome = true ∧ (State.initial.run before).1.symbols.nextId = id

namespace Reaches

variable {done rest : List Action} {φ ψ : Phase} {σ τ : Stage} {s t : State} {a : Action}

theorem initial : Reaches [] .preface .initial :=
  ⟨rfl, stands_initial, rfl, fun k hk => by cases hk⟩

theorem begin (h : Reaches done .preface s) : Reaches done .file s :=
  ⟨h.run, h.stands.begin, h.scope, h.barren⟩

theorem apply (h : Reaches done φ s) (hnext : φ.next? a = some ψ) (happly : a.apply s = .ok t) :
    Reaches (done ++ [a]) ψ t where
  run := State.run_append_eq_none.mpr ⟨s, h.run, State.run_cons_eq_none.mpr ⟨t, happly, rfl⟩⟩
  stands := stands_apply h.stands hnext happly
  scope := by
    rw [roll_snoc]
    exact Roll.scope_move h.scope (move_of_apply h.stands.fits hnext happly)
  barren := barren_apply h.stands hnext happly h.barren

theorem of_run (hordered : Stage.Ordered (.of .preface) done τ)
    (hrun : State.initial.run done = (t, none)) : Reaches done τ.phase t :=
  hordered.state_induction (P := fun _ => True) (I := fun done σ s => Reaches done σ.phase s)
    (fun _ _ h => h.begin) (fun _ _ h => h)
    (fun _ _ _ _ _ _ _ _ h hnext happly => h.apply (Stage.phase_of_next? hnext).2 happly)
    (fun _ _ => trivial) [] stands_initial initial hrun

/-- The first of the actions to come. The stage may have changed before it. -/
theorem uncons (h : Reaches done σ.phase s) (hordered : Stage.Ordered σ (a :: rest) τ)
    (hrun : s.run (a :: rest) = (t, none)) :
    ∃ (σ' χ : Stage) (u : State), (σ'.phase = σ.phase ∨ σ.phase = .preface) ∧
      Reaches done σ'.phase s ∧ σ'.next? a = some χ ∧ a.apply s = .ok u ∧
      Reaches (done ++ [a]) χ.phase u ∧ Stage.Ordered χ rest τ ∧ u.run rest = (t, none) := by
  generalize hall : a :: rest = actions at hordered
  induction hordered with
  | nil σ => cases hall
  | begin _ ih =>
    obtain ⟨σ', χ, u, -, hmore⟩ := ih h.begin hall
    exact ⟨σ', χ, u, .inr rfl, hmore⟩
  | settle _ ih => exact ih h hall
  | @cons σ χ τ b actions here later ih =>
    cases hall
    obtain ⟨u, happly, hu⟩ := State.run_cons_eq_none.mp hrun
    have hreach := h.apply (Stage.phase_of_next? here).2 happly
    exact ⟨σ, χ, u, .inl rfl, h, here, happly, hreach, later, hu⟩

/-- Every class or method of the table was opened on the way. -/
theorem openedIn (h : Reaches done φ s) (hlegal : Phase.Legal .preface done φ) {id : SymbolId}
    {r : Symbol} (hr : s.symbols.get? id = some r) (hscope : r.entity.isScope = true) :
    OpenedIn done id :=
  (hlegal.state_induction (P := fun _ => True)
    (I := fun done _ s => State.initial.run done = (s, none) ∧
      ∀ id r, s.symbols.get? id = some r → r.entity.isScope = true → OpenedIn done id)
    (fun _ _ h => h)
    (by
      rintro done φ a ψ u v - hfits ⟨hrun, hall⟩ hnext happly
      refine ⟨State.run_append_eq_none.mpr
        ⟨u, hrun, State.run_cons_eq_none.mpr ⟨v, happly, rfl⟩⟩, fun id r hr hscope => ?_⟩
      rcases opened_of_move (move_of_apply hfits hnext happly) hr hscope with
        ⟨q, hq, hscope⟩ | ⟨hopens, rfl⟩
      · obtain ⟨before, opening, later, rfl, hopens, hid⟩ := hall id q hq hscope
        exact ⟨before, opening, later ++ [a], by simp, hopens, hid⟩
      · exact ⟨done, a, [], rfl, hopens, by rw [hrun]⟩)
    (fun _ _ => trivial) [] stands_initial.fits ⟨rfl, fun _ _ hr => by cases hr⟩ h.run).2
    id r hr hscope

end Reaches

/-- What the actions put into the scope, behind what was done before. -/
def entriesIn (scope : OpenScope) (done : List Action) : List Action → List (String × Entity)
  | [] => []
  | a :: rest =>
    (if (roll done).scope = scope then (a.inserted? (State.initial.run done).1).toList else []) ++
      entriesIn scope (done ++ [a]) rest

/-- What every action inside an open scope keeps, told what was put into the scope so far, holds up
to the end of the scope. -/
theorem IsOpen.induction {scope : OpenScope} {id : SymbolId}
    {I : List Action → Stage → State → List (String × Entity) → Prop}
    (hsettle : ∀ done s entries, I done (.of .body) s entries → I done .code s entries)
    (hstep : ∀ done σ a τ s t entries, Reaches done σ.phase s → IsOpen scope id σ.phase s →
      a ≠ scope.closing → σ.next? a = some τ → a.apply s = .ok t → I done σ s entries →
      I (done ++ [a]) τ t
        (entries ++ if σ.phase.openScope = scope then (a.inserted? s).toList else []))
    {σ τ : Stage} {done actions : List Action} {s t : State} {entries : List (String × Entity)}
    (hordered : Stage.Ordered σ actions τ) (hinside : scope.closing ∉ actions)
    (hreach : Reaches done σ.phase s) (hopen : IsOpen scope id σ.phase s) (h : I done σ s entries)
    (hrun : s.run actions = (t, none)) :
    Reaches (done ++ actions) τ.phase t ∧ IsOpen scope id τ.phase t ∧
      I (done ++ actions) τ t (entries ++ entriesIn scope done actions) := by
  induction hordered generalizing done s entries with
  | nil σ =>
    cases hrun
    rw [entriesIn, List.append_nil, List.append_nil]
    exact ⟨hreach, hopen, h⟩
  | begin => cases scope <;> cases hopen.holds
  | settle _ ih => exact ih hinside hreach hopen (hsettle done s entries h) hrun
  | @cons σ χ τ a actions here _ ih =>
    obtain ⟨u, happly, hu⟩ := State.run_cons_eq_none.mp hrun
    have hnext := (Stage.phase_of_next? here).2
    have ha : a ≠ scope.closing := fun heq => hinside (heq ▸ List.mem_cons_self)
    have hstepped := hstep done σ a χ s u entries hreach hopen ha here happly h
    have hlater := ih (fun hmem => hinside (List.mem_cons_of_mem a hmem))
      (hreach.apply hnext happly) (hopen.apply hreach.stands ha hnext happly) hstepped hu
    rw [entriesIn, hreach.scope, hreach.run, ← List.append_assoc]
    rwa [List.append_assoc] at hlater

/-! ## What a class lists -/

section Entries

variable {done : List Action} {φ ψ : Phase} {σ τ : Stage} {s t : State} {a : Action}
  {id : SymbolId} {entries : List (String × Entity)} {entry : String × Entity}

theorem inserted?_of_isAside (h : a.isAside = true) (s : State) : a.inserted? s = none := by
  cases a <;> first | rfl | cases h

/-- A class lists the members that it declares. -/
theorem members_roll (hopen : IsOpen .members id φ s) (hreach : Reaches done φ s)
    (ha : a ≠ .closeClass) (hnext : φ.next? a = some ψ) (happly : a.apply s = .ok t) :
    (roll (done ++ [a])).members = (roll done).members ++
      (if φ.openScope = .members then (a.inserted? s).toList else []).map Prod.fst := by
  have hscope := hreach.scope
  have hholds : φ.inClass = true := hopen.holds
  have hmove := move_of_apply hreach.stands.fits hnext happly
  rw [roll_snoc]
  generalize t.spine = p at hmove
  cases hmove with
  | still _ _ aside =>
    rw [Roll.after_eq (.inl aside), inserted?_of_isAside aside]
    simp
  | @declared φ line name entity inScope =>
    by_cases hφ : φ.openScope = .members
    · rw [Roll.after_declare (hscope.trans hφ), if_pos hφ]
      rfl
    · rw [Roll.after_inner (by rw [hscope]; exact hφ), if_neg hφ]
      simp
  | coded _ _ kind =>
    rw [Roll.after_eq (.inr kind)]
    simp [Phase.openScope]
  | methodOpened opens =>
    rw [Roll.after_routine opens]
    cases a <;> cases opens <;> rfl
  | classEntered | paramsEntered | methodClosed =>
    simp [Roll.after, Phase.openScope, Action.inserted?, Action.drawsWord]
  | classClosed => exact absurd rfl ha
  | _ => cases hholds

/-! ## What a method lists -/

/-- A name that was used without a declaration, or a word for a value. -/
def IsMade (entry : String × Entity) : Prop :=
  entry.2 = .placeholder ∨ ∃ offset, entry = (frameSlot offset, .newVar .int)

theorem isMade_of_isCode (h : a.isCode = true) (hentry : a.inserted? s = some entry) :
    IsMade entry := by
  have hnone : a.declaration? = none := by cases a <;> first | rfl | cases h
  rcases Action.inserted?_cases hentry with ⟨line, hdeclared⟩ | ⟨-, hplaceholder⟩ | hword
  · cases hnone.symm.trans hdeclared
  · exact .inl hplaceholder
  · exact .inr hword

/-- Parameters, then locals with the constants, then what code made, of which there is none before
the code. -/
structure InOrder (d : Declarations) (coding : Prop) (entries : List (String × Entity)) : Prop where
  early : d.inBody = false → d.locals = []
  split : ∃ made, entries = d.params ++ d.locals ++ made ∧ (¬ coding → made = []) ∧
    ∀ entry ∈ made, IsMade entry

namespace InOrder

variable {d : Declarations} {coding coding' : Prop} {made : List (String × Entity)}

theorem append (h : InOrder d coding entries) (hmade : ∀ entry ∈ made, IsMade entry)
    (hcoding : ¬ coding' → ¬ coding ∧ made = []) : InOrder d coding' (entries ++ made) := by
  obtain ⟨first, hentries, hnone, hfirst⟩ := h.split
  refine ⟨h.early, first ++ made, ?_, fun hnot => ?_, List.forall_mem_append.mpr ⟨hfirst, hmade⟩⟩
  · rw [hentries, List.append_assoc _ first made]
  · rw [hnone (hcoding hnot).1, (hcoding hnot).2, List.append_nil]

theorem mono (h : InOrder d coding entries) (hcoding : coding → coding') :
    InOrder d coding' entries := by
  obtain ⟨made, hentries, hnone, hmade⟩ := h.split
  exact ⟨h.early, made, hentries, fun hnot => hnone fun hcode => hnot (hcoding hcode), hmade⟩

theorem aside (h : InOrder d coding entries) (ha : a.isAside = true) :
    InOrder (d.after a) coding entries := by
  cases a <;> first | exact h | cases ha
  exact ⟨fun hbody => (by cases hbody), h.split⟩

theorem declare (h : InOrder d coding entries) (hcoding : ¬ coding) (line : Nat) (name : String)
    (entity : Entity) :
    InOrder (d.after (.declare line name entity)) coding (entries ++ [(name, entity)]) := by
  obtain ⟨made, hentries, hnone, -⟩ := h.split
  have hnothing : ∀ entry ∈ ([] : List (String × Entity)), IsMade entry :=
    fun _ hmem => absurd hmem List.not_mem_nil
  rw [hentries, hnone hcoding, List.append_nil]
  cases hbody : d.inBody with
  | true =>
    rw [Declarations.after_local hbody]
    exact ⟨fun hout => (by cases hbody.symm.trans hout), [], by simp, fun _ => rfl, hnothing⟩
  | false =>
    rw [Declarations.after_param hbody]
    exact ⟨h.early, [], by simp [h.early hbody], fun _ => rfl, hnothing⟩

end InOrder

/-- A method lists nothing before its parameters, and then all in order. -/
structure MethodEntries (σ : Stage) (d : Declarations) (entries : List (String × Entity)) :
    Prop where
  head : σ.phase = .methodHead → entries = []
  inner : σ.phase.depth = 2 → InOrder d (σ = .code) entries

theorem MethodEntries.step {d : Declarations} (h : MethodEntries σ d entries)
    (hs : Stands σ.phase s) (hopen : IsOpen .method id σ.phase s) (ha : a ≠ .closeMethod)
    (hnext : σ.next? a = some τ) (happly : a.apply s = .ok t) :
    MethodEntries τ (d.after a)
      (entries ++ if σ.phase.openScope = .method then (a.inserted? s).toList else []) := by
  have hholds : σ.phase.inMethod = true := hopen.holds
  have hmove := move_of_apply hs.fits (Stage.phase_of_next? hnext).2 happly
  have hends : a.endsMethod = false := by cases a <;> first | rfl | exact absurd rfl ha
  -- Only the end of the method leads out of its code.
  have hcode : σ = .code → τ = .code := by
    rintro rfl
    exact Stage.eq_code_of_next? hnext hends
  obtain ⟨hhead, hinner⟩ := h
  generalize t.spine = p at hmove
  generalize hφ : σ.phase = φ at hmove hhead hinner hholds ⊢
  generalize hψ : τ.phase = ψ at hmove
  cases hmove with
  | still beside _ aside =>
    rw [inserted?_of_isAside aside, Option.toList_none, ite_self, List.append_nil]
    have hphase : (ψ = .methodHead → φ = .methodHead) ∧ (ψ.depth = 2 → φ.depth = 2) := by
      rcases beside with rfl | ⟨rfl, rfl⟩ | ⟨rfl, rfl⟩
      · exact ⟨fun heq => heq, fun heq => heq⟩
      · exact ⟨fun heq => (by cases heq), fun _ => rfl⟩
      · exact ⟨fun heq => (by cases heq), fun _ => rfl⟩
    rw [← hψ] at hphase
    exact ⟨fun hτ => hhead (hphase.1 hτ), fun hτ => ((hinner (hphase.2 hτ)).aside aside).mono hcode⟩
  | @declared φ line name entity inScope =>
    have hφ' : φ.openScope = .method ∧ φ.depth = 2 ∧ φ ≠ .methodHead := by
      simp only [List.mem_cons, List.not_mem_nil, or_false] at inScope
      rcases inScope with rfl | rfl | rfl
      · cases hholds
      · exact ⟨rfl, rfl, by simp⟩
      · exact ⟨rfl, rfl, by simp⟩
    have hσ : σ ≠ .code := (Stage.Ordered.cons hnext (.nil τ)).ne_code_of_declaration? rfl
    rw [if_pos hφ'.1]
    exact ⟨fun hτ => absurd (hψ.symm.trans hτ) hφ'.2.2,
      fun _ => ((hinner hφ'.2.1).declare hσ line name entity).mono hcode⟩
  | coded _ _ kind =>
    have hafter : d.after a = d := by
      rcases kind with hcode | rfl
      · exact Declarations.after_code hcode d
      · rfl
    have hmade : ∀ entry ∈ (a.inserted? s).toList, IsMade entry := by
      intro entry hentry
      rcases kind with hcode | rfl
      · exact isMade_of_isCode hcode (Option.mem_toList.mp hentry)
      · cases hentry
    rw [hafter, if_pos (show Phase.body.openScope = .method from rfl)]
    refine ⟨fun hτ => (by cases hψ.symm.trans hτ), fun _ => (hinner rfl).append hmade fun hτ => ?_⟩
    refine ⟨fun hσ => hτ (hcode hσ), ?_⟩
    rcases kind with hcode | rfl
    · obtain ⟨-, hlater⟩ := (Stage.Ordered.cons hnext (.nil τ)).code_of_cons hcode
      cases hlater
      exact absurd rfl hτ
    · rfl
  | paramsEntered =>
    rw [hhead rfl]
    exact ⟨fun hτ => (by cases hψ.symm.trans hτ), fun _ => ⟨fun _ => rfl, [], rfl, fun _ => rfl,
      fun _ hmem => absurd hmem List.not_mem_nil⟩⟩
  | methodClosed => exact absurd rfl ha
  | _ => cases hholds

end Entries

/-! ## One line each -/

/-- Names have no line breaks, and words for values neither. -/
theorem newline_not_mem_inserted? {s : State} {a : Action} {entry : String × Entity}
    (hspelled : a.IsSpelled) (h : a.inserted? s = some entry) : '\n' ∉ entry.1.toList := by
  intro hmem
  rcases Action.inserted?_cases h with ⟨line, hdeclared⟩ | ⟨⟨line, hused⟩, -⟩ | ⟨offset, rfl⟩
  · have hdotted : IsDotted entry.1 := by
      cases a <;> cases hdeclared <;> first | exact hspelled | exact IsWord.isDotted hspelled
    exact absurd (hdotted _ hmem) (by decide)
  · exact absurd (Action.isWord_of_use? hspelled hused _ hmem) (by decide)
  · exact absurd (unbroken_frameSlot offset _ hmem) (by decide)

theorem newline_not_mem_childLine {entry : String × Entity} (h : '\n' ∉ entry.1.toList) :
    '\n' ∉ (childLine entry).toList := by
  obtain ⟨name, entity⟩ := entry
  have hmode : ∀ mode : PassingMode, '\n' ∉ mode.text.toList := by
    intro mode
    cases mode <;> decide
  have htype : ∀ type : ValueType, '\n' ∉ type.name.toList := by
    intro type
    cases type <;> decide
  have hname : (Symbol.new name entity 0).name = name := rfl
  unfold childLine Symbol.renderAsChild
  dsimp only
  split <;> simp_all

theorem newline_not_mem_entriesIn {scope : OpenScope} {actions : List Action}
    (h : ∀ a ∈ actions, a.IsSpelled) (done : List Action) :
    ∀ entry ∈ entriesIn scope done actions, '\n' ∉ (childLine entry).toList := by
  induction actions generalizing done with
  | nil => exact fun entry hentry => absurd hentry List.not_mem_nil
  | cons a actions ih =>
    intro entry hentry
    rw [entriesIn] at hentry
    rcases List.mem_append.mp hentry with hentry | hentry
    · split at hentry
      · exact newline_not_mem_childLine
          (newline_not_mem_inserted? (h a List.mem_cons_self) (Option.mem_toList.mp hentry))
      · cases hentry
    · exact ih (fun b hb => h b (List.mem_cons_of_mem a hb)) _ entry hentry

/-! ## Extents -/

/-- The actions from the heading of a class or a method to its end. -/
structure Extent (actions : List Action) where
  scope : OpenScope
  before : List Action
  opening : Action
  inside : List Action
  rest : List Action
  opens : opening.opened? = some scope
  stays : scope.closing ∉ inside
  split : actions = before ++ opening :: inside ++ scope.closing :: rest

namespace Extent

variable {actions : List Action}

/-- The number of the record. -/
def id (e : Extent actions) : SymbolId := (State.initial.run e.before).1.symbols.nextId

/-- What is done up to the end of the scope. -/
def done (e : Extent actions) : List Action := e.before ++ e.opening :: e.inside

/-- What is declared in the scope, in this order. -/
def entries (e : Extent actions) : List (String × Entity) :=
  entriesIn e.scope (e.before ++ [e.opening]) e.inside

/-- The extent of the first scope with that heading. -/
def ofHeading (opening : Action) (scope : OpenScope) (opens : opening.opened? = some scope)
    (met : opening ∈ actions) (closed : scope.closing ∈ opening.behind actions) :
    Extent actions where
  scope := scope
  before := opening.before actions
  opening := opening
  inside := scope.closing.before (opening.behind actions)
  rest := scope.closing.behind (opening.behind actions)
  opens := opens
  stays := Action.not_mem_before _ _
  split := (Action.eq_before_behind met).trans (by
    rw [List.append_assoc, List.cons_append, ← Action.eq_before_behind closed])

end Extent

/-- The scope has the lines of its entries. Those of a class are its members, and those of a method
its parameters, its locals, and what its code made. -/
structure Tells (scope : OpenScope) (id : SymbolId) (done : List Action) (σ : Stage) (s : State)
    (entries : List (String × Entity)) : Prop where
  lines : s.symbols.linesOf id = entries.map childLine
  members : scope = .members → (roll done).members = entries.map Prod.fst
  inner : scope = .method → MethodEntries σ (declarations done) entries

section Extents

variable {actions : List Action} {τ : Stage} {t : State}

theorem Tells.step {scope : OpenScope} {id : SymbolId} {σ : Stage} {done : List Action} {a : Action}
    {s : State} {entries : List (String × Entity)} (h : Tells scope id done σ s entries)
    (hreach : Reaches done σ.phase s) (hopen : IsOpen scope id σ.phase s) (ha : a ≠ scope.closing)
    (hnext : σ.next? a = some τ) (happly : a.apply s = .ok t) :
    Tells scope id (done ++ [a]) τ t
      (entries ++ if σ.phase.openScope = scope then (a.inserted? s).toList else []) := by
  have hphase := (Stage.phase_of_next? hnext).2
  refine ⟨?_, ?_, ?_⟩
  · rw [hopen.lines_apply hreach.stands ha hphase happly, h.lines, List.map_append]
    split <;> rfl
  · rintro rfl
    rw [members_roll hopen hreach ha hphase happly, h.members rfl, List.map_append]
  · rintro rfl
    rw [declarations_snoc]
    exact (h.inner rfl).step hreach.stands hopen ha hnext happly

theorem Tells.run {scope : OpenScope} {id : SymbolId} {σ : Stage} {done inside : List Action}
    {s : State} (h : Tells scope id done σ s []) (hordered : Stage.Ordered σ inside τ)
    (hinside : scope.closing ∉ inside) (hreach : Reaches done σ.phase s)
    (hopen : IsOpen scope id σ.phase s) (hrun : s.run inside = (t, none)) :
    Reaches (done ++ inside) τ.phase t ∧ IsOpen scope id τ.phase t ∧
      Tells scope id (done ++ inside) τ t (entriesIn scope done inside) := by
  have hsettle : ∀ done s entries, Tells scope id done (.of .body) s entries →
      Tells scope id done .code s entries := by
    intro done s entries h
    refine ⟨h.lines, h.members, fun hscope => ?_⟩
    obtain ⟨hhead, hinner⟩ := h.inner hscope
    exact ⟨hhead, fun hdepth => (hinner hdepth).mono fun _ => rfl⟩
  have hall := IsOpen.induction hsettle
    (fun _ _ _ _ _ _ _ hreach hopen ha hnext happly h => h.step hreach hopen ha hnext happly)
    hordered hinside hreach hopen h hrun
  exact hall

/-- A scope that is opened has nothing to tell yet. -/
theorem tells_of_opened {scope : OpenScope} {φ : Phase} {σ : Stage} {done : List Action}
    {a : Action} {s : State} (hs : Stands φ s) (hopens : a.opened? = some scope)
    (hnext : φ.next? a = some σ.phase) (happly : a.apply s = .ok t) :
    Tells scope s.symbols.nextId (done ++ [a]) σ t [] where
  lines := (isOpen_of_opened hs hopens hnext happly).2.1
  members := by
    rintro rfl
    rw [roll_snoc]
    cases a <;> cases hopens
    rfl
  inner := by
    rintro rfl
    refine ⟨fun _ => rfl, fun hdepth => ?_⟩
    have hhead : σ.phase = .methodHead := by
      cases a <;> cases hopens <;> cases φ <;>
        first | exact (Option.some.inj hnext).symm | cases hnext
    rw [hhead] at hdepth
    cases hdepth

/-- The scope of a record is open behind what was done, with these entries, and the actions to come
lead to the last state. -/
structure Underway (scope : OpenScope) (id : SymbolId) (q : Symbol) (done : List Action)
    (entries : List (String × Entity)) (σ : Stage) (s : State) (later : List Action) (τ : Stage)
    (t : State) : Prop where
  reaches : Reaches done σ.phase s
  isOpen : IsOpen scope id σ.phase s
  tells : Tells scope id done σ s entries
  record : ∀ r, s.symbols.get? id = some r → r.outline = q.outline
  ordered : Stage.Ordered σ later τ
  run : s.run later = (t, none)

theorem exists_underway {scope : OpenScope} {before later : List Action} {opening : Action}
    (hopens : opening.opened? = some scope)
    (hordered : Stage.Ordered (.of .preface) (before ++ opening :: later) τ)
    (hrun : State.initial.run (before ++ opening :: later) = (t, none)) :
    ∃ q σ u, opening.declaration?.map Prod.snd = some (Symbol.name q) ∧
      Underway scope (State.initial.run before).1.symbols.nextId q (before ++ [opening]) [] σ u
        later τ t := by
  obtain ⟨σ₀, hbefore, hlater⟩ := hordered.split
  obtain ⟨s, hs, hrun⟩ := State.run_append_eq_none.mp hrun
  obtain ⟨σ₁, σ, u, -, hreach, hnext, happly, hreachu, hordered, hrun⟩ :=
    (Reaches.of_run hbefore hs).uncons hlater hrun
  have hphase := (Stage.phase_of_next? hnext).2
  obtain ⟨hopen, -, q, hq, hname⟩ := isOpen_of_opened hreach.stands hopens hphase happly
  have htells : Tells scope s.symbols.nextId (before ++ [opening]) σ u [] :=
    tells_of_opened hreach.stands hopens hphase happly
  rw [hs]
  refine ⟨q, σ, u, hname, hreachu, hopen, htells, fun r hr => ?_, hordered, hrun⟩
  cases hq.symm.trans hr
  rfl

namespace Underway

variable {scope : OpenScope} {id : SymbolId} {q : Symbol} {done inside later : List Action}
  {σ : Stage} {s : State}

theorem through (h : Underway scope id q done [] σ s (inside ++ later) τ t)
    (hinside : scope.closing ∉ inside) :
    ∃ χ u, Underway scope id q (done ++ inside) (entriesIn scope done inside) χ u later τ t := by
  obtain ⟨χ, hordered, hlater⟩ := h.ordered.split
  obtain ⟨u, hu, hrun⟩ := State.run_append_eq_none.mp h.run
  obtain ⟨hreach, hopen, htells⟩ := h.tells.run hordered hinside h.reaches h.isOpen hu
  obtain ⟨r, hr, hscope, -⟩ := h.isOpen.record h.reaches.stands
  obtain ⟨r', hr', hout⟩ := record_run hordered.legal h.reaches.stands hu hr
    (h.reaches.stands.depth_of_isScope hr hscope)
  refine ⟨χ, u, hreach, hopen, htells, fun o ho => ?_, hlater, hrun⟩
  cases hr'.symm.trans ho
  exact hout.trans (h.record r hr)

/-- The next action finds the scope open. -/
theorem uncons {a : Action} {entries : List (String × Entity)}
    (h : Underway scope id q done entries σ s (a :: later) τ t) :
    ∃ χ u, σ.phase.next? a = some (Stage.phase χ) ∧ a.apply s = .ok u ∧
      Stage.Ordered χ later τ ∧ u.run later = (t, none) := by
  obtain ⟨σ', χ, u, hphase, -, hnext, happly, -, hordered, hrun⟩ :=
    h.reaches.uncons h.ordered h.run
  have hsame : σ'.phase = σ.phase := by
    refine hphase.resolve_right fun hpreface => ?_
    have hholds := h.isOpen.holds
    rw [hpreface] at hholds
    cases scope <;> cases hholds
  exact ⟨χ, u, hsame ▸ (Stage.phase_of_next? hnext).2, happly, hordered, hrun⟩

/-- The end of a scope settles its summary, for all that is done later. -/
theorem settled {more rest : List Action} {entries : List (String × Entity)}
    (h : Underway scope id q done entries σ s (scope.closing :: (more ++ rest)) τ t) :
    ∃ φ, Settled id q (entries.map childLine) φ
      (State.initial.run (done ++ scope.closing :: more)).1 := by
  obtain ⟨χ, v, hnext, happly, hordered, hrun⟩ := h.uncons
  have hsettled := h.isOpen.settled h.reaches.stands h.reaches.barren h.record hnext happly
  rw [h.tells.lines] at hsettled
  obtain ⟨χ', hmore, -⟩ := hordered.split
  obtain ⟨u, hu, -⟩ := State.run_append_eq_none.mp hrun
  have hall : State.initial.run (done ++ scope.closing :: more) = (u, none) :=
    State.run_append_eq_none.mpr ⟨s, h.reaches.run, State.run_cons_eq_none.mpr ⟨v, happly, hu⟩⟩
  rw [hall]
  exact ⟨χ'.phase, hsettled.run hmore.legal hu⟩

theorem kind {entries : List (String × Entity)}
    (h : Underway scope id q done entries σ s later τ t) :
    (if scope = .members then q.entity.isClass else q.entity.isMethod) = true := by
  obtain ⟨r, hr, -, hclass, hmethod⟩ := h.isOpen.record h.reaches.stands
  have hout := h.record r hr
  rw [← Symbol.isClass_of_outline hout, ← Symbol.isMethod_of_outline hout]
  cases scope with
  | outside => cases h.isOpen.holds
  | members => exact hclass rfl
  | method => exact hmethod rfl

/-- A method ends in its body. -/
theorem listed {entries : List (String × Entity)} (hscope : scope = .method)
    (h : Underway scope id q done entries σ s (scope.closing :: later) τ t) :
    ∃ made, entries = (declarations done).params ++ (declarations done).locals ++ made ∧
      ∀ entry ∈ made, IsMade entry := by
  obtain ⟨χ, v, hnext, -⟩ := h.uncons
  have hdepth : σ.phase.depth = 2 := by
    rw [hscope] at hnext
    generalize σ.phase = φ at hnext ⊢
    cases φ <;> first | rfl | cases hnext
  obtain ⟨made, hentries, -, hmade⟩ := ((h.tells.inner hscope).inner hdepth).split
  exact ⟨made, hentries, hmade⟩

/-- No text ends inside a scope. -/
theorem closing_mem (h : Underway scope id q done [] σ s later (.of .file) t) :
    scope.closing ∈ later := by
  by_contra hinside
  have hopen := (h.tells.run h.ordered hinside h.reaches h.isOpen h.run).2.1
  cases scope <;> cases hopen.holds

end Underway

/-- Every class or method of the table has an extent. -/
theorem exists_extent (hordered : Stage.Ordered (.of .preface) actions (.of .file))
    (hrun : State.initial.run actions = (t, none)) {id : SymbolId} {r : Symbol}
    (hr : t.symbols.get? id = some r) (hscope : r.entity.isScope = true) :
    ∃ e : Extent actions, e.id = id := by
  obtain ⟨before, opening, later, rfl, hopens, rfl⟩ :=
    (Reaches.of_run hordered hrun).openedIn hordered.legal hr hscope
  obtain ⟨scope, hopens⟩ := Option.isSome_iff_exists.mp hopens
  obtain ⟨q, σ, u, -, h⟩ := exists_underway hopens hordered hrun
  obtain ⟨inside, rest, rfl, hstays⟩ := List.eq_append_cons_of_mem h.closing_mem
  exact ⟨⟨scope, before, opening, inside, rest, hopens, hstays, by simp⟩, rfl⟩

/-- The scope is open up to its end. -/
theorem Extent.exists_end (e : Extent actions)
    (hordered : Stage.Ordered (.of .preface) actions τ)
    (hrun : State.initial.run actions = (t, none)) :
    ∃ q σ v, e.opening.declaration?.map Prod.snd = some (Symbol.name q) ∧
      Underway e.scope e.id q e.done e.entries σ v (e.scope.closing :: e.rest) τ t := by
  have hsplit : actions = e.before ++ e.opening :: (e.inside ++ e.scope.closing :: e.rest) :=
    e.split.trans (by simp)
  have hdone : e.done = e.before ++ [e.opening] ++ e.inside := by simp [Extent.done]
  rw [hsplit] at hordered hrun
  obtain ⟨q, χ, u, hname, h⟩ := exists_underway e.opens hordered hrun
  obtain ⟨σ, v, hend⟩ := h.through e.stays
  exact ⟨q, σ, v, hname, hdone ▸ hend⟩

end Extents

/-- Nothing that a method declared is left of it. -/
theorem Settled.linesOf_method {id : SymbolId} {q : Symbol} {lines : List String} {φ : Phase}
    {s : State} (h : Settled id q lines φ s) (hmethod : q.entity.isMethod = true) :
    s.symbols.linesOf id = [] := by
  obtain ⟨r, hr, hout, -⟩ := h.record
  refine SymbolTable.linesOf_eq_nil fun i o ho howner => ?_
  exact h.parent_ne (h.stands.names.depth_of_method h.stands.placed hr
    ((Symbol.isMethod_of_outline hout).trans hmethod) ho howner).2

theorem ordered_of_ok {source : String} {c : Compilation} (h : compile source = .ok c) :
    Stage.Ordered (.of .preface) (Grammar.parse (Scanner.ofString source).scan).1 (.of .file) := by
  have hordered := Grammar.ordered_parse (Scanner.ofString source).scan
  rw [(completes_of_readsThrough (.inl ⟨c, h⟩)).1] at hordered
  exact hordered

/-- The summaries of a compiled text. The classes and methods of the table are those that the text
opens and closes. The summary of one has a line for each entry of its scope, in the order in which
they were inserted: while the scope was open these were the records that it owned, and no action
behind its end changes the summary. The entries of a class are its members, which stay in the table.
Those of a method are its parameters, its locals and constants, and what its code made, and none of
them stays. -/
theorem child_summaries {source : String} {c : Compilation} (hc : compile source = .ok c) :
    (∀ id r, c.symbols.get? id = some r → r.entity.isClass = true ∨ r.entity.isMethod = true →
      ∃ e : Extent (Grammar.parse (Scanner.ofString source).scan).1, e.id = id) ∧
    ∀ e : Extent (Grammar.parse (Scanner.ofString source).scan).1,
      (∃ r, c.symbols.get? e.id = some r ∧ e.opening.declaration?.map Prod.snd = some r.name ∧
        (if e.scope = .members then r.entity.isClass else r.entity.isMethod) = true ∧
        r.children = listing (e.entries.map childLine)) ∧
      (∀ more, more <+: e.rest → ∃ r,
        (State.initial.run (e.done ++ e.scope.closing :: more)).1.symbols.get? e.id = some r ∧
          r.children = listing (e.entries.map childLine)) ∧
      (State.initial.run e.done).1.symbols.linesOf e.id = e.entries.map childLine ∧
      c.symbols.linesOf e.id = (if e.scope = .members then e.entries.map childLine else []) ∧
      (e.scope = .members → e.entries.map Prod.fst = (roll e.done).members) ∧
      (e.scope = .method → ∃ made,
        e.entries = (declarations e.done).params ++ (declarations e.done).locals ++ made ∧
          ∀ entry ∈ made, IsMade entry) ∧
      ∀ entry ∈ e.entries, '\n' ∉ (childLine entry).toList := by
  obtain ⟨t, hrun, -, hsymbols⟩ := exists_run_of_ok hc
  have hordered := ordered_of_ok hc
  rw [hsymbols]
  refine ⟨fun id r hr hscope => exists_extent hordered hrun hr (Bool.or_eq_true_iff.mpr hscope), ?_⟩
  intro e
  obtain ⟨q, σ, v, hname, h⟩ := e.exists_end hordered hrun
  have hsettled : ∀ more, more <+: e.rest → ∃ φ, Settled e.id q (e.entries.map childLine) φ
      (State.initial.run (e.done ++ e.scope.closing :: more)).1 := by
    rintro more ⟨rest, heq⟩
    rw [← heq] at h
    exact h.settled
  obtain ⟨φ, hlast⟩ := hsettled e.rest List.prefix_rfl
  have hall : e.done ++ e.scope.closing :: e.rest =
      (Grammar.parse (Scanner.ofString source).scan).1 := e.split.symm
  rw [hall, hrun] at hlast
  obtain ⟨r, hr, hout, hchildren⟩ := hlast.record
  refine ⟨⟨r, hr, ?_, ?_, hchildren⟩, ?_, ?_, ?_, fun hscope => (h.tells.members hscope).symm,
    fun hscope => h.listed hscope, ?_⟩
  · rw [hname, Symbol.name_of_outline hout]
  · rw [Symbol.isClass_of_outline hout, Symbol.isMethod_of_outline hout]
    exact h.kind
  · intro more hmore
    obtain ⟨ψ, hmore⟩ := hsettled more hmore
    obtain ⟨r, hr, -, hchildren⟩ := hmore.record
    exact ⟨r, hr, hchildren⟩
  · rw [h.reaches.run]
    exact h.tells.lines
  · have hkind := h.kind
    split
    · rename_i hscope
      rw [if_pos hscope] at hkind
      exact hlast.owned hkind
    · rename_i hscope
      rw [if_neg hscope] at hkind
      exact hlast.linesOf_method hkind
  · refine newline_not_mem_entriesIn (fun a ha => ?_) _
    refine Grammar.spelled_parse source a ?_
    rw [e.split]
    simp [ha]

namespace Sample

/-- A method with parameters, a constant, a local, a name without a declaration and two words for
values. -/
def crowded : String :=
  "class A\x7bint f;void Main(int a,ref char b)\x7bconst int k=1;int x;x=a+y*2;\x7d\x7d"

def crowdedActions : List Action := (Grammar.parse (Scanner.ofString crowded).scan).1

/-- The method is still the record inserted last when its class is closed. -/
def vacant : String := "class A\x7bvoid Main()\x7b\x7d\x7d"

def vacantActions : List Action := (Grammar.parse (Scanner.ofString vacant).scan).1

def openA : Action := .openClass 1 "A"

def openMain : Action := .openMethod 1 "Main" .void

end Sample

open Sample in
theorem child_summaries_crowded :
    (∃ c, compile crowded = .ok c ∧
      (∃ r, c.symbols.get? 0 = some r ∧ r.name = "A" ∧ r.children = "\n => int f\n => Main\n") ∧
      ∃ r, c.symbols.get? 2 = some r ∧ r.name = "Main" ∧
        r.children = "\n => int a\n => ref char b\n => int k\n => int x\n => y\n" ++
          " => int _BP-6\n => int _BP-8\n") ∧
    ∃ c r, compile vacant = .ok c ∧ c.symbols.get? 1 = some r ∧ r.name = "Main" ∧
      r.children = "\n" := by
  have hclass : openA ∈ crowdedActions ∧ .closeClass ∈ openA.behind crowdedActions ∧
      (State.initial.run (openA.before crowdedActions)).1.symbols.nextId = 0 ∧
      listing ((entriesIn .members (openA.before crowdedActions ++ [openA])
        (Action.closeClass.before (openA.behind crowdedActions))).map childLine) =
          "\n => int f\n => Main\n" := by decide +kernel
  have hmethod : openMain ∈ crowdedActions ∧ .closeMethod ∈ openMain.behind crowdedActions ∧
      (State.initial.run (openMain.before crowdedActions)).1.symbols.nextId = 2 ∧
      listing ((entriesIn .method (openMain.before crowdedActions ++ [openMain])
        (Action.closeMethod.before (openMain.behind crowdedActions))).map childLine) =
          "\n => int a\n => ref char b\n => int k\n => int x\n => y\n" ++
            " => int _BP-6\n => int _BP-8\n" := by decide +kernel
  have hvacant : openMain ∈ vacantActions ∧ .closeMethod ∈ openMain.behind vacantActions ∧
      (State.initial.run (openMain.before vacantActions)).1.symbols.nextId = 1 ∧
      listing ((entriesIn .method (openMain.before vacantActions ++ [openMain])
        (Action.closeMethod.before (openMain.behind vacantActions))).map childLine) = "\n" := by
    decide +kernel
  have hwarned : (compile crowded).toOption.map (fun c => c.warnings) = some [⟨1, "y"⟩] := by
    decide +kernel
  have hquiet : (compile vacant).toOption.map (fun c => c.warnings) = some [] := by decide +kernel
  constructor
  · obtain ⟨c, hc, -⟩ := exists_of_map_compile hwarned
    obtain ⟨-, hall⟩ := child_summaries hc
    obtain ⟨hmet, hclosed, hid, hlisting⟩ := hclass
    obtain ⟨⟨q, hq, hname, -, hchildren⟩, -⟩ := hall (.ofHeading openA .members rfl hmet hclosed)
    replace hq := (congrArg _ hid.symm).trans hq
    replace hchildren := hchildren.trans hlisting
    obtain ⟨hmet, hclosed, hid, hlisting⟩ := hmethod
    obtain ⟨⟨r, hr, hname', -, hchildren'⟩, -⟩ :=
      hall (.ofHeading openMain .method rfl hmet hclosed)
    exact ⟨c, hc, ⟨q, hq, (Option.some.inj hname).symm, hchildren⟩, r,
      (congrArg _ hid.symm).trans hr, (Option.some.inj hname').symm, hchildren'.trans hlisting⟩
  · obtain ⟨c, hc, -⟩ := exists_of_map_compile hquiet
    obtain ⟨hmet, hclosed, hid, hlisting⟩ := hvacant
    obtain ⟨⟨r, hr, hname, -, hchildren⟩, -⟩ :=
      (child_summaries hc).2 (.ofHeading openMain .method rfl hmet hclosed)
    exact ⟨c, r, hc, (congrArg _ hid.symm).trans hr, (Option.some.inj hname).symm,
      hchildren.trans hlisting⟩

end Triad
