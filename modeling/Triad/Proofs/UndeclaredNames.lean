import Triad.Proofs.Consumption
import Triad.Proofs.FaultCauses
import Triad.Proofs.Placeholders

/-!
Names that are used without a declaration. Where the value or the place of such a name is asked for,
the name is warned of and gets a placeholder, and the open method knows it from there on; where it
is read or written, the reading stops. Main statement: `undeclared_names_recovered`.
-/

namespace Triad

/-! ## Uses of names -/

def Action.endsMethod : Action → Bool
  | closeMethod => true
  | _ => false

/-- A use of a name in a text: as a value, as a destination, to be read or to be written. -/
structure Use where
  /-- What the text calls for before it. -/
  before : List Action
  action : Action
  line : Nat
  name : String

namespace Use

/-- The method that a use is in, told by how many methods end before it. -/
def method (u : Use) : Nat := u.before.countP Action.endsMethod

/-- The state in which a use is met. -/
def state (u : Use) : State := (State.initial.run u.before).1

/-- All that comes before the use succeeds. -/
def Reached (u : Use) : Prop := (State.initial.run u.before).2 = none

def isUnknown (u : Use) : Bool := (u.state.symbols.lookup u.name).isNone

/-- Whether a name without a record is used as a value or as a destination. -/
def isRecovered (u : Use) : Bool := u.action.mentioned?.isSome && u.isUnknown

def warning (u : Use) : Warning := ⟨u.line, u.name⟩

/-- The use that an action is behind others. -/
def at? (done : List Action) (a : Action) : Option Use :=
  a.use?.map fun place => ⟨done, a, place.1, place.2⟩

end Use

/-- The uses among the actions that follow others. -/
def usesFrom (done : List Action) : List Action → List Use
  | [] => []
  | a :: rest => (Use.at? done a).toList ++ usesFrom (done ++ [a]) rest

def uses (actions : List Action) : List Use := usesFrom [] actions

/-- The uses of names in a text, in its order. -/
def usesOf (source : String) : List Use := uses (Grammar.parse (Scanner.ofString source).scan).1

theorem usesFrom_append (done front back : List Action) :
    usesFrom done (front ++ back) = usesFrom done front ++ usesFrom (done ++ front) back := by
  induction front generalizing done with
  | nil => simp [usesFrom]
  | cons a front ih => simp [usesFrom, ih]

theorem uses_snoc (done : List Action) (a : Action) :
    uses (done ++ [a]) = uses done ++ (Use.at? done a).toList := by
  rw [uses, usesFrom_append]
  simp [uses, usesFrom]

theorem Use.at?_eq_some_iff {done : List Action} {a : Action} {u : Use} :
    Use.at? done a = some u ↔
      u.before = done ∧ u.action = a ∧ a.use? = some (u.line, u.name) := by
  obtain ⟨before, action, line, name⟩ := u
  simp only [Use.at?, Option.map_eq_some_iff, Use.mk.injEq]
  constructor
  · rintro ⟨place, hplace, rfl, rfl, rfl, rfl⟩
    exact ⟨rfl, rfl, hplace⟩
  · rintro ⟨rfl, rfl, huse⟩
    exact ⟨_, huse, rfl, rfl, rfl, rfl⟩

theorem mem_usesFrom {done actions : List Action} {u : Use} :
    u ∈ usesFrom done actions ↔ u.action.use? = some (u.line, u.name) ∧
      ∃ front rest, actions = front ++ u.action :: rest ∧ u.before = done ++ front := by
  induction actions generalizing done with
  | nil => simp [usesFrom]
  | cons a actions ih =>
    rw [usesFrom, List.mem_append, Option.mem_toList, Use.at?_eq_some_iff, ih]
    constructor
    · rintro (⟨hbefore, rfl, huse⟩ | ⟨huse, front, rest, rfl, hbefore⟩)
      · exact ⟨huse, [], actions, rfl, by rw [hbefore, List.append_nil]⟩
      · exact ⟨huse, a :: front, rest, rfl, by rw [hbefore, List.append_assoc]; rfl⟩
    · rintro ⟨huse, front, rest, hsplit, hbefore⟩
      cases front with
      | nil =>
        cases hsplit
        exact .inl ⟨by rw [hbefore, List.append_nil], rfl, huse⟩
      | cons b front =>
        cases hsplit
        exact .inr ⟨huse, front, rest, rfl, by rw [hbefore, List.append_assoc]; rfl⟩

theorem mem_uses {actions : List Action} {u : Use} :
    u ∈ uses actions ↔ u.action.use? = some (u.line, u.name) ∧
      ∃ rest, actions = u.before ++ u.action :: rest := by
  rw [uses, mem_usesFrom]
  refine and_congr_right fun _ => ?_
  constructor
  · rintro ⟨front, rest, hsplit, hbefore⟩
    exact ⟨rest, by rw [hbefore]; exact hsplit⟩
  · rintro ⟨rest, hsplit⟩
    exact ⟨u.before, rest, hsplit, rfl⟩

/-- Uses are listed in the order of the text. -/
theorem pairwise_usesFrom (done actions : List Action) :
    (usesFrom done actions).Pairwise fun u v => u.before.length < v.before.length := by
  induction actions generalizing done with
  | nil => exact .nil
  | cons a actions ih =>
    refine List.pairwise_append.mpr ⟨?_, ih _, fun u hu v hv => ?_⟩
    · cases Use.at? done a <;> simp
    · obtain ⟨rfl, -⟩ := Use.at?_eq_some_iff.mp (Option.mem_toList.mp hu)
      obtain ⟨-, front, rest, -, hbefore⟩ := mem_usesFrom.mp hv
      rw [hbefore]
      simp

theorem Use.eq_of_before {actions : List Action} {u v : Use} (hu : u ∈ uses actions)
    (hv : v ∈ uses actions) (h : v.before = u.before) : v = u := by
  obtain ⟨huse, rest, hsplit⟩ := mem_uses.mp hu
  obtain ⟨huse', rest', hsplit'⟩ := mem_uses.mp hv
  rw [hsplit, h] at hsplit'
  obtain ⟨haction, -⟩ := List.cons.inj (List.append_cancel_left hsplit')
  rw [haction, huse'] at huse
  obtain ⟨before, action, line, name⟩ := u
  obtain ⟨before', action', line', name'⟩ := v
  cases h
  cases haction
  cases huse
  rfl

/-- Of two uses in a text, one comes first unless they are the same. -/
theorem Use.cases {actions : List Action} {u v : Use} (hu : u ∈ uses actions)
    (hv : v ∈ uses actions) : v = u ∨ (∃ between, v.before = u.before ++ u.action :: between) ∨
      ∃ between, u.before = v.before ++ v.action :: between := by
  obtain ⟨-, rest, hsplit⟩ := mem_uses.mp hu
  obtain ⟨-, rest', hsplit'⟩ := mem_uses.mp hv
  rw [hsplit] at hsplit'
  rcases List.append_eq_append_iff.mp hsplit' with ⟨more, hbefore, hrest⟩ | ⟨more, hbefore, hrest⟩
  · cases more with
    | nil => exact .inl (Use.eq_of_before hu hv (hbefore.trans (List.append_nil _)))
    | cons b between =>
      obtain ⟨rfl, -⟩ := List.cons.inj hrest
      exact .inr (.inl ⟨between, hbefore⟩)
  · cases more with
    | nil => exact .inl (Use.eq_of_before hu hv (hbefore.trans (List.append_nil _)).symm)
    | cons b between =>
      obtain ⟨rfl, -⟩ := List.cons.inj hrest
      exact .inr (.inr ⟨between, hbefore⟩)

/-! ## Warnings -/

section Warnings

variable {s t : State} {a : Action} {done : List Action}

theorem State.warnings_resolve {line : Nat} {name : String} {found : SymbolId × State}
    (h : s.resolve line name = .ok found) :
    found.2.warnings.toList =
      s.warnings.toList ++ if (s.symbols.lookup name).isNone then [⟨line, name⟩] else [] := by
  rcases (margin_resolve h).2.2 with ⟨hsame, hfound⟩ | hwarned
  · simp [hsame, hfound]
  · simp [hwarned.warnings, hwarned.unknown]

/-- A value and a destination are found or get a placeholder, and are put down. -/
theorem State.resolved_of_apply {name : String} (hmention : a.mentioned? = some name)
    (h : a.apply s = .ok t) : ∃ line found o, a.use? = some (line, name) ∧
      s.resolve line name = .ok found ∧ found.2.operandOf found.1 = .ok o ∧
      t = found.2.pushOperand o := by
  cases outcome_of_ok h with
  | loaded resolved refers =>
    cases hmention
    exact ⟨_, _, _, rfl, resolved, refers, rfl⟩
  | targeted resolved _ _ refers =>
    cases hmention
    exact ⟨_, _, _, rfl, resolved, refers, rfl⟩
  | _ => cases hmention

/-- Only values and destinations are warned of. -/
theorem State.warnings_of_apply (hnone : a.mentioned? = none) (h : a.apply s = .ok t) :
    t.warnings = s.warnings := by
  cases hcode : a.isCode with
  | false => exact congrArg Prod.snd (tally_apply hcode h)
  | true =>
    cases coded_of_apply hcode h with
    | named _ _ _ _ mentions => cases hnone.symm.trans mentions
    | @computed rest => exact congrArg (·.1.2) (margin_newTemp { s with operands := rest })
    | emitted _ _ warnings => exact warnings
    | pushed | still => rfl

/-- What an action warns of is the use that it is. -/
theorem warnings_step (hdone : State.initial.run done = (s, none)) (h : a.apply s = .ok t) :
    t.warnings.toList = s.warnings.toList ++
      ((Use.at? done a).toList.filter Use.isRecovered).map Use.warning := by
  have hlisted : ∀ line name, a.use? = some (line, name) → a.mentioned?.isSome = true →
      ((Use.at? done a).toList.filter Use.isRecovered).map Use.warning =
        if (s.symbols.lookup name).isNone then [⟨line, name⟩] else [] := by
    intro line name huse hmention
    have hat : Use.at? done a = some ⟨done, a, line, name⟩ :=
      Use.at?_eq_some_iff.mpr ⟨rfl, rfl, huse⟩
    simp only [hat, Option.toList_some, List.filter_singleton, Use.isRecovered, hmention,
      Use.isUnknown, Use.state, hdone, Bool.true_and]
    cases (s.symbols.lookup name).isNone <;> rfl
  cases hmention : a.mentioned? with
  | none =>
    have hnone : (Use.at? done a).toList.filter Use.isRecovered = [] := by
      refine List.filter_eq_nil_iff.mpr fun u hu => ?_
      obtain ⟨-, haction, -⟩ := Use.at?_eq_some_iff.mp (Option.mem_toList.mp hu)
      simp [Use.isRecovered, haction, hmention]
    rw [State.warnings_of_apply hmention h, hnone]
    simp
  | some name =>
    obtain ⟨line, found, o, huse, hfound, -, rfl⟩ := State.resolved_of_apply hmention h
    rw [hlisted line name huse (by rw [hmention]; rfl)]
    exact State.warnings_resolve hfound

/-- The warnings of a run are those of its uses, in their order. -/
theorem warnings_run {actions : List Action} (hdone : State.initial.run done = (s, none))
    (hrun : s.run actions = (t, none)) :
    t.warnings.toList = s.warnings.toList ++
      ((usesFrom done actions).filter Use.isRecovered).map Use.warning := by
  induction actions generalizing done s with
  | nil =>
    cases hrun
    simp [usesFrom]
  | cons a actions ih =>
    obtain ⟨u, happly, hu⟩ := State.run_cons_eq_none.mp hrun
    have hnext : State.initial.run (done ++ [a]) = (u, none) :=
      State.run_append_eq_none.mpr ⟨s, hdone, State.run_cons_eq_none.mpr ⟨u, happly, rfl⟩⟩
    rw [ih hnext hu, warnings_step hdone happly, usesFrom, List.filter_append, List.map_append,
      List.append_assoc]

end Warnings

/-! ## Names that have a record -/

/-- The name is found, and its record is the given one but for sizes. -/
def State.Knows (s : State) (name : String) (id : SymbolId) (r : Symbol) : Prop :=
  s.symbols.lookup name = some id ∧ ∃ q, s.symbols.get? id = some q ∧ q.outline = r.outline

section Known

variable {s t : State} {a : Action} {name : String} {id : SymbolId} {r : Symbol} {line : Nat}

theorem State.Knows.evolve {depth : Nat} (h : s.Knows name id r)
    (hevolves : s.symbols.Evolves depth t.symbols)
    (hlookup : t.symbols.lookup name = s.symbols.lookup name) : t.Knows name id r := by
  obtain ⟨hfound, q, hq, hout⟩ := h
  obtain ⟨q', hq', hout'⟩ := hevolves.get? hq
  exact ⟨hlookup.trans hfound, q', hq', hout'.trans hout⟩

/-- Code keeps what the open method knows. -/
theorem State.Knows.coded (hs : Stands .body s) (hcode : a.isCode = true)
    (happly : a.apply s = .ok t) (hword : IsWord name) (h : s.Knows name id r) :
    t.Knows name id r := by
  rcases (State.coded_of_apply hcode happly).warnings_cases with
    ⟨-, hsame | hnew⟩ | ⟨line, other, hwarned⟩
  · rw [State.Knows, hsame]
    exact h
  · refine h.evolve (hnew ▸ s.grows_newTemp.evolves) ?_
    rw [hnew]
    exact State.lookup_newTemp hs.fits.chained hword
  · have hgrows := s.grows_enroll other .placeholder
    rw [← hwarned.symbols] at hgrows
    refine h.evolve hgrows.evolves (hgrows.lookup_of_ne hs.fits.chained ?_)
    rintro rfl
    cases hwarned.unknown.symm.trans h.1

/-- Only the end of its method ends the code. -/
theorem Stage.eq_code_of_next? {τ : Stage} (hnext : Stage.code.next? a = some τ)
    (hopen : a.endsMethod = false) : τ = .code := by
  cases a <;> first
    | exact Bool.noConfusion hopen
    | exact (Option.some.inj hnext).symm
    | cases hnext

/-- So does all that may come before the method ends. -/
theorem State.Knows.step {τ : Stage} (hs : Stands .body s) (hnext : Stage.code.next? a = some τ)
    (hopen : a.endsMethod = false) (happly : a.apply s = .ok t) (hword : IsWord name)
    (h : s.Knows name id r) : t.Knows name id r := by
  cases hcode : a.isCode with
  | true => exact h.coded hs hcode happly hword
  | false =>
    cases a with
    | scan item =>
      cases happly
      rw [State.noteAll_eq]
      exact h
    | sizeFrame =>
      have hwithin := within_sizeFrame (outcome_of_ok happly)
      refine h.evolve hwithin.symbols (hwithin.symbols.lookup_eq hs.fits.chained ?_)
      intro i q hge hq
      have hlt := SymbolTable.get?_lt hq
      rw [nextId_sizeFrame happly] at hlt
      exact absurd hlt (Nat.not_lt_of_le hge)
    | closeMethod => cases hopen
    | _ => first | exact Bool.noConfusion hcode | cases hnext

theorem State.Knows.run {τ : Stage} {actions : List Action}
    (hordered : Stage.Ordered .code actions τ) (hs : Stands .body s)
    (hopen : ∀ a ∈ actions, a.endsMethod = false) (hword : IsWord name) (h : s.Knows name id r)
    (hrun : s.run actions = (t, none)) : t.Knows name id r :=
  (hordered.state_induction (P := fun a => a.endsMethod = false)
    (I := fun _ σ u => σ = .code ∧ u.Knows name id r)
    (fun _ _ hfalse => absurd hfalse.1 (by simp)) (fun _ _ hknown => ⟨rfl, hknown.2⟩)
    (by
      rintro _ σ a τ u v ha hu ⟨rfl, hknown⟩ hnext happly
      exact ⟨Stage.eq_code_of_next? hnext ha, hknown.step hu hnext ha happly hword⟩)
    hopen [] hs ⟨rfl, h⟩ hrun).2

theorem State.knows_of_lookup (hs : s.symbols.Chained) (h : s.symbols.lookup name = some id) :
    ∃ r, s.Knows name id r := by
  obtain ⟨r, hr⟩ := exists_get?_of_lookup hs h
  exact ⟨r, h, r, hr, rfl⟩

/-- A name without a record gets the next one. -/
theorem State.knows_of_unknown {found : SymbolId × State} (hs : s.symbols.Chained)
    (hunknown : s.symbols.lookup name = none) (hfound : s.resolve line name = .ok found) :
    found.1 = s.symbols.nextId ∧ found.2.Knows name s.symbols.nextId
      (s.recordOf name .placeholder) := by
  rcases resolve_cases hfound with ⟨-, hknown⟩ | ⟨-, hid, hsymbols, -⟩
  · cases hunknown.symm.trans hknown
  · have hgrows := s.grows_enroll name .placeholder
    rw [← hsymbols] at hgrows
    exact ⟨hid, hgrows.lookup_new hs, hgrows.new⟩

/-- A name that is used has a record behind its use. -/
theorem State.exists_knows (hs : s.symbols.Chained) (huse : a.use? = some (line, name))
    (happly : a.apply s = .ok t) : ∃ id r, t.Knows name id r := by
  cases hmention : a.mentioned? with
  | some name' =>
    obtain ⟨line', found, o, huse', hfound, -, rfl⟩ := resolved_of_apply hmention happly
    cases huse.symm.trans huse'
    cases hlookup : s.symbols.lookup name with
    | none => exact ⟨_, _, (knows_of_unknown hs hlookup hfound).2⟩
    | some id =>
      obtain ⟨r, hr⟩ := knows_of_lookup hs hlookup
      rcases resolve_cases hfound with ⟨hsame, -⟩ | ⟨hunknown, -⟩
      · exact ⟨id, r, hsame ▸ hr⟩
      · cases hlookup.symm.trans hunknown
  | none =>
    cases outcome_of_ok happly with
    | read found =>
      cases huse
      exact ⟨_, knows_of_lookup hs found⟩
    | wroteName found =>
      cases huse
      exact ⟨_, knows_of_lookup hs found⟩
    | loaded | targeted => cases hmention
    | _ => cases huse

/-! ## Placeholders in use -/

/-- What the use of a name does with the place of the name. -/
def Action.refer (s : State) (o : Operand) : Action → State
  | read _ _ => s.emit (.readInt o)
  | writeName _ _ => s.emit (.writeInt o)
  | _ => s.pushOperand o

theorem Symbol.placeholder_of_outline {q r : Symbol} (h : q.outline = r.outline)
    (hentity : r.entity = .placeholder) : q.entity = .placeholder := by
  have houtline : q.entity.outline = r.entity.outline := congrArg Symbol.entity h
  rw [hentity] at houtline
  cases hq : q.entity <;> rw [hq] at houtline <;> first | rfl | cases houtline

/-- A placeholder is referred to by its slot. -/
theorem State.Knows.operandOf_eq (h : s.Knows name id r) (hentity : r.entity = .placeholder)
    (hdepth : r.depth = 2) : s.operandOf id = .ok (.frame r.offset) ∧
      ∃ q, s.symbols.fetch id = .ok q ∧ q.entity.isConst = false := by
  obtain ⟨-, q, hq, hout⟩ := h
  have hplaceholder := Symbol.placeholder_of_outline hout hentity
  have hfetch := fetch_eq_ok hq
  have hdeep : q.depth = 2 := (Symbol.depth_of_outline hout).trans hdepth
  refine ⟨?_, q, hfetch, by rw [hplaceholder]; rfl⟩
  simp [State.operandOf, hfetch, Symbol.constantValue?, hplaceholder, hdeep,
    Symbol.offset_of_outline hout, Bind.bind, Except.bind, pure, Except.pure]

theorem State.apply_of_resolved {found : SymbolId × State} {o : Operand} {q : Symbol}
    (hmention : a.mentioned?.isSome = true) (huse : a.use? = some (line, name))
    (hfound : s.resolve line name = .ok found) (hoperand : found.2.operandOf found.1 = .ok o)
    (hfetch : found.2.symbols.fetch found.1 = .ok q) (hvar : q.entity.isConst = false) :
    a.apply s = .ok (found.2.pushOperand o) := by
  cases a with
  | load line' name' =>
    cases huse
    simp [Action.apply, hfound, hoperand, Bind.bind, Except.bind, pure, Except.pure]
  | target line' name' =>
    cases huse
    simp [Action.apply, hfound, hoperand, hfetch, hvar, Bind.bind, Except.bind, pure, Except.pure]
  | _ => cases hmention

/-- Every use of a placeholder succeeds, and refers to its slot. -/
theorem State.Knows.apply_eq (h : s.Knows name id r) (hentity : r.entity = .placeholder)
    (hdepth : r.depth = 2) (huse : a.use? = some (line, name)) :
    a.apply s = .ok (a.refer s (.frame r.offset)) := by
  obtain ⟨hoperand, q, hfetch, hvar⟩ := h.operandOf_eq hentity hdepth
  have hresolve : ∀ line, s.resolve line name = .ok (id, s) := by
    intro line
    rw [State.resolve, h.1]
  have htarget : ∀ line access, s.resolveTarget line access name = .ok id := by
    intro line access
    rw [State.resolveTarget, h.1]
  cases a <;> cases huse <;>
    simp [Action.apply, hresolve, htarget, hfetch, hvar, hoperand, Action.refer, Bind.bind,
      Except.bind, pure, Except.pure]

end Known

/-! ## Uses in a text -/

section Text

variable {source : String} {u v : Use} {between : List Action}

theorem Action.isCode_of_use? {a : Action} {place : Nat × String} (h : a.use? = some place) :
    a.isCode = true := by
  cases a <;> first | rfl | cases h

theorem Action.isWord_of_use? {a : Action} {line : Nat} {name : String} (ha : a.IsSpelled)
    (h : a.use? = some (line, name)) : IsWord name := by
  cases a <;> cases h <;> exact ha

theorem Use.Reached.run_eq (h : u.Reached) : State.initial.run u.before = (u.state, none) :=
  State.run_eq_of_none h

/-- A use stands in the code of a body. -/
theorem Use.stands (hu : u ∈ usesOf source)
    (hreached : u.Reached) : Stands .body u.state ∧ IsWord u.name ∧
      ∃ rest τ, (Grammar.parse (Scanner.ofString source).scan).1 = u.before ++ u.action :: rest ∧
        Stage.Ordered .code rest τ := by
  obtain ⟨huse, rest, hsplit⟩ := mem_uses.mp hu
  obtain ⟨τ, hordered⟩ := Grammar.exists_ordered (Scanner.ofString source).scan
  rw [hsplit] at hordered
  obtain ⟨σ, hdone, hlater⟩ := hordered.split
  obtain ⟨hσ, hrest⟩ := hlater.code_of_cons (Action.isCode_of_use? huse)
  have hstands : Stands σ.phase u.state := stands_run hdone.legal stands_initial hreached.run_eq
  have hspelled : u.action.IsSpelled := Grammar.spelled_parse source _ (by rw [hsplit]; simp)
  refine ⟨?_, Action.isWord_of_use? hspelled huse, rest, τ, hsplit, hrest⟩
  rcases hσ with rfl | rfl <;> exact hstands

/-- Between two uses in a method, the method keeps what it knows behind the first one. -/
theorem Use.exists_between (hu : u ∈ usesOf source)
    (hv : v ∈ usesOf source) (hreached : v.Reached)
    (hbefore : v.before = u.before ++ u.action :: between) (hmethod : v.method = u.method) :
    u.Reached ∧ ∃ t, u.action.apply u.state = .ok t ∧
      ∀ name id r, IsWord name → t.Knows name id r → v.state.Knows name id r := by
  have hrun := hreached.run_eq
  rw [hbefore] at hrun
  obtain ⟨s, hs, hrun⟩ := State.run_append_eq_none.mp hrun
  obtain ⟨t, happly, hlater⟩ := State.run_cons_eq_none.mp hrun
  have hstate : u.state = s := by rw [Use.state, hs]
  have hfirst : u.Reached := by rw [Use.Reached, hs]
  subst hstate
  obtain ⟨hstands, -, rest, τ, hsplit, hordered⟩ := Use.stands hu hfirst
  obtain ⟨-, rest', hsplit'⟩ := mem_uses.mp hv
  have hrest : rest = between ++ v.action :: rest' := by
    rw [hsplit, hbefore, List.append_assoc] at hsplit'
    exact (List.cons.inj (List.append_cancel_left hsplit')).2
  rw [hrest] at hordered
  obtain ⟨χ, hbetween, -⟩ := hordered.split
  obtain ⟨huse, -⟩ := mem_uses.mp hu
  have hopen : ∀ a ∈ between, a.endsMethod = false := by
    rw [Use.method, Use.method, hbefore, List.countP_append] at hmethod
    have hnone : (u.action :: between).countP Action.endsMethod = 0 := by omega
    intro a ha
    have hnot := List.countP_eq_zero.mp hnone a (List.mem_cons_of_mem _ ha)
    simpa using hnot
  have hnext : Phase.body.next? u.action = some .body := by
    cases haction : u.action <;> rw [haction] at huse <;> first | rfl | cases huse
  refine ⟨hfirst, t, happly, fun name id r hword hknows => ?_⟩
  exact hknows.run hbetween (stands_apply hstands hnext happly) hopen hword hlater

/-- A name that was used in a method before has a record. -/
theorem Use.known_of_earlier (hu : u ∈ usesOf source)
    (hv : v ∈ usesOf source) (hreached : v.Reached)
    (hbefore : v.before = u.before ++ u.action :: between) (hmethod : v.method = u.method)
    (hname : v.name = u.name) : v.isUnknown = false := by
  obtain ⟨hfirst, t, happly, hkept⟩ := Use.exists_between hu hv hreached hbefore hmethod
  obtain ⟨hstands, hword, -⟩ := Use.stands hu hfirst
  obtain ⟨id, r, hknows⟩ := State.exists_knows hstands.fits.chained (mem_uses.mp hu).1 happly
  rw [Use.isUnknown, hname, (hkept u.name id r hword hknows).1]
  rfl

/-- The use gives its name a slot, and warns of it. -/
def Use.Recovers (u : Use) (offset : Int) : Prop :=
  ∃ t : State, u.action.apply u.state = .ok (t.pushOperand (.frame offset)) ∧
    t.operands = u.state.operands ∧ t.warnings = u.state.warnings.push u.warning

/-- A name that is used without a record gets a slot, and all other uses in the method come later
and refer to the slot. -/
theorem Use.exists_slot (hu : u ∈ usesOf source)
    (hreached : u.Reached) (hrecovered : u.isRecovered = true) :
    ∃ offset, u.Recovers offset ∧
      ∀ v ∈ usesOf source, v.Reached →
        v.method = u.method → v.name = u.name →
          v = u ∨ u.before.length < v.before.length ∧
            v.action.apply v.state = .ok (v.action.refer v.state (.frame offset)) := by
  obtain ⟨hstands, hword, -⟩ := Use.stands hu hreached
  obtain ⟨huse, -⟩ := mem_uses.mp hu
  obtain ⟨hmention, hunknown⟩ := Bool.and_eq_true_iff.mp hrecovered
  obtain ⟨found, hfound⟩ := u.state.exists_resolve u.line u.name
  obtain ⟨hid, hknows⟩ :=
    State.knows_of_unknown hstands.fits.chained (Option.isNone_iff_eq_none.mp hunknown) hfound
  have hdepth : (u.state.recordOf u.name .placeholder).depth = 2 := hstands.fits.depth
  obtain ⟨hoperand, q, hfetch, hvar⟩ := hknows.operandOf_eq rfl hdepth
  rw [← hid] at hoperand hfetch
  have happly := State.apply_of_resolved hmention huse hfound hoperand hfetch hvar
  refine ⟨_, ⟨found.2, happly, (State.margin_resolve hfound).1, ?_⟩,
    fun v hv hv' hmethod hname => ?_⟩
  · rcases (State.margin_resolve hfound).2.2 with ⟨-, hknown⟩ | hwarned
    · rw [Option.isNone_iff_eq_none.mp hunknown] at hknown
      cases hknown
    · exact hwarned.warnings
  · rcases Use.cases hu hv with heq | ⟨between, hbefore⟩ | ⟨between, hbefore⟩
    · exact .inl heq
    · obtain ⟨-, t, happly', hkept⟩ := Use.exists_between hu hv hv' hbefore hmethod
      cases happly.symm.trans happly'
      have hlater := hkept u.name _ _ hword hknows
      have huse' : v.action.use? = some (v.line, u.name) := hname ▸ (mem_uses.mp hv).1
      exact .inr ⟨by rw [hbefore]; simp, hlater.apply_eq rfl hdepth huse'⟩
    · have hknown := Use.known_of_earlier hv hu hreached hbefore hmethod.symm hname.symm
      rw [hunknown] at hknown
      cases hknown

/-- No name is recovered twice in a method. -/
theorem Use.nodup_recovered (hall : ∀ u ∈ usesOf source, u.Reached) :
    (((usesOf source).filter Use.isRecovered).map fun u => (u.method, u.name)).Nodup := by
  have hordered := (pairwise_usesFrom [] (Grammar.parse (Scanner.ofString source).scan).1).filter
    Use.isRecovered
  refine List.pairwise_map.mpr (hordered.imp_of_mem fun {u v} hu hv hlt heq => ?_)
  obtain ⟨hu, -⟩ := List.mem_filter.mp hu
  obtain ⟨hv, hrecovered⟩ := List.mem_filter.mp hv
  obtain ⟨hmethod, hname⟩ := Prod.mk.inj heq
  rcases Use.cases hu hv with rfl | ⟨between, hbefore⟩ | ⟨between, hbefore⟩
  · exact Nat.lt_irrefl _ hlt
  · have hknown := Use.known_of_earlier hu hv (hall v hv) hbefore hmethod.symm hname.symm
    rw [(Bool.and_eq_true_iff.mp hrecovered).2] at hknown
    cases hknown
  · have hle : v.before.length ≤ u.before.length := by
      rw [hbefore, List.length_append]
      exact Nat.le_add_right _ _
    exact absurd hlt (Nat.not_lt_of_le hle)

/-- The reading of an accepted text comes to its end, and the compilation has its warnings and its
records. -/
theorem exists_run_of_ok {c : Compilation} (h : compile source = .ok c) :
    ∃ s, State.initial.run (Grammar.parse (Scanner.ofString source).scan).1 = (s, none) ∧
      c.warnings = s.warnings.toList ∧ c.symbols = s.symbols := by
  obtain ⟨hparse, hnone⟩ := completes_of_readsThrough (.inl ⟨c, h⟩)
  refine ⟨_, State.run_eq_of_none hnone, ?_⟩
  rw [compile_eq] at h
  dsimp only at h
  rw [hnone, hparse] at h
  dsimp only at h
  unfold State.finish at h
  split at h <;> cases h
  exact ⟨rfl, rfl⟩

end Text

/-- In an accepted text, the warnings are those for the uses of a name as a value or a destination
where the name has no record, in the order of the text, one for each method and name. Such a use
gives the name a slot; all other uses of it in the method come later, and refer to the slot without
a warning or a fault. A text is refused for an undeclared target just if a name that it reads or
writes has no record at that moment. -/
theorem undeclared_names_recovered (source : String) :
    (∀ c, compile source = .ok c → (∀ u ∈ usesOf source, u.Reached) ∧
      c.warnings = ((usesOf source).filter Use.isRecovered).map Use.warning ∧
      (((usesOf source).filter Use.isRecovered).map fun u => (u.method, u.name)).Nodup) ∧
    (∀ u ∈ usesOf source, u.Reached → u.isRecovered = true → ∃ offset, u.Recovers offset ∧
      ∀ v ∈ usesOf source, v.Reached → v.method = u.method → v.name = u.name →
        v = u ∨ u.before.length < v.before.length ∧
          v.action.apply v.state = .ok (v.action.refer v.state (.frame offset))) ∧
    ∀ line access name, compile source = .error (.undeclaredTarget line access name) ↔
      ∃ u ∈ usesOf source, u.Reached ∧ u.isUnknown = true ∧ u.line = line ∧ u.name = name ∧
        u.action.access? = some access := by
  refine ⟨fun c hc => ?_, fun u hu => Use.exists_slot hu, fun line access name => ?_⟩
  · obtain ⟨s, hrun, hwarnings, -⟩ := exists_run_of_ok hc
    have hall : ∀ u ∈ usesOf source, u.Reached := by
      intro u hu
      obtain ⟨-, rest, hsplit⟩ := mem_uses.mp hu
      rw [hsplit] at hrun
      obtain ⟨t, ht, -⟩ := State.run_append_eq_none.mp hrun
      rw [Use.Reached, ht]
    refine ⟨hall, ?_, Use.nodup_recovered hall⟩
    have hstart : State.initial.run [] = (State.initial, none) := rfl
    rw [hwarnings, warnings_run hstart hrun]
    rfl
  · rw [compile_eq_error_iff rfl]
    constructor
    · rintro ⟨done, a, rest, s, hsplit, hdone, ha⟩
      obtain ⟨haccess, huse, hunknown⟩ := Action.apply_eq_undeclaredTarget_iff.mp ha
      refine ⟨⟨done, a, line, name⟩, mem_uses.mpr ⟨huse, rest, hsplit⟩, ?_, ?_, rfl, rfl, haccess⟩
      · rw [Use.Reached, hdone]
      · rw [Use.isUnknown, Use.state, hdone, hunknown]
        rfl
    · rintro ⟨u, hu, hreached, hunknown, rfl, rfl, haccess⟩
      obtain ⟨huse, rest, hsplit⟩ := mem_uses.mp hu
      refine ⟨u.before, u.action, rest, u.state, hsplit, hreached.run_eq, ?_⟩
      exact Action.apply_eq_undeclaredTarget_iff.mpr
        ⟨haccess, huse, Option.isNone_iff_eq_none.mp hunknown⟩

/-- Both methods use two names that have no declaration, the first one also to write. -/
def Sample.strayNames : String :=
  "class A\x7bvoid f()\x7ba=x;write(x);\x7dvoid Main()\x7ba=x;\x7d\x7d"

open Sample in
theorem undeclared_names_recovered_stray :
    ∃ c u v offset, compile strayNames = .ok c ∧
      c.warnings = [⟨1, "a"⟩, ⟨1, "x"⟩, ⟨1, "a"⟩, ⟨1, "x"⟩] ∧
      u ∈ usesOf strayNames ∧ v ∈ usesOf strayNames ∧ u.Reached ∧ v.Reached ∧
      u.isRecovered = true ∧ u.name = "x" ∧ v.name = "x" ∧ v.method = u.method ∧
      v.action.access? = some .write ∧ u.Recovers offset ∧
      v.action.apply v.state = .ok (v.action.refer v.state (.frame offset)) := by
  obtain ⟨hok, hslots, -⟩ := undeclared_names_recovered strayNames
  have hcompiled : (compile strayNames).toOption.map (fun c => c.warnings) =
      some [⟨1, "a"⟩, ⟨1, "x"⟩, ⟨1, "a"⟩, ⟨1, "x"⟩] := by
    decide +kernel
  obtain ⟨c, hc, hwarnings⟩ := exists_of_map_compile hcompiled
  obtain ⟨hreached, -, -⟩ := hok c hc
  have hfirst : ((usesOf strayNames)[1]?).map (fun u =>
      ((u.method, u.name), u.isRecovered, u.action.access?)) = some ((0, "x"), true, none) := by
    decide +kernel
  have hsecond : ((usesOf strayNames)[2]?).map (fun u =>
      ((u.method, u.name), u.action.access?)) = some ((0, "x"), some .write) := by
    decide +kernel
  obtain ⟨u, hu, hfirst⟩ := Option.map_eq_some_iff.mp hfirst
  obtain ⟨v, hv, hsecond⟩ := Option.map_eq_some_iff.mp hsecond
  simp only [Prod.mk.injEq] at hfirst hsecond
  obtain ⟨⟨hmethod, hname⟩, hrecovered, hvalue⟩ := hfirst
  obtain ⟨⟨hmethod', hname'⟩, haccess⟩ := hsecond
  have humem := List.mem_of_getElem? hu
  have hvmem := List.mem_of_getElem? hv
  obtain ⟨offset, hrecovers, hothers⟩ := hslots u humem (hreached u humem) hrecovered
  rcases hothers v hvmem (hreached v hvmem) (hmethod'.trans hmethod.symm)
    (hname'.trans hname.symm) with rfl | ⟨-, hrefers⟩
  · rw [hvalue] at haccess
    cases haccess
  · exact ⟨c, u, v, offset, hc, hwarnings, humem, hvmem, hreached u humem, hreached v hvmem,
      hrecovered, hname, hname', hmethod'.trans hmethod.symm, haccess, hrecovers, hrefers⟩

end Triad
