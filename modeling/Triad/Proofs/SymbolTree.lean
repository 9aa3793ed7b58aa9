import Triad.Proofs.ProgramActions
import Triad.Proofs.ProgramRun

/-!
The records that outlive the reading. They form a tree: the namespace, if there is one, owns the
classes, and each class owns its members. Main statement: `symbols_form_tree`, for the states on the
way and for the table of a compiled text.
-/

namespace Triad

open Syntax

/-! ## The root -/

/-- Whether the open scope is that of the namespace, or of the text itself. -/
def Phase.atRoot : Phase → Bool
  | preface | file | classHead => true
  | _ => false

/-- The only namespace is `space`, and it owns the classes; while no class is open, its scope is the
open one. -/
structure Rooted (space : Option SymbolId) (φ : Phase) (p : State.Spine) : Prop where
  live : ∀ k, space = some k → ∃ r, p.symbols.get? k = some r ∧ r.entity = .space
  only : ∀ id r, p.symbols.get? id = some r → r.entity = .space → space = some id
  classes : ∀ id r, p.symbols.get? id = some r → r.entity.isClass = true → r.owner = space
  parent : φ.atRoot = true → p.parent = space

theorem Rooted.same {space : Option SymbolId} {φ ψ : Phase} {p p' : State.Spine}
    (h : Rooted space φ p) (hsame : p.symbols.SameOuter p'.symbols)
    (hparent : ψ.atRoot = true → p'.parent = space) : Rooted space ψ p' where
  live := by
    intro k hk
    obtain ⟨r, hr, hspace⟩ := h.live k hk
    obtain ⟨r', hr', hout⟩ := hsame.get? k r hr (by rw [hspace]; rfl)
    exact ⟨r', hr', Symbol.space_of_outline hout hspace⟩
  only := by
    intro id r' hr' hspace
    obtain ⟨r, hr, hout⟩ := hsame.get?_old id r' hr' (by rw [hspace]; rfl)
    exact h.only id r hr (Symbol.space_of_outline hout hspace)
  classes := by
    intro id r' hr' hclass
    obtain ⟨r, hr, hout⟩ := hsame.get?_old id r' hr' (Entity.isInner_of_isClass hclass)
    rw [← Symbol.owner_of_outline hout]
    exact h.classes id r hr ((Symbol.isClass_of_outline hout).trans hclass)
  parent := hparent

/-- A new class or method in the open scope. -/
theorem Rooted.enroll {space : Option SymbolId} {φ ψ : Phase} {s : State} {p : State.Spine}
    (h : Rooted space φ s.spine) {name : String} {entity : Entity}
    (hsymbols : p.symbols = (s.enroll name entity).symbols) (hentity : entity ≠ .space)
    (howner : entity.isClass = true → s.parent = space)
    (hparent : ψ.atRoot = true → p.parent = space) : Rooted space ψ p := by
  refine ⟨?_, ?_, ?_, hparent⟩
  · intro k hk
    obtain ⟨r, hr, hspace⟩ := h.live k hk
    obtain ⟨r', hr', hout⟩ := (State.evolves_enroll s name entity).get? hr
    rw [hsymbols]
    exact ⟨r', hr', Symbol.space_of_outline hout hspace⟩
  · intro id r hr hspace
    rw [hsymbols] at hr
    rcases State.get?_enroll_cases hr with ⟨-, hout⟩ | ⟨q, hq, hout⟩
    · have hnew := Symbol.space_of_outline hout.symm hspace
      refine absurd ?_ hentity
      cases entity <;> first | rfl | cases hnew
    · exact h.only id q hq (Symbol.space_of_outline hout hspace)
  · intro id r hr hclass
    rw [hsymbols] at hr
    rcases State.get?_enroll_cases hr with ⟨-, hout⟩ | ⟨q, hq, hout⟩
    · rw [Symbol.owner_of_outline hout]
      refine howner ?_
      rw [Symbol.isClass_of_outline hout] at hclass
      cases entity <;> first | rfl | cases hclass
    · rw [← Symbol.owner_of_outline hout]
      exact h.classes id q hq ((Symbol.isClass_of_outline hout).trans hclass)

/-- The first record of a text may be that of its namespace. -/
theorem rooted_spaceOpened {space : Option SymbolId} {s : State} (hs : Fits .preface s)
    {N : String → Prop} (hplaced : Placed N .preface s.spine) (h : Rooted space .preface s.spine)
    (name : String) :
    Rooted (some s.symbols.nextId) .file
      { (s.enroll name .space).spine with parent := some s.symbols.nextId } := by
  have hspace : space = none := (h.parent rfl).symm.trans (hplaced.outside rfl)
  subst hspace
  refine ⟨?_, ?_, ?_, fun _ => rfl⟩
  · rintro _ ⟨⟩
    obtain ⟨r, hr, hout⟩ := State.get?_enroll s name .space
    exact ⟨r, hr, Symbol.space_of_outline hout rfl⟩
  · intro id r hr hspace
    rcases State.get?_enroll_cases hr with ⟨rfl, -⟩ | ⟨q, hq, hout⟩
    · rfl
    · cases h.only id q hq (Symbol.space_of_outline hout hspace)
  · intro id r hr hclass
    rcases State.get?_enroll_cases hr with ⟨-, hout⟩ | ⟨q, hq, hout⟩
    · rw [Symbol.isClass_of_outline hout] at hclass
      cases hclass
    · -- no class comes before the namespace
      rw [← Symbol.isClass_of_outline hout] at hclass
      have hdepth := (hplaced.records id q hq).depth_eq_one (Entity.isInner_of_isClass hclass)
        fun hspace => by rw [hspace] at hclass; cases hclass
      have hle : q.depth ≤ 0 := hs.bounded id q hq
      omega

theorem rooted_move {N : String → Prop} {space : Option SymbolId} {φ ψ : Phase} {s : State}
    {a : Action} {p : State.Spine} (hs : Fits φ s) (hplaced : Placed N φ s.spine)
    (h : Rooted space φ s.spine) (ha : a.BeforeEnd) (hmove : Move s φ a ψ p) :
    ∃ space', Rooted space' ψ p := by
  cases hmove with
  | still beside =>
    rcases beside with rfl | ⟨rfl, rfl⟩ | ⟨rfl, rfl⟩
    · exact ⟨space, h⟩
    · exact ⟨space, h.live, h.only, h.classes, nofun⟩
    · exact ⟨space, h.live, h.only, h.classes, nofun⟩
  | @declared φ line name entity inScope plain =>
    have hinner : entity.isInner = true := by cases entity <;> first | rfl | cases plain
    refine ⟨space, h.same (State.within_enroll s name hinner).sameOuter ?_⟩
    simp only [List.mem_cons, List.not_mem_nil, or_false] at inScope
    rcases inScope with rfl | rfl | rfl <;> exact nofun
  | coded _ within => exact ⟨space, h.same within.sameOuter nofun⟩
  | @spaceOpened line name start => exact ⟨_, rooted_spaceOpened hs hplaced h name⟩
  | spaceClosed => exact ha.elim
  | @classOpened line name =>
    have hroot : Rooted space .file { s with depth := s.depth + 1 }.spine :=
      ⟨h.live, h.only, h.classes, h.parent⟩
    refine ⟨space, hroot.enroll rfl nofun (fun _ => h.parent rfl) fun _ => ?_⟩
    rw [State.spine_enroll]
    exact h.parent rfl
  | classEntered => exact ⟨space, h.live, h.only, h.classes, nofun⟩
  | methodOpened => exact ⟨space, h.enroll rfl nofun nofun nofun⟩
  | paramsEntered => exact ⟨space, h.live, h.only, h.classes, nofun⟩
  | methodClosed sheds => exact ⟨space, h.same (hplaced.sameOuter sheds) nofun⟩
  | classClosed sheds =>
    refine ⟨space, h.same (hplaced.sameOuter sheds) fun _ => ?_⟩
    obtain ⟨c, r, hc, hr, hclass, -⟩ := hplaced.openClass rfl
    have hparent : s.parent = some c := (hplaced.classParent rfl).trans hc
    change (s.parent.bind s.symbols.get?).bind Symbol.owner = space
    rw [hparent, Option.bind_some, show s.symbols.get? c = some r from hr]
    exact h.classes c r hr hclass

theorem rooted_initial : Rooted none .preface State.initial.spine where
  live := nofun
  only := by
    intro id r hr
    cases hr
  classes := by
    intro id r hr
    cases hr
  parent := fun _ => rfl

/-- Up to the end of the namespace there is one root. -/
theorem rooted_run {ψ : Phase} {actions : List Action} (hlegal : Phase.Legal .preface actions ψ)
    (hall : ∀ a ∈ actions, a.BeforeEnd) {s : State}
    (hrun : State.initial.run actions = (s, none)) :
    Placed IsDotted ψ s.spine ∧ ∃ space, Rooted space ψ s.spine :=
  hlegal.run_induction (I := fun _ φ p => Placed IsDotted φ p ∧ ∃ space, Rooted space φ p)
    (P := Action.BeforeEnd)
    (by
      rintro _ p ⟨hplaced, space, h⟩
      exact ⟨hplaced.begin, space, h.live, h.only, h.classes, fun _ => h.parent rfl⟩)
    (by
      rintro _ φ a ψ s p ha hs ⟨hplaced, space, h⟩ hmove
      exact ⟨placed_move hs hplaced ha.names hmove, rooted_move hs hplaced h ha hmove⟩)
    hall [] fits_initial ⟨placed_initial IsDotted, none, rooted_initial⟩ hrun

/-! ## The tree of a compiled text -/

/-- Where a record stands that outlives the reading: it is the namespace, a class of it, or a member
of an older class. -/
inductive Survivor (t : SymbolTable) (space : Option SymbolId) (id : SymbolId) (r : Symbol) : Prop
  | space (depth : r.depth = 0) (entity : r.entity = .space) (owner : r.owner = none)
      (only : space = some id)
  | classType (depth : r.depth = 1) (entity : r.entity.isClass = true) (owner : r.owner = space)
  | member (depth : r.depth = 1) (entity : r.entity.isMember = true) {k : SymbolId} {q : Symbol}
      (owner : r.owner = some k) (older : k < id) (live : t.get? k = some q)
      (isClass : q.entity.isClass = true)

/-- Behind the last action of a program the records form a tree. -/
theorem survivors {p : Program} (hspelled : ∀ t ∈ p.tokens, t.WellSpelled)
    (hlegal : Phase.Legal .preface p.actions .file) {s : State}
    (hrun : State.initial.run p.actions = (s, none)) :
    ∃ space : Option SymbolId,
      (∀ k, space = some k → ∃ r, s.symbols.get? k = some r ∧ r.depth = 0) ∧
      ∀ id r, s.symbols.get? id = some r →
        Survivor s.symbols space id r ∧ r.offset = 0 ∧ ∀ offset, r.name ≠ frameSlot offset := by
  have hbound := (fits_of_run fits_initial hlegal hrun).bounded
  obtain ⟨actions, ending, hactions, hall, hending⟩ := p.exists_actions_eq hspelled
  rw [hactions] at hlegal hrun
  obtain ⟨φ, hbefore, -⟩ := hlegal.split
  obtain ⟨u, hu, hclose⟩ := State.run_append_eq_none.mp hrun
  obtain ⟨hplaced, space, hrooted⟩ := rooted_run hbefore hall hu
  have hsymbols : s.symbols = u.symbols := by
    rcases hending with rfl | rfl <;> cases hclose <;> rfl
  rw [hsymbols] at hbound ⊢
  refine ⟨space, ?_, ?_⟩
  · intro k hk
    obtain ⟨r, hr, hspace⟩ := hrooted.live k hk
    refine ⟨r, hr, ?_⟩
    cases hplaced.records k r hr with
    | space _ depth => exact depth
    | classType _ _ _ entity =>
      rw [hspace] at entity
      cases entity
    | member _ _ _ entity =>
      rw [hspace] at entity
      cases entity
    | inner _ entity =>
      rw [hspace] at entity
      cases entity
  · intro id r hr
    have hname : ∀ {name : String}, IsDotted name → ∀ offset, name ≠ frameSlot offset := by
      rintro _ hdotted offset rfl
      exact not_isDotted_frameSlot offset hdotted
    cases hplaced.records id r hr with
    | space named depth offset entity owner =>
      exact ⟨.space depth entity owner (hrooted.only id r hr entity), offset, hname named⟩
    | classType named depth offset entity =>
      exact ⟨.classType depth entity (hrooted.classes id r hr entity), offset, hname named⟩
    | member named depth offset entity owner older live isClass =>
      exact ⟨.member depth entity owner older live isClass, offset, hname named⟩
    | inner depth =>
      have hle : r.depth ≤ 1 := hbound id r hr
      omega

/-! ## The scopes on the way -/

/-- The reading of the text comes to the state, behind some of the actions called for. -/
def Reached (source : String) (s : State) : Prop :=
  ∃ done rest, (Grammar.parse (Scanner.ofString source).scan).1 = done ++ rest ∧
    State.initial.run done = (s, none)

/-- The open scope is that of a method of the open class, which is the newest one, and the method
owns all that is declared in it. -/
def State.InsideMethod (s : State) : Prop :=
  ∃ m c method record, s.parent = some m ∧ s.symbols.get? m = some method ∧
    method.entity.isMethod = true ∧ method.depth = 1 ∧ method.owner = some c ∧
    s.currentClass = some c ∧ s.symbols.get? c = some record ∧ record.entity.isClass = true ∧
    (∀ id r, s.symbols.get? id = some r → r.entity.isClass = true → id ≤ c) ∧
    ∀ id r, s.symbols.get? id = some r → r.depth = 2 → r.owner = some m

theorem legal_of_parse {scan : Scan} {done rest : List Action}
    (h : (Grammar.parse scan).1 = done ++ rest) : ∃ φ, Phase.Legal .preface done φ := by
  have hlegal := Grammar.legal_parse scan
  obtain ⟨ψ, hψ⟩ : ∃ ψ, Phase.Legal .preface (done ++ rest) ψ := by
    rw [← h]
    split at hlegal
    · exact ⟨_, hlegal⟩
    · exact hlegal.1
  obtain ⟨φ, hdone, -⟩ := hψ.split
  exact ⟨φ, hdone⟩

theorem placed_of_reached {source : String} {s : State} (h : Reached source s) :
    ∃ φ, Fits φ s ∧ Placed (fun _ => True) φ s.spine := by
  obtain ⟨done, rest, hactions, hrun⟩ := h
  obtain ⟨φ, hdone⟩ := legal_of_parse hactions
  refine ⟨φ, fits_of_run fits_initial hdone hrun, placed_run hdone (fun a _ => ?_) hrun⟩
  cases a <;> trivial

theorem Placed.insideMethod {N : String → Prop} {φ : Phase} {s : State} (h : Placed N φ s.spine)
    (hφ : φ.depth = 2) : s.InsideMethod := by
  obtain ⟨c, record, hc, hrecord, hisClass, hnewest⟩ := h.openClass (Phase.inClass_of_depth hφ)
  obtain ⟨m, method, hm, hget, hisMethod, howner⟩ := h.openMethod (Phase.inMethod_of_depth hφ)
  have hparent : s.parent = some m := (h.methodParent hφ).trans hm
  have hdepth := (h.records m method hget).depth_eq_one (Entity.isInner_of_isMethod hisMethod)
    fun hspace => by rw [hspace] at hisMethod; cases hisMethod
  refine ⟨m, c, method, record, hparent, hget, hisMethod, hdepth, howner.trans hc, hc, hrecord,
    hisClass, hnewest, ?_⟩
  intro id r hr hdeep
  cases h.records id r hr with
  | space _ depth => omega
  | classType _ depth => omega
  | member _ depth => omega
  | inner _ _ owner => exact owner.trans hparent

/-- On the way through any text the depth is 0, 1 or 2, and at depth 2 the open scope is that of a
method of the open class. The records of a compiled text are its namespace, if it has one, the
classes in it and their members, none of which lies in a frame or stands for a value worked out on
the way. -/
theorem symbols_form_tree (source : String) :
    (∀ s, Reached source s → s.depth ≤ 2 ∧ (s.depth = 2 → s.InsideMethod) ∧
      (s.depth = 0 → ∀ id r, s.symbols.get? id = some r → r.depth ≠ 2)) ∧
    ∀ c, compile source = .ok c → ∃ space : Option SymbolId,
      (∀ k, space = some k → ∃ r, c.symbols.get? k = some r ∧ r.depth = 0) ∧
      ∀ id r, c.symbols.get? id = some r →
        Survivor c.symbols space id r ∧ r.offset = 0 ∧ ∀ offset, r.name ≠ frameSlot offset := by
  constructor
  · intro s hs
    obtain ⟨φ, hfits, hplaced⟩ := placed_of_reached hs
    have hdepth := hfits.depth
    have hbound := hfits.bounded
    refine ⟨?_, fun hinside => hplaced.insideMethod (hdepth.symm.trans hinside), ?_⟩
    · rw [hdepth]
      cases φ <;> decide
    · intro hzero id r hr
      have hle : φ.bound ≤ 1 := by
        rw [hdepth] at hzero
        cases φ <;> first | exact absurd hzero (by decide) | decide
      have hr := hbound id r hr
      omega
  · intro c hc
    obtain ⟨p, tokens, htokens, hp⟩ := exists_tree (completes_of_readsThrough (.inl ⟨c, hc⟩))
    obtain ⟨hquiet, -, hlegal⟩ := legal_actions htokens hp
    obtain ⟨s, hrun, -, hsymbols, -⟩ := exists_run_of_compile hquiet hc
    rw [hsymbols]
    exact survivors (hp ▸ wellSpelled_of_tokenize htokens) hlegal hrun

/-- A text whose method has a local, a name that was never declared, and a sum. -/
def Sample.nested : String :=
  "namespace N\x7bclass A\x7bint g;int Main()\x7bint x;x=g+y;\x7d\x7d\x7d"

open Sample in
theorem symbols_form_tree_nested :
    (∃ s, Reached nested s ∧ (s.symbols.get? 5).map Symbol.entity = some .placeholder ∧
      (s.symbols.get? 6).map Symbol.name = some "_BP-6" ∧ s.InsideMethod) ∧
      ∃ c space, compile nested = .ok c ∧
        ∀ id r, c.symbols.get? id = some r → Survivor c.symbols space id r := by
  constructor
  · have hassign : .assign none ∈ (Grammar.parse (Scanner.ofString nested).scan).1 := by
      decide +kernel
    have hreached : Reached nested (State.initial.run
        ((Action.assign none).before (Grammar.parse (Scanner.ofString nested).scan).1)).1 :=
      ⟨_, _, Action.eq_before_behind hassign, Prod.ext rfl (by decide +kernel)⟩
    obtain ⟨-, hinside, -⟩ := (symbols_form_tree nested).1 _ hreached
    exact ⟨_, hreached, by decide +kernel, by decide +kernel, hinside (by decide +kernel)⟩
  · have hok : (compile nested).isOk = true := by decide +kernel
    cases hcompile : compile nested with
    | error fault =>
      rw [hcompile] at hok
      cases hok
    | ok c =>
      obtain ⟨space, -, htree⟩ := (symbols_form_tree nested).2 c hcompile
      exact ⟨c, space, rfl, fun id r hr => (htree id r hr).1⟩

end Triad
