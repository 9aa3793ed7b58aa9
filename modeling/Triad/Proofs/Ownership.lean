import Triad.Proofs.Moves

/-!
Who owns the records. Outside methods there are namespaces, classes and the members of classes, each
member owned by its class; inside the open method all records are owned by it (`Standing`). The
marks of the state say which class and which method are open, and the scope around a closed one is
found through its owner. Main statement: every legal run keeps to this (`placed_run`).
-/

namespace Triad

/-! ## Records outside methods -/

/-- What may stand in a class. -/
def Entity.isMember : Entity → Bool
  | var _ _ _ | const _ _ | method _ _ _ _ => true
  | _ => false

theorem Entity.isInner_of_isClass {e : Entity} (h : e.isClass = true) : e.isInner = false := by
  cases e <;> first | rfl | cases h

theorem Entity.isInner_of_isMethod {e : Entity} (h : e.isMethod = true) : e.isInner = false := by
  cases e <;> first | rfl | cases h

theorem Entity.isMethod_of_isClass {e : Entity} (h : e.isClass = true) : e.isMethod = false := by
  cases e <;> first | rfl | cases h

theorem Symbol.isClass_of_outline {r q : Symbol} (h : q.outline = r.outline) :
    q.entity.isClass = r.entity.isClass :=
  entity_congr (fun e => by cases e <;> rfl) h

theorem Symbol.isMethod_of_outline {r q : Symbol} (h : q.outline = r.outline) :
    q.entity.isMethod = r.entity.isMethod :=
  entity_congr (fun e => by cases e <;> rfl) h

theorem Symbol.isMember_of_outline {r q : Symbol} (h : q.outline = r.outline) :
    q.entity.isMember = r.entity.isMember :=
  entity_congr (fun e => by cases e <;> rfl) h

theorem Symbol.space_of_outline {r q : Symbol} (h : q.outline = r.outline)
    (hspace : r.entity = .space) : q.entity = .space := by
  have hentity : q.entity.outline = r.entity.outline := congrArg Symbol.entity h
  rw [hspace] at hentity
  cases hq : q.entity <;> rw [hq] at hentity <;> first | rfl | cases hentity

/-- The two tables have the same namespaces, classes and methods. -/
structure SymbolTable.SameOuter (t t' : SymbolTable) : Prop where
  get? : ∀ id r, t.get? id = some r → r.entity.isInner = false →
    ∃ r', t'.get? id = some r' ∧ r'.outline = r.outline
  get?_old : ∀ id r', t'.get? id = some r' → r'.entity.isInner = false →
    ∃ r, t.get? id = some r ∧ r.outline = r'.outline

theorem State.Within.sameOuter {s t : State} (h : s.Within t) : s.symbols.SameOuter t.symbols where
  get? := fun _ _ hr _ => h.symbols.get? hr
  get?_old := by
    intro id r hr houter
    rcases Nat.lt_or_ge id s.symbols.nextId with hlt | hge
    · exact h.symbols.get?_old hlt hr
    · rw [(h.new id r hge hr).2] at houter
      cases houter

/-! ## Standing -/

/-- Where a live record stands, and that its name is as `N` says unless it is inside a method. -/
inductive Standing (N : String → Prop) (t : SymbolTable) (parent : Option SymbolId) (id : SymbolId)
    (r : Symbol) : Prop
  | space (named : N r.name) (depth : r.depth = 0) (offset : r.offset = 0)
      (entity : r.entity = .space) (owner : r.owner = none)
  | classType (named : N r.name) (depth : r.depth = 1) (offset : r.offset = 0)
      (entity : r.entity.isClass = true)
  | member (named : N r.name) (depth : r.depth = 1) (offset : r.offset = 0)
      (entity : r.entity.isMember = true) {k : SymbolId} {q : Symbol} (owner : r.owner = some k)
      (older : k < id) (live : t.get? k = some q) (isClass : q.entity.isClass = true)
  | inner (depth : r.depth = 2) (entity : r.entity.isInner = true) (owner : r.owner = parent)

namespace Standing

variable {N : String → Prop} {t t' : SymbolTable} {parent : Option SymbolId} {id : SymbolId}
  {r r' : Symbol}

/-- Outside methods it does not matter which scope is open. -/
theorem reparent (h : Standing N t parent id r) (hle : r.depth ≤ 1) (parent' : Option SymbolId) :
    Standing N t parent' id r := by
  cases h with
  | space named depth offset entity owner => exact .space named depth offset entity owner
  | classType named depth offset entity => exact .classType named depth offset entity
  | member named depth offset entity owner older live isClass =>
    exact .member named depth offset entity owner older live isClass
  | inner depth => omega

theorem depth_le_of_outer (h : Standing N t parent id r) (houter : r.entity.isInner = false) :
    r.depth ≤ 1 := by
  cases h with
  | space _ depth => omega
  | classType _ depth => omega
  | member _ depth => omega
  | inner _ entity =>
    rw [entity] at houter
    cases houter

/-- Classes and methods are at depth 1. -/
theorem depth_eq_one (h : Standing N t parent id r) (houter : r.entity.isInner = false)
    (hne : r.entity ≠ .space) : r.depth = 1 := by
  cases h with
  | space _ _ _ entity => exact absurd entity hne
  | classType _ depth => exact depth
  | member _ depth => exact depth
  | inner _ entity =>
    rw [entity] at houter
    cases houter

/-- A record keeps its standing as long as the classes stay. -/
theorem transfer (h : Standing N t parent id r) (hout : r'.outline = r.outline)
    (hclasses : ∀ k q, t.get? k = some q → q.entity.isClass = true →
      ∃ q', t'.get? k = some q' ∧ q'.outline = q.outline) : Standing N t' parent id r' := by
  have hname := Symbol.name_of_outline hout
  have hdepth := Symbol.depth_of_outline hout
  have hoffset := Symbol.offset_of_outline hout
  have howner := Symbol.owner_of_outline hout
  cases h with
  | space named depth offset entity owner =>
    exact .space (hname ▸ named) (hdepth.trans depth) (hoffset.trans offset)
      (Symbol.space_of_outline hout entity) (howner.trans owner)
  | classType named depth offset entity =>
    exact .classType (hname ▸ named) (hdepth.trans depth) (hoffset.trans offset)
      ((Symbol.isClass_of_outline hout).trans entity)
  | member named depth offset entity owner older live isClass =>
    obtain ⟨q', hq', hqout⟩ := hclasses _ _ live isClass
    exact .member (hname ▸ named) (hdepth.trans depth) (hoffset.trans offset)
      ((Symbol.isMember_of_outline hout).trans entity) (howner.trans owner) older hq'
      ((Symbol.isClass_of_outline hqout).trans isClass)
  | inner depth entity owner =>
    exact .inner (hdepth.trans depth) ((Symbol.isInner_of_outline hout).trans entity)
      (howner.trans owner)

end Standing

/-! ## The open class and the open method -/

/-- The mark is on the newest class. -/
def OpenClass (t : SymbolTable) (current : Option SymbolId) : Prop :=
  ∃ c r, current = some c ∧ t.get? c = some r ∧ r.entity.isClass = true ∧
    ∀ id q, t.get? id = some q → q.entity.isClass = true → id ≤ c

/-- The mark is on a method of the open class. -/
def OpenMethod (t : SymbolTable) (currentClass current : Option SymbolId) : Prop :=
  ∃ m r, current = some m ∧ t.get? m = some r ∧ r.entity.isMethod = true ∧ r.owner = currentClass

theorem OpenClass.same {t t' : SymbolTable} {current : Option SymbolId} (h : OpenClass t current)
    (hsame : t.SameOuter t') : OpenClass t' current := by
  obtain ⟨c, r, hc, hr, hclass, hnewest⟩ := h
  obtain ⟨r', hr', hout⟩ := hsame.get? c r hr (Entity.isInner_of_isClass hclass)
  refine ⟨c, r', hc, hr', (Symbol.isClass_of_outline hout).trans hclass, ?_⟩
  intro id q' hq' hclass'
  obtain ⟨q, hq, hqout⟩ := hsame.get?_old id q' hq' (Entity.isInner_of_isClass hclass')
  exact hnewest id q hq ((Symbol.isClass_of_outline hqout).trans hclass')

theorem OpenMethod.keep {t t' : SymbolTable} {currentClass current : Option SymbolId}
    (h : OpenMethod t currentClass current)
    (hkeep : ∀ id r, t.get? id = some r → r.entity.isInner = false →
      ∃ r', t'.get? id = some r' ∧ r'.outline = r.outline) :
    OpenMethod t' currentClass current := by
  obtain ⟨m, r, hm, hr, hmethod, howner⟩ := h
  obtain ⟨r', hr', hout⟩ := hkeep m r hr (Entity.isInner_of_isMethod hmethod)
  exact ⟨m, r', hm, hr', (Symbol.isMethod_of_outline hout).trans hmethod,
    (Symbol.owner_of_outline hout).trans howner⟩

/-! ## The marks in each phase -/

def Phase.inClass : Phase → Bool
  | preface | file => false
  | _ => true

/-- Whether the open scope is that of a class. -/
def Phase.atMembers : Phase → Bool
  | classBody | methodHead => true
  | _ => false

theorem Phase.inMethod_of_depth {φ : Phase} (h : φ.depth = 2) : φ.inMethod = true := by
  cases φ <;> first | rfl | cases h

theorem Phase.inClass_of_depth {φ : Phase} (h : φ.depth = 2) : φ.inClass = true := by
  cases φ <;> first | rfl | cases h

theorem Phase.inClass_of_atMembers {φ : Phase} (h : φ.atMembers = true) : φ.inClass = true := by
  cases φ <;> first | rfl | cases h

/-- All records stand where they belong, and the marks are on the open scopes. -/
structure Placed (N : String → Prop) (φ : Phase) (p : State.Spine) : Prop where
  records : ∀ id r, p.symbols.get? id = some r → Standing N p.symbols p.parent id r
  outside : φ = .preface → p.parent = none
  openClass : φ.inClass = true → OpenClass p.symbols p.currentClass
  classParent : φ.atMembers = true → p.parent = p.currentClass
  openMethod : φ.inMethod = true → OpenMethod p.symbols p.currentClass p.currentMethod
  methodParent : φ.depth = 2 → p.parent = p.currentMethod

/-- The name that an action declares outside methods is as `N` says. -/
def Action.Names (N : String → Prop) : Action → Prop
  | openNamespace _ name _ | openClass _ name | declare _ name _ | openMethod _ name _
  | openConstructor _ name => N name
  | _ => True

section Steps

variable {N : String → Prop} {φ ψ : Phase} {s t : State}

theorem offset_recordOf {s : State} (h : s.depth ≤ 1) (name : String) (entity : Entity) :
    (s.recordOf name entity).offset = 0 := by
  have htakes : s.takesSlot entity = false := by
    simp only [State.takesSlot, Bool.and_eq_false_iff, decide_eq_false_iff_not]
    omega
  simp [State.recordOf, htakes]

/-- Behind a declaration all records stand where they belong if the new one does. -/
theorem records_enroll (h : ∀ id r, s.symbols.get? id = some r → Standing N s.symbols s.parent id r)
    {name : String} {entity : Entity}
    (hnew : Standing N s.symbols s.parent s.symbols.nextId (s.recordOf name entity)) :
    ∀ id r, (s.enroll name entity).symbols.get? id = some r →
      Standing N (s.enroll name entity).symbols s.parent id r := by
  intro id r hr
  rcases State.get?_enroll_cases hr with ⟨rfl, hout⟩ | ⟨q, hq, hout⟩
  · exact hnew.transfer hout fun _ _ hk _ => (State.evolves_enroll s name entity).get? hk
  · exact (h id q hq).transfer hout.symm fun _ _ hk _ =>
      (State.evolves_enroll s name entity).get? hk

/-- Inside a method all new records are owned by it. -/
theorem Placed.within (h : Placed N φ s.spine) (hφ : φ.depth = 2) (hs : Fits φ s)
    (hst : s.Within t) : Placed N φ t.spine where
  records := by
    intro id r hr
    rw [show t.spine.parent = s.parent from hst.parent]
    rcases Nat.lt_or_ge id s.symbols.nextId with hlt | hge
    · obtain ⟨q, hq, hout⟩ := hst.symbols.get?_old hlt hr
      exact (h.records id q hq).transfer hout.symm fun _ _ hk _ => hst.symbols.get? hk
    · obtain ⟨howner, hinner⟩ := hst.new id r hge hr
      exact .inner ((hst.symbols.new id r hge hr).trans (hs.depth.trans hφ)) hinner howner
  outside := by
    rintro rfl
    cases hφ
  openClass := by
    intro hclass
    rw [show t.spine.currentClass = s.currentClass from hst.currentClass]
    exact (h.openClass hclass).same hst.sameOuter
  classParent := by
    intro hmembers
    cases φ <;> first | exact absurd hφ (by decide) | exact absurd hmembers (by decide)
  openMethod := by
    intro hmethod
    rw [show t.spine.currentClass = s.currentClass from hst.currentClass,
      show t.spine.currentMethod = s.currentMethod from hst.currentMethod]
    exact (h.openMethod hmethod).keep hst.sameOuter.get?
  methodParent := by
    intro hdepth
    rw [show t.spine.parent = s.parent from hst.parent,
      show t.spine.currentMethod = s.currentMethod from hst.currentMethod]
    exact h.methodParent hdepth

/-- Where no record is inside a method, any scope may be the open one. -/
theorem records_reparent {symbols : SymbolTable} {parent : Option SymbolId}
    (h : ∀ id r, symbols.get? id = some r → Standing N symbols parent id r)
    (hbound : ∀ id r, symbols.get? id = some r → r.depth ≤ 1) (parent' : Option SymbolId) :
    ∀ id r, symbols.get? id = some r → Standing N symbols parent' id r :=
  fun id r hr => (h id r hr).reparent (hbound id r hr) parent'

theorem Fits.bounded_le {n : Nat} (h : Fits φ s) (hle : φ.bound ≤ n) :
    ∀ id r, s.symbols.get? id = some r → r.depth ≤ n :=
  fun id r hr => Nat.le_trans (h.bounded id r hr) hle

/-- A new member is owned by the open class. -/
theorem standing_member (hs : Fits .classBody s) (h : Placed N .classBody s.spine) {name : String}
    {entity : Entity} (hname : N name) (hmember : (s.recordOf name entity).entity.isMember = true) :
    Standing N s.symbols s.parent s.symbols.nextId (s.recordOf name entity) := by
  obtain ⟨c, r, hc, hr, hclass, -⟩ := h.openClass rfl
  have hparent : s.parent = some c := (h.classParent rfl).trans hc
  have hdepth : s.depth = 1 := hs.depth
  exact .member hname hdepth (offset_recordOf (Nat.le_of_eq hdepth) name entity) hmember hparent
    (SymbolTable.get?_lt hr) hr hclass

theorem placed_declared (hs : Fits .classBody s) (h : Placed N .classBody s.spine) {name : String}
    {entity : Entity} (hname : N name) (hplain : entity.isPlain = true) :
    Placed N .classBody (s.enroll name entity).spine := by
  have hinner : entity.isInner = true := by cases entity <;> first | rfl | cases hplain
  have hmember : (s.recordOf name entity).entity.isMember = true := by
    cases entity <;> first | rfl | cases hplain
  have hwithin := State.within_enroll s name hinner
  refine ⟨?_, nofun, ?_, ?_, nofun, nofun⟩
  · rw [show (s.enroll name entity).spine.parent = s.parent from hwithin.parent]
    exact records_enroll h.records (standing_member hs h hname hmember)
  · intro _
    rw [show (s.enroll name entity).spine.currentClass = s.currentClass from hwithin.currentClass]
    exact (h.openClass rfl).same hwithin.sameOuter
  · intro _
    rw [show (s.enroll name entity).spine.parent = s.parent from hwithin.parent,
      show (s.enroll name entity).spine.currentClass = s.currentClass from hwithin.currentClass]
    exact h.classParent rfl

theorem placed_spaceOpened (hs : Fits .preface s) (h : Placed N .preface s.spine) {name : String}
    (hname : N name) :
    Placed N .file
      { (s.enroll name .space).spine with parent := some s.symbols.nextId } := by
  have hdepth : s.depth = 0 := hs.depth
  have hnew : Standing N s.symbols s.parent s.symbols.nextId (s.recordOf name .space) :=
    .space hname hdepth (offset_recordOf (by omega) name .space) rfl (h.outside rfl)
  refine ⟨records_reparent (records_enroll h.records hnew) ?_ _, nofun, nofun, nofun, nofun, nofun⟩
  intro id r hr
  rcases State.get?_enroll_cases hr with ⟨-, hout⟩ | ⟨q, hq, hout⟩
  · rw [Symbol.depth_of_outline hout]
    change s.depth ≤ 1
    omega
  · rw [← Symbol.depth_of_outline hout]
    exact hs.bounded_le (Nat.zero_le 1) id q hq

theorem placed_classOpened (hs : Fits .file s) (h : Placed N .file s.spine) {name : String}
    (hname : N name) :
    Placed N .classHead ({ s with depth := s.depth + 1 }.enroll name .newClass).spine := by
  have hdepth : s.depth + 1 = 1 := by rw [show s.depth = 0 from hs.depth]
  have hnew : Standing N s.symbols s.parent s.symbols.nextId
      ({ s with depth := s.depth + 1 }.recordOf name .newClass) :=
    .classType hname hdepth (offset_recordOf (Nat.le_of_eq hdepth) name .newClass) rfl
  have hspine := State.spine_enroll { s with depth := s.depth + 1 } name .newClass
  rw [hspine]
  refine ⟨records_enroll (s := { s with depth := s.depth + 1 }) h.records hnew, nofun, ?_, nofun,
    nofun, nofun⟩
  intro _
  obtain ⟨r, hr, hout⟩ := State.get?_enroll { s with depth := s.depth + 1 } name .newClass
  refine ⟨s.symbols.nextId, r, rfl, hr, Symbol.isClass_of_outline hout, ?_⟩
  intro id q hq _
  have hlt := SymbolTable.get?_lt hq
  rw [State.nextId_enroll] at hlt
  exact Nat.le_of_lt_succ hlt

theorem placed_methodOpened (hs : Fits .classBody s) (h : Placed N .classBody s.spine)
    {name : String} (hname : N name) (returns : ValueType) (code : Array Instr)
    (procedure : String) (entry : Option String) :
    Placed N .methodHead
      { (s.enroll name (.newMethod returns)).spine with
        code := code
        procedure := procedure
        entry := entry } := by
  rw [State.spine_enroll]
  refine ⟨records_enroll h.records (standing_member hs h hname rfl), nofun, ?_,
    fun _ => h.classParent rfl, ?_, nofun⟩
  · intro _
    obtain ⟨c, r, hc, hr, hclass, hnewest⟩ := h.openClass rfl
    obtain ⟨r', hr', hout⟩ := (State.evolves_enroll s name (.newMethod returns)).get? hr
    refine ⟨c, r', hc, hr', (Symbol.isClass_of_outline hout).trans hclass, ?_⟩
    intro id q hq hclass'
    rcases State.get?_enroll_cases hq with ⟨-, hqout⟩ | ⟨q', hq', hqout⟩
    · rw [Symbol.isClass_of_outline hqout] at hclass'
      cases hclass'
    · exact hnewest id q' hq' ((Symbol.isClass_of_outline hqout).trans hclass')
  · intro _
    obtain ⟨r, hr, hout⟩ := State.get?_enroll s name (.newMethod returns)
    exact ⟨s.symbols.nextId, r, rfl, hr, Symbol.isMethod_of_outline hout,
      (Symbol.owner_of_outline hout).trans (h.classParent rfl)⟩

/-- Leaving a scope leaves namespaces, classes and methods as they are. -/
theorem Placed.sameOuter (h : Placed N φ s.spine) {symbols : SymbolTable}
    (hsheds : s.symbols.Sheds symbols) : s.symbols.SameOuter symbols where
  get? := fun id r hr houter => hsheds.get? id r hr ((h.records id r hr).depth_le_of_outer houter)
  get?_old := fun id r hr _ => (hsheds.get?_old id r hr).2

theorem Placed.records_left (h : Placed N φ s.spine) {symbols : SymbolTable}
    (hsheds : s.symbols.Sheds symbols) (parent : Option SymbolId) :
    ∀ id r, symbols.get? id = some r → Standing N symbols parent id r := by
  intro id r' hr'
  obtain ⟨hle, r, hr, hout⟩ := hsheds.get?_old id r' hr'
  have hkept : Standing N symbols s.parent id r' := (h.records id r hr).transfer hout.symm
    fun k q hk hclass => (h.sameOuter hsheds).get? k q hk (Entity.isInner_of_isClass hclass)
  exact hkept.reparent hle parent

/-- The class around a method is found as the owner of the method. -/
theorem Placed.parent_left (h : Placed N .body s.spine) (symbols : SymbolTable) :
    (s.left symbols).parent = s.currentClass ∧ (s.left symbols).currentClass = s.currentClass := by
  obtain ⟨m, r, hm, hr, hmethod, howner⟩ := h.openMethod rfl
  obtain ⟨c, q, hc, hq, hclass, -⟩ := h.openClass rfl
  have hparent : s.parent = some m := (h.methodParent rfl).trans hm
  change s.currentClass = some c at hc
  constructor
  · change (s.parent.bind s.symbols.get?).bind Symbol.owner = s.currentClass
    rw [hparent, Option.bind_some, show s.symbols.get? m = some r from hr]
    exact howner
  · -- a class is not a method
    have hne : c ≠ m := by
      rintro rfl
      cases hq.symm.trans hr
      rw [Entity.isMethod_of_isClass hclass] at hmethod
      cases hmethod
    change (if s.parent.isSome && s.currentClass == s.parent then none else s.currentClass) = _
    rw [hparent, hc]
    simp [hne]

theorem placed_methodClosed (h : Placed N .body s.spine) {symbols : SymbolTable}
    (hsheds : s.symbols.Sheds symbols) (code : Array Instr) :
    Placed N .classBody { s.left symbols with code := code } := by
  obtain ⟨hparent, hclass⟩ := h.parent_left symbols
  refine ⟨h.records_left hsheds _, nofun, ?_, fun _ => hparent.trans hclass.symm, nofun, nofun⟩
  intro _
  rw [show State.Spine.currentClass { s.left symbols with code := code } = s.currentClass
    from hclass]
  exact (h.openClass rfl).same (h.sameOuter hsheds)

/-- Every move leaves the records where they belong and the marks on the open scopes. -/
theorem placed_move {a : Action} {p : State.Spine} (hs : Fits φ s) (h : Placed N φ s.spine)
    (ha : a.Names N) (hmove : Move s φ a ψ p) : Placed N ψ p := by
  cases hmove with
  | still beside =>
    rcases beside with rfl | ⟨rfl, rfl⟩ | ⟨rfl, rfl⟩
    · exact h
    · exact ⟨h.records, nofun, h.openClass, nofun, h.openMethod, h.methodParent⟩
    · exact ⟨h.records, nofun, h.openClass, nofun, h.openMethod, h.methodParent⟩
  | @declared φ line name entity inScope plain =>
    have hinner : entity.isInner = true := by cases entity <;> first | rfl | cases plain
    simp only [List.mem_cons, List.not_mem_nil, or_false] at inScope
    rcases inScope with rfl | rfl | rfl
    · exact placed_declared hs h ha plain
    · exact h.within rfl hs (State.within_enroll s name hinner)
    · exact h.within rfl hs (State.within_enroll s name hinner)
  | coded _ within => exact h.within rfl hs within
  | spaceOpened => exact placed_spaceOpened hs h ha
  | spaceClosed =>
    exact ⟨records_reparent h.records (hs.bounded_le (Nat.le_refl 1)) none, nofun, nofun, nofun,
      nofun, nofun⟩
  | classOpened => exact placed_classOpened hs h ha
  | classEntered current =>
    exact ⟨records_reparent h.records (hs.bounded_le (Nat.le_refl 1)) _, nofun, h.openClass,
      fun _ => current.symm, nofun, nofun⟩
  | @methodOpened a name procedure isConstructor returns opens =>
    have hname : N name := by
      cases a <;> cases opens <;> exact ha
    exact placed_methodOpened hs h hname returns _ procedure _
  | paramsEntered current =>
    exact ⟨records_reparent h.records (hs.bounded_le (Nat.le_refl 1)) _, nofun, h.openClass, nofun,
      h.openMethod, fun _ => current.symm⟩
  | methodClosed sheds => exact placed_methodClosed h sheds _
  | classClosed sheds => exact ⟨h.records_left sheds _, nofun, nofun, nofun, nofun, nofun⟩

end Steps

theorem placed_initial (N : String → Prop) : Placed N .preface State.initial.spine where
  records := by
    intro id r hr
    cases hr
  outside := fun _ => rfl
  openClass := nofun
  classParent := nofun
  openMethod := nofun
  methodParent := nofun

theorem Placed.begin {N : String → Prop} {p : State.Spine} (h : Placed N .preface p) :
    Placed N .file p :=
  ⟨h.records, nofun, nofun, nofun, nofun, nofun⟩

/-- Behind a legal run, all records stand where they belong and the marks are on the open scopes. -/
theorem placed_run {N : String → Prop} {ψ : Phase} {actions : List Action}
    (hlegal : Phase.Legal .preface actions ψ) (hnames : ∀ a ∈ actions, a.Names N) {s : State}
    (hrun : State.initial.run actions = (s, none)) : Placed N ψ s.spine :=
  hlegal.run_induction (I := fun _ φ p => Placed N φ p) (fun _ _ h => h.begin)
    (fun _ _ _ _ _ _ ha hs h hmove => placed_move hs h ha hmove) hnames [] fits_initial
    (placed_initial N) hrun

end Triad
