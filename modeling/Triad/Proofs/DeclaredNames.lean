import Triad.Proofs.CallTargets
import Triad.Proofs.SizeAccounts
import Triad.Proofs.UndeclaredNames

/-!
What the open scope has declared. The open class owns the names that are declared in it, and the open
method owns those of its parameters, locals and constants, and the names that got a placeholder; the
other classes, the scopes around and the words for values do not matter. Main statement:
`Enrolled.run`.
-/

namespace Triad

/-! ## What a scope has declared -/

/-- The scope that a declaration goes to. -/
inductive OpenScope
  | outside
  | members
  | method
  deriving DecidableEq, Repr

/-- The open scope, and what the open class has declared. -/
structure Roll where
  scope : OpenScope
  members : List String
  deriving DecidableEq

namespace Roll

def add (r : Roll) (name : String) : Roll := { r with members := r.members ++ [name] }

def after (r : Roll) : Action → Roll
  | .openClass _ _ => ⟨.outside, []⟩
  | .openClassBody | .closeMethod => { r with scope := .members }
  | .closeClass => { r with scope := .outside }
  | .openParams => { r with scope := .method }
  | .openMethod _ name _ | .openConstructor _ name => r.add name
  | .declare _ name _ => if r.scope = .members then r.add name else r
  | _ => r

/-- What leaves the scopes as they are, and code. -/
theorem after_eq {a : Action} (h : a.isAside = true ∨ a.isCode = true ∨ a = .sizeFrame) (r : Roll) :
    r.after a = r := by
  rcases h with h | h | rfl
  · cases a <;> first | rfl | cases h
  · cases a <;> first | rfl | cases h
  · rfl

theorem after_routine {a : Action} {name : String} {isConstructor : Bool}
    (h : a.routine? = some (name, isConstructor)) (r : Roll) : r.after a = r.add name := by
  cases a <;> cases h <;> rfl

theorem after_declare {r : Roll} (h : r.scope = .members) (line : Nat) (name : String)
    (entity : Entity) : r.after (.declare line name entity) = r.add name := if_pos h

theorem after_inner {r : Roll} (h : r.scope ≠ .members) (line : Nat) (name : String)
    (entity : Entity) : r.after (.declare line name entity) = r := if_neg h

theorem scope_declare (r : Roll) (line : Nat) (name : String) (entity : Entity) :
    (r.after (.declare line name entity)).scope = r.scope := by
  change (if r.scope = .members then r.add name else r).scope = r.scope
  split <;> rfl

end Roll

def roll (actions : List Action) : Roll := actions.foldl Roll.after ⟨.outside, []⟩

theorem roll_snoc (actions : List Action) (a : Action) :
    roll (actions ++ [a]) = (roll actions).after a := List.foldl_concat ..

namespace Declarations

/-- Parameters, locals and constants together. -/
def names (d : Declarations) : List String := (d.params ++ d.locals).map Prod.fst

theorem mem_names_declare (d : Declarations) (line : Nat) (name other : String) (entity : Entity) :
    other ∈ (d.after (.declare line name entity)).names ↔ other ∈ d.names ∨ name = other := by
  cases hbody : d.inBody with
  | true =>
    rw [after_local hbody]
    simp [names, or_assoc, eq_comm]
  | false =>
    rw [after_param hbody]
    simp only [names, List.map_append, List.mem_append, List.map_cons, List.map_nil,
      List.mem_singleton, eq_comm (a := other)]
    exact or_right_comm

theorem names_after {a : Action} (h : a.isAside = true ∨ a.isCode = true ∨ a = .sizeFrame)
    (d : Declarations) : (d.after a).names = d.names := by
  rcases h with h | h | rfl
  · cases a <;> first | rfl | cases h
  · rw [after_code h]
  · rfl

end Declarations

/-- The names that the open scope has declared. -/
def declaredNames (done : List Action) : List String :=
  match (roll done).scope with
  | .outside => []
  | .members => (roll done).members
  | .method => (declarations done).names

/-- The names that got a placeholder in the open method. -/
def recoveredNames (done : List Action) : List String :=
  ((uses done).filter fun u =>
    u.isRecovered && u.method == done.countP Action.endsMethod).map Use.name

section Recovered

variable {done : List Action} {a : Action}

theorem recoveredNames_snoc (h : a.endsMethod = false) :
    recoveredNames (done ++ [a]) =
      recoveredNames done ++ ((Use.at? done a).toList.filter Use.isRecovered).map Use.name := by
  have hcount : (done ++ [a]).countP Action.endsMethod = done.countP Action.endsMethod := by
    simp [List.countP_append, h]
  rw [recoveredNames, uses_snoc, List.filter_append, List.map_append, hcount]
  congr 2
  refine List.filter_congr fun u hu => ?_
  obtain ⟨hbefore, -, -⟩ := Use.at?_eq_some_iff.mp (Option.mem_toList.mp hu)
  simp [Use.method, hbefore]

theorem recoveredNames_of_use? (h : a.endsMethod = false) (huse : a.use? = none) :
    recoveredNames (done ++ [a]) = recoveredNames done := by
  rw [recoveredNames_snoc h, Use.at?, huse]
  simp

/-- The next method starts anew. -/
theorem recoveredNames_of_endsMethod (h : a.endsMethod = true) :
    recoveredNames (done ++ [a]) = [] := by
  have huse : a.use? = none := by cases a <;> first | rfl | cases h
  have hsame : uses (done ++ [a]) = uses done := by simp [uses_snoc, Use.at?, huse]
  have hcount : (done ++ [a]).countP Action.endsMethod = done.countP Action.endsMethod + 1 := by
    simp [List.countP_append, h]
  rw [recoveredNames, hsame, hcount, List.map_eq_nil_iff, List.filter_eq_nil_iff]
  intro u hu
  obtain ⟨-, rest, hsplit⟩ := mem_uses.mp hu
  have hle : u.method ≤ done.countP Action.endsMethod := by
    rw [hsplit, List.countP_append]
    exact Nat.le_add_right _ _
  have hne : u.method ≠ done.countP Action.endsMethod + 1 := by omega
  simp [hne]

/-- Up to its code, a method has no names without a declaration. -/
theorem recoveredNames_step {σ τ : Stage} (hnext : σ.next? a = some τ)
    (h : σ ≠ .code → recoveredNames done = []) (hτ : τ ≠ .code) :
    recoveredNames (done ++ [a]) = [] := by
  cases hends : a.endsMethod with
  | true => exact recoveredNames_of_endsMethod hends
  | false =>
    have hσ : σ ≠ .code := by
      rintro rfl
      exact hτ (Stage.eq_code_of_next? hnext hends)
    have huse : a.use? = none := by
      cases huse : a.use? with
      | none => rfl
      | some place =>
        obtain ⟨-, hlater⟩ :=
          (Stage.Ordered.cons hnext (.nil τ)).code_of_cons (Action.isCode_of_use? huse)
        cases hlater
        exact absurd rfl hτ
    rw [recoveredNames_of_use? hends huse, h hσ]

end Recovered

/-! ## What an owner has -/

namespace SymbolTable

/-- The owner has a live record of the name. -/
def OwnerHas (t : SymbolTable) (owner : Option SymbolId) (name : String) : Prop :=
  ∃ id r, t.get? id = some r ∧ r.owner = owner ∧ r.name = name

section Owners

variable {t t' : SymbolTable} {owner : Option SymbolId} {name : String}

theorem Evolves.ownerHas {depth : Nat} (h : t.Evolves depth t') (howner : t.OwnerHas owner name) :
    t'.OwnerHas owner name := by
  obtain ⟨id, r, hr, rfl, rfl⟩ := howner
  obtain ⟨r', hr', hout⟩ := h.get? hr
  exact ⟨id, r', hr', Symbol.owner_of_outline hout, Symbol.name_of_outline hout⟩

/-- New records of other owners or other names do not matter. -/
theorem Evolves.ownerHas_iff {depth : Nat} (h : t.Evolves depth t')
    (hnew : ∀ id r, t.nextId ≤ id → t'.get? id = some r → r.owner = owner → r.name ≠ name) :
    t'.OwnerHas owner name ↔ t.OwnerHas owner name := by
  refine ⟨?_, h.ownerHas⟩
  rintro ⟨id, r', hr', howner, hname⟩
  rcases Nat.lt_or_ge id t.nextId with hlt | hge
  · obtain ⟨r, hr, hout⟩ := h.get?_old hlt hr'
    exact ⟨id, r, hr, (Symbol.owner_of_outline hout).trans howner,
      (Symbol.name_of_outline hout).trans hname⟩
  · exact absurd hname (hnew id r' hge hr' howner)

theorem Grows.ownerHas_iff {q : Symbol} (h : t.Grows q t') :
    t'.OwnerHas owner name ↔ t.OwnerHas owner name ∨ q.owner = owner ∧ q.name = name := by
  constructor
  · rintro ⟨id, r', hr', rfl, rfl⟩
    rcases h.cases hr' with ⟨-, hout⟩ | ⟨r, hr, hout⟩
    · exact .inr ⟨(Symbol.owner_of_outline hout).symm, (Symbol.name_of_outline hout).symm⟩
    · exact .inl ⟨id, r, hr, Symbol.owner_of_outline hout, Symbol.name_of_outline hout⟩
  · rintro (howner | ⟨rfl, rfl⟩)
    · exact h.evolves.ownerHas howner
    · obtain ⟨r, hr, hout⟩ := h.new
      exact ⟨_, r, hr, Symbol.owner_of_outline hout, Symbol.name_of_outline hout⟩

/-- What is owned outside methods stays when a scope is left. -/
theorem Sheds.ownerHas_iff (h : t.Sheds t')
    (hdepth : ∀ id r, t.get? id = some r → r.owner = owner → r.depth ≤ 1) :
    t'.OwnerHas owner name ↔ t.OwnerHas owner name := by
  constructor
  · rintro ⟨id, r', hr', rfl, rfl⟩
    obtain ⟨-, r, hr, hout⟩ := h.get?_old id r' hr'
    exact ⟨id, r, hr, Symbol.owner_of_outline hout, Symbol.name_of_outline hout⟩
  · rintro ⟨id, r, hr, howner, rfl⟩
    obtain ⟨r', hr', hout⟩ := h.get? id r hr (hdepth id r hr howner)
    exact ⟨id, r', hr', (Symbol.owner_of_outline hout).trans howner, Symbol.name_of_outline hout⟩

end Owners

end SymbolTable

section Owners

variable {φ : Phase} {s t : State} {name : String}

/-- Inside a method, nothing is declared in the class. -/
theorem Stands.parent_ne_currentClass (hs : Stands φ s) (hφ : φ.depth = 2) :
    s.parent ≠ s.currentClass := by
  obtain ⟨c, q, hc, hq, hisClass, -⟩ := hs.placed.openClass (Phase.inClass_of_depth hφ)
  intro heq
  exact hs.placed.not_isClass_parent hφ (heq.trans hc) hq hisClass

theorem Stands.ownerHas_within (hs : Stands φ s) (hφ : φ.depth = 2) (hwithin : s.Within t) :
    t.symbols.OwnerHas t.currentClass name ↔ s.symbols.OwnerHas s.currentClass name := by
  rw [hwithin.currentClass]
  refine hwithin.symbols.ownerHas_iff fun id r hge hr howner => ?_
  exact absurd ((hwithin.new id r hge hr).1.symm.trans howner) (hs.parent_ne_currentClass hφ)

end Owners

/-! ## The names of the open scope -/

def Phase.openScope : Phase → OpenScope
  | classBody | methodHead => .members
  | params | signature | body => .method
  | _ => .outside

theorem Roll.scope_move {φ ψ : Phase} {s : State} {a : Action} {p : State.Spine} {r : Roll}
    (h : r.scope = φ.openScope) (hmove : Move s φ a ψ p) : (r.after a).scope = ψ.openScope := by
  cases hmove with
  | still beside _ aside =>
    rw [after_eq (.inl aside), h]
    rcases beside with rfl | ⟨rfl, rfl⟩ | ⟨rfl, rfl⟩ <;> rfl
  | declared => rw [scope_declare, h]
  | coded _ _ kind => rw [after_eq (.inr kind), h]
  | methodOpened opens =>
    rw [after_routine opens]
    exact h
  | spaceOpened | spaceClosed => exact h
  | classOpened | classEntered | paramsEntered | methodClosed | classClosed => rfl

/-- The open class owns what it has declared, and the open method in addition the names that got a
placeholder. -/
structure Enrolled (done : List Action) (φ : Phase) (p : State.Spine) : Prop where
  scope : (roll done).scope = φ.openScope
  members : φ.inClass = true → ∀ name,
    p.symbols.OwnerHas p.currentClass name ↔ name ∈ (roll done).members
  inner : φ.depth = 2 → ∀ name, IsWord name → (p.symbols.OwnerHas p.parent name ↔
    name ∈ (declarations done).names ∨ name ∈ recoveredNames done)

namespace Enrolled

variable {done : List Action} {φ ψ : Phase} {s : State} {a : Action} {p : State.Spine}

theorem scope_move (h : Enrolled done φ s.spine) (hmove : Move s φ a ψ p) :
    (roll (done ++ [a])).scope = ψ.openScope := by
  rw [roll_snoc]
  exact Roll.scope_move h.scope hmove

/-- A member is declared in the open class. -/
theorem members_enroll (h : Enrolled done .classBody s.spine) (hs : Stands .classBody s)
    (name : String) (entity : Entity) (other : String) :
    (s.enroll name entity).symbols.OwnerHas s.currentClass other ↔
      other ∈ ((roll done).add name).members := by
  have hmembers : s.symbols.OwnerHas s.currentClass other ↔ other ∈ (roll done).members :=
    h.members rfl other
  rw [(s.grows_enroll name entity).ownerHas_iff, hmembers]
  change _ ∨ s.parent = s.currentClass ∧ name = other ↔ _
  simp [Roll.add, show s.parent = s.currentClass from hs.placed.classParent rfl, eq_comm]

theorem members_move (h : Enrolled done φ s.spine) (hs : Stands φ s) (hmove : Move s φ a ψ p)
    (hψ : ψ.inClass = true) (name : String) :
    p.symbols.OwnerHas p.currentClass name ↔ name ∈ (roll (done ++ [a])).members := by
  have hclass := fun hφ ha => (currentClass_move hs.placed hmove hφ ha).2
  rw [roll_snoc]
  cases hmove with
  | still beside _ aside =>
    rw [Roll.after_eq (.inl aside)]
    refine h.members ?_ name
    rcases beside with rfl | ⟨rfl, -⟩ | ⟨rfl, -⟩
    · exact hψ
    · rfl
    · rfl
  | @declared φ line name' entity inScope plain =>
    have hinner : entity.isInner = true := by cases entity <;> first | rfl | cases plain
    have hscope := h.scope
    simp only [List.mem_cons, List.not_mem_nil, or_false] at inScope
    rcases inScope with rfl | hmethod
    · have hadded := h.members_enroll hs name' entity name
      rw [hclass rfl (by simp), Roll.after_declare hscope]
      exact hadded
    · have hφ : φ.openScope = .method ∧ φ.depth = 2 := by
        rcases hmethod with rfl | rfl <;> exact ⟨rfl, rfl⟩
      rw [Roll.after_inner (by simp [hscope, hφ.1])]
      exact (hs.ownerHas_within hφ.2 (State.within_enroll s name' hinner)).trans
        (h.members hψ name)
  | coded _ within kind =>
    rw [Roll.after_eq (.inr kind)]
    exact (hs.ownerHas_within rfl within).trans (h.members rfl name)
  | @classOpened line name' =>
    have hgrows := State.grows_enroll { s with depth := s.depth + 1 } name' .newClass
    rw [State.spine_enroll]
    refine iff_of_false ?_ (by simp [Roll.after])
    intro howner
    rcases hgrows.ownerHas_iff.mp howner with ⟨id, r, hr, hk, -⟩ | ⟨hk, -⟩
    · exact Nat.lt_irrefl _ (hs.owner_lt hr hk)
    · exact hs.parent_ne_nextId hk
  | classEntered => exact h.members rfl name
  | @methodOpened a name' procedure isConstructor returns opens =>
    have hne : a ≠ .closeClass := by
      rintro rfl
      cases opens
    rw [Roll.after_routine opens, hclass rfl hne]
    exact h.members_enroll hs name' (.newMethod returns) name
  | paramsEntered => exact h.members rfl name
  | methodClosed sheds =>
    obtain ⟨c, q, hc, hq, hisClass, -⟩ := hs.placed.openClass rfl
    rw [hclass rfl (by simp)]
    refine (sheds.ownerHas_iff fun id r hr howner => ?_).trans (h.members rfl name)
    have hdepth := hs.names.depth_of_class hs.fits hs.placed hq hisClass hr (howner.trans hc)
    exact Nat.le_of_eq hdepth.1
  | _ => cases hψ

/-- Code gives the open method a word that no text can name, or the name that it warns of. -/
theorem inner_code {t : State} (h : Enrolled done .body s.spine)
    (hdone : State.initial.run done = (s, none)) (hcode : a.isCode = true)
    (happly : a.apply s = .ok t) {name : String} (hword : IsWord name) :
    t.symbols.OwnerHas s.parent name ↔
      name ∈ (declarations done).names ∨ name ∈ recoveredNames (done ++ [a]) := by
  have hinner : s.symbols.OwnerHas s.parent name ↔
      name ∈ (declarations done).names ∨ name ∈ recoveredNames done := h.inner rfl name hword
  have hends : a.endsMethod = false := by cases a <;> first | rfl | cases hcode
  have hwarnings := warnings_step hdone happly
  have hnames : recoveredNames (done ++ [a]) = recoveredNames done ++
      (((Use.at? done a).toList.filter Use.isRecovered).map Use.warning).map Warning.name := by
    rw [recoveredNames_snoc hends, List.map_map]
    rfl
  rcases (State.coded_of_apply hcode happly).warnings_cases with
    ⟨hsame, hsymbols⟩ | ⟨line, other, hwarned⟩
  · have hnone : ((Use.at? done a).toList.filter Use.isRecovered).map Use.warning = [] := by
      rw [hsame] at hwarnings
      exact List.self_eq_append_right.mp hwarnings
    rw [hnames, hnone, List.map_nil, List.append_nil, ← hinner]
    rcases hsymbols with hsymbols | hsymbols
    · rw [hsymbols]
    · rw [hsymbols, s.grows_newTemp.ownerHas_iff]
      refine or_iff_left fun hnew => not_isWord_frameSlot _ (hnew.2 ▸ hword)
  · have hone : ((Use.at? done a).toList.filter Use.isRecovered).map Use.warning =
        [⟨line, other⟩] := by
      rw [hwarned.warnings, Array.toList_push] at hwarnings
      exact (List.append_cancel_left hwarnings).symm
    rw [hnames, hone, hwarned.symbols, (s.grows_enroll other .placeholder).ownerHas_iff, hinner]
    change _ ∨ s.parent = s.parent ∧ other = name ↔ _
    simp [or_assoc, eq_comm]

theorem inner_move (h : Enrolled done φ s.spine) (hs : Stands φ s)
    (hdone : State.initial.run done = (s, none)) (hearly : φ ≠ .body → recoveredNames done = [])
    (hmove : Move s φ a ψ p) (hψ : ψ.depth = 2) {name : String} (hword : IsWord name) :
    p.symbols.OwnerHas p.parent name ↔
      name ∈ (declarations (done ++ [a])).names ∨ name ∈ recoveredNames (done ++ [a]) := by
  rw [declarations_snoc]
  cases hmove with
  | still beside _ aside =>
    have hquiet : a.endsMethod = false ∧ a.use? = none := by
      cases a <;> first | exact ⟨rfl, rfl⟩ | cases aside
    rw [Declarations.names_after (.inl aside), recoveredNames_of_use? hquiet.1 hquiet.2]
    refine h.inner ?_ name hword
    rcases beside with rfl | ⟨rfl, -⟩ | ⟨rfl, -⟩
    · exact hψ
    · rfl
    · rfl
  | @declared φ line name' entity =>
    have hinner : s.symbols.OwnerHas s.parent name ↔
        name ∈ (declarations done).names ∨ name ∈ recoveredNames done := h.inner hψ name hword
    have hgrows := s.grows_enroll name' entity
    rw [State.spine_enroll, Declarations.mem_names_declare, recoveredNames_of_use? rfl rfl,
      or_right_comm, ← hinner]
    refine hgrows.ownerHas_iff.trans (or_congr_right ?_)
    exact and_iff_right rfl
  | @coded a t _ within kind applied =>
    rw [Declarations.names_after (.inr kind), show t.spine.parent = s.parent from within.parent]
    rcases kind with hcode | rfl
    · exact h.inner_code hdone hcode applied hword
    · rw [recoveredNames_of_use? rfl rfl]
      refine (within.symbols.ownerHas_iff fun id r hge hr => ?_).trans (h.inner rfl name hword)
      have hlt := SymbolTable.get?_lt hr
      rw [nextId_sizeFrame applied] at hlt
      exact absurd hlt (Nat.not_lt_of_le hge)
  | @paramsEntered id current =>
    rw [recoveredNames_of_use? rfl rfl, hearly (by simp)]
    refine iff_of_false ?_ (by simp [Declarations.after, Declarations.names])
    rintro ⟨i, r, hr, howner, -⟩
    obtain ⟨m, q, hm, hq, hmethod, -⟩ := hs.placed.openMethod rfl
    cases current.symm.trans hm
    have hdepth := (hs.names.depth_of_method hs.placed hq hmethod hr howner).1
    have hle := hs.fits.bounded_le (Nat.le_refl 1) i r hr
    omega
  | _ => cases hψ

/-- Outside classes there is nothing to tell. -/
theorem outside (hscope : (roll done).scope = .outside) (hφ : φ = .preface ∨ φ = .file) :
    Enrolled done φ p := by
  rcases hφ with rfl | rfl
  · exact ⟨hscope, fun hclass => (by cases hclass), fun hdepth => (by cases hdepth)⟩
  · exact ⟨hscope, fun hclass => (by cases hclass), fun hdepth => (by cases hdepth)⟩

/-- Behind every run the open scope has what it has declared. -/
theorem run {σ : Stage} (hordered : Stage.Ordered (.of .preface) done σ)
    (hrun : State.initial.run done = (s, none)) :
    (σ ≠ .code → recoveredNames done = []) ∧ Enrolled done σ.phase s.spine :=
  (hordered.state_induction (P := fun _ => True)
    (I := fun done σ s => State.initial.run done = (s, none) ∧
      (σ ≠ .code → recoveredNames done = []) ∧ Enrolled done σ.phase s.spine)
    (fun _ _ h => ⟨h.1, fun _ => h.2.1 (by simp), outside h.2.2.scope (.inr rfl)⟩)
    (fun _ _ h => ⟨h.1, fun hne => absurd rfl hne, h.2.2⟩)
    (by
      rintro done σ a τ s t - hs ⟨hdone, hearly, h⟩ hnext happly
      have hmove := move_of_apply hs.fits (Stage.phase_of_next? hnext).2 happly
      refine ⟨?_, recoveredNames_step hnext hearly, h.scope_move hmove,
        h.members_move hs hmove, fun hψ name => h.inner_move hs hdone ?_ hmove hψ⟩
      · exact State.run_append_eq_none.mpr ⟨s, hdone, State.run_cons_eq_none.mpr ⟨t, happly, rfl⟩⟩
      · intro hbody
        refine hearly ?_
        rintro rfl
        exact hbody rfl)
    (fun _ _ => trivial) [] stands_initial ⟨rfl, fun _ => rfl, outside rfl (.inl rfl)⟩ hrun).2

end Enrolled

end Triad
