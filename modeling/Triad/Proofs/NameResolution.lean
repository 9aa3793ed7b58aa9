import Triad.Proofs.DeclaredNames

/-!
What a name stands for inside a method. A record stays in the table, but for those inside a method,
which go when the method is closed. The name of a record that the method has declared stands for that
record, then that of a member of its class, then that of the newest record there is. Main statement:
`lookup_follows_scopes`.
-/

namespace Triad

/-- Behind some of the actions the table had the record under the number. -/
def Introduced (done : List Action) (id : SymbolId) (r : Symbol) : Prop :=
  ∃ before after u, done = before ++ after ∧ State.initial.run before = (u, none) ∧
    u.symbols.get? id = some r

/-! ## Records that were introduced -/

/-- What became of a record: it is live, or it was inside a method that is closed by now. -/
inductive Kept (id : SymbolId) (r : Symbol) (p : State.Spine) : Prop
  | live {r' : Symbol} (live : p.symbols.get? id = some r') (same : r'.outline = r.outline)
  | gone {m : SymbolId} {q : Symbol} (inner : r.entity.isInner = true) (owner : r.owner = some m)
      (method : p.symbols.get? m = some q)
      (isMethod : q.entity.isMethod = true) (closed : p.currentMethod ≠ some m)
      (removed : p.symbols.get? id = none) (old : id < p.symbols.nextId)

section Steps

variable {N : String → Prop} {φ ψ : Phase} {s : State} {p p' : State.Spine} {id : SymbolId}
  {r : Symbol}

/-- No record goes while there are only new ones. -/
theorem Kept.evolve {depth : Nat} (h : Kept id r p) (hsymbols : p.symbols.Evolves depth p'.symbols)
    (hmethod : p'.currentMethod = p.currentMethod ∨
      p'.currentMethod = some p.symbols.nextId) : Kept id r p' := by
  cases h with
  | live live same =>
    obtain ⟨r', hr', hout⟩ := hsymbols.get? live
    exact .live hr' (hout.trans same)
  | gone inner owner method isMethod closed removed old =>
    obtain ⟨q', hq', hout⟩ := hsymbols.get? method
    refine .gone inner owner hq' ((Symbol.isMethod_of_outline hout).trans isMethod) ?_ ?_
      (Nat.lt_of_lt_of_le old hsymbols.next_le)
    · rcases hmethod with hsame | hnew
      · rw [hsame]
        exact closed
      · rw [hnew]
        rintro ⟨⟩
        exact absurd (SymbolTable.get?_lt method) (Nat.lt_irrefl _)
    · have hold := hsymbols.old id old
      rw [removed] at hold
      exact Option.map_eq_none_iff.mp hold

/-- Leaving a scope closes the open method, if there is one, and what is inside it goes. -/
theorem Kept.shed (hs : Fits φ s) (hplaced : Placed N φ s.spine) (h : Kept id r s.spine)
    (hsheds : s.symbols.Sheds p'.symbols) (hclosed : p'.currentMethod = none) : Kept id r p' := by
  have hsame := hplaced.sameOuter hsheds
  have hgone : ∀ {m : SymbolId} {q : Symbol}, r.entity.isInner = true → r.owner = some m →
      s.symbols.get? m = some q → q.entity.isMethod = true → p'.symbols.get? id = none →
      id < s.symbols.nextId → Kept id r p' := by
    intro m q hinner howner hq hmethod hremoved hold
    obtain ⟨q', hq', hout⟩ := hsame.get? m q hq (Entity.isInner_of_isMethod hmethod)
    refine .gone hinner howner hq' ((Symbol.isMethod_of_outline hout).trans hmethod) ?_ hremoved
      (hsheds.nextId ▸ hold)
    rw [hclosed]
    nofun
  cases h with
  | @live r' live same =>
    rcases Nat.lt_or_ge 1 r'.depth with hdeep | houter
    · have hremoved : p'.symbols.get? id = none := by
        cases hr'' : p'.symbols.get? id with
        | none => rfl
        | some r'' =>
          obtain ⟨hle, q, hq, hout⟩ := hsheds.get?_old id r'' hr''
          cases live.symm.trans hq
          rw [Symbol.depth_of_outline hout] at hdeep
          omega
      cases hplaced.records id r' live with
      | space _ depth => omega
      | classType _ depth => omega
      | member _ depth => omega
      | inner depth entity owner =>
        obtain ⟨m, q, hm, hq, hmethod⟩ := hplaced.exists_parent (hs.depth_eq_two live depth)
        exact hgone ((Symbol.isInner_of_outline same).symm.trans entity)
          ((Symbol.owner_of_outline same).symm.trans (owner.trans hm)) hq hmethod hremoved
          (SymbolTable.get?_lt live)
    · obtain ⟨r'', hr'', hout⟩ := hsheds.get? id r' live houter
      exact .live hr'' (hout.trans same)
  | gone inner owner method isMethod closed removed old =>
    refine hgone inner owner method isMethod ?_ old
    cases hr'' : p'.symbols.get? id with
    | none => rfl
    | some r'' =>
      obtain ⟨-, q, hq, -⟩ := hsheds.get?_old id r'' hr''
      cases removed.symm.trans hq

theorem kept_move {a : Action} (hs : Fits φ s) (hplaced : Placed N φ s.spine)
    (h : Kept id r s.spine) (hmove : Move s φ a ψ p) : Kept id r p := by
  have hrefl : s.symbols.Evolves 0 s.symbols := .refl 0 _
  cases hmove with
  | still => exact h
  | @declared φ line name entity inScope plain =>
    refine h.evolve (s.evolves_enroll name entity) (.inl ?_)
    rw [State.spine_enroll]
    cases entity <;> first | rfl | cases plain
  | coded _ within => exact h.evolve within.symbols (.inl within.currentMethod)
  | @spaceOpened line name start =>
    refine h.evolve (s.evolves_enroll name .space) (.inl ?_)
    rw [State.spine_enroll]
    rfl
  | spaceClosed => exact h.evolve hrefl (.inl rfl)
  | @classOpened line name =>
    refine h.evolve (State.evolves_enroll { s with depth := s.depth + 1 } name .newClass) (.inl ?_)
    rw [State.spine_enroll]
    rfl
  | classEntered => exact h.evolve hrefl (.inl rfl)
  | @methodOpened a name procedure isConstructor returns =>
    refine h.evolve (s.evolves_enroll name (.newMethod returns)) (.inr ?_)
    rw [State.spine_enroll]
    rfl
  | paramsEntered => exact h.evolve hrefl (.inl rfl)
  | methodClosed sheds => exact h.shed hs hplaced sheds rfl
  | classClosed sheds => exact h.shed hs hplaced sheds rfl

end Steps

/-- Every record that was introduced is live, or was inside a method that is closed by now. -/
theorem kept_of_introduced {done : List Action} {φ : Phase} (hlegal : Phase.Legal .preface done φ)
    {s : State} (hrun : State.initial.run done = (s, none)) {id : SymbolId} {r : Symbol}
    (h : Introduced done id r) : Kept id r s.spine := by
  obtain ⟨before, after, u, rfl, hu, hr⟩ := h
  obtain ⟨χ, hbefore, hafter⟩ := hlegal.split
  obtain ⟨u', hu', hrest⟩ := State.run_append_eq_none.mp hrun
  cases hu.symm.trans hu'
  have hnames : ∀ a ∈ before, a.Names fun _ => True := fun a _ => by cases a <;> trivial
  have hkept := hafter.run_induction
    (I := fun _ φ p => Placed (fun _ => True) φ p ∧ Kept id r p) (P := fun _ => True)
    (fun _ p h => ⟨h.1.begin, h.2⟩)
    (by
      rintro _ φ a ψ s p - hs ⟨hplaced, h⟩ hmove
      refine ⟨placed_move hs hplaced ?_ hmove, kept_move hs hplaced h hmove⟩
      cases a <;> trivial)
    (fun _ _ => trivial) before (fits_of_run fits_initial hbefore hu)
    ⟨placed_run hbefore hnames hu, .live hr rfl⟩ hrest
  exact hkept.2

/-- Namespaces, classes and methods stay. -/
theorem live_of_outer {done : List Action} {φ : Phase} (hlegal : Phase.Legal .preface done φ)
    {s : State} (hrun : State.initial.run done = (s, none)) {id : SymbolId} {r : Symbol}
    (h : Introduced done id r) (houter : r.entity.isInner = false) :
    ∃ r', s.symbols.get? id = some r' ∧ r'.outline = r.outline := by
  cases kept_of_introduced hlegal hrun h with
  | live live same => exact ⟨_, live, same⟩
  | gone inner =>
    rw [houter] at inner
    cases inner

/-! ## Names inside a method -/

/-- The record of the number was introduced with that owner and that name. -/
def Owns (done : List Action) (owner : SymbolId) (name : String) (id : SymbolId) : Prop :=
  ∃ r, Introduced done id r ∧ r.owner = some owner ∧ r.name = name

/-- What a name stands for inside a method `m` of a class `c`. -/
inductive Resolved (done : List Action) (s : State) (m c : SymbolId) (name : String) :
    Option SymbolId → Prop
  | own {id : SymbolId} {r : Symbol} (owned : Owns done m name id)
      (only : ∀ i, Owns done m name i → i = id) (live : s.symbols.get? id = some r)
      (inner : r.entity.isInner = true) : Resolved done s m c name (some id)
  | member {id : SymbolId} {r : Symbol} (notOwn : ∀ i, ¬ Owns done m name i)
      (owned : Owns done c name id) (only : ∀ i, Owns done c name i → i = id)
      (live : s.symbols.get? id = some r) (isMember : r.entity.isMember = true) :
      Resolved done s m c name (some id)
  | outer {id : SymbolId} {r : Symbol} (notOwn : ∀ i, ¬ Owns done m name i)
      (notMember : ∀ i, ¬ Owns done c name i) (live : s.symbols.get? id = some r)
      (named : r.name = name)
      (newest : ∀ i q, s.symbols.get? i = some q → q.name = name → i ≤ id)
      (kind : r.entity = .space ∨ r.entity.isClass = true ∨
        ∃ k q, r.owner = some k ∧ k < c ∧ s.symbols.get? k = some q ∧ q.entity.isClass = true) :
      Resolved done s m c name (some id)
  | unknown (notOwn : ∀ i, ¬ Owns done m name i) (notMember : ∀ i, ¬ Owns done c name i)
      (nameless : ∀ i q, s.symbols.get? i = some q → q.name ≠ name) :
      Resolved done s m c name none

theorem owns_of_live {done : List Action} {s : State} (hrun : State.initial.run done = (s, none))
    {id k : SymbolId} {r : Symbol} {name : String} (hr : s.symbols.get? id = some r)
    (howner : r.owner = some k) (hname : r.name = name) : Owns done k name id :=
  ⟨r, ⟨done, [], s, (List.append_nil done).symm, hrun, hr⟩, howner, hname⟩

theorem not_atRoot_of_ne {t : SymbolTable} {k : SymbolId} {q : Symbol} (hq : t.get? k = some q)
    (hspace : q.entity ≠ .space) : ¬ AtRoot t (some k) := by
  intro hroot
  obtain ⟨r, hr, hentity⟩ := hroot k rfl
  cases hq.symm.trans hr
  exact hspace hentity

/-- Behind the actions the method `m` of the class `c` is open. -/
structure Inside (φ : Phase) (done : List Action) (s : State) (m c : SymbolId) : Prop where
  legal : Phase.Legal .preface done φ
  run : State.initial.run done = (s, none)
  depth : φ.depth = 2
  fits : Fits φ s
  placed : Placed (fun _ => True) φ s.spine
  names : Scoped φ s.spine
  parent : s.parent = some m
  currentMethod : s.currentMethod = some m
  method : ∃ q, s.symbols.get? m = some q ∧ q.entity.isMethod = true ∧ q.owner = some c
  currentClass : s.currentClass = some c
  classType : ∃ q, s.symbols.get? c = some q ∧ q.entity.isClass = true
  newest : ∀ id q, s.symbols.get? id = some q → q.entity.isClass = true → id ≤ c

theorem exists_inside {done : List Action} {φ : Phase} {s : State}
    (hlegal : Phase.Legal .preface done φ) (hrun : State.initial.run done = (s, none))
    (hdepth : s.depth = 2) : ∃ m c, Inside φ done s m c := by
  have hs := fits_of_run fits_initial hlegal hrun
  obtain ⟨hplaced, hscoped⟩ := scoped_run (N := fun _ => True) hlegal
    (fun a _ => by cases a <;> trivial) hrun
  have hφ : φ.depth = 2 := hs.depth.symm.trans hdepth
  obtain ⟨m, q, hm, hq, hmethod, howner⟩ := hplaced.openMethod (Phase.inMethod_of_depth hφ)
  obtain ⟨c, o, hc, ho, hclass, hnewest⟩ := hplaced.openClass (Phase.inClass_of_depth hφ)
  exact ⟨m, c, hlegal, hrun, hφ, hs, hplaced, hscoped, (hplaced.methodParent hφ).trans hm, hm,
    ⟨q, hq, hmethod, howner.trans hc⟩, hc, ⟨o, ho, hclass⟩, hnewest⟩

namespace Inside

variable {φ : Phase} {done : List Action} {s : State} {m c k id i : SymbolId} {r : Symbol}
  {name : String}

/-- What the method and its class own is live. -/
theorem live_of_owns (h : Inside φ done s m c) (hk : k = m ∨ k = c) (howns : Owns done k name i) :
    ∃ r, s.symbols.get? i = some r ∧ r.owner = some k ∧ r.name = name := by
  obtain ⟨r, hintroduced, howner, hname⟩ := howns
  cases kept_of_introduced h.legal h.run hintroduced with
  | @live r' live same =>
    exact ⟨r', live, (Symbol.owner_of_outline same).trans howner,
      (Symbol.name_of_outline same).trans hname⟩
  | gone _ owner method isMethod closed =>
    cases owner.symm.trans howner
    rcases hk with rfl | rfl
    · exact absurd h.currentMethod closed
    · obtain ⟨q, hq, hclass⟩ := h.classType
      cases hq.symm.trans method
      rw [Entity.isMethod_of_isClass hclass] at isMethod
      cases isMethod

/-- Neither the method nor its class owns two records of a name. -/
theorem eq_of_owns (h : Inside φ done s m c) (hk : k = m ∨ k = c) (hword : IsWord name)
    (hi : Owns done k name i) (hid : Owns done k name id) : i = id := by
  have hroot : ¬ AtRoot s.symbols (some k) := by
    rcases hk with rfl | rfl
    · obtain ⟨q, hq, hmethod, -⟩ := h.method
      refine not_atRoot_of_ne hq fun hspace => ?_
      rw [hspace] at hmethod
      cases hmethod
    · obtain ⟨q, hq, hclass⟩ := h.classType
      refine not_atRoot_of_ne hq fun hspace => ?_
      rw [hspace] at hclass
      cases hclass
  obtain ⟨r, hr, howner, rfl⟩ := h.live_of_owns hk hi
  obtain ⟨r', hr', howner', hname⟩ := h.live_of_owns hk hid
  exact h.names.distinct (some k) hroot i id r r' hr hr' howner howner' hname.symm (.inl hword)

/-- A record that the method has declared hides all others of its name. -/
theorem resolved_own (h : Inside φ done s m c) (hword : IsWord name) (hi : Owns done m name i)
    (hfound : s.symbols.lookup name = some id) (hr : s.symbols.get? id = some r)
    (hname : r.name = name) : Resolved done s m c name (some id) := by
  obtain ⟨q, hq, hmethod, -⟩ := h.method
  obtain ⟨r₀, hr₀, howner₀, rfl⟩ := h.live_of_owns (.inl rfl) hi
  obtain ⟨hdeep, -⟩ := h.names.depth_of_method h.placed hq hmethod hr₀ howner₀
  obtain ⟨hdepth, howner⟩ := Scoped.newest_of_method h.fits h.placed hr₀ hdeep hfound hr
  have hid : Owns done m r₀.name id := owns_of_live h.run hr (howner.trans h.parent) hname
  refine .own hid (fun j hj => h.eq_of_owns (.inl rfl) hword hj hid) hr ?_
  cases h.placed.records id r hr with
  | space _ depth => omega
  | classType _ depth => omega
  | member _ depth => omega
  | inner _ entity => exact entity

/-- A member of the class hides all others of its name but for what the method has declared. -/
theorem resolved_member (h : Inside φ done s m c) (hword : IsWord name)
    (hnotOwn : ∀ i, ¬ Owns done m name i) (hi : Owns done c name i)
    (hfound : s.symbols.lookup name = some id) (hr : s.symbols.get? id = some r)
    (hname : r.name = name) : Resolved done s m c name (some id) := by
  have hinClass := Phase.inClass_of_depth h.depth
  obtain ⟨q, hq, hclass⟩ := h.classType
  obtain ⟨r₀, hr₀, howner₀, rfl⟩ := h.live_of_owns (.inr rfl) hi
  rcases h.names.newest_of_class h.fits h.placed hinClass h.currentClass hr₀ howner₀ hfound hr with
    ⟨hdepth, howner⟩ | ⟨-, howner⟩
  · have hid : Owns done c r₀.name id := owns_of_live h.run hr howner hname
    refine .member hnotOwn hid (fun j hj => h.eq_of_owns (.inr rfl) hword hj hid) hr ?_
    cases h.placed.records id r hr with
    | space _ depth => omega
    | classType _ _ _ entity =>
      obtain ⟨q', hq', hspace⟩ := h.names.classes id r hr entity c howner
      cases hq.symm.trans hq'
      rw [hspace] at hclass
      cases hclass
    | member _ _ _ entity => exact entity
    | inner depth => omega
  · exact absurd (owns_of_live h.run hr (howner.trans h.parent) hname) (hnotOwn id)

/-- All else that a name can stand for is outside the class. -/
theorem resolved_outer (h : Inside φ done s m c) (hnotOwn : ∀ i, ¬ Owns done m name i)
    (hnotMember : ∀ i, ¬ Owns done c name i) (hr : s.symbols.get? id = some r)
    (hname : r.name = name)
    (hnewest : ∀ i q, s.symbols.get? i = some q → q.name = name → i ≤ id) :
    Resolved done s m c name (some id) := by
  refine .outer hnotOwn hnotMember hr hname hnewest ?_
  cases h.placed.records id r hr with
  | space _ _ _ entity => exact .inl entity
  | classType _ _ _ entity => exact .inr (.inl entity)
  | @member _ _ _ _ k q owner older live isClass =>
    have hne : k ≠ c := by
      rintro rfl
      exact hnotMember id (owns_of_live h.run hr owner hname)
    exact .inr (.inr ⟨k, q, owner, Nat.lt_of_le_of_ne (h.newest k q live isClass) hne, live,
      isClass⟩)
  | inner _ _ owner =>
    exact absurd (owns_of_live h.run hr (owner.trans h.parent) hname) (hnotOwn id)

theorem resolved_lookup (h : Inside φ done s m c) (hword : IsWord name) :
    Resolved done s m c name (s.symbols.lookup name) := by
  cases hfound : s.symbols.lookup name with
  | none =>
    have hnone := (SymbolTable.lookup_eq_none_iff h.fits.chained name).mp hfound
    refine .unknown (fun i hi => ?_) (fun i hi => ?_) hnone
    · obtain ⟨r, hr, -, hname⟩ := h.live_of_owns (.inl rfl) hi
      exact hnone i r hr hname
    · obtain ⟨r, hr, -, hname⟩ := h.live_of_owns (.inr rfl) hi
      exact hnone i r hr hname
  | some id =>
    obtain ⟨⟨r, hr, hname⟩, hnewest⟩ :=
      (SymbolTable.lookup_eq_some_iff h.fits.chained name id).mp hfound
    by_cases hown : ∃ i, Owns done m name i
    · obtain ⟨i, hi⟩ := hown
      exact h.resolved_own hword hi hfound hr hname
    by_cases hmember : ∃ i, Owns done c name i
    · obtain ⟨i, hi⟩ := hmember
      exact h.resolved_member hword (not_exists.mp hown) hi hfound hr hname
    · exact h.resolved_outer (not_exists.mp hown) (not_exists.mp hmember) hr hname hnewest

theorem owns_iff_ownerHas (h : Inside φ done s m c) (hk : k = m ∨ k = c) :
    (∃ i, Owns done k name i) ↔ s.symbols.OwnerHas (some k) name := by
  constructor
  · rintro ⟨i, hi⟩
    obtain ⟨r, hr, howner, hname⟩ := h.live_of_owns hk hi
    exact ⟨i, r, hr, howner, hname⟩
  · rintro ⟨i, r, hr, howner, hname⟩
    exact ⟨i, owns_of_live h.run hr howner hname⟩

/-- The method owns what the text declares in it and what got a placeholder there. -/
theorem owns_method_iff (h : Inside φ done s m c) (henrolled : Enrolled done φ s.spine)
    (hword : IsWord name) : (∃ i, Owns done m name i) ↔
      name ∈ declaredNames done ∨ name ∈ recoveredNames done := by
  have hscope : (roll done).scope = .method := by
    have hφ := h.depth
    rw [henrolled.scope]
    cases φ <;> first | rfl | cases hφ
  rw [h.owns_iff_ownerHas (.inl rfl), ← h.parent, declaredNames, hscope]
  exact henrolled.inner h.depth name hword

/-- The class owns what the text has declared in it. -/
theorem owns_class_iff (h : Inside φ done s m c) (henrolled : Enrolled done φ s.spine) :
    (∃ i, Owns done c name i) ↔ name ∈ (roll done).members := by
  rw [h.owns_iff_ownerHas (.inr rfl), ← h.currentClass]
  exact henrolled.members (Phase.inClass_of_depth h.depth) name

end Inside

/-- What was inside a method that is closed is not in the table. -/
theorem removed_of_closed {done : List Action} {φ : Phase} {s : State}
    (hlegal : Phase.Legal .preface done φ) (hrun : State.initial.run done = (s, none))
    {k : SymbolId} {q : Symbol} (hq : Introduced done k q) (hmethod : q.entity.isMethod = true)
    (hclosed : s.currentMethod ≠ some k) {id : SymbolId} {r : Symbol} (h : Introduced done id r)
    (howner : r.owner = some k) : s.symbols.get? id = none := by
  obtain ⟨q', hq', hout⟩ := live_of_outer hlegal hrun hq (Entity.isInner_of_isMethod hmethod)
  rw [← Symbol.isMethod_of_outline hout] at hmethod
  cases kept_of_introduced hlegal hrun h with
  | @live r' live same =>
    have hs := fits_of_run fits_initial hlegal hrun
    obtain ⟨hplaced, hscoped⟩ := scoped_run (N := fun _ => True) hlegal
      (fun a _ => by cases a <;> trivial) hrun
    obtain ⟨hdepth, hparent⟩ := hscoped.depth_of_method hplaced hq' hmethod live
      ((Symbol.owner_of_outline same).trans howner)
    have hopen := hplaced.methodParent (hs.depth_eq_two live hdepth)
    exact absurd (hopen.symm.trans hparent) hclosed
  | gone _ _ _ _ _ removed => exact removed

/-- Inside a method `m` of a class `c`, a name stands for what `m` has declared under it, else for
the member of `c` of that name, else for the newest record that has it, which is a namespace, a class
or a member of an older class. What `m` and `c` have declared is told by the text: the names of the
parameters, locals and constants of `m` and those that got a placeholder in it, and the members of
`c`. No text leads to a state in which a name stands for something that was declared inside a method
that is closed. -/
theorem lookup_follows_scopes {source : String} {done rest : List Action} {s : State}
    (hactions : (Grammar.parse (Scanner.ofString source).scan).1 = done ++ rest)
    (hrun : State.initial.run done = (s, none)) :
    (s.depth = 2 → ∃ m c q, s.parent = some m ∧ s.currentClass = some c ∧
      s.symbols.get? m = some q ∧ q.entity.isMethod = true ∧ q.owner = some c ∧
      ∀ name, IsWord name → Resolved done s m c name (s.symbols.lookup name) ∧
        ((∃ i, Owns done m name i) ↔ name ∈ declaredNames done ∨ name ∈ recoveredNames done) ∧
        ((∃ i, Owns done c name i) ↔ name ∈ (roll done).members)) ∧
    ∀ k q, Introduced done k q → q.entity.isMethod = true → s.currentMethod ≠ some k →
      ∀ id r, Introduced done id r → r.owner = some k →
        s.symbols.get? id = none ∧ ∀ name, s.symbols.lookup name ≠ some id := by
  obtain ⟨τ, hordered⟩ := Grammar.exists_ordered (Scanner.ofString source).scan
  rw [hactions] at hordered
  obtain ⟨σ, hfirst, -⟩ := hordered.split
  have hlegal := hfirst.legal
  refine ⟨fun hdepth => ?_, fun k q hq hmethod hclosed id r hintroduced howner => ?_⟩
  · obtain ⟨m, c, h⟩ := exists_inside hlegal hrun hdepth
    obtain ⟨q, hq, hmethod, howner⟩ := h.method
    obtain ⟨-, henrolled⟩ := Enrolled.run hfirst hrun
    exact ⟨m, c, q, h.parent, h.currentClass, hq, hmethod, howner, fun name hword =>
      ⟨h.resolved_lookup hword, h.owns_method_iff henrolled hword, h.owns_class_iff henrolled⟩⟩
  · have hremoved := removed_of_closed hlegal hrun hq hmethod hclosed hintroduced howner
    refine ⟨hremoved, fun name hfound => ?_⟩
    have hs := fits_of_run fits_initial hlegal hrun
    obtain ⟨⟨r', hr', -⟩, -⟩ := (SymbolTable.lookup_eq_some_iff hs.chained name id).mp hfound
    cases hremoved.symm.trans hr'

namespace Sample

/-- A method with a parameter that has the name of a field, a constant, a local and a name without a
declaration. -/
def shadowed : String :=
  "class A\x7bint x,y;int Main(int x)\x7bconst int k=1;int z;z=y+u;\x7d\x7d"

def shadowedActions : List Action := (Grammar.parse (Scanner.ofString shadowed).scan).1

/-- What comes before the assignment. -/
def shadowedInside : List Action := (Action.assign none).before shadowedActions

/-- What comes before the end of the class, where its method is closed. -/
def shadowedBehind : List Action := Action.closeClass.before shadowedActions

end Sample

open Sample in
theorem lookup_follows_scopes_shadowed :
    (declaredNames shadowedInside = ["x", "k", "z"] ∧ recoveredNames shadowedInside = ["u"] ∧
      (roll shadowedInside).members = ["x", "y", "Main"]) ∧
    (∃ s m c, State.initial.run shadowedInside = (s, none) ∧
      (∃ i, Owns shadowedInside m "k" i) ∧ (∃ i, Owns shadowedInside c "y" i) ∧
      Resolved shadowedInside s m c "x" (some 4) ∧ Resolved shadowedInside s m c "k" (some 5) ∧
      Resolved shadowedInside s m c "z" (some 6) ∧ Resolved shadowedInside s m c "u" (some 7) ∧
      Resolved shadowedInside s m c "y" (some 2) ∧ Resolved shadowedInside s m c "A" (some 0) ∧
      Resolved shadowedInside s m c "w" none) ∧
    ∃ s, State.initial.run shadowedBehind = (s, none) ∧ ∀ id ∈ [4, 5, 6, 7],
      s.symbols.get? id = none ∧ ∀ name, s.symbols.lookup name ≠ some id := by
  have hnames : declaredNames shadowedInside = ["x", "k", "z"] ∧
      recoveredNames shadowedInside = ["u"] ∧
      (roll shadowedInside).members = ["x", "y", "Main"] := by decide +kernel
  have hinside : (State.initial.run shadowedInside).2 = none ∧
      (State.initial.run shadowedInside).1.depth = 2 ∧
      ["x", "k", "z", "u", "y", "A", "w"].map (State.initial.run shadowedInside).1.symbols.lookup =
        [some 4, some 5, some 6, some 7, some 2, some 0, none] ∧
      ((State.initial.run shadowedInside).1.symbols.get? 3).map (fun r => r.entity.isMethod) =
        some true ∧
      ∀ id ∈ [4, 5, 6, 7],
        ((State.initial.run shadowedInside).1.symbols.get? id).map Symbol.owner = some (some 3) := by
    decide +kernel
  obtain ⟨hrun, hdepth, hlookups, hmethod, hinner⟩ := hinside
  have hbefore := State.run_eq_of_none hrun
  refine ⟨hnames, ?_, ?_⟩
  · have hassign : .assign none ∈ shadowedActions := by decide +kernel
    obtain ⟨m, c, q, -, -, -, -, -, hresolved⟩ :=
      (lookup_follows_scopes (Action.eq_before_behind hassign) hbefore).1 hdepth
    simp only [List.map_cons, List.map_nil, List.cons.injEq, and_true] at hlookups
    obtain ⟨hx, hk, hz, hu, hy, hA, hw⟩ := hlookups
    have hown : "k" ∈ declaredNames shadowedInside := by simp [hnames.1]
    have hmember : "y" ∈ (roll shadowedInside).members := by simp [hnames.2.2]
    refine ⟨_, m, c, hbefore, (hresolved "k" ?_).2.1.mpr (.inl hown),
      (hresolved "y" ?_).2.2.mpr hmember, hx ▸ (hresolved "x" ?_).1, hk ▸ (hresolved "k" ?_).1,
      hz ▸ (hresolved "z" ?_).1, hu ▸ (hresolved "u" ?_).1, hy ▸ (hresolved "y" ?_).1,
      hA ▸ (hresolved "A" ?_).1, hw ▸ (hresolved "w" ?_).1⟩
    all_goals exact isWord_of_all (by decide +kernel)
  · have hclosed : .closeClass ∈ shadowedActions ∧ shadowedInside <+: shadowedBehind ∧
        (State.initial.run shadowedBehind).2 = none ∧
        (State.initial.run shadowedBehind).1.currentMethod = none := by decide +kernel
    obtain ⟨hend, ⟨rest, hrest⟩, hbehind, hnone⟩ := hclosed
    have hopen : (State.initial.run shadowedBehind).1.currentMethod ≠ some 3 := by simp [hnone]
    obtain ⟨q, hq, hisMethod⟩ := Option.map_eq_some_iff.mp hmethod
    refine ⟨_, State.run_eq_of_none hbehind, fun id hid => ?_⟩
    obtain ⟨r, hr, howner⟩ := Option.map_eq_some_iff.mp (hinner id hid)
    exact (lookup_follows_scopes (Action.eq_before_behind hend) (State.run_eq_of_none hbehind)).2 3 q
      ⟨_, _, _, hrest.symm, hbefore, hq⟩ hisMethod hopen id r
      ⟨_, _, _, hrest.symm, hbefore, hr⟩ howner

end Triad
