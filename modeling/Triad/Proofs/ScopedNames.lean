import Triad.Proofs.CodeSteps
import Triad.Proofs.SymbolTree

/-!
The names in a scope. A class and a method own at most one record of each name, because a
declaration looks at the newest record of its name and that one is in the open scope if any is. What
a class owns is inserted before the next class. Main statement: every legal run keeps to this
(`scoped_run`).
-/

namespace Triad

/-- The owner is a namespace, or there is none. -/
def AtRoot (t : SymbolTable) (owner : Option SymbolId) : Prop :=
  ∀ k, owner = some k → ∃ r, t.get? k = some r ∧ r.entity = .space

/-- Classes own at most one record of each name, and methods one of each name that a text can have;
and the records of a class come before the next class. -/
structure Scoped (φ : Phase) (p : State.Spine) : Prop where
  classes : ∀ id r, p.symbols.get? id = some r → r.entity.isClass = true → AtRoot p.symbols r.owner
  root : φ.atRoot = true → AtRoot p.symbols p.parent
  distinct : ∀ owner, ¬ AtRoot p.symbols owner →
    ∀ i j r r', p.symbols.get? i = some r → p.symbols.get? j = some r' → r.owner = owner →
      r'.owner = owner → r.name = r'.name → IsWord r.name ∨ r.depth = 1 ∧ r'.depth = 1 → i = j
  grouped : ∀ k q, p.symbols.get? k = some q → q.entity.isClass = true →
    ∀ id r, p.symbols.get? id = some r → r.owner = some k →
      ∀ c o, p.symbols.get? c = some o → o.entity.isClass = true → c ≤ k ∨ id < c

/-! ## Owners -/

section Owners

variable {N : String → Prop} {φ : Phase} {s : State} {id id' k : SymbolId} {r r' q : Symbol}

/-- Only while a method is open there are records inside a method. -/
theorem Fits.depth_eq_two (hs : Fits φ s) (hr : s.symbols.get? id = some r) (hdepth : r.depth = 2) :
    φ.depth = 2 := by
  have hle : r.depth ≤ φ.bound := hs.bounded id r hr
  rw [hdepth] at hle
  cases φ <;> first | rfl | exact absurd hle (by decide)

/-- Inside a method the open scope is that of the method. -/
theorem Placed.exists_parent (hplaced : Placed N φ s.spine) (hφ : φ.depth = 2) :
    ∃ m q, s.parent = some m ∧ s.symbols.get? m = some q ∧ q.entity.isMethod = true := by
  obtain ⟨m, q, hm, hq, hisMethod, -⟩ := hplaced.openMethod (Phase.inMethod_of_depth hφ)
  exact ⟨m, q, (hplaced.methodParent hφ).trans hm, hq, hisMethod⟩

/-- What a class owns is a member of it. -/
theorem Scoped.depth_of_class (h : Scoped φ s.spine) (hs : Fits φ s) (hplaced : Placed N φ s.spine)
    (hq : s.symbols.get? k = some q) (hclass : q.entity.isClass = true)
    (hr : s.symbols.get? id = some r) (howner : r.owner = some k) : r.depth = 1 ∧ k < id := by
  cases hplaced.records id r hr with
  | space _ _ _ _ owner => cases owner.symm.trans howner
  | classType _ _ _ entity =>
    obtain ⟨o, ho, hspace⟩ := h.classes id r hr entity k howner
    cases hq.symm.trans ho
    rw [hspace] at hclass
    cases hclass
  | member _ depth _ _ owner older =>
    cases owner.symm.trans howner
    exact ⟨depth, older⟩
  | inner depth _ owner =>
    obtain ⟨m, o, hm, ho, hmethod⟩ := hplaced.exists_parent (hs.depth_eq_two hr depth)
    cases hm.symm.trans (owner.symm.trans howner)
    cases hq.symm.trans ho
    rw [Entity.isMethod_of_isClass hclass] at hmethod
    cases hmethod

/-- What a method owns is inside it, and the method is the open one. -/
theorem Scoped.depth_of_method (h : Scoped φ s.spine) (hplaced : Placed N φ s.spine)
    (hq : s.symbols.get? k = some q) (hmethod : q.entity.isMethod = true)
    (hr : s.symbols.get? id = some r) (howner : r.owner = some k) :
    r.depth = 2 ∧ s.parent = some k := by
  cases hplaced.records id r hr with
  | space _ _ _ _ owner => cases owner.symm.trans howner
  | classType _ _ _ entity =>
    obtain ⟨o, ho, hspace⟩ := h.classes id r hr entity k howner
    cases hq.symm.trans ho
    rw [hspace] at hmethod
    cases hmethod
  | member _ _ _ _ owner _ live isClass =>
    cases owner.symm.trans howner
    cases hq.symm.trans live
    rw [Entity.isMethod_of_isClass isClass] at hmethod
    cases hmethod
  | inner depth _ owner => exact ⟨depth, owner.symm.trans howner⟩

/-- If the open method owns a record of a name, then also the newest one of that name. -/
theorem Scoped.newest_of_method (hs : Fits φ s) (hplaced : Placed N φ s.spine)
    (hr : s.symbols.get? id = some r) (hdepth : r.depth = 2)
    (hfound : s.symbols.lookup r.name = some id') (hr' : s.symbols.get? id' = some r') :
    r'.depth = 2 ∧ r'.owner = s.parent := by
  have hle := ((SymbolTable.lookup_eq_some_iff hs.chained r.name id').mp hfound).2 id r hr rfl
  have hdeep : 2 ≤ r'.depth := by
    rcases Nat.lt_or_eq_of_le hle with hlt | rfl
    · rw [← hdepth]
      exact hs.nested id id' r r' hr hr' hlt
    · cases hr.symm.trans hr'
      omega
  cases hplaced.records id' r' hr' with
  | space _ depth => omega
  | classType _ depth => omega
  | member _ depth => omega
  | inner depth _ owner => exact ⟨depth, owner⟩

/-- If the open class owns a record of a name, then the newest one of that name is a member of the
class too, or inside the open method. -/
theorem Scoped.newest_of_class (h : Scoped φ s.spine) (hs : Fits φ s)
    (hplaced : Placed N φ s.spine) (hφ : φ.inClass = true) (hk : s.currentClass = some k)
    (hr : s.symbols.get? id = some r) (howner : r.owner = some k)
    (hfound : s.symbols.lookup r.name = some id') (hr' : s.symbols.get? id' = some r') :
    r'.depth = 1 ∧ r'.owner = some k ∨ r'.depth = 2 ∧ r'.owner = s.parent := by
  obtain ⟨c, q, hc, hq, hclass, hnewest⟩ := hplaced.openClass hφ
  cases hk.symm.trans hc
  obtain ⟨hdepth, holder⟩ := h.depth_of_class hs hplaced hq hclass hr howner
  have hle := ((SymbolTable.lookup_eq_some_iff hs.chained r.name id').mp hfound).2 id r hr rfl
  have hdeep : 1 ≤ r'.depth := by
    rcases Nat.lt_or_eq_of_le hle with hlt | rfl
    · rw [← hdepth]
      exact hs.nested id id' r r' hr hr' hlt
    · cases hr.symm.trans hr'
      omega
  cases hplaced.records id' r' hr' with
  | space _ depth => omega
  | classType _ _ _ entity =>
    have hold := hnewest id' r' hr' entity
    exact absurd (Nat.le_trans hle hold) (Nat.not_le_of_lt holder)
  | @member _ depth _ _ k' q' owner older live isClass =>
    have hold := hnewest k' q' live isClass
    rcases h.grouped k' q' live isClass id' r' hr' owner k q hq hclass with hle' | hlt
    · have heq : k' = k := Nat.le_antisymm hold hle'
      exact .inl ⟨depth, heq ▸ owner⟩
    · exact absurd (Nat.lt_trans (Nat.lt_of_le_of_lt hle hlt) holder) (Nat.lt_irrefl id)
  | inner depth _ owner => exact .inr ⟨depth, owner⟩

/-- If the open class or method owns a record of a name, then also the newest one of that name that
is looked at. -/
theorem Scoped.newest_of_scope (h : Scoped φ s.spine) (hs : Fits φ s)
    (hplaced : Placed N φ s.spine) (hφ : φ.atMembers = true ∨ φ.depth = 2)
    (hr : s.symbols.get? id = some r) (howner : r.owner = s.parent)
    (hfound : s.symbols.lookup r.name = some id') (hr' : s.symbols.get? id' = some r') :
    r'.depth = s.depth ∧ r'.owner = s.parent := by
  rcases hφ with hmembers | hdepth
  · have hphase : φ.inClass = true ∧ φ.depth = 1 := by
      cases φ <;> first | exact ⟨rfl, rfl⟩ | cases hmembers
    obtain ⟨c, q, hc, -⟩ := hplaced.openClass hphase.1
    have hparent : s.parent = some c := (hplaced.classParent hmembers).trans hc
    rcases h.newest_of_class hs hplaced hphase.1 hc hr (howner.trans hparent) hfound hr' with
      ⟨hdepth, howner'⟩ | ⟨hdepth, -⟩
    · exact ⟨hdepth.trans (hs.depth.trans hphase.2).symm, howner'.trans hparent.symm⟩
    · have hinside := hs.depth_eq_two hr' hdepth
      rw [hphase.2] at hinside
      cases hinside
  · obtain ⟨m, q, hm, hq, hmethod⟩ := hplaced.exists_parent hdepth
    obtain ⟨hr2, -⟩ := h.depth_of_method hplaced hq hmethod hr (howner.trans hm)
    rw [hs.depth, hdepth]
    exact Scoped.newest_of_method hs hplaced hr hr2 hfound hr'

/-- A class or a method declares a name just if it owns a record of it. -/
theorem Scoped.declares_iff (h : Scoped φ s.spine) (hs : Fits φ s) (hplaced : Placed N φ s.spine)
    (hφ : φ.atMembers = true ∨ φ.depth = 2) {name : String} :
    s.declares name = true ↔
      ∃ id r, s.symbols.get? id = some r ∧ r.owner = s.parent ∧ r.name = name := by
  have hdeclares : s.declares name = true ↔ ∃ id r, s.symbols.lookup name = some id ∧
      s.symbols.get? id = some r ∧ r.depth = s.depth ∧ r.owner = s.parent := by
    cases hfound : s.symbols.lookup name with
    | none => simp [State.declares, SymbolTable.lookupSymbol, hfound]
    | some id =>
      cases hr : s.symbols.get? id <;>
        simp [State.declares, SymbolTable.lookupSymbol, hfound, hr]
  rw [hdeclares]
  constructor
  · rintro ⟨id, r, hfound, hr, -, howner⟩
    obtain ⟨⟨q, hq, hname⟩, -⟩ := (SymbolTable.lookup_eq_some_iff hs.chained name id).mp hfound
    cases hr.symm.trans hq
    exact ⟨id, r, hr, howner, hname⟩
  · rintro ⟨id, r, hr, howner, rfl⟩
    cases hfound : s.symbols.lookup r.name with
    | none =>
      exact absurd rfl ((SymbolTable.lookup_eq_none_iff hs.chained r.name).mp hfound id r hr)
    | some id' =>
      obtain ⟨⟨r', hr', -⟩, -⟩ := (SymbolTable.lookup_eq_some_iff hs.chained r.name id').mp hfound
      exact ⟨id', r', rfl, hr', h.newest_of_scope hs hplaced hφ hr howner hfound hr'⟩

end Owners

/-! ## Steps -/

section Steps

variable {N : String → Prop} {φ ψ : Phase} {s : State} {p p' : State.Spine}

theorem AtRoot.keep {t t' : SymbolTable} {owner : Option SymbolId} (h : AtRoot t owner)
    (hkeep : ∀ id r, t.get? id = some r → r.entity.isInner = false →
      ∃ r', t'.get? id = some r' ∧ r'.outline = r.outline) : AtRoot t' owner := by
  intro k hk
  obtain ⟨r, hr, hspace⟩ := h k hk
  obtain ⟨r', hr', hout⟩ := hkeep k r hr (by rw [hspace]; rfl)
  exact ⟨r', hr', Symbol.space_of_outline hout hspace⟩

/-- Some records may go, but none that owns others or may come to own some. -/
theorem Scoped.keep (h : Scoped φ p) (hsame : p.symbols.SameOuter p'.symbols)
    (hold : ∀ id r', p'.symbols.get? id = some r' →
      ∃ r, p.symbols.get? id = some r ∧ r.outline = r'.outline)
    (hroot : ψ.atRoot = true → AtRoot p.symbols p'.parent) : Scoped ψ p' where
  classes := by
    intro id r' hr' hclass
    obtain ⟨r, hr, hout⟩ := hold id r' hr'
    rw [← Symbol.owner_of_outline hout]
    exact (h.classes id r hr ((Symbol.isClass_of_outline hout).trans hclass)).keep hsame.get?
  root := fun hψ => (hroot hψ).keep hsame.get?
  distinct := by
    intro owner howner i j r₁' r₂' h₁' h₂' howner₁ howner₂ hname hword
    obtain ⟨r₁, h₁, hout₁⟩ := hold i r₁' h₁'
    obtain ⟨r₂, h₂, hout₂⟩ := hold j r₂' h₂'
    rw [← Symbol.owner_of_outline hout₁] at howner₁
    rw [← Symbol.owner_of_outline hout₂] at howner₂
    rw [← Symbol.name_of_outline hout₁, ← Symbol.name_of_outline hout₂] at hname
    rw [← Symbol.name_of_outline hout₁, ← Symbol.depth_of_outline hout₁,
      ← Symbol.depth_of_outline hout₂] at hword
    exact h.distinct owner (fun hroot => howner (hroot.keep hsame.get?)) i j r₁ r₂ h₁ h₂ howner₁
      howner₂ hname hword
  grouped := by
    intro k q' hq' hclass id r' hr' howner c o' ho' hclass'
    obtain ⟨q, hq, hqout⟩ := hold k q' hq'
    obtain ⟨r, hr, hout⟩ := hold id r' hr'
    obtain ⟨o, ho, hoout⟩ := hold c o' ho'
    exact h.grouped k q hq ((Symbol.isClass_of_outline hqout).trans hclass) id r hr
      ((Symbol.owner_of_outline hout).trans howner) c o ho
      ((Symbol.isClass_of_outline hoout).trans hclass')

/-- One more record. A class is owned by a namespace, and anything else has a name of its own in its
scope and comes before the next class. -/
theorem Scoped.grow (h : Scoped φ p) {q : Symbol} (hgrows : p.symbols.Grows q p'.symbols)
    (hclasses : q.entity.isClass = true → AtRoot p.symbols q.owner)
    (hroot : ψ.atRoot = true → AtRoot p'.symbols p'.parent)
    (hdistinct : ¬ AtRoot p.symbols q.owner → IsWord q.name ∨ q.depth = 1 →
      ∀ id r, p.symbols.get? id = some r → r.owner = q.owner → r.name ≠ q.name)
    (hgrouped : ∀ k o, q.owner = some k → p.symbols.get? k = some o → o.entity.isClass = true →
      ∀ c o, p.symbols.get? c = some o → o.entity.isClass = true → c ≤ k) : Scoped ψ p' where
  classes := by
    intro id r' hr' hclass
    rcases hgrows.cases hr' with ⟨-, hout⟩ | ⟨r, hr, hout⟩
    · rw [Symbol.owner_of_outline hout]
      exact (hclasses ((Symbol.isClass_of_outline hout).symm.trans hclass)).keep
        fun _ _ hr _ => hgrows.evolves.get? hr
    · rw [← Symbol.owner_of_outline hout]
      exact (h.classes id r hr ((Symbol.isClass_of_outline hout).trans hclass)).keep
        fun _ _ hr _ => hgrows.evolves.get? hr
  root := hroot
  distinct := by
    intro owner howner i j r₁' r₂' h₁' h₂' howner₁ howner₂ hname hword
    have hnotRoot : ¬ AtRoot p.symbols owner :=
      fun hroot => howner (hroot.keep fun _ _ hr _ => hgrows.evolves.get? hr)
    rcases hgrows.cases h₁' with ⟨rfl, hout₁⟩ | ⟨r₁, h₁, hout₁⟩ <;>
      rcases hgrows.cases h₂' with ⟨rfl, hout₂⟩ | ⟨r₂, h₂, hout₂⟩
    · rfl
    · rw [Symbol.owner_of_outline hout₁] at howner₁
      rw [← Symbol.owner_of_outline hout₂] at howner₂
      rw [Symbol.name_of_outline hout₁] at hname hword
      rw [Symbol.depth_of_outline hout₁] at hword
      rw [← Symbol.name_of_outline hout₂] at hname
      exact absurd hname.symm (hdistinct (howner₁ ▸ hnotRoot) (hword.imp id And.left) j r₂ h₂
        (howner₂.trans howner₁.symm))
    · rw [← Symbol.owner_of_outline hout₁] at howner₁
      rw [Symbol.owner_of_outline hout₂] at howner₂
      rw [← Symbol.name_of_outline hout₁, Symbol.name_of_outline hout₂] at hname
      rw [← Symbol.name_of_outline hout₁, hname, Symbol.depth_of_outline hout₂] at hword
      exact absurd hname (hdistinct (howner₂ ▸ hnotRoot) (hword.imp id And.right) i r₁ h₁
        (howner₁.trans howner₂.symm))
    · rw [← Symbol.owner_of_outline hout₁] at howner₁
      rw [← Symbol.owner_of_outline hout₂] at howner₂
      rw [← Symbol.name_of_outline hout₁, ← Symbol.name_of_outline hout₂] at hname
      rw [← Symbol.name_of_outline hout₁, ← Symbol.depth_of_outline hout₁,
        ← Symbol.depth_of_outline hout₂] at hword
      exact h.distinct owner hnotRoot i j r₁ r₂ h₁ h₂ howner₁ howner₂ hname hword
  grouped := by
    intro k q' hq' hclass id r' hr' howner c o' ho' hclass'
    have hlast : ∀ {i : SymbolId} {r : Symbol}, p'.symbols.get? i = some r →
        i ≤ p.symbols.nextId := by
      intro i r hr
      have hlt := SymbolTable.get?_lt hr
      rw [hgrows.nextId] at hlt
      exact Nat.le_of_lt_succ hlt
    rcases hgrows.cases hq' with ⟨rfl, -⟩ | ⟨o, ho, hqout⟩
    · exact .inl (hlast ho')
    · rw [← Symbol.isClass_of_outline hqout] at hclass
      rcases hgrows.cases hr' with ⟨rfl, hout⟩ | ⟨r, hr, hout⟩
      · rw [Symbol.owner_of_outline hout] at howner
        rcases hgrows.cases ho' with ⟨-, hoout⟩ | ⟨b, hb, hbout⟩
        · -- a class is not owned by a class
          rw [Symbol.isClass_of_outline hoout] at hclass'
          obtain ⟨d, hd, hspace⟩ := hclasses hclass' k howner
          cases ho.symm.trans hd
          rw [hspace] at hclass
          cases hclass
        · exact .inl (hgrouped k o howner ho hclass c b hb
            ((Symbol.isClass_of_outline hbout).trans hclass'))
      · rw [← Symbol.owner_of_outline hout] at howner
        rcases hgrows.cases ho' with ⟨rfl, -⟩ | ⟨b, hb, hbout⟩
        · exact .inr (SymbolTable.get?_lt hr)
        · exact h.grouped k o ho hclass id r hr howner c b hb
            ((Symbol.isClass_of_outline hbout).trans hclass')

/-- Inside a method the open scope is not that of a class. -/
theorem Placed.not_isClass_parent (hplaced : Placed N φ s.spine) (hφ : φ.depth = 2) {k : SymbolId}
    {o : Symbol} (hk : s.parent = some k) (ho : s.symbols.get? k = some o) :
    ¬ o.entity.isClass = true := by
  intro hclass
  obtain ⟨m, q, hm, hq, hmethod⟩ := hplaced.exists_parent hφ
  cases hm.symm.trans hk
  cases hq.symm.trans ho
  rw [Entity.isMethod_of_isClass hclass] at hmethod
  cases hmethod

/-- A declaration of a name that the open scope does not have. -/
theorem scoped_enroll (hs : Fits φ s) (hplaced : Placed N φ s.spine) (h : Scoped φ s.spine)
    (hφ : φ ∈ [Phase.classBody, .params, .body]) {name : String} {entity : Entity}
    (hentity : entity.isClass = false) (hfresh : s.declares name = false)
    (hsymbols : p'.symbols = (s.enroll name entity).symbols) (hψ : ψ.atRoot = false) :
    Scoped ψ p' := by
  have hgrows : s.spine.symbols.Grows (s.recordOf name entity) p'.symbols :=
    hsymbols ▸ s.grows_enroll name entity
  have hscope : φ.atMembers = true ∨ φ.depth = 2 := by
    simp only [List.mem_cons, List.not_mem_nil, or_false] at hφ
    rcases hφ with rfl | rfl | rfl
    · exact .inl rfl
    · exact .inr rfl
    · exact .inr rfl
  refine h.grow hgrows (fun hclass => ?_) (fun hroot => ?_) (fun _ _ id r hr howner hname => ?_) ?_
  · rw [show (s.recordOf name entity).entity.isClass = entity.isClass by cases entity <;> rfl,
      hentity] at hclass
    cases hclass
  · rw [hψ] at hroot
    cases hroot
  · have htaken : s.declares name = true :=
      (h.declares_iff hs hplaced hscope).mpr ⟨id, r, hr, howner, hname⟩
    rw [hfresh] at htaken
    cases htaken
  · intro k o hk ho hclass c o' ho' hclass'
    rcases hscope with hmembers | hdepth
    · obtain ⟨c', q, hc', -, -, hnewest⟩ :=
        hplaced.openClass (Phase.inClass_of_atMembers hmembers)
      cases ((hplaced.classParent hmembers).trans hc').symm.trans hk
      exact hnewest c o' ho' hclass'
    · exact absurd hclass (hplaced.not_isClass_parent hdepth hk ho)

/-- Code adds a word that no text can name, or a name that has no record at all. -/
theorem scoped_code (hs : Fits .body s) (hplaced : Placed N .body s.spine)
    (h : Scoped .body s.spine) {a : Action} {t : State} (hcode : a.isCode = true)
    (happly : a.apply s = .ok t) : Scoped .body t.spine := by
  have hnew : ∀ q : Symbol, q.entity.isClass = false → q.owner = s.parent → q.depth = s.depth →
      s.symbols.Grows q t.symbols →
      (IsWord q.name → ∀ id r, s.symbols.get? id = some r → r.name ≠ q.name) →
      Scoped .body t.spine := by
    intro q hentity howner hdepth hgrows hname
    refine h.grow hgrows (fun hclass => ?_) nofun (fun _ hword id r hr _ => ?_) ?_
    · rw [hentity] at hclass
      cases hclass
    · rcases hword with hword | houter
      · exact hname hword id r hr
      · rw [hdepth, hs.depth] at houter
        cases houter
    · intro k o hk ho hclass
      exact absurd hclass (hplaced.not_isClass_parent rfl (howner.symm.trans hk) ho)
  rcases (State.coded_of_apply hcode happly).warnings_cases with
    ⟨-, hsame | hword⟩ | ⟨line, name, hwarned⟩
  · have hspine : t.spine.symbols = s.spine.symbols := hsame
    exact ⟨hspine ▸ h.classes, nofun, hspine ▸ h.distinct, hspine ▸ h.grouped⟩
  · refine hnew s.tempRecord rfl rfl rfl (hword ▸ s.grows_newTemp) fun hisWord => ?_
    exact absurd hisWord (not_isWord_frameSlot _)
  · refine hnew (s.recordOf name .placeholder) rfl rfl rfl
      (hwarned.symbols ▸ s.grows_enroll name .placeholder) fun _ => ?_
    exact (SymbolTable.lookup_eq_none_iff hs.chained name).mp hwarned.unknown

/-- A namespace or a class in the scope that holds them. -/
theorem scoped_outer (h : Scoped φ s.spine) {q : Symbol} (hgrows : s.symbols.Grows q p'.symbols)
    (hroot : AtRoot s.symbols q.owner) (hparent : AtRoot p'.symbols p'.parent) : Scoped ψ p' := by
  refine h.grow hgrows (fun _ => hroot) (fun _ => hparent) (fun howner => absurd hroot howner) ?_
  intro k o hk ho hclass
  obtain ⟨o', ho', hspace⟩ := hroot k hk
  cases ho.symm.trans ho'
  rw [hspace] at hclass
  cases hclass

theorem nextId_sizeFrame {t : State} (h : Action.sizeFrame.apply s = .ok t) :
    t.symbols.nextId = s.symbols.nextId := by
  cases outcome_of_ok h with
  | frameSized => exact SymbolTable.nextId_modify _ _ _
  | noFrame => rfl

/-- Every move keeps the names of a scope apart. -/
theorem scoped_move {a : Action} (hs : Fits φ s) (hplaced : Placed N φ s.spine)
    (h : Scoped φ s.spine) (hmove : Move s φ a ψ p) : Scoped ψ p := by
  cases hmove with
  | still beside =>
    rcases beside with rfl | ⟨rfl, rfl⟩ | ⟨rfl, rfl⟩
    · exact h
    · exact ⟨h.classes, nofun, h.distinct, h.grouped⟩
    · exact ⟨h.classes, nofun, h.distinct, h.grouped⟩
  | @declared φ line name entity inScope plain fresh =>
    refine scoped_enroll hs hplaced h inScope ?_ fresh rfl ?_
    · cases entity <;> first | rfl | cases plain
    · simp only [List.mem_cons, List.not_mem_nil, or_false] at inScope
      rcases inScope with rfl | rfl | rfl <;> rfl
  | @coded a t plain within kind applied =>
    rcases kind with hcode | rfl
    · exact scoped_code hs hplaced h hcode applied
    · refine h.keep within.sameOuter (fun id r hr => ?_) nofun
      exact within.symbols.get?_old (nextId_sizeFrame applied ▸ SymbolTable.get?_lt hr) hr
  | @spaceOpened line name start =>
    refine scoped_outer h (s.grows_enroll name .space) (h.root rfl) ?_
    rintro _ ⟨⟩
    obtain ⟨r, hr, hout⟩ := s.get?_enroll name .space
    exact ⟨r, hr, Symbol.space_of_outline hout rfl⟩
  | spaceClosed => exact ⟨h.classes, nofun, h.distinct, h.grouped⟩
  | @classOpened line name fresh =>
    have hgrows := State.grows_enroll { s with depth := s.depth + 1 } name .newClass
    refine scoped_outer h hgrows (h.root rfl) ?_
    rw [State.spine_enroll]
    exact (h.root rfl).keep fun _ _ hr _ => hgrows.evolves.get? hr
  | classEntered current => exact ⟨h.classes, nofun, h.distinct, h.grouped⟩
  | @methodOpened a name procedure isConstructor returns opens full fresh =>
    exact scoped_enroll hs hplaced h (by decide) rfl fresh rfl rfl
  | paramsEntered current => exact ⟨h.classes, nofun, h.distinct, h.grouped⟩
  | methodClosed sheds =>
    exact h.keep (hplaced.sameOuter sheds) (fun id r hr => (sheds.get?_old id r hr).2) nofun
  | classClosed sheds =>
    refine h.keep (hplaced.sameOuter sheds) (fun id r hr => (sheds.get?_old id r hr).2) fun _ => ?_
    obtain ⟨c, r, hc, hr, hclass, -⟩ := hplaced.openClass rfl
    have hparent : s.parent = some c := (hplaced.classParent rfl).trans hc
    change AtRoot s.symbols ((s.parent.bind s.symbols.get?).bind Symbol.owner)
    rw [hparent, Option.bind_some, show s.symbols.get? c = some r from hr]
    exact h.classes c r hr hclass

end Steps

theorem scoped_initial : Scoped .preface State.initial.spine where
  classes := by
    intro id r hr
    cases hr
  root := fun _ => nofun
  distinct := by
    intro owner howner i j r r' hr
    cases hr
  grouped := by
    intro k q hq
    cases hq

/-- Behind a legal run, all records stand where they belong and the names of a scope are apart. -/
theorem scoped_run {N : String → Prop} {ψ : Phase} {actions : List Action}
    (hlegal : Phase.Legal .preface actions ψ) (hnames : ∀ a ∈ actions, a.Names N) {s : State}
    (hrun : State.initial.run actions = (s, none)) : Placed N ψ s.spine ∧ Scoped ψ s.spine :=
  hlegal.run_induction (I := fun _ φ p => Placed N φ p ∧ Scoped φ p)
    (by
      rintro _ p ⟨hplaced, h⟩
      exact ⟨hplaced.begin, h.classes, fun _ => h.root rfl, h.distinct, h.grouped⟩)
    (by
      rintro _ φ a ψ s p ha hs ⟨hplaced, h⟩ hmove
      exact ⟨placed_move hs hplaced ha hmove, scoped_move hs hplaced h hmove⟩)
    hnames [] fits_initial ⟨placed_initial N, scoped_initial⟩ hrun

end Triad
