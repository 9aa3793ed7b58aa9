import Mathlib.Data.List.Nodup
import Triad.Proofs.MethodTraces

/-!
The full names of methods. A declaration looks at the newest record of its name only, so a class may
have the name of an older one where a member of that name stands between the two. Main statement:
two methods have one full name just if their classes are such a pair, and a procedure is given the
frame of the oldest method of its name (`full_names_apart_iff`).
-/

namespace Triad

open Syntax Text

/-! ## Names with a point -/

theorem point_not_mem_of_isWord {name : String} (h : IsWord name) : '.' ∉ name.toList :=
  fun hmem => absurd (h '.' hmem) (by decide +kernel)

/-- The first point of a full name is behind the name of the class. -/
theorem splitName_append {className : String} (h : IsWord className) (name : String) :
    Asm.splitName (className ++ "." ++ name) = some (className, name) := by
  have hclass : ∀ c ∈ className.toList, (c != '.') = true := by
    intro c hc
    simp only [bne_iff_ne, ne_eq]
    rintro rfl
    exact point_not_mem_of_isWord h hc
  have htext : (className ++ "." ++ name).toList = className.toList ++ '.' :: name.toList := by
    simp
  unfold Asm.splitName
  rw [htext, List.dropWhile_append_of_pos hclass, List.takeWhile_append_of_pos hclass]
  simp

/-! ## Classes of one name -/

/-- Between the two records there is a member of some class that has the name. -/
def SymbolTable.MemberBetween (t : SymbolTable) (i j : SymbolId) (name : String) : Prop :=
  ∃ k q, t.get? k = some q ∧ q.depth = 1 ∧ q.entity.isMember = true ∧ q.name = name ∧ i < k ∧ k < j

/-- Members stay, whatever is done inside methods. -/
theorem SymbolTable.MemberBetween.keep {t t' : SymbolTable} {i j : SymbolId} {name : String}
    (h : t.MemberBetween i j name)
    (hkeep : ∀ id r, t.get? id = some r → r.depth ≤ 1 →
      ∃ r', t'.get? id = some r' ∧ r'.outline = r.outline) : t'.MemberBetween i j name := by
  obtain ⟨k, q, hq, hdepth, hmember, hname, hik, hkj⟩ := h
  obtain ⟨q', hq', hout⟩ := hkeep k q hq (Nat.le_of_eq hdepth)
  exact ⟨k, q', hq', (Symbol.depth_of_outline hout).trans hdepth,
    (Symbol.isMember_of_outline hout).trans hmember, (Symbol.name_of_outline hout).trans hname,
    hik, hkj⟩

/-- The names of classes and methods are words, and a class of the name of an older one comes behind
a member of that name. -/
structure Titled (t : SymbolTable) : Prop where
  words : ∀ id r, t.get? id = some r → r.entity.isClass = true ∨ r.entity.isMethod = true →
    IsWord r.name
  hidden : ∀ i j r r', t.get? i = some r → t.get? j = some r' → r.entity.isClass = true →
    r'.entity.isClass = true → r.name = r'.name → i < j → t.MemberBetween i j r.name

section Steps

variable {φ ψ : Phase} {s : State} {a : Action} {p : State.Spine} {t t' : SymbolTable}
  {space : Option SymbolId}

/-- Records inside methods come and go. -/
theorem Titled.keep (h : Titled t) (hsame : t.SameOuter t')
    (hkeep : ∀ id r, t.get? id = some r → r.depth ≤ 1 →
      ∃ r', t'.get? id = some r' ∧ r'.outline = r.outline) : Titled t' where
  words := by
    intro id r' hr' hkind
    have houter : r'.entity.isInner = false :=
      hkind.elim Entity.isInner_of_isClass Entity.isInner_of_isMethod
    obtain ⟨r, hr, hout⟩ := hsame.get?_old id r' hr' houter
    rw [← Symbol.isClass_of_outline hout, ← Symbol.isMethod_of_outline hout] at hkind
    rw [← Symbol.name_of_outline hout]
    exact h.words id r hr hkind
  hidden := by
    intro i j r₁' r₂' h₁' h₂' hclass₁ hclass₂ hname hlt
    obtain ⟨r₁, h₁, hout₁⟩ := hsame.get?_old i r₁' h₁' (Entity.isInner_of_isClass hclass₁)
    obtain ⟨r₂, h₂, hout₂⟩ := hsame.get?_old j r₂' h₂' (Entity.isInner_of_isClass hclass₂)
    rw [← Symbol.isClass_of_outline hout₁] at hclass₁
    rw [← Symbol.isClass_of_outline hout₂] at hclass₂
    rw [← Symbol.name_of_outline hout₁] at hname ⊢
    rw [← Symbol.name_of_outline hout₂] at hname
    exact (h.hidden i j r₁ r₂ h₁ h₂ hclass₁ hclass₂ hname hlt).keep hkeep

/-- One more record. A class or a method has a word for its name, and a class comes behind a member
if there is an older class of its name. -/
theorem Titled.grow (h : Titled t) {q : Symbol} (hgrows : t.Grows q t')
    (hword : q.entity.isClass = true ∨ q.entity.isMethod = true → IsWord q.name)
    (hhidden : q.entity.isClass = true → ∀ i r, t.get? i = some r → r.entity.isClass = true →
      r.name = q.name → t.MemberBetween i t.nextId r.name) : Titled t' where
  words := by
    intro id r' hr' hkind
    rcases hgrows.cases hr' with ⟨-, hout⟩ | ⟨r, hr, hout⟩
    · rw [Symbol.isClass_of_outline hout, Symbol.isMethod_of_outline hout] at hkind
      rw [Symbol.name_of_outline hout]
      exact hword hkind
    · rw [← Symbol.isClass_of_outline hout, ← Symbol.isMethod_of_outline hout] at hkind
      rw [← Symbol.name_of_outline hout]
      exact h.words id r hr hkind
  hidden := by
    intro i j r₁' r₂' h₁' h₂' hclass₁ hclass₂ hname hlt
    have hj : j < t.nextId + 1 := hgrows.nextId ▸ SymbolTable.get?_lt h₂'
    obtain ⟨r₁, h₁, hout₁⟩ :=
      hgrows.evolves.get?_old (Nat.lt_of_lt_of_le hlt (Nat.le_of_lt_succ hj)) h₁'
    rw [← Symbol.isClass_of_outline hout₁] at hclass₁
    rw [← Symbol.name_of_outline hout₁] at hname ⊢
    suffices hbetween : t.MemberBetween i j r₁.name from
      hbetween.keep fun _ _ hr _ => hgrows.evolves.get? hr
    rcases hgrows.cases h₂' with ⟨rfl, hout₂⟩ | ⟨r₂, h₂, hout₂⟩
    · rw [Symbol.isClass_of_outline hout₂] at hclass₂
      rw [Symbol.name_of_outline hout₂] at hname
      exact hhidden hclass₂ i r₁ h₁ hclass₁ hname
    · rw [← Symbol.isClass_of_outline hout₂] at hclass₂
      rw [← Symbol.name_of_outline hout₂] at hname
      exact h.hidden i j r₁ r₂ h₁ h₂ hclass₁ hclass₂ hname hlt

/-- A class of the name of an older one is let through only where the newest record of the name is a
member: all classes are in one scope. -/
theorem hidden_of_fresh (hs : Stands .file s) (hrooted : Rooted space .file s.spine) {name : String}
    (hfresh : { s with depth := s.depth + 1 }.declares name = false) {i : SymbolId} {r : Symbol}
    (hr : s.symbols.get? i = some r) (hclass : r.entity.isClass = true) (hname : r.name = name) :
    s.symbols.MemberBetween i s.symbols.nextId r.name := by
  subst hname
  have hzero : s.depth = 0 := hs.fits.depth
  have hnotNewest : ∀ {k q}, s.symbols.get? k = some q → q.depth = 1 → q.entity.isClass = true →
      s.symbols.lookup r.name ≠ some k := by
    intro k q hq hdepth hclass hfound
    have howner : q.owner = s.parent := (hrooted.classes k q hq hclass).trans (hrooted.parent rfl).symm
    simp [State.declares, SymbolTable.lookupSymbol, hfound, hq, hdepth, howner, hzero] at hfresh
  cases hfound : s.symbols.lookup r.name with
  | none =>
    exact absurd rfl ((SymbolTable.lookup_eq_none_iff hs.fits.chained r.name).mp hfound i r hr)
  | some k =>
    obtain ⟨⟨q, hq, hqname⟩, hnewest⟩ :=
      (SymbolTable.lookup_eq_some_iff hs.fits.chained r.name k).mp hfound
    have hdepth := (hs.placed.records i r hr).depth_eq_one (Entity.isInner_of_isClass hclass)
      fun hspace => by rw [hspace] at hclass; cases hclass
    have hlt : i < k := by
      refine Nat.lt_of_le_of_ne (hnewest i r hr rfl) ?_
      rintro rfl
      exact hnotNewest hr hdepth hclass hfound
    have hdeep : r.depth ≤ q.depth := hs.fits.nested i k r q hr hq hlt
    have hbound : q.depth ≤ 1 := hs.fits.bounded k q hq
    cases hs.placed.records k q hq with
    | space _ depth => omega
    | classType _ depth _ entity => exact absurd hfound (hnotNewest hq depth entity)
    | member _ depth _ entity =>
      exact ⟨k, q, hq, depth, entity, hqname, hlt, SymbolTable.get?_lt hq⟩
    | inner depth => omega

/-- Every move before the end of the namespace keeps to it. -/
theorem titled_move (hs : Stands φ s) (hrooted : Rooted space φ s.spine) (h : Titled s.symbols)
    (ha : a.BeforeEnd) (hmove : Move s φ a ψ p) : Titled p.symbols := by
  have hkeep : ∀ id r, s.symbols.get? id = some r → r.depth ≤ 1 →
      ∃ r', p.symbols.get? id = some r' ∧ r'.outline = r.outline := by
    intro id r hr hdepth
    obtain ⟨r', hr', hout, -⟩ := record_move hs.placed hmove hr hdepth
    exact ⟨r', hr', hout⟩
  cases hmove with
  | @declared φ line name entity inScope plain =>
    have hinner : entity.isInner = true := by cases entity <;> first | rfl | cases plain
    exact h.keep (State.within_enroll s name hinner).sameOuter hkeep
  | coded _ within => exact h.keep within.sameOuter hkeep
  | @spaceOpened line name start =>
    refine h.grow (s.grows_enroll name .space) (fun hkind => ?_) nofun
    rcases hkind with hclass | hmethod
    · cases hclass
    · cases hmethod
  | spaceClosed => exact ha.elim
  | @classOpened line name fresh =>
    exact h.grow (State.grows_enroll { s with depth := s.depth + 1 } name .newClass) (fun _ => ha)
      fun _ i r hr hclass hname => hidden_of_fresh hs hrooted fresh hr hclass hname
  | @methodOpened a name procedure isConstructor returns opens =>
    have hword : IsWord name := by cases a <;> cases opens <;> exact ha
    exact h.grow (s.grows_enroll name (.newMethod returns)) (fun _ => hword) nofun
  | methodClosed sheds => exact h.keep (hs.placed.sameOuter sheds) hkeep
  | classClosed sheds => exact h.keep (hs.placed.sameOuter sheds) hkeep
  | _ => exact h

end Steps

theorem titled_initial : Titled State.initial.symbols where
  words := by
    intro id r hr
    cases hr
  hidden := by
    intro i j r r' hr
    cases hr

theorem titled_run {ψ : Phase} {actions : List Action} (hlegal : Phase.Legal .preface actions ψ)
    (hall : ∀ a ∈ actions, a.BeforeEnd) {s : State}
    (hrun : State.initial.run actions = (s, none)) : Titled s.symbols :=
  (hlegal.state_induction (P := Action.BeforeEnd)
    (I := fun _ φ s => Stands φ s ∧ (∃ space, Rooted space φ s.spine) ∧ Titled s.symbols)
    (by
      rintro _ s ⟨hs, ⟨space, hrooted⟩, h⟩
      exact ⟨hs.begin, ⟨space, hrooted.live, hrooted.only, hrooted.classes,
        fun _ => hrooted.parent rfl⟩, h⟩)
    (by
      rintro _ φ a ψ s t ha hfits ⟨hs, ⟨space, hrooted⟩, h⟩ hnext happly
      have hmove := move_of_apply hfits hnext happly
      exact ⟨stands_apply hs hnext happly, rooted_move hfits hs.placed hrooted ha hmove,
        titled_move hs hrooted h ha hmove⟩)
    hall [] fits_initial ⟨stands_initial, ⟨none, rooted_initial⟩, titled_initial⟩ hrun).2.2

/-- What a compiled text leaves: all records are where they belong, and the classes of one name are
apart. -/
theorem IsTree.exists_titled {source : String} {p : Program} (hp : IsTree source p)
    {c : Compilation} (hc : compile source = .ok c) :
    ∃ s, State.initial.run p.actions = (s, none) ∧ c.symbols = s.symbols ∧
      c.code = s.code.toList ++ [.start c.entry] ∧ Stands .file s ∧ Titled s.symbols := by
  obtain ⟨tokens, htokens, htree⟩ := hp
  obtain ⟨hactions, -, hlegal⟩ := legal_actions htokens htree
  obtain ⟨s, hrun, -, hsymbols, hcode⟩ := exists_run_of_compile hactions hc
  refine ⟨s, hrun, hsymbols, hcode, stands_run hlegal stands_initial hrun, ?_⟩
  obtain ⟨actions, ending, heq, hall, hending⟩ :=
    p.exists_actions_eq (htree ▸ wellSpelled_of_tokenize htokens)
  rw [heq] at hlegal hrun
  obtain ⟨φ, hbefore, -⟩ := hlegal.split
  obtain ⟨u, hu, hclose⟩ := State.run_append_eq_none.mp hrun
  have hsame : s.symbols = u.symbols := by
    rcases hending with rfl | rfl <;> cases hclose <;> rfl
  exact hsame ▸ titled_run hbefore hall hu

/-! ## Methods of one full name -/

/-- Two methods of one name in two classes of one name, with a member of the name of the classes
between these. -/
def SymbolTable.Twins (t : SymbolTable) (i j : SymbolId) : Prop :=
  ∃ m m' a b o o', t.get? i = some m ∧ t.get? j = some m' ∧ m.entity.isMethod = true ∧
    m'.entity.isMethod = true ∧ m.name = m'.name ∧ m.owner = some a ∧ m'.owner = some b ∧
    t.get? a = some o ∧ t.get? b = some o' ∧ o.name = o'.name ∧ t.MemberBetween a b o.name

namespace SymbolTable.Twins

variable {t : SymbolTable} {i j : SymbolId}

theorem mem_methods (h : t.Twins i j) : i ∈ t.methods ∧ j ∈ t.methods := by
  obtain ⟨m, m', a, b, o, o', hm, hm', hmethod, hmethod', -⟩ := h
  exact ⟨mem_methods_of_get? hm hmethod, mem_methods_of_get? hm' hmethod'⟩

theorem qualifiedName?_eq (h : t.Twins i j) : t.qualifiedName? i = t.qualifiedName? j := by
  obtain ⟨m, m', a, b, o, o', hm, hm', -, -, hname, ha, hb, ho, ho', hclassName, -⟩ := h
  rw [qualifiedName?_eq_some hm ha ho, qualifiedName?_eq_some hm' hb ho', hclassName, hname]

theorem ne (h : t.Twins i j) : i ≠ j := by
  rintro rfl
  obtain ⟨m, m', a, b, o, o', hm, hm', -, -, -, ha, hb, -, -, -, k, q, -, -, -, -, hak, hkb⟩ := h
  cases hm.symm.trans hm'
  cases ha.symm.trans hb
  exact absurd (Nat.lt_trans hak hkb) (Nat.lt_irrefl a)

end SymbolTable.Twins

section FullNames

variable {s : State} {i j : SymbolId}

/-- A method, its class and its full name. -/
theorem Stands.exists_class {φ : Phase} (hs : Stands φ s) (hi : i ∈ s.symbols.methods) :
    ∃ m a o, s.symbols.get? i = some m ∧ m.entity.isMethod = true ∧ m.owner = some a ∧
      s.symbols.get? a = some o ∧ o.entity.isClass = true ∧
      s.symbols.qualifiedName? i = some (o.name ++ "." ++ m.name) := by
  obtain ⟨m, hm, hmethod⟩ := SymbolTable.mem_methods hi
  obtain ⟨a, o, ha, ho, hclass⟩ := hs.placed.methodsOwned i m hm hmethod
  exact ⟨m, a, o, hm, hmethod, ha, ho, hclass, SymbolTable.qualifiedName?_eq_some hm ha ho⟩

/-- A full name is read in one way. -/
theorem fullName_inj {className className' name name' : String} (h : IsWord className)
    (h' : IsWord className') (heq : className ++ "." ++ name = className' ++ "." ++ name') :
    className = className' ∧ name = name' := by
  have hsplit := splitName_append h name
  rw [heq, splitName_append h' name'] at hsplit
  cases hsplit
  exact ⟨rfl, rfl⟩

/-- Two methods have one full name just if they are twins. -/
theorem Titled.qualifiedName?_eq_iff (h : Titled s.symbols) {φ : Phase} (hs : Stands φ s)
    (hi : i ∈ s.symbols.methods) (hj : j ∈ s.symbols.methods) (hlt : i < j) :
    s.symbols.qualifiedName? i = s.symbols.qualifiedName? j ↔ s.symbols.Twins i j := by
  constructor
  · intro heq
    obtain ⟨m, a, o, hm, hmethod, ha, ho, hclass, hfull⟩ := hs.exists_class hi
    obtain ⟨m', b, o', hm', hmethod', hb, ho', hclass', hfull'⟩ := hs.exists_class hj
    rw [hfull, hfull'] at heq
    obtain ⟨hclassName, hname⟩ := fullName_inj (h.words a o ho (.inl hclass))
      (h.words b o' ho' (.inl hclass')) (Option.some.inj heq)
    -- one class has no two members of one name
    have hne : a ≠ b := by
      rintro rfl
      have hnotRoot : ¬ AtRoot s.symbols (some a) := by
        intro hroot
        obtain ⟨q, hq, hspace⟩ := hroot a rfl
        cases ho.symm.trans hq
        rw [hspace] at hclass
        cases hclass
      exact absurd (hs.names.distinct (some a) hnotRoot i j m m' hm hm' ha hb hname
        (.inl (h.words i m hm (.inr hmethod)))) (Nat.ne_of_lt hlt)
    -- and the members of a class come before the next class
    have holder : a < b := by
      refine Nat.lt_of_le_of_ne (Nat.le_of_not_lt fun hba => ?_) hne
      have hai := (hs.names.depth_of_class hs.fits hs.placed ho hclass hm ha).2
      rcases hs.names.grouped b o' ho' hclass' j m' hm' hb a o ho hclass with hle | hja
      · exact absurd hle (Nat.not_le_of_lt hba)
      · exact absurd (Nat.lt_trans hja hai) (Nat.lt_asymm hlt)
    exact ⟨m, m', a, b, o, o', hm, hm', hmethod, hmethod', hname, ha, hb, ho, ho', hclassName,
      h.hidden a b o o' ho ho' hclass hclass' hclassName holder⟩
  · exact SymbolTable.Twins.qualifiedName?_eq

/-- The full names are apart just if there are no twins. -/
theorem Titled.nodup_methodNames_iff (h : Titled s.symbols) {φ : Phase} (hs : Stands φ s) :
    s.symbols.methodNames.Nodup ↔ ∀ i j, ¬ s.symbols.Twins i j := by
  have hmethods : s.symbols.methods.Nodup := by
    rw [SymbolTable.methods_eq (Nat.le_refl s.symbols.nextId)]
    exact List.nodup_range.filter _
  rw [SymbolTable.methodNames, List.nodup_map_iff_inj_on hmethods]
  constructor
  · intro hinj i j htwins
    obtain ⟨hi, hj⟩ := htwins.mem_methods
    exact htwins.ne (hinj i hi j hj htwins.qualifiedName?_eq)
  · intro hnone i hi j hj heq
    rcases Nat.lt_trichotomy i j with hlt | rfl | hgt
    · exact absurd ((h.qualifiedName?_eq_iff hs hi hj hlt).mp heq) (hnone i j)
    · rfl
    · exact absurd ((h.qualifiedName?_eq_iff hs hj hi hgt).mp heq.symm) (hnone j i)

end FullNames

/-! ## The method of a procedure -/

/-- A search through the records stops at the oldest one that is wanted. -/
theorem SymbolTable.exists_find?_toList {t : SymbolTable} (wanted : SymbolId × Symbol → Bool)
    {id : SymbolId} {r : Symbol} (hr : t.get? id = some r) (hwanted : wanted (id, r) = true) :
    ∃ first q, t.toList.find? wanted = some (first, q) ∧ t.get? first = some q ∧
      wanted (first, q) = true ∧
      ∀ j o, t.get? j = some o → wanted (j, o) = true → first ≤ j := by
  rw [t.toList_eq (Nat.le_refl t.nextId), List.find?_filterMap]
  cases hfound : (List.range t.nextId).find? fun id =>
      ((t.get? id).map fun r => (id, r)).any wanted with
  | none =>
    have hnone := List.find?_eq_none.mp hfound id (List.mem_range.mpr (get?_lt hr))
    simp [hr, hwanted] at hnone
  | some first =>
    obtain ⟨hfirst, -, hbefore⟩ := List.find?_range_eq_some.mp hfound
    obtain ⟨q, hq, hqwanted⟩ : ∃ q, t.get? first = some q ∧ wanted (first, q) = true := by
      cases hq : t.get? first with
      | none => simp [hq] at hfirst
      | some q => exact ⟨q, rfl, by simpa [hq] using hfirst⟩
    refine ⟨first, q, by simp [hq], hq, hqwanted, fun j o ho howanted => ?_⟩
    refine Nat.le_of_not_lt fun hlt => ?_
    have hnot := hbefore j hlt
    simp [ho, howanted] at hnot

/-- The method that a full name stands for is the oldest one of that name. -/
theorem Titled.exists_methodOf? {s : State} (h : Titled s.symbols) {φ : Phase} (hs : Stands φ s)
    {id : SymbolId} (hid : id ∈ s.symbols.methods) {name : String}
    (hname : s.symbols.qualifiedName? id = some name) :
    ∃ first m, s.symbols.get? first = some m ∧ (first = id ∨ s.symbols.Twins first id) ∧
      (∀ j, s.symbols.Twins j id → first ≤ j) ∧ Asm.methodOf? s.symbols name = some m := by
  obtain ⟨m, a, o, hm, hmethod, ha, ho, hclass, hfull⟩ := hs.exists_class hid
  cases hfull.symm.trans hname
  have hsplit := splitName_append (h.words a o ho (.inl hclass)) m.name
  -- a record is wanted just if it is a method of this full name
  have hcandidate : ∀ {j r}, s.symbols.get? j = some r → r.entity.isMethod = true →
      s.symbols.qualifiedName? j = some (o.name ++ "." ++ m.name) →
      r.name = m.name ∧ s.symbols.ownerName? j = some o.name := by
    intro j r hr hr' hj
    obtain ⟨r', b, o', hr'', -, hb, ho', hclass', hfull'⟩ :=
      hs.exists_class (SymbolTable.mem_methods_of_get? hr hr')
    cases hr.symm.trans hr''
    obtain ⟨hclassName, hrname⟩ := fullName_inj (h.words b o' ho' (.inl hclass'))
      (h.words a o ho (.inl hclass)) (Option.some.inj (hfull'.symm.trans hj))
    exact ⟨hrname, by simp [SymbolTable.ownerName?, hr, hb, ho', hclassName]⟩
  have hself : (m.entity.isMethod && m.name == m.name &&
      s.symbols.ownerName? id == some o.name) = true := by
    simp [hmethod, hcandidate hm hmethod hfull]
  obtain ⟨first, m', hfind, hfirst, hwanted, hleast⟩ :=
    SymbolTable.exists_find?_toList (fun r => r.2.entity.isMethod && r.2.name == m.name &&
      s.symbols.ownerName? r.1 == some o.name) hm hself
  simp only [Bool.and_eq_true, beq_iff_eq] at hwanted
  obtain ⟨⟨hmethod', hname'⟩, howner'⟩ := hwanted
  have hfull' : s.symbols.qualifiedName? first = s.symbols.qualifiedName? id := by
    rw [hfull]
    simp [SymbolTable.qualifiedName?, hfirst, howner', hname']
  have hle : first ≤ id := hleast id m hm hself
  refine ⟨first, m', hfirst, ?_, fun j hj => ?_, ?_⟩
  · rcases Nat.lt_or_eq_of_le hle with hlt | heq
    · exact .inr ((h.qualifiedName?_eq_iff hs (SymbolTable.mem_methods_of_get? hfirst hmethod') hid
        hlt).mp hfull')
    · exact .inl heq
  · obtain ⟨r, hr, hr'⟩ := SymbolTable.mem_methods hj.mem_methods.1
    exact hleast j r hr
      (by simp [hr', hcandidate hr hr' (hj.qualifiedName?_eq.trans hfull)])
  · simp [Asm.methodOf?, hsplit, SymbolTable.findMethod, hfind]

/-- Two methods of a compiled text have one full name just if they are twins, so no procedure has
the name of another just if there are none. A procedure is given the frame of the oldest method of
its name, which is the method it was made from unless that has an older twin. -/
theorem full_names_apart_iff {source : String} {c : Compilation} (hc : compile source = .ok c) :
    (∀ i ∈ c.symbols.methods, ∀ j ∈ c.symbols.methods, i < j →
        (c.symbols.qualifiedName? i = c.symbols.qualifiedName? j ↔ c.symbols.Twins i j)) ∧
      (∃ procedures : List Procedure,
        c.code = procedures.flatMap Procedure.code ++ [.start c.entry] ∧
          c.symbols.methodNames = (procedures.map fun q => some q.name) ∧
          ((procedures.map Procedure.name).Nodup ↔ ∀ i j, ¬ c.symbols.Twins i j)) ∧
      (∃ p, IsTree source p) ∧
      ∀ p, IsTree source p → ∀ id ∈ c.symbols.methods,
        ∃ (place : Place p) (s : State) (m : Symbol) (q : Procedure), Framed c place id s m q ∧
          c.symbols.qualifiedName? id = some q.name ∧
          ∃ first m', c.symbols.get? first = some m' ∧
            (first = id ∨ c.symbols.Twins first id) ∧
            (∀ j, c.symbols.Twins j id → first ≤ j) ∧
            Asm.methodOf? c.symbols q.name = some m' ∧
            Asm.frameOf c.symbols q.name = (m'.sizeOfLocals, m'.sizeOfParams) := by
  obtain ⟨p, hp⟩ := exists_tree (completes_of_readsThrough (.inl ⟨c, hc⟩))
  obtain ⟨s, hrun, hsymbols, hcode, hs, h⟩ := hp.exists_titled hc
  refine ⟨?_, ?_, ⟨p, hp⟩, fun p' hp' id hid => ?_⟩
  · rw [hsymbols]
    exact fun i hi j hj hlt => h.qualifiedName?_eq_iff hs hi hj hlt
  · obtain ⟨hnames, -, hwritten⟩ := hp.shaped hrun
    obtain ⟨procedures, hprocedures, hq⟩ := hwritten.exists_procedures
    have hmethodNames : s.symbols.methodNames = (procedures.map Procedure.name).map some := by
      rw [hnames, ← hq, List.map_map]
      rfl
    refine ⟨procedures, by rw [hcode, hprocedures], ?_, ?_⟩
    · rw [hsymbols, hmethodNames, List.map_map]
      rfl
    · rw [hsymbols, ← h.nodup_methodNames_iff hs, hmethodNames,
        List.nodup_map_iff fun _ _ => Option.some.inj]
  · obtain ⟨place, t, u, m, q, htraced⟩ := exists_traced hc hp' hid
    have hname := htraced.name
    rw [hsymbols] at hid hname
    obtain ⟨first, m', hfirst, hkind, hleast, hfound⟩ := h.exists_methodOf? hs hid hname
    refine ⟨place, u, m, q, htraced.toFramed, htraced.name, first, m', ?_⟩
    rw [hsymbols]
    exact ⟨hfirst, hkind, hleast, hfound, by simp [Asm.frameOf, hfound]⟩

namespace Sample

/-- The member `A` hides the first class from the second. -/
def repeated : String :=
  "class A\x7bint A;void Main()\x7b\x7d\x7dclass A\x7bvoid Main()\x7bint x;\x7d\x7d"

theorem compile_repeated : ∃ c, compile repeated = .ok c ∧ c.symbols.methods = [2, 4] ∧
    c.symbols.qualifiedName? 2 = some "A.Main" ∧ c.symbols.qualifiedName? 4 = some "A.Main" ∧
    Asm.frameOf c.symbols "A.Main" = (0, 0) ∧
    ∃ m, c.symbols.get? 4 = some m ∧ m.sizeOfLocals = 2 := by
  have hvalues : ((compile repeated).toOption.map fun c => (c.symbols.methods,
      (c.symbols.qualifiedName? 2, c.symbols.qualifiedName? 4), Asm.frameOf c.symbols "A.Main",
      (c.symbols.get? 4).map Symbol.sizeOfLocals)) =
      some ([2, 4], (some "A.Main", some "A.Main"), (0, 0), some 2) := by decide +kernel
  cases hc : compile repeated with
  | error fault =>
    rw [hc] at hvalues
    cases hvalues
  | ok c =>
    rw [hc] at hvalues
    obtain ⟨hmethods, hvalues⟩ := Prod.mk.inj (Option.some.inj hvalues)
    obtain ⟨hnames, hvalues⟩ := Prod.mk.inj hvalues
    obtain ⟨hfirst, hsecond⟩ := Prod.mk.inj hnames
    obtain ⟨hframe, hsize⟩ := Prod.mk.inj hvalues
    exact ⟨c, rfl, hmethods, hfirst, hsecond, hframe, Option.map_eq_some_iff.mp hsize⟩

end Sample

open Sample in
theorem full_names_apart_iff_repeated :
    ∃ c, compile repeated = .ok c ∧ c.symbols.Twins 2 4 ∧
      (∃ procedures : List Procedure,
        c.code = procedures.flatMap Procedure.code ++ [.start c.entry] ∧
          ¬ (procedures.map Procedure.name).Nodup) ∧
      ∃ p, IsTree repeated p ∧
        ∃ (place : Place p) (s : State) (m : Symbol) (q : Procedure), Framed c place 4 s m q ∧
          Asm.methodOf? c.symbols q.name = c.symbols.get? 2 := by
  obtain ⟨c, hc, hmethods, htwo, hfour, -⟩ := compile_repeated
  obtain ⟨hiff, ⟨procedures, hcode, -, hnodup⟩, ⟨p, hp⟩, hframes⟩ := full_names_apart_iff hc
  have htwins := (hiff 2 (by simp [hmethods]) 4 (by simp [hmethods]) (by decide)).mp
    (htwo.trans hfour.symm)
  obtain ⟨place, s, m, q, hframed, -, first, m', hfirst, hkind, hleast, hfound, -⟩ :=
    hframes p hp 4 (by simp [hmethods])
  have hfirst2 : first = 2 := by
    have hle := hleast 2 htwins
    rcases hkind with rfl | hkind
    · exact absurd hle (by decide)
    · have hmem := hkind.mem_methods.1
      rw [hmethods] at hmem
      rcases List.mem_pair.mp hmem with h | h
      · exact h
      · exact absurd h hkind.ne
  exact ⟨c, hc, htwins, ⟨procedures, hcode, fun hn => hnodup.mp hn 2 4 htwins⟩, p, hp, place, s, m,
    q, hframed, by rw [hfound, ← hfirst, hfirst2]⟩

open Sample in
/-- A program in which two procedures have one name, and one of them the frame of the other. -/
theorem full_names_collide :
    ∃ c, compile repeated = .ok c ∧ ¬ c.symbols.methodNames.Nodup ∧
      ∃ id ∈ c.symbols.methods, ∃ m, c.symbols.get? id = some m ∧
        c.symbols.qualifiedName? id = some "A.Main" ∧
        Asm.frameOf c.symbols "A.Main" ≠ (m.sizeOfLocals, m.sizeOfParams) := by
  obtain ⟨c, hc, hmethods, htwo, hfour, hframe, m, hm, hsize⟩ := compile_repeated
  refine ⟨c, hc, ?_, 4, by simp [hmethods], m, hm, hfour, ?_⟩
  · simp [SymbolTable.methodNames, hmethods, htwo, hfour]
  · rw [hframe, hsize]
    intro heq
    cases heq

end Triad
