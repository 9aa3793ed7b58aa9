import Triad.Proofs.FrameWords
import Triad.Proofs.FreshWords

/-!
The sizes in the records of classes and methods. A class is charged with its variables, which are
still in the table in the end; a method is charged with what was inside it, which is gone by then:
its variables, its placeholders and the words that its code has drawn (`wordSlots_run`). Main
statement: `record_sizes`.
-/

namespace Triad

open Syntax

/-! ## While parameters are read -/

/-- Parameters begin and end with actions of their own. -/
theorem Phase.eq_params_iff_of_next? {φ ψ : Phase} {a : Action} (hnext : φ.next? a = some ψ)
    (hopen : a ≠ .openParams) (hclose : a ≠ .closeParams) : ψ = .params ↔ φ = .params := by
  unfold next? at hnext
  split at hnext
  case h_12 => exact absurd rfl hopen
  case h_14 => exact absurd rfl hclose
  all_goals first | (split at hnext <;> cases hnext; simp) | (cases hnext <;> simp)

/-- The mark for parameters is set in their phase only. -/
theorem inParams_apply {φ ψ : Phase} {s t : State} {a : Action} (hfits : Fits φ s)
    (hnext : φ.next? a = some ψ) (happly : a.apply s = .ok t)
    (h : s.inParams = true ↔ φ = .params) : t.inParams = true ↔ ψ = .params := by
  by_cases hopen : a = .openParams
  · subst hopen
    have hphases : φ = .methodHead ∧ ψ = .params := by
      cases φ <;> cases hnext
      exact ⟨rfl, rfl⟩
    rw [hphases.1] at hfits
    obtain ⟨id, r, hid, -⟩ := hfits.openMethod rfl
    obtain ⟨owner, rfl⟩ := eq_of_openParams hid happly
    simp [State.note, hphases.2]
  · by_cases hclose : a = .closeParams
    · subst hclose
      have hψ : ψ = .signature := by cases φ <;> cases hnext; rfl
      cases happly
      simp [hψ]
    · have hsame : t.inParams = s.inParams := by
        cases hcode : a.isCode with
        | true => exact (State.coded_of_apply hcode happly).inParams_eq
        | false => exact congrArg Prod.snd (State.margin_apply hcode hopen hclose happly)
      rw [hsame, h, Phase.eq_params_iff_of_next? hnext hopen hclose]

/-! ## Views that do not see sizes -/

namespace SymbolTable

section Views

variable {β : Type} {t t' : SymbolTable} {f : Symbol → Option β}

/-- What a function takes from the live records, in the order of insertion. -/
def collect (f : Symbol → Option β) (t : SymbolTable) : List β := t.symbols.filterMap f

theorem collect_eq (f : Symbol → Option β) (t : SymbolTable) :
    t.collect f = (List.range t.nextId).filterMap fun id => (t.get? id).bind f := by
  rw [collect, symbols_eq, List.filterMap_filterMap]

variable (hf : ∀ r : Symbol, f r.outline = f r)
include hf

theorem eq_of_outline {r q : Symbol} (h : q.outline = r.outline) : f q = f r := by
  rw [← hf, h, hf]

/-- The number of a record does not tell more of it than its outline. -/
theorem Evolves.bind_get? {depth : Nat} (h : t.Evolves depth t') {id : SymbolId}
    (hid : id < t.nextId) : (t'.get? id).bind f = (t.get? id).bind f := by
  have houtline : ∀ r : Option Symbol, r.bind f = (r.map Symbol.outline).bind f := by
    intro r
    cases r with
    | none => rfl
    | some r => exact (hf r).symm
  rw [houtline, h.old id hid, ← houtline]

theorem Evolves.collect {depth : Nat} (h : t.Evolves depth t') (hnext : t'.nextId = t.nextId) :
    t'.collect f = t.collect f := by
  rw [collect_eq, collect_eq, hnext]
  exact List.filterMap_congr fun id hid => h.bind_get? hf (List.mem_range.mp hid)

/-- One more record comes last. -/
theorem Grows.collect {q : Symbol} (h : t.Grows q t') :
    t'.collect f = t.collect f ++ (f q).toList := by
  obtain ⟨r, hr, hout⟩ := h.new
  rw [collect_eq, collect_eq, h.nextId, List.range_succ, List.filterMap_append,
    List.filterMap_congr fun id hid => h.evolves.bind_get? hf (List.mem_range.mp hid)]
  have hnew : (t'.get? t.nextId).bind f = f q := by
    rw [hr, Option.bind_some, eq_of_outline hf hout]
  rw [List.filterMap_cons, hnew]
  cases f q <;> rfl

/-- What goes with a method does not matter if nothing is taken from it. -/
theorem Sheds.collect (h : t.Sheds t')
    (hinner : ∀ id r, t.get? id = some r → 1 < r.depth → f r = none) :
    t'.collect f = t.collect f := by
  rw [collect_eq, collect_eq, h.nextId]
  refine List.filterMap_congr fun id _ => ?_
  cases hr : t.get? id with
  | none =>
    cases hr' : t'.get? id with
    | none => rfl
    | some r' =>
      obtain ⟨-, r, hlive, -⟩ := h.get?_old id r' hr'
      rw [hr] at hlive
      cases hlive
  | some r =>
    rcases Nat.lt_or_ge 1 r.depth with hdeep | hshallow
    · rw [Option.bind_some, hinner id r hr hdeep]
      cases hr' : t'.get? id with
      | none => rfl
      | some r' =>
        obtain ⟨hle, q, hq, hout⟩ := h.get?_old id r' hr'
        cases hr.symm.trans hq
        rw [← Symbol.depth_of_outline hout] at hle
        omega
    · obtain ⟨r', hr', hout⟩ := h.get? id r hr hshallow
      rw [hr', Option.bind_some, Option.bind_some, eq_of_outline hf hout]

end Views

/-! ## The variables of a class -/

variable {t t' : SymbolTable} {k : SymbolId}

/-- The bytes of the variables that a record owns. -/
def fieldBytes (t : SymbolTable) (k : SymbolId) : Int :=
  totalSize ((t.childrenOf k).filter fun r => r.entity.isVar)

/-- The bytes of a record, if it is a variable of the owner. -/
def fieldSize? (k : SymbolId) (r : Symbol) : Option Int :=
  if r.owner == some k && r.entity.isVar then some r.size else none

theorem fieldSize?_outline (k : SymbolId) (r : Symbol) :
    fieldSize? k r.outline = fieldSize? k r := by
  have hvar : r.entity.outline.isVar = r.entity.isVar := by cases r.entity <;> rfl
  simp [fieldSize?, Symbol.outline, hvar]

theorem fieldBytes_eq (t : SymbolTable) (k : SymbolId) :
    t.fieldBytes k = (t.collect (fieldSize? k)).foldr (· + ·) 0 := by
  have hlist : ∀ records : List Symbol,
      ((records.filter fun r => r.owner == some k).filter fun r => r.entity.isVar).map
        Symbol.size = records.filterMap (fieldSize? k) := by
    intro records
    induction records with
    | nil => rfl
    | cons r records ih =>
      rw [List.filterMap_cons, ← ih, fieldSize?]
      cases howner : r.owner == some k <;> cases hvar : r.entity.isVar <;> simp [howner, hvar]
  rw [fieldBytes, childrenOf, totalSize, hlist, collect]

theorem Evolves.fieldBytes {depth : Nat} (h : t.Evolves depth t') (hnext : t'.nextId = t.nextId)
    (k : SymbolId) : t'.fieldBytes k = t.fieldBytes k := by
  rw [fieldBytes_eq, fieldBytes_eq, h.collect (fieldSize?_outline k) hnext]

/-- One more record counts if it is a variable of the owner. -/
theorem Grows.fieldBytes {q : Symbol} (h : t.Grows q t') (k : SymbolId) :
    t'.fieldBytes k = t.fieldBytes k + (fieldSize? k q).getD 0 := by
  rw [fieldBytes_eq, fieldBytes_eq, h.collect (fieldSize?_outline k), List.foldr_append, foldr_add]
  cases fieldSize? k q <;> simp

/-- What goes with a method is no variable of a class. -/
theorem Sheds.fieldBytes (h : t.Sheds t')
    (hinner : ∀ id r, t.get? id = some r → 1 < r.depth → r.owner ≠ some k) :
    t'.fieldBytes k = t.fieldBytes k := by
  rw [fieldBytes_eq, fieldBytes_eq, h.collect (fieldSize?_outline k)]
  intro id r hr hdepth
  simp [fieldSize?, hinner id r hr hdepth]

end SymbolTable

/-! ## Classes -/

/-- Every class is charged with its variables. -/
def Charged (t : SymbolTable) : Prop :=
  ∀ k o, t.get? k = some o → o.entity.isClass = true → o.entity = .classType (t.fieldBytes k)

section Charged

variable {φ ψ : Phase} {s : State} {a : Action} {p : State.Spine} {k : SymbolId} {o : Symbol}

/-- The scope of a class is open between its members only. -/
theorem Stands.eq_of_parent (h : Stands φ s) (hk : s.parent = some k)
    (ho : s.symbols.get? k = some o) (hclass : o.entity.isClass = true) :
    φ = .classBody ∨ φ = .methodHead := by
  cases hroot : φ.atRoot with
  | true =>
    obtain ⟨q, hq, hspace⟩ := h.names.root hroot k hk
    cases ho.symm.trans hq
    rw [hspace] at hclass
    cases hclass
  | false =>
    have hdepth : φ.depth ≠ 2 := fun hdepth => h.placed.not_isClass_parent hdepth hk ho hclass
    cases φ <;> first
      | exact .inl rfl
      | exact .inr rfl
      | exact absurd rfl hdepth
      | exact absurd hroot (by decide)

theorem SymbolTable.Grows.fieldBytes_of_ne {t t' : SymbolTable} {q : Symbol} (h : t.Grows q t')
    (hne : q.owner ≠ some k) : t'.fieldBytes k = t.fieldBytes k := by
  rw [h.fieldBytes, SymbolTable.fieldSize?, beq_false_of_ne hne]
  exact Int.add_zero _

/-- A declaration in the class: variables are charged to it, constants and methods have no bytes. -/
theorem Charged.enroll_member (h : Charged s.symbols) (ho : s.symbols.get? k = some o)
    (hclass : o.entity.isClass = true) (hk : s.parent = some k) (hin : s.inParams = false)
    (name : String) {entity : Entity} (hmember : entity.isMember = true) :
    (s.charge entity o).entity = .classType ((s.enroll name entity).symbols.fieldBytes k) := by
  have hfield : SymbolTable.fieldSize? k (s.recordOf name entity) =
      if entity.isVar then some entity.size else none := by
    simp only [SymbolTable.fieldSize?, State.size_recordOf]
    cases entity <;> simp [State.recordOf, Symbol.new, Entity.setLocation, Entity.isVar, hk]
  rw [(s.grows_enroll name entity).fieldBytes, hfield]
  have hold := h k o ho hclass
  unfold State.charge
  rw [hin]
  cases entity with
  | const type value => simpa [Entity.isConst, Entity.isVar] using hold
  | var type mode location => simp [Entity.isConst, Entity.isVar, hold, Entity.growLocals]
  | method returns numParams locals params =>
    simp [Entity.isConst, Entity.isVar, hold, Entity.growLocals, Entity.size]
  | _ => cases hmember

theorem State.get?_enroll_parent (ho : s.symbols.get? k = some o) (hk : s.parent = some k)
    (name : String) (entity : Entity) :
    (s.enroll name entity).symbols.get? k = some (s.charge entity o) := by
  rw [symbols_enroll, hk]
  change ((s.symbols.insert _).modify k _).get? k = _
  rw [SymbolTable.get?_modify, if_pos rfl, get?_insert_of_live ho]
  rfl

/-- A declaration of anything but a class. -/
theorem charged_enroll (hs : Stands φ s) (h : Charged s.symbols) (name : String) {entity : Entity}
    (hentity : entity.isClass = false) (hφ : φ ≠ .methodHead)
    (hscope : φ = .classBody → s.inParams = false ∧ entity.isMember = true) :
    Charged (s.enroll name entity).symbols := by
  intro k o' ho' hclass'
  rcases (s.grows_enroll name entity).cases ho' with ⟨-, hout⟩ | ⟨o, ho, hout⟩
  · have hnew : (s.recordOf name entity).entity.isClass = entity.isClass := by cases entity <;> rfl
    rw [Symbol.isClass_of_outline hout, hnew, hentity] at hclass'
    cases hclass'
  · have hclass := (Symbol.isClass_of_outline hout).trans hclass'
    by_cases hk : s.parent = some k
    · have hbody : φ = .classBody := (hs.eq_of_parent hk ho hclass).resolve_right hφ
      obtain ⟨hin, hmember⟩ := hscope hbody
      cases ho'.symm.trans (State.get?_enroll_parent ho hk name entity)
      exact h.enroll_member ho hclass hk hin name hmember
    · cases ho'.symm.trans (State.get?_enroll_of_ne ho hk name entity)
      rw [(s.grows_enroll name entity).fieldBytes_of_ne hk]
      exact h k _ ho hclass

/-- The record whose scope is open is live. -/
theorem Stands.parent_lt (hs : Stands φ s) (hk : s.parent = some k) : k < s.symbols.nextId := by
  cases hroot : φ.atRoot with
  | true =>
    obtain ⟨r, hr, -⟩ := hs.names.root hroot k hk
    exact SymbolTable.get?_lt hr
  | false =>
    cases hmembers : φ.atMembers with
    | true =>
      obtain ⟨c, r, hc, hr, -⟩ := hs.placed.openClass (Phase.inClass_of_atMembers hmembers)
      cases ((hs.placed.classParent hmembers).trans hc).symm.trans hk
      exact SymbolTable.get?_lt hr
    | false =>
      have hdepth : φ.depth = 2 := by
        cases φ <;> first | rfl | exact absurd hroot (by decide) | exact absurd hmembers (by decide)
      obtain ⟨m, r, hm, hr, -⟩ := hs.placed.exists_parent hdepth
      cases hm.symm.trans hk
      exact SymbolTable.get?_lt hr

/-- Every owner is live. -/
theorem Stands.owner_lt (hs : Stands φ s) {id : SymbolId} {r : Symbol}
    (hr : s.symbols.get? id = some r) (hk : r.owner = some k) : k < s.symbols.nextId := by
  cases hs.placed.records id r hr with
  | space _ _ _ _ owner => cases owner.symm.trans hk
  | classType _ _ _ entity =>
    obtain ⟨o, ho, -⟩ := hs.names.classes id r hr entity k hk
    exact SymbolTable.get?_lt ho
  | member _ _ _ _ owner _ live =>
    cases owner.symm.trans hk
    exact SymbolTable.get?_lt live
  | inner _ _ owner => exact hs.parent_lt (owner.symm.trans hk)

theorem Stands.parent_ne_nextId (hs : Stands φ s) : s.parent ≠ some s.symbols.nextId :=
  fun hparent => Nat.lt_irrefl _ (hs.parent_lt hparent)

/-- A new class has no variables. -/
theorem charged_classOpened (hs : Stands .file s) (h : Charged s.symbols) (name : String) :
    Charged ({ s with depth := s.depth + 1 }.enroll name .newClass).symbols := by
  have hgrows := State.grows_enroll { s with depth := s.depth + 1 } name .newClass
  have hnew := hs.parent_ne_nextId
  intro k o' ho' hclass'
  rcases hgrows.cases ho' with ⟨rfl, hout⟩ | ⟨o, ho, hout⟩
  · cases ho'.symm.trans
      (State.get?_enroll_new (s := { s with depth := s.depth + 1 }) hnew name .newClass)
    have hnone : s.symbols.childrenOf s.symbols.nextId = [] := by
      refine List.filter_eq_nil_iff.mpr fun r hr howner => ?_
      obtain ⟨id, hid⟩ := (s.symbols.mem_symbols_iff r).mp hr
      exact Nat.lt_irrefl _ (hs.owner_lt hid (beq_iff_eq.mp howner))
    have hzero : s.symbols.fieldBytes s.symbols.nextId = 0 := by
      rw [SymbolTable.fieldBytes, hnone]
      rfl
    rw [hgrows.fieldBytes_of_ne hnew, hzero]
    rfl
  · have hclass := (Symbol.isClass_of_outline hout).trans hclass'
    have hk : s.parent ≠ some k := by
      intro hk
      rcases hs.eq_of_parent hk ho hclass with hφ | hφ <;> cases hφ
    cases ho'.symm.trans
      (State.get?_enroll_of_ne (s := { s with depth := s.depth + 1 }) ho hk name .newClass)
    rw [hgrows.fieldBytes_of_ne hk]
    exact h k _ ho hclass

/-- Code is charged to the method that it is in. -/
theorem charged_code {t : State} (hs : Stands .body s) (h : Charged s.symbols)
    (hplain : a.isHeading = false) (hwithin : s.Within t)
    (hkind : a.isCode = true ∨ a = .sizeFrame) (happly : a.apply s = .ok t) :
    Charged t.symbols := by
  intro k o' ho' hclass'
  obtain ⟨o, ho, hout⟩ := hwithin.sameOuter.get?_old k o' ho' (Entity.isInner_of_isClass hclass')
  have hclass := (Symbol.isClass_of_outline hout).trans hclass'
  have hne : s.parent ≠ some k := by
    intro hk
    rcases hs.eq_of_parent hk ho hclass with hφ | hφ <;> cases hφ
  have hbytes : t.symbols.fieldBytes k = s.symbols.fieldBytes k := by
    rcases hkind with hcode | rfl
    · rcases (State.coded_of_apply hcode happly).warnings_cases with
        ⟨-, hsame | hword⟩ | ⟨line, name, hwarned⟩
      · rw [hsame]
      · rw [hword]
        exact s.grows_newTemp.fieldBytes_of_ne hne
      · rw [hwarned.symbols]
        exact (s.grows_enroll name .placeholder).fieldBytes_of_ne hne
    · exact hwithin.symbols.fieldBytes (nextId_sizeFrame happly) k
  have hdepth := (hs.placed.records k o ho).depth_le_of_outer (Entity.isInner_of_isClass hclass)
  obtain ⟨o'', ho'', -, hentity⟩ :=
    record_move hs.placed (.coded hplain hwithin hkind happly) ho hdepth
  cases ho'.symm.trans ho''
  rw [hentity hne, hbytes]
  exact h k o ho hclass

/-- A scope that is left takes no variables of a class with it. -/
theorem charged_sheds {t : SymbolTable} (hs : Stands φ s) (h : Charged s.symbols)
    (hsheds : s.symbols.Sheds t) : Charged t := by
  intro k o' ho' hclass'
  obtain ⟨-, o, ho, hout⟩ := hsheds.get?_old k o' ho'
  have hclass := (Symbol.isClass_of_outline hout).trans hclass'
  rw [hsheds.entity k o o' ho ho', hsheds.fieldBytes ?_]
  · exact h k o ho hclass
  · intro id r hr hdepth howner
    exact absurd (hs.names.depth_of_class hs.fits hs.placed ho hclass hr howner).1 (by omega)

/-- Every move keeps classes charged with their variables. -/
theorem charged_move (hs : Stands φ s) (hin : s.inParams = true ↔ φ = .params)
    (h : Charged s.symbols) (hmove : Move s φ a ψ p) : Charged p.symbols := by
  have hscope : φ = .classBody → s.inParams = false := by
    rintro rfl
    exact Bool.eq_false_iff.mpr fun htrue => nomatch hin.mp htrue
  cases hmove with
  | @declared φ line name entity inScope plain =>
    refine charged_enroll hs h name ?_ ?_ fun hφ => ⟨hscope hφ, ?_⟩
    · cases entity <;> first | rfl | cases plain
    · rintro rfl
      simp at inScope
    · cases entity <;> first | rfl | cases plain
  | coded plain within kind applied => exact charged_code hs h plain within kind applied
  | @spaceOpened line name => exact charged_enroll hs h name rfl nofun nofun
  | @classOpened line name => exact charged_classOpened hs h name
  | @methodOpened a name procedure isConstructor returns =>
    exact charged_enroll hs h name rfl nofun fun hφ => ⟨hscope hφ, rfl⟩
  | methodClosed sheds => exact charged_sheds hs h sheds
  | classClosed sheds => exact charged_sheds hs h sheds
  | _ => exact h

end Charged

theorem charged_initial : Charged State.initial.symbols := by
  intro k o ho
  cases ho

/-- Behind a legal run, every class is charged with its variables. -/
theorem charged_run {ψ : Phase} {actions : List Action} (hlegal : Phase.Legal .preface actions ψ)
    {s : State} (hrun : State.initial.run actions = (s, none)) : Charged s.symbols :=
  (hlegal.state_induction (P := fun _ => True)
    (I := fun _ φ s => Stands φ s ∧ (s.inParams = true ↔ φ = .params) ∧ Charged s.symbols)
    (fun _ _ h => ⟨h.1.begin, by simpa using h.2.1, h.2.2⟩)
    (by
      rintro _ φ a ψ s t - hfits ⟨hs, hin, h⟩ hnext happly
      exact ⟨stands_apply hs hnext happly, inParams_apply hfits hnext happly hin,
        charged_move hs hin h (move_of_apply hfits hnext happly)⟩)
    (fun _ _ => trivial) [] fits_initial ⟨stands_initial, by decide, charged_initial⟩ hrun).2.2

/-! ## Words for values -/

/-- The place of the word, if the record is that of one inside a method. -/
def Symbol.wordSlot? (r : Symbol) : Option Int :=
  if r.depth == 2 && r.isTemporary then some r.offset else none

theorem Symbol.wordSlot?_outline (r : Symbol) : r.outline.wordSlot? = r.wordSlot? := by
  have hvar : r.entity.outline.isVar = r.entity.isVar := by cases r.entity <;> rfl
  simp [wordSlot?, isTemporary, outline, hvar]

/-- No name of a text is that of a word. -/
theorem State.wordSlot?_recordOf (s : State) {name : String} (hname : IsWord name)
    (entity : Entity) : (s.recordOf name entity).wordSlot? = none := by
  have hne : (s.recordOf name entity).name ≠ frameSlot (s.recordOf name entity).offset := by
    intro heq
    have hisWord : IsWord (s.recordOf name entity).name := hname
    exact not_isWord_frameSlot _ (heq ▸ hisWord)
  simp [Symbol.wordSlot?, Symbol.isTemporary, hne]

theorem State.wordSlot?_tempRecord {s : State} (hdepth : s.depth = 2) :
    s.tempRecord.wordSlot? = some s.tempRecord.offset := by
  simp [Symbol.wordSlot?, Symbol.isTemporary, tempRecord, Symbol.new, hdepth, Entity.newVar,
    Entity.isVar]

/-- The words for values that are in the table. -/
def SymbolTable.wordSlots (t : SymbolTable) : List Int := t.collect Symbol.wordSlot?

section Words

variable {φ ψ : Phase} {s t : State} {a : Action}

theorem wordSlots_enroll (s : State) {name : String} (hname : IsWord name) (entity : Entity) :
    (s.enroll name entity).symbols.wordSlots = s.symbols.wordSlots := by
  have hcollect := (s.grows_enroll name entity).collect Symbol.wordSlot?_outline
  rwa [s.wordSlot?_recordOf hname, Option.toList_none, List.append_nil] at hcollect

/-- Code puts the word that it draws behind the others. -/
theorem wordSlots_code (hdepth : s.depth = 2) (hcode : a.isCode = true) (ha : a.IsSpelled)
    (happly : a.apply s = .ok t) : t.symbols.wordSlots =
      s.symbols.wordSlots ++ if a.drawsWord s then [s.tempRecord.offset] else [] := by
  cases hdraws : a.drawsWord s with
  | true =>
    rw [(State.draws_of_apply hdraws happly).symbols, SymbolTable.wordSlots,
      s.grows_newTemp.collect Symbol.wordSlot?_outline, State.wordSlot?_tempRecord hdepth]
    rfl
  | false =>
    rw [if_neg Bool.false_ne_true, List.append_nil]
    rcases (State.coded_of_apply hcode happly).table_cases with
      hsame | ⟨hword, -⟩ | ⟨name, hname, hnew⟩
    · rw [hsame]
    · cases hdraws.symm.trans hword
    · rw [hnew]
      refine wordSlots_enroll s ?_ .placeholder
      cases a <;> first | cases hname; exact ha | cases hname

/-- Inside a method, the words in the table are those that have been drawn. -/
theorem wordSlots_move {p : State.Spine} (hfits : Fits φ s) (hφ : φ.inMethod = true)
    (hopen : a ≠ .closeMethod) (ha : a.IsSpelled) (hmove : Move s φ a ψ p) : p.symbols.wordSlots =
      s.symbols.wordSlots ++ if a.drawsWord s then [s.tempRecord.offset] else [] := by
  have hplain : a.isCode = false → p.symbols.wordSlots = s.symbols.wordSlots →
      p.symbols.wordSlots =
        s.symbols.wordSlots ++ if a.drawsWord s then [s.tempRecord.offset] else [] := by
    intro hcode hsame
    rw [State.drawsWord_eq_false hcode, hsame, if_neg Bool.false_ne_true, List.append_nil]
  cases hmove with
  | still _ _ aside => exact hplain (by cases a <;> first | rfl | cases aside) rfl
  | declared => exact hplain rfl (wordSlots_enroll s ha _)
  | coded _ within kind applied =>
    rcases kind with hcode | rfl
    · exact wordSlots_code hfits.depth hcode ha applied
    · exact hplain rfl
        (within.symbols.collect Symbol.wordSlot?_outline (nextId_sizeFrame applied))
  | paramsEntered => exact hplain rfl rfl
  | methodClosed => exact absurd rfl hopen
  | _ => cases hφ

theorem wordSlots_run {actions : List Action} (hlegal : Phase.Legal φ actions ψ)
    (hfits : Fits φ s) (hφ : φ.inMethod = true)
    (hall : ∀ a ∈ actions, a ≠ .closeMethod ∧ a.IsSpelled) (hrun : s.run actions = (t, none)) :
    t.symbols.wordSlots = s.symbols.wordSlots ++ s.drawn actions := by
  induction hlegal generalizing s with
  | nil φ =>
    cases hrun
    exact (List.append_nil _).symm
  | begin => cases hφ
  | @cons φ χ ψ a actions here later ih =>
    obtain ⟨hopen, ha⟩ := hall a List.mem_cons_self
    obtain ⟨u, happly, hu⟩ := State.run_cons_eq_none.mp hrun
    have hmove := move_of_apply hfits here happly
    have hnext := fits_apply hfits here
    rw [happly] at hnext
    have hstep : u.symbols.wordSlots = _ := wordSlots_move hfits hφ hopen ha hmove
    rw [ih hnext (sameMethod_move hmove hφ hopen).1
      (fun b hb => hall b (List.mem_cons_of_mem a hb)) hu, hstep, State.drawn, happly,
      List.append_assoc]

theorem State.countP_frame (s : State) :
    s.frame.countP Symbol.isTemporary = s.symbols.wordSlots.length := by
  rw [frame, SymbolTable.atDepth, List.countP_filter, List.countP_filter, SymbolTable.wordSlots,
    SymbolTable.collect, List.length_filterMap_eq_countP]
  refine List.countP_congr fun r _ => ?_
  have hconst : r.isTemporary = true → r.entity.isConst = false := by
    intro htemporary
    have hvar := (Bool.and_eq_true_iff.mp htemporary).1
    cases hentity : r.entity <;> rw [hentity] at hvar <;> first | rfl | cases hvar
  cases hdepth : r.depth == 2 <;> cases htemporary : r.isTemporary <;>
    simp_all [Symbol.wordSlot?]

end Words

/-! ## Methods -/

/-- The bytes of the words for code are those of the placeholders, and two for every temporary. -/
theorem totalSize_scratch_eq {records : List Symbol} (h : ∀ r ∈ records, r.IsScratch) :
    totalSize records = totalSize (records.filter fun r => r.entity == .placeholder) +
      2 * records.countP Symbol.isTemporary := by
  induction records with
  | nil => rfl
  | cons r records ih =>
    have hrest := ih fun q hq => h q (List.mem_cons_of_mem r hq)
    obtain ⟨hsize, hkind⟩ := h r List.mem_cons_self
    rw [List.filter_cons, List.countP_cons]
    simp only [totalSize, List.map_cons, List.foldr_cons] at hrest ⊢
    rcases hkind with hplaceholder | ⟨hvar, hname⟩
    · have htemporary : r.isTemporary = false := by simp [Symbol.isTemporary, hplaceholder, Entity.isVar]
      simp only [hplaceholder, htemporary, beq_self_eq_true, if_true, List.map_cons, List.foldr_cons,
        Bool.false_eq_true, if_false]
      omega
    · have htemporary : r.isTemporary = true := by simp [Symbol.isTemporary, hvar, hname]
      have hplaceholder : (r.entity == .placeholder) = false := by
        cases hentity : r.entity <;> rw [hentity] at hvar <;> first | rfl | cases hvar
      simp only [hplaceholder, htemporary, Bool.false_eq_true, if_false, if_true]
      omega

/-- Declared variables are neither placeholders nor temporaries. -/
theorem Symbol.IsVariable.not_scratch {r : Symbol} (h : r.IsVariable) :
    (r.entity == .placeholder) = false ∧ r.isTemporary = false := by
  refine ⟨?_, ?_⟩
  · have hvar := h.entity
    cases hentity : r.entity <;> rw [hentity] at hvar <;> first | rfl | cases hvar
  · have hname : r.name ≠ frameSlot r.offset := by
      intro heq
      exact not_isWord_frameSlot r.offset (heq ▸ h.name)
    simp [isTemporary, hname]

/-- At the end of a method, its temporaries are the words that it has drawn. -/
theorem Traced.countP_frame {source : String} {p : Program} {c : Compilation} {place : Place p}
    {id : SymbolId} {t s : State} {m : Symbol} {q : Procedure} (h : Traced c place id t s m q)
    (hp : IsTree source p) (ht : State.initial.run place.before = (t, none)) :
    s.frame.countP Symbol.isTemporary =
      (t.drawn (place.routine.heading ++ place.routine.body.actions)).length := by
  have hspelled := place.isSpelled hp
  -- no method is open before, so that the table has no words yet
  have hnone : t.symbols.wordSlots = [] := by
    refine List.filterMap_eq_nil_iff.mpr fun r hr => ?_
    obtain ⟨i, hi⟩ := (t.symbols.mem_symbols_iff r).mp hr
    have hdepth : r.depth ≤ 1 := h.stands.fits.bounded i r hi
    have hne : (r.depth == 2) = false := by simp; omega
    simp [Symbol.wordSlot?, hne]
  obtain ⟨tokens, htokens, htree⟩ := hp
  have hlegal := (place.at_heading (legal_actions htokens htree).2.2 ht).2
  have hslots := wordSlots_run hlegal h.stands.fits rfl
    (fun a ha => ⟨place.routine.ne_closeMethod a ha, hspelled a ha⟩) h.body
  rw [s.countP_frame, hslots, hnone, List.nil_append]

/-- The sizes of a compiled text. The locals of a class are the variables that it owns. A method has
the number and the bytes of its declared parameters, and its locals are its declared variables, the
placeholders and two bytes for every word that its body draws; those of a constructor have its
parameters among them. -/
theorem record_sizes {source : String} {c : Compilation} (hc : compile source = .ok c) :
    (∀ id r, c.symbols.get? id = some r → r.entity.isClass = true →
        r.sizeOfLocals = totalSize ((c.symbols.childrenOf id).filter fun q => q.entity.isVar)) ∧
      (∃ p, IsTree source p) ∧
      ∀ p, IsTree source p → ∀ id ∈ c.symbols.methods,
        ∃ (place : Place p) (t s : State) (m : Symbol) (q : Procedure),
          State.initial.run place.before = (t, none) ∧ Framed c place id s m q ∧
          s.frame.countP Symbol.isTemporary =
            (t.drawn (place.routine.heading ++ place.routine.body.actions)).length ∧
          m.entity.numParams = place.routine.paramTypes.length ∧
          m.sizeOfParams = bytes place.routine.paramTypes ∧
          m.sizeOfLocals = bytes place.routine.body.localTypes +
            totalSize (s.frame.filter fun r => r.entity == .placeholder) +
            2 * (t.drawn (place.routine.heading ++ place.routine.body.actions)).length +
            if place.isConstructor then m.sizeOfParams else 0 := by
  refine ⟨fun id r hr hclass => ?_, exists_tree (completes_of_readsThrough (.inl ⟨c, hc⟩)),
    fun p hp id hid => ?_⟩
  · obtain ⟨p, tokens, htokens, hp⟩ := exists_tree (completes_of_readsThrough (.inl ⟨c, hc⟩))
    obtain ⟨hactions, -, hlegal⟩ := legal_actions htokens hp
    obtain ⟨final, hfinal, -, hsymbols, -⟩ := exists_run_of_compile hactions hc
    rw [hsymbols] at hr ⊢
    rw [Symbol.sizeOfLocals, charged_run hlegal hfinal id r hr hclass]
    rfl
  · obtain ⟨place, t, s, m, q, ht, htraced⟩ := exists_traced_run hc hp hid
    obtain ⟨params, locals, scratch, returns, hframe, -, -, hvariables, hscratch, hentity⟩ :=
      htraced.exists_account hp
    have hplaceholders : s.frame.filter (fun r => r.entity == .placeholder) =
        scratch.filter fun r => r.entity == .placeholder := by
      rw [hframe, ← List.append_assoc, List.filter_append, List.filter_eq_nil_iff.mpr, List.nil_append]
      intro r hr
      simp [(hvariables r hr).not_scratch.1]
    have htemporaries : s.frame.countP Symbol.isTemporary = scratch.countP Symbol.isTemporary := by
      rw [hframe, ← List.append_assoc, List.countP_append, List.countP_eq_zero.mpr, Nat.zero_add]
      intro r hr
      simp [(hvariables r hr).not_scratch.2]
    have hdrawn := htraced.countP_frame hp ht
    refine ⟨place, t, s, m, q, ht, htraced.toFramed, hdrawn, ?_, ?_, ?_⟩
    · rw [hentity]
      rfl
    · rw [Symbol.sizeOfParams, hentity]
    · rw [Symbol.sizeOfParams, Symbol.sizeOfLocals, hentity, hplaceholders, ← hdrawn,
        htemporaries, totalSize_scratch_eq hscratch, ← Int.add_assoc]

namespace Sample

/-- The method has two parameters, a local, a name that was never declared, and a quotient. -/
def charged : String := "class A\x7bint f;void Main(int a,char b)\x7bfloat c;c=a/y;\x7d\x7d"

def chargedMain : Routine :=
  { emptyMain with
    params := some ⟨⟨none, intName, tok .identifier "a"⟩,
      [(tok .comma ",", ⟨none, charName, tok .identifier "b"⟩)]⟩
    body :=
      { declarations := [.vars floatName ⟨tok .identifier "c", []⟩ (tok .semicolon ";")]
        statements := [assignTo "c" (.ofTerm (.product (.ofFactor (.name (tok .identifier "a")))
          ⟨⟨.mulOp, "/", 1⟩, .div, List.mem_cons_of_mem _ List.mem_cons_self⟩
          (.name (tok .identifier "y"))))]
        returns := none } }

def chargedProgram : Program where
  usings := []
  block := .bare [{ classOf "A" (.method voidName chargedMain) with
    members := [⟨[], .declaration (.vars intName ⟨tok .identifier "f", []⟩ (tok .semicolon ";"))⟩,
      ⟨[], .method voidName chargedMain⟩] }]
  ending := tok .eof ""

end Sample

open Sample in
theorem record_sizes_charged :
    ∃ c, compile charged = .ok c ∧
      (∃ r, c.symbols.get? 0 = some r ∧ r.entity.isClass = true ∧ r.sizeOfLocals = 2 ∧
        totalSize ((c.symbols.childrenOf 0).filter fun q => q.entity.isVar) = 2) ∧
      2 ∈ c.symbols.methods ∧
        ∃ (place : Place chargedProgram) (t s : State) (m : Symbol) (q : Procedure),
          State.initial.run place.before = (t, none) ∧ Framed c place 2 s m q ∧
          t.drawn (chargedMain.heading ++ chargedMain.body.actions) = [-8] ∧
          s.frame.countP Symbol.isTemporary = 1 ∧
          totalSize (s.frame.filter fun r => r.entity == .placeholder) = 2 ∧
          m.entity.numParams = 2 ∧ m.sizeOfParams = 3 ∧ m.sizeOfLocals = 8 := by
  have htree : IsTree charged chargedProgram :=
    ⟨chargedProgram.tokens, by decide +kernel, by decide +kernel⟩
  have hentry : (State.initial.run chargedProgram.actions).1.entry = some "A.Main" := by
    decide +kernel
  obtain ⟨c, hc, hsymbols, -⟩ :=
    htree.exists_compile (State.run_eq_of_none (by decide +kernel)) hentry
  obtain ⟨hclasses, -, hmethods⟩ := record_sizes hc
  obtain ⟨hid, hfirst, hfields⟩ : 2 ∈ c.symbols.methods ∧
      (c.symbols.get? 0).map (fun r => r.entity.isClass) = some true ∧
      totalSize ((c.symbols.childrenOf 0).filter fun q => q.entity.isVar) = 2 := by
    rw [hsymbols]
    decide +kernel
  obtain ⟨place, t, s, m, q, ht, hframed, hwords, hnum, hparams, hlocals⟩ :=
    hmethods _ htree 2 hid
  have hroutine : place.routine = chargedMain := List.mem_singleton.mp place.mem
  have hbefore := place.before_eq (by decide +kernel)
  have hdrawn : t.drawn (chargedMain.heading ++ chargedMain.body.actions) = [-8] := by
    have hstate : t = (State.initial.run (chargedProgram.actions.takeWhile
        fun a => a ≠ .openParams)).1 := by rw [← hbefore, ht]
    rw [hstate]
    decide +kernel
  have hunknown : totalSize (s.frame.filter fun r => r.entity == .placeholder) = 2 := by
    have hstate : s = (State.initial.run (chargedProgram.actions.takeWhile
        (fun a => a ≠ .openParams) ++ chargedMain.heading ++ chargedMain.body.actions)).1 := by
      rw [← hbefore, ← hroutine, ← Place.reading, hframed.run]
    rw [hstate]
    decide +kernel
  have hmethod : place.isConstructor = false := by
    rw [Place.isConstructor, hbefore]
    decide +kernel
  rw [hroutine, hdrawn] at hwords hlocals
  rw [hroutine] at hnum hparams
  rw [hunknown, hmethod] at hlocals
  obtain ⟨r, hr, hclass⟩ := Option.map_eq_some_iff.mp hfirst
  exact ⟨c, hc, ⟨r, hr, hclass, (hclasses 0 r hr hclass).trans hfields, hfields⟩, hid, place, t, s,
    m, q, ht, hframed, hdrawn, hwords, hunknown, hnum, hparams, hlocals⟩

end Triad
