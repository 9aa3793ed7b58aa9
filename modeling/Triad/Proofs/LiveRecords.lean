import Triad.Proofs.Acceptance

/-!
Records in use. Actions ask the table for records by their numbers: for the one just inserted, for
the open class and the open method, and for those found by a name. Main statement:
`used_records_are_live`, that every record asked for is there at that moment, whatever the text is,
so that no outcome speaks of a removed record.
-/

namespace Triad

/-- A record that is asked for: the table as it is then, and the number, if one is at hand. -/
structure RecordUse where
  table : SymbolTable
  id : Option SymbolId

def RecordUse.IsLive (use : RecordUse) : Prop :=
  ∃ id, use.id = some id ∧ use.table.isLive id = true

namespace State

/-- A new record is filled in once it is inserted and once its size is charged. -/
def declareUses (s : State) (name : String) (entity : Entity) : List RecordUse :=
  if s.declares name then []
  else
    [⟨s.symbols.insert (s.recordOf name entity), some s.symbols.nextId⟩,
     ⟨(s.enroll name entity).symbols, some s.symbols.nextId⟩]

def newTempUses (s : State) : List RecordUse :=
  [⟨s.symbols.insert s.tempRecord, some s.symbols.nextId⟩]

def placeholderUses (s : State) (name : String) : List RecordUse :=
  match s.symbols.lookup name with
  | some _ => []
  | none => s.declareUses name .placeholder

/-- A name that has no record gets one first. -/
def resolveUses (s : State) (line : Nat) (name : String) : List RecordUse :=
  match s.resolve line name with
  | .ok (id, t) => s.placeholderUses name ++ [⟨t.symbols, some id⟩]
  | .error _ => s.placeholderUses name

def lookupUses (s : State) (name : String) : List RecordUse :=
  match s.symbols.lookup name with
  | some id => [⟨s.symbols, some id⟩]
  | none => []

end State

/-- The records that an action asks for. -/
def Action.uses (s : State) : Action → List RecordUse
  | openNamespace _ name _ => s.declareUses name .space
  | openClass _ name => { s with depth := s.depth + 1 }.declareUses name .newClass
  | openClassBody => [⟨s.symbols, s.currentClass⟩]
  | declare _ name entity => s.declareUses name entity
  | openMethod _ name returns => s.declareUses name (.newMethod returns)
  | openConstructor _ name => s.declareUses name (.newMethod .void)
  | openParams => [⟨s.symbols, s.currentMethod⟩]
  | sizeFrame => [⟨s.symbols, s.currentMethod⟩]
  | load line name => s.resolveUses line name
  | negate =>
    match s.operands with
    | source :: _ => if source.isLiteral then [] else s.newTempUses
    | [] => []
  | binary op =>
    match s.operands with
    | right :: left :: _ => if (State.identity? left op right).isSome then [] else s.newTempUses
    | _ => []
  | target line name => s.resolveUses line name
  | call none method _ => s.lookupUses method
  | park => s.newTempUses
  | read _ name => s.lookupUses name
  | writeName _ name => s.lookupUses name
  | _ => []

/-! ## Every use is of a live record -/

theorem isLive_of_get? {t : SymbolTable} {id : SymbolId} {r : Symbol} (h : t.get? id = some r) :
    t.isLive id = true := by
  rw [SymbolTable.isLive, h]
  rfl

namespace State

variable {s : State}

theorem isLive_insert (t : SymbolTable) (r : Symbol) : (t.insert r).isLive t.nextId = true := by
  refine isLive_of_get? (r := r) ?_
  rw [SymbolTable.get?_insert, if_pos rfl]

theorem declareUses_live (s : State) (name : String) (entity : Entity) :
    ∀ use ∈ s.declareUses name entity, use.IsLive := by
  intro use huse
  unfold declareUses at huse
  split at huse
  · cases huse
  · obtain ⟨r, hr, -⟩ := get?_enroll s name entity
    simp only [List.mem_cons, List.not_mem_nil, or_false] at huse
    rcases huse with rfl | rfl
    · exact ⟨_, rfl, isLive_insert _ _⟩
    · exact ⟨_, rfl, isLive_of_get? hr⟩

theorem newTempUses_live (s : State) : ∀ use ∈ s.newTempUses, use.IsLive := by
  intro use huse
  rw [newTempUses, List.mem_singleton] at huse
  subst huse
  exact ⟨_, rfl, isLive_insert _ _⟩

theorem resolveUses_live (h : s.symbols.Chained) (line : Nat) (name : String) :
    ∀ use ∈ s.resolveUses line name, use.IsLive := by
  have hplaceholder : ∀ use ∈ s.placeholderUses name, use.IsLive := by
    intro use huse
    unfold placeholderUses at huse
    split at huse
    · cases huse
    · exact declareUses_live s name .placeholder use huse
  intro use huse
  unfold resolveUses at huse
  split at huse
  · rename_i id t hresolve
    obtain ⟨-, r, hr⟩ := within_resolve h hresolve
    rcases List.mem_append.mp huse with huse | huse
    · exact hplaceholder use huse
    · rw [List.mem_singleton] at huse
      subst huse
      exact ⟨id, rfl, isLive_of_get? hr⟩
  · exact hplaceholder use huse

theorem lookupUses_live (h : s.symbols.Chained) (name : String) :
    ∀ use ∈ s.lookupUses name, use.IsLive := by
  intro use huse
  unfold lookupUses at huse
  split at huse
  · rename_i id hid
    obtain ⟨r, hr⟩ := exists_get?_of_lookup h hid
    rw [List.mem_singleton] at huse
    subst huse
    exact ⟨id, rfl, isLive_of_get? hr⟩
  · cases huse

end State

theorem currentMethod_live {φ : Phase} {s : State} (h : Fits φ s) (hφ : φ.inMethod = true) :
    ∀ use ∈ [RecordUse.mk s.symbols s.currentMethod], use.IsLive := by
  obtain ⟨id, r, hid, hr⟩ := h.openMethod hφ
  intro use huse
  rw [List.mem_singleton] at huse
  subst huse
  exact ⟨id, hid, isLive_of_get? hr⟩

/-- An action that has its place here asks for live records only. -/
theorem uses_live {φ ψ : Phase} {s : State} {a : Action} (h : Fits φ s)
    (hnext : φ.next? a = some ψ) : ∀ use ∈ a.uses s, use.IsLive := by
  cases a with
  | openNamespace line name start => exact s.declareUses_live name .space
  | openClass line name => exact State.declareUses_live _ name .newClass
  | declare line name entity => exact s.declareUses_live name entity
  | openMethod line name returns => exact s.declareUses_live name _
  | openConstructor line name => exact s.declareUses_live name _
  | openClassBody =>
    have hφ : φ = .classHead := by cases φ <;> first | rfl | cases hnext
    obtain ⟨id, r, hid, hr⟩ := h.openClass hφ
    intro use huse
    rw [Action.uses, List.mem_singleton] at huse
    subst huse
    exact ⟨id, hid, isLive_of_get? hr⟩
  | openParams =>
    have hφ : φ.inMethod = true := by cases φ <;> first | rfl | cases hnext
    exact currentMethod_live h hφ
  | sizeFrame =>
    have hφ : φ.inMethod = true := by cases φ <;> first | rfl | cases hnext
    exact currentMethod_live h hφ
  | load line name => exact State.resolveUses_live h.chained line name
  | target line name => exact State.resolveUses_live h.chained line name
  | negate =>
    intro use huse
    rw [Action.uses] at huse
    split at huse
    · split at huse
      · cases huse
      · exact s.newTempUses_live use huse
    · cases huse
  | binary op =>
    intro use huse
    rw [Action.uses] at huse
    split at huse
    · split at huse
      · cases huse
      · exact s.newTempUses_live use huse
    · cases huse
  | call qualifier method count =>
    cases qualifier with
    | none => exact State.lookupUses_live h.chained method
    | some className => exact fun use huse => absurd huse List.not_mem_nil
  | park => exact s.newTempUses_live
  | read line name => exact State.lookupUses_live h.chained name
  | writeName line name => exact State.lookupUses_live h.chained name
  | _ => exact fun use huse => absurd huse List.not_mem_nil

/-! ## Where a record is missed -/

/-- If the outcome speaks of a removed record, one of the uses is of that record. -/
def Blames {α : Type} (uses : List RecordUse) (r : Except Fault α) : Prop :=
  ∀ id, r = .error (.deletedSymbol id) →
    ∃ use ∈ uses, use.id = some id ∧ use.table.isLive id = false

section Blames

variable {s : State} {a : Action} {id : SymbolId}

theorem mem_declareUses {name : String} {entity : Entity} (h : s.declares name = false) :
    ⟨(s.enroll name entity).symbols, some s.symbols.nextId⟩ ∈ s.declareUses name entity := by
  rw [State.declareUses, h]
  exact List.mem_cons_of_mem _ (List.mem_singleton.mpr rfl)

theorem mem_resolveUses {line : Nat} {name : String} {found : SymbolId × State}
    (h : s.resolve line name = .ok found) :
    ⟨found.2.symbols, some found.1⟩ ∈ s.resolveUses line name := by
  rw [State.resolveUses, h]
  exact List.mem_append_right _ (List.mem_singleton.mpr rfl)

theorem mem_lookupUses {name : String} (h : s.symbols.lookup name = some id) :
    ⟨s.symbols, some id⟩ ∈ s.lookupUses name := by
  rw [State.lookupUses, h]
  exact List.mem_singleton.mpr rfl

/-- The records that an action may miss are among those that it uses. -/
theorem mem_uses_of_asks {t : SymbolTable} (h : a.Asks s t id) : ⟨t, some id⟩ ∈ a.uses s := by
  cases h with
  | openClass current =>
    rw [Action.uses, current]
    exact List.mem_singleton.mpr rfl
  | openMethod asks current =>
    rcases asks with rfl | rfl <;> rw [Action.uses, current] <;> exact List.mem_singleton.mpr rfl
  | newMethod opens fresh =>
    rcases opens with rfl | ⟨rfl, rfl⟩ <;> exact mem_declareUses fresh
  | mentioned mentions resolved =>
    rcases mentions with rfl | rfl <;> exact mem_resolveUses resolved
  | accessed accesses found =>
    rcases accesses with rfl | rfl <;> exact mem_lookupUses found
  | called found => exact mem_lookupUses found

/-- Asking in vain is the only way to an outcome that speaks of a removed record. -/
theorem blames_apply (s : State) (a : Action) : Blames (a.uses s) (a.apply s) := by
  intro id h
  cases outcome_of_error h with
  | removed asks dead =>
    refine ⟨_, mem_uses_of_asks asks, rfl, ?_⟩
    rw [SymbolTable.isLive, dead]
    rfl

end Blames

/-! ## Runs -/

theorem exists_next_of_legal {φ ψ : Phase} {s : State} {a : Action} {rest : List Action}
    (h : Fits φ s) (hlegal : Phase.Legal φ (a :: rest) ψ) :
    ∃ φ' χ, Fits φ' s ∧ φ'.next? a = some χ := by
  cases hlegal with
  | cons here _ => exact ⟨_, _, h, here⟩
  | begin later =>
    cases later with
    | cons here _ => exact ⟨_, _, h.begin, here⟩

/-- At every point of the reading of any text, whether it fails later or not, the next action asks
for live records only. -/
theorem parse_uses_live {source : String} {done rest : List Action} {a : Action} {s : State}
    (hparse : (Grammar.parse (Scanner.ofString source).scan).1 = done ++ a :: rest)
    (hrun : State.initial.run done = (s, none)) : ∀ use ∈ a.uses s, use.IsLive := by
  obtain ⟨ψ, hlegal⟩ : ∃ ψ, Phase.Legal .preface (done ++ a :: rest) ψ := by
    have hlegal := Grammar.legal_parse (Scanner.ofString source).scan
    rw [← hparse]
    cases hfault : (Grammar.parse (Scanner.ofString source).scan).2 with
    | none =>
      rw [hfault] at hlegal
      exact ⟨_, hlegal⟩
    | some fault =>
      rw [hfault] at hlegal
      exact hlegal.1
  obtain ⟨φ, hdone, hrest⟩ := hlegal.split
  obtain ⟨φ', χ, hfits, hnext⟩ := exists_next_of_legal (fits_of_run fits_initial hdone hrun) hrest
  exact uses_live hfits hnext

/-- No outcome speaks of a removed record. -/
theorem compile_ne_deletedSymbol (source : String) (id : SymbolId) :
    compile source ≠ .error (.deletedSymbol id) := by
  intro hcompile
  rcases compile_cases source with ⟨fault, hfault, hmeaning⟩ | hcases
  · rw [hcompile] at hfault
    cases hfault
    cases hmeaning
  · split at hcases
    · obtain ⟨hfault, hform⟩ := hcases
      rw [hcompile] at hfault
      cases hfault
      rcases hform with ⟨_, _, _, hmismatch⟩ | hbroken
      · cases hmismatch
      · obtain ⟨_, _, hnumber⟩ := Scanner.broken_scan hbroken
        cases hnumber
    · rcases hcases with ⟨c, hok⟩ | hmissing
      · rw [hcompile] at hok
        cases hok
      · rw [hcompile] at hmissing
        cases hmissing

/-- Every record that is asked for is live at that moment: the one just inserted, the open class and
the open method, and those found by a name. Only a use of a removed record could make an action fail
for it; so the outcome is a compilation or a fault of another kind. -/
theorem used_records_are_live (source : String) :
    (∀ done a rest s, (Grammar.parse (Scanner.ofString source).scan).1 = done ++ a :: rest →
      State.initial.run done = (s, none) → ∀ use ∈ a.uses s, use.IsLive) ∧
    (∀ (s : State) (a : Action), Blames (a.uses s) (a.apply s)) ∧
    ((∃ c, compile source = .ok c) ∨
      ∃ fault, compile source = .error fault ∧ ∀ id, fault ≠ .deletedSymbol id) := by
  refine ⟨fun _ _ _ _ => parse_uses_live, blames_apply, ?_⟩
  cases hcompile : compile source with
  | ok c => exact .inl ⟨c, rfl⟩
  | error fault =>
    refine .inr ⟨fault, rfl, ?_⟩
    rintro id rfl
    exact compile_ne_deletedSymbol source id hcompile

/-- The actions of a program whose second method uses a name of the first one. -/
def staleNameActions : List Action :=
  (Grammar.parse (Scanner.ofString
    "class A\x7bint F(int x)\x7b\x7dint Main()\x7breturn x;\x7d\x7d").scan).1

/-- The name is found nowhere once the records of the first method are gone, and its new record is
live. -/
theorem used_records_are_live_stale :
    .load 1 "x" ∈ staleNameActions ∧
    ∃ s, State.initial.run ((Action.load 1 "x").before staleNameActions) = (s, none) ∧
      ((Action.load 1 "x").uses s).length = 3 ∧
      ∀ use ∈ (Action.load 1 "x").uses s, use.IsLive := by
  have hmem : .load 1 "x" ∈ staleNameActions := by decide +kernel
  have hrun : (State.initial.run ((Action.load 1 "x").before staleNameActions)).2 = none := by
    decide +kernel
  refine ⟨hmem, _, State.run_eq_of_none hrun, by decide +kernel, ?_⟩
  exact (used_records_are_live _).1 _ _ _ _ (Action.eq_before_behind hmem)
    (State.run_eq_of_none hrun)

end Triad
