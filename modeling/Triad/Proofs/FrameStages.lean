import Triad.Proofs.FrameSlots
import Triad.Proofs.MethodTraces

/-!
The frame of a method, stage by stage. Parameters are laid one above the other from the fourth byte
on, locals one below the other from the second byte down, and constants nowhere. Code comes behind
all declarations: it adds placeholders, which go on where the locals end, and words, which go below
all that there is. Main statement: `Staged.run`.
-/

namespace Triad

/-! ## Runs through the stages -/

/-- What every action keeps that has its place, told what was done before, holds behind a run of
actions in order. -/
theorem Stage.Ordered.state_induction {I : List Action → Stage → State → Prop} {P : Action → Prop}
    (hbegin : ∀ done s, I done (.of .preface) s → I done (.of .file) s)
    (hsettle : ∀ done s, I done (.of .body) s → I done .code s)
    (hstep : ∀ done σ a τ s t, P a → Stands σ.phase s → I done σ s → σ.next? a = some τ →
      a.apply s = .ok t → I (done ++ [a]) τ t)
    {σ τ : Stage} {actions : List Action} (hordered : Ordered σ actions τ)
    (hall : ∀ a ∈ actions, P a) (done : List Action) {s t : State} (hs : Stands σ.phase s)
    (h : I done σ s) (hrun : s.run actions = (t, none)) : I (done ++ actions) τ t := by
  induction hordered generalizing done s with
  | nil σ =>
    cases hrun
    rw [List.append_nil]
    exact h
  | begin _ ih => exact ih hall done hs.begin (hbegin done _ h) hrun
  | settle _ ih => exact ih hall done hs (hsettle done _ h) hrun
  | @cons σ χ τ a actions here _ ih =>
    obtain ⟨u, happly, hu⟩ := State.run_cons_eq_none.mp hrun
    have hnext := stands_apply hs (Stage.phase_of_next? here).2 happly
    have hstepped := hstep done σ a χ s u (hall a List.mem_cons_self) hs h here happly
    have hlater := ih (fun b hb => hall b (List.mem_cons_of_mem a hb)) _ hnext hstepped hu
    rwa [List.append_assoc] at hlater

/-- Code stands in a body, and behind its declarations. -/
theorem Stage.Ordered.code_of_cons {σ τ : Stage} {a : Action} {rest : List Action}
    (h : Ordered σ (a :: rest) τ) (hcode : a.isCode = true) :
    (σ = .of .body ∨ σ = .code) ∧ Ordered .code rest τ := by
  have hlater : ∀ {χ : Stage}, Stage.code.next? a = some χ → χ = .code := by
    intro χ hnext
    cases a <;> first | exact (Option.some.inj hnext).symm | cases hcode
  cases h with
  | settle later =>
    cases later with
    | cons here later => exact ⟨.inl rfl, hlater here ▸ later⟩
  | begin later =>
    cases later with
    | cons here =>
      have hnext := (Stage.phase_of_next? here).2
      cases a <;> first | cases hnext | cases hcode
  | cons here later =>
    cases σ with
    | code => exact ⟨.inr rfl, hlater here ▸ later⟩
    | of φ =>
      exfalso
      obtain ⟨hadmits, hnext⟩ := Stage.phase_of_next? here
      cases φ <;> cases a <;> first | exact Bool.noConfusion hcode | cases hnext | cases hadmits

/-! ## Declarations -/

/-- What the open method has declared, each name with what it stands for. -/
structure Declarations where
  params : List (String × Entity)
  locals : List (String × Entity)
  inBody : Bool
  deriving DecidableEq

theorem Entity.size_nonneg (e : Entity) : 0 ≤ e.size := by
  cases e with
  | var type mode location => exact type.size_nonneg
  | placeholder => exact ValueType.int.size_nonneg
  | _ => exact Int.le_refl 0

theorem Entity.size_of_isConst {e : Entity} (h : e.isConst = true) : e.size = 0 := by
  cases e <;> first | rfl | cases h

namespace Declarations

def add (d : Declarations) (declared : List (String × Entity)) : Declarations :=
  if d.inBody then { d with locals := d.locals ++ declared }
  else { d with params := d.params ++ declared }

def after (d : Declarations) : Action → Declarations
  | .openParams => ⟨[], [], false⟩
  | .openBody => { d with inBody := true }
  | .declare _ name entity => d.add [(name, entity)]
  | _ => d

theorem after_param {d : Declarations} (h : d.inBody = false) (line : Nat) (name : String)
    (entity : Entity) :
    d.after (.declare line name entity) = { d with params := d.params ++ [(name, entity)] } := by
  simp [after, add, h]

theorem after_local {d : Declarations} (h : d.inBody = true) (line : Nat) (name : String)
    (entity : Entity) :
    d.after (.declare line name entity) = { d with locals := d.locals ++ [(name, entity)] } := by
  simp [after, add, h]

theorem after_code {a : Action} (h : a.isCode = true) (d : Declarations) : d.after a = d := by
  cases a <;> first | rfl | cases h

/-- The bytes of what is declared. Constants take none. -/
def room (declared : List (String × Entity)) : Int :=
  declared.foldr (fun d total => d.2.size + total) 0

/-- The parameters go up from the fourth byte. Each is told its place in the list. -/
def paramSpots (params : List (String × Entity)) : List (String × Entity × Int) :=
  params.mapIdx fun k d => (d.1, d.2.setLocation (k + 1), 4 + room (params.take k))

/-- What is not a constant. -/
def variablesOf (declared : List (String × Entity)) : List (String × Entity) :=
  declared.filter fun d => !d.2.isConst

/-- The locals go down from the second byte below, those that are no constants. -/
def localSpots (locals : List (String × Entity)) : List (String × Entity × Int) :=
  locals.mapIdx fun k d =>
    (d.1, d.2.setLocation 0, if d.2.isConst then 0 else -2 - room (variablesOf (locals.take k)))

/-- Name, meaning and offset of all that is declared. -/
def layout (d : Declarations) : List (String × Entity × Int) :=
  paramSpots d.params ++ localSpots d.locals

/-- The lowest place in use. -/
def low (d : Declarations) : Int := (d.layout.map fun spot => spot.2.2).foldl min 0

theorem room_append (declared more : List (String × Entity)) :
    room (declared ++ more) = room declared + room more := by
  induction declared with
  | nil => simp [room]
  | cons d declared ih =>
    change d.2.size + room (declared ++ more) = d.2.size + room declared + room more
    rw [ih, Int.add_assoc]

theorem room_singleton (d : String × Entity) : room [d] = d.2.size := Int.add_zero _

theorem room_nonneg (declared : List (String × Entity)) : 0 ≤ room declared := by
  induction declared with
  | nil => exact Int.le_refl 0
  | cons d declared ih =>
    have hsize := d.2.size_nonneg
    change 0 ≤ d.2.size + room declared
    omega

theorem room_variablesOf (declared : List (String × Entity)) :
    room (variablesOf declared) = room declared := by
  induction declared with
  | nil => rfl
  | cons d declared ih =>
    change _ = d.2.size + room declared
    rw [← ih, variablesOf, List.filter_cons]
    cases hconst : d.2.isConst with
    | true => simp [Entity.size_of_isConst hconst, variablesOf]
    | false => rfl

/-- One more at the end does not matter for what depends on those before. -/
theorem mapIdx_take_concat {α β : Type} (f : List α → Nat → α → β) (l : List α) (a : α) :
    (l ++ [a]).mapIdx (fun k x => f ((l ++ [a]).take k) k x) =
      l.mapIdx (fun k x => f (l.take k) k x) ++ [f l l.length a] := by
  rw [List.mapIdx_concat, List.take_left]
  congr 1
  refine List.ext_getElem (by simp) fun k hk _ => ?_
  have hlt : k < l.length := by simpa using hk
  simp [List.take_append_of_le_length (Nat.le_of_lt hlt)]

theorem paramSpots_concat (params : List (String × Entity)) (d : String × Entity) :
    paramSpots (params ++ [d]) =
      paramSpots params ++ [(d.1, d.2.setLocation (params.length + 1), 4 + room params)] :=
  mapIdx_take_concat (fun before k d => (d.1, d.2.setLocation (k + 1), 4 + room before)) params d

theorem localSpots_concat (locals : List (String × Entity)) (d : String × Entity) :
    localSpots (locals ++ [d]) = localSpots locals ++
      [(d.1, d.2.setLocation 0, if d.2.isConst then 0 else -2 - room locals)] := by
  rw [← room_variablesOf locals]
  exact mapIdx_take_concat (fun before (_ : Nat) (d : String × Entity) =>
    (d.1, d.2.setLocation 0, if d.2.isConst then 0 else -2 - room (variablesOf before))) locals d

end Declarations

/-- What the open method has declared behind the actions. -/
def declarations (actions : List Action) : Declarations :=
  actions.foldl Declarations.after ⟨[], [], false⟩

theorem declarations_snoc (actions : List Action) (a : Action) :
    declarations (actions ++ [a]) = (declarations actions).after a := List.foldl_concat ..

/-! ## The records of a method -/

/-- What a record says of its place. -/
def Symbol.spot (r : Symbol) : String × Entity × Int := (r.name, r.entity, r.offset)

/-- The lowest place of the records, if it is below `low`. -/
def lowest (low : Int) (records : List Symbol) : Int :=
  (records.map Symbol.offset).foldl min low

theorem lowest_append (low : Int) (records more : List Symbol) :
    lowest low (records ++ more) = lowest (lowest low records) more := by
  simp [lowest, List.foldl_append]

theorem lowest_concat (low : Int) (records : List Symbol) (r : Symbol) :
    lowest low (records ++ [r]) = min (lowest low records) r.offset := lowest_append low records [r]

theorem lowest_le (low : Int) (records : List Symbol) : lowest low records ≤ low := by
  unfold lowest
  generalize records.map Symbol.offset = offsets
  induction offsets generalizing low with
  | nil => exact Int.le_refl low
  | cons x offsets ih => exact Int.le_trans (ih (min low x)) (Int.min_le_left low x)

theorem lowest_spots {d : Declarations} {records : List Symbol}
    (h : records.map Symbol.spot = d.layout) : lowest 0 records = d.low := by
  rw [Declarations.low, ← h, List.map_map]
  rfl

/-- Records from zero on do not matter. -/
theorem lowest_filter {p : Symbol → Bool} {records : List Symbol}
    (h : ∀ r ∈ records, p r = false → 0 ≤ r.offset) {low : Int} (hlow : low ≤ 0) :
    lowest low (records.filter p) = lowest low records := by
  induction records generalizing low with
  | nil => rfl
  | cons r records ih =>
    have hmin : min low r.offset ≤ 0 := Int.le_trans (Int.min_le_left low r.offset) hlow
    change _ = lowest (min low r.offset) records
    rw [← ih (fun q hq => h q (List.mem_cons_of_mem r hq)) hmin, List.filter_cons]
    cases hr : p r with
    | true => rfl
    | false =>
      have hoffset := h r List.mem_cons_self hr
      rw [Int.min_eq_left (by omega)]
      rfl

/-- What is outside the open method has no place in its frame. -/
theorem Stands.offset_eq_zero {φ : Phase} {s : State} (hs : Stands φ s) {id : SymbolId} {r : Symbol}
    (hr : s.symbols.get? id = some r) (hdepth : r.depth ≤ 1) : r.offset = 0 := by
  cases hs.placed.records id r hr with
  | space _ _ offset => exact offset
  | classType _ _ offset => exact offset
  | member _ _ offset => exact offset
  | inner depth => omega

theorem Stands.minOffset_eq {φ : Phase} {s : State} (hs : Stands φ s) :
    s.symbols.minOffset = lowest 0 (s.symbols.atDepth 2) := by
  rw [SymbolTable.minOffset_eq]
  refine (lowest_filter (fun r hr hother => ?_) (Int.le_refl 0)).symm
  obtain ⟨id, hid⟩ := (s.symbols.mem_symbols_iff r).mp hr
  have hbound := hs.fits.bounded id r hid
  have hdepth : r.depth ≠ 2 := by simpa using hother
  have hle : φ.bound ≤ 2 := by cases φ <;> decide
  exact Int.le_of_eq (hs.offset_eq_zero hid (by omega)).symm

namespace State

/-- The method of the number is open. It has so many parameters, and the records are all inside
it. -/
structure InMethod (id : SymbolId) (params : Nat) (records : List Symbol) (s : State) : Prop where
  depth : s.depth = 2
  parent : s.parent = some id
  method : s.currentMethod = some id
  record : ∃ m, s.symbols.get? id = some m ∧ m.depth = 1 ∧ m.entity.isMethod = true ∧
    m.entity.numParams = params
  records : s.symbols.atDepth 2 = records

variable {s t : State} {id : SymbolId} {params : Nat} {records : List Symbol}

/-- Only the table and the open method matter. -/
theorem InMethod.same (h : s.InMethod id params records) (hsymbols : t.symbols = s.symbols)
    (hdepth : t.depth = s.depth) (hparent : t.parent = s.parent)
    (hmethod : t.currentMethod = s.currentMethod) : t.InMethod id params records where
  depth := hdepth.trans h.depth
  parent := hparent.trans h.parent
  method := hmethod.trans h.method
  record := hsymbols ▸ h.record
  records := hsymbols ▸ h.records

/-- A record more inside the method, and the charge for it. -/
theorem InMethod.charge (h : s.InMethod id params records) {r : Symbol} {f : Symbol → Symbol}
    {params' : Nat} (hsymbols : t.symbols = (s.symbols.insert r).modify id f)
    (hwithin : s.Within t) (hr : r.depth = 2) (hf : ∀ m, (f m).outline = m.outline)
    (hcount : ∀ m : Symbol, m.entity.isMethod = true → m.entity.numParams = params →
      (f m).entity.numParams = params') : t.InMethod id params' (records ++ [r]) := by
  obtain ⟨m, hm, hdepth, hmethod, hparams⟩ := h.record
  obtain ⟨hm', hrecords⟩ :=
    SymbolTable.charge_spec hm (by omega) hr (Symbol.depth_of_outline (hf m))
  rw [← hsymbols] at hm' hrecords
  exact ⟨hwithin.depth.trans h.depth, hwithin.parent.trans h.parent,
    hwithin.currentMethod.trans h.method,
    ⟨f m, hm', (Symbol.depth_of_outline (hf m)).trans hdepth,
      (Symbol.isMethod_of_outline (hf m)).trans hmethod, hcount m hmethod hparams⟩,
    hrecords.trans (congrArg (· ++ [r]) h.records)⟩

theorem InMethod.newTemp (h : s.InMethod id params records) :
    s.newTemp.2.InMethod id params (records ++ [s.tempRecord]) := by
  have hsymbols : s.newTemp.2.symbols = (s.symbols.insert s.tempRecord).modify id
      fun m => { m with entity := m.entity.growLocals 2 } := by
    unfold State.newTemp modifySymbol
    rw [h.method]
  refine h.charge hsymbols (within_newTemp s) h.depth
    (fun m => m.outline_entity (Entity.outline_growLocals _ _)) fun m _ hm => ?_
  change (m.entity.growLocals 2).numParams = params
  rw [← hm]
  cases m.entity <;> rfl

/-- A declaration counts as a parameter while these are read, unless it is that of a constant. -/
theorem InMethod.enroll (h : s.InMethod id params records) (name : String) {entity : Entity}
    (hinner : entity.isInner = true) :
    (s.enroll name entity).InMethod id
      (if s.inParams && !entity.isConst then params + 1 else params)
      (records ++ [s.recordOf name entity]) := by
  have hsymbols : (s.enroll name entity).symbols =
      (s.symbols.insert (s.recordOf name entity)).modify id (s.charge entity) := by
    rw [symbols_enroll, h.parent]
    rfl
  refine h.charge hsymbols (within_enroll s name hinner) h.depth (outline_charge s entity) ?_
  intro m hmethod hm
  unfold State.charge
  cases hentity : m.entity with
  | method returns n locals bytes =>
    rw [hentity] at hm
    cases entity.isConst <;> cases s.inParams <;> simp [hentity, Entity.addParam,
      Entity.growLocals, Entity.numParams] <;> exact hm
  | _ =>
    rw [hentity] at hmethod
    cases hmethod

/-- The size of the frame is written into the record of the method only. -/
theorem InMethod.sizeFrame (h : s.InMethod id params records)
    (happly : Action.sizeFrame.apply s = .ok t) :
    t.InMethod id params records ∧ t.inParams = s.inParams ∧ t.cursor = s.cursor := by
  obtain ⟨owner, rfl⟩ := eq_of_sizeFrame h.method happly
  obtain ⟨m, hm, hdepth, hmethod, hparams⟩ := h.record
  refine ⟨⟨h.depth, h.parent, h.method, ?_, ?_⟩, rfl, rfl⟩
  · refine ⟨_, (SymbolTable.get?_modify _ _ _ _).trans ((if_pos rfl).trans (congrArg _ hm)),
      hdepth, ?_⟩
    simp only
    cases hentity : m.entity with
    | method returns n locals bytes =>
      rw [hentity] at hparams
      exact ⟨rfl, hparams⟩
    | _ =>
      rw [hentity] at hmethod
      cases hmethod
  · exact (SymbolTable.atDepth_modify hm (by omega) rfl).trans h.records

/-- Parameters are told how many there are with them. -/
theorem InMethod.locationOf_eq (h : s.InMethod id params records) {entity : Entity}
    (hvar : entity.isConst = false) :
    s.locationOf entity = if s.inParams then params + 1 else 0 := by
  obtain ⟨m, hm, -, hmethod, hparams⟩ := h.record
  unfold locationOf
  rw [h.parent, Option.bind_some, hm, hvar]
  cases hentity : m.entity with
  | method returns n locals bytes =>
    rw [hentity] at hparams
    cases s.inParams <;> simp [hentity, Entity.addParam, Entity.numParams]
    exact hparams
  | _ =>
    rw [hentity] at hmethod
    cases hmethod

/-- A declaration lies where the cursor stands, unless it is that of a constant. -/
theorem InMethod.spot_recordOf (h : s.InMethod id params records) (name : String)
    (entity : Entity) :
    (s.recordOf name entity).spot =
      (name, entity.setLocation (if s.inParams then params + 1 else 0),
        if entity.isConst then 0 else s.cursor.offset) := by
  have hoffset : (s.recordOf name entity).offset =
      if entity.isConst then 0 else s.cursor.offset := by
    simp only [recordOf, takesSlot_eq h.depth]
    cases entity.isConst <;> rfl
  have hentity : (s.recordOf name entity).entity =
      entity.setLocation (if s.inParams then params + 1 else 0) := by
    cases hconst : entity.isConst with
    | false => exact congrArg (entity.setLocation ·) (h.locationOf_eq hconst)
    | true => cases entity <;> first | rfl | cases hconst
  rw [Symbol.spot, hoffset, hentity]
  rfl

end State

/-! ## What code adds -/

def Entity.isPlaceholder : Entity → Bool
  | placeholder => true
  | _ => false

namespace State

/-- What code makes of the table and the cursor: nothing, a new word, or a placeholder for a name
that has no record. -/
inductive Fills (s t : State) : Prop
  | same (symbols : t.symbols = s.symbols) (cursor : t.cursor = s.cursor)
  | word (symbols : t.symbols = s.newTemp.2.symbols) (cursor : t.cursor = s.cursor)
  | placeholder {name : String} (symbols : t.symbols = (s.enroll name .placeholder).symbols)
      (cursor : t.cursor = (s.enroll name .placeholder).cursor)

variable {s t : State} {a : Action}

theorem cursor_newTemp (s : State) : s.newTemp.2.cursor = s.cursor := by
  unfold newTemp modifySymbol
  dsimp only
  cases s.currentMethod <;> rfl

/-- A name has a record, or it gets a placeholder. -/
theorem resolve_cases {line : Nat} {name : String} {found : SymbolId × State}
    (h : s.resolve line name = .ok found) :
    found.2 = s ∧ s.symbols.lookup name = some found.1 ∨
      s.symbols.lookup name = none ∧ found.1 = s.symbols.nextId ∧
        found.2.symbols = (s.enroll name .placeholder).symbols ∧
        found.2.cursor = (s.enroll name .placeholder).cursor := by
  rcases found_of_resolve h with ⟨hknown, hsame⟩ | ⟨hunknown, hnew, hmade⟩
  · exact .inl ⟨hsame, hknown⟩
  · rw [hmade]
    refine .inr ⟨hunknown, hnew, ?_, rfl⟩
    exact symbols_enroll_congr name .placeholder ⟨rfl, rfl, rfl, rfl, rfl⟩

theorem Coded.fills (h : s.Coded a t) : s.Fills t := by
  cases h with
  | named _ _ resolved =>
    rcases resolve_cases resolved with ⟨hsame, -⟩ | ⟨-, -, hsymbols, hcursor⟩
    · rw [hsame]
      exact .same rfl rfl
    · exact .placeholder hsymbols hcursor
  | pushed => exact .same rfl rfl
  | @computed rest =>
    exact .word (s.symbols_newTemp_congr rest) (cursor_newTemp { s with operands := rest })
  | emitted _ symbols _ _ _ _ _ cursor => exact .same symbols cursor
  | still => exact .same rfl rfl

end State

/-- The records that code has added to a frame whose declarations reach down to `low`: so many
placeholders, one below the other from `start` on, and words. From the next placeholder down, the
words are all places that the frame has reached in whole words from its lowest one. -/
structure Scratch (start low : Int) (n : Nat) (records : List Symbol) : Prop where
  scratch : ∀ r ∈ records, r.IsScratch
  placeholders : (records.filter fun r => r.entity.isPlaceholder).map Symbol.offset =
    (List.range n).map fun k : Nat => start - 2 * (k : Int)
  words : ∀ x : Int, x ≤ start - 2 * n →
    ((∃ r ∈ records, r.entity.isPlaceholder = false ∧ r.offset = x) ↔
      lowest low records ≤ x ∧ x + 2 ≤ low ∧ 2 ∣ x - lowest low records)

namespace Scratch

variable {start low : Int} {n : Nat} {records : List Symbol}

theorem nil (start low : Int) : Scratch start low 0 [] where
  scratch := fun _ hr => absurd hr List.not_mem_nil
  placeholders := rfl
  words := by
    intro x _
    simp only [List.not_mem_nil, false_and, exists_false, false_iff]
    have hnone : lowest low [] = low := rfl
    omega

/-- A word goes below all that there is. -/
theorem word (h : Scratch start low n records) {r : Symbol} (hr : r.IsScratch)
    (hword : r.entity.isPlaceholder = false) (hoffset : r.offset = lowest low records - 2) :
    Scratch start low n (records ++ [r]) where
  scratch := List.forall_mem_append.mpr ⟨h.scratch, fun q hq => List.mem_singleton.mp hq ▸ hr⟩
  placeholders := by
    rw [List.filter_append, List.map_append, h.placeholders]
    simp [hword]
  words := by
    intro x hx
    have hlow : lowest low (records ++ [r]) = lowest low records - 2 := by
      rw [lowest_concat, hoffset]
      omega
    have hle := lowest_le low records
    have hsplit : (∃ q ∈ records ++ [r], q.entity.isPlaceholder = false ∧ q.offset = x) ↔
        (∃ q ∈ records, q.entity.isPlaceholder = false ∧ q.offset = x) ∨ r.offset = x := by
      simp [or_and_right, exists_or, hword]
    rw [hsplit, h.words x hx, hlow, hoffset]
    omega

/-- A placeholder goes behind the other ones, and may go below all that there is. -/
theorem placeholder (h : Scratch start low n records) {r : Symbol} (hr : r.IsScratch)
    (hplaceholder : r.entity.isPlaceholder = true) (hoffset : r.offset = start - 2 * n) :
    Scratch start low (n + 1) (records ++ [r]) where
  scratch := List.forall_mem_append.mpr ⟨h.scratch, fun q hq => List.mem_singleton.mp hq ▸ hr⟩
  placeholders := by
    rw [List.filter_append, List.map_append, h.placeholders, List.range_succ, List.map_append]
    simp [hplaceholder, hoffset]
  words := by
    intro x hx
    have hsplit : (∃ q ∈ records ++ [r], q.entity.isPlaceholder = false ∧ q.offset = x) ↔
        ∃ q ∈ records, q.entity.isPlaceholder = false ∧ q.offset = x := by
      simp [or_and_right, exists_or, hplaceholder]
    rw [hsplit, h.words x (by omega), lowest_concat, hoffset]
    omega

end Scratch

/-! ## Stages of a method -/

open Declarations

/-- The frame of the open method, as far as the stage has come. -/
inductive Staged (d : Declarations) (s : State) : Stage → Prop
  | outside {φ : Phase} (around : φ.inMethod = false) : Staged d s (.of φ)
  | head {id : SymbolId} (method : s.currentMethod = some id)
      (record : ∃ m, s.symbols.get? id = some m ∧ m.depth = 1 ∧ m.entity.isMethod = true ∧
        m.entity.numParams = 0) : Staged d s (.of .methodHead)
  | params {id : SymbolId} {records : List Symbol}
      (inside : s.InMethod id d.params.length records) (spots : records.map Symbol.spot = d.layout)
      (first : d.locals = []) (heading : d.inBody = false) (reading : s.inParams = true)
      (cursor : s.cursor = ⟨4 + room d.params, 1⟩) : Staged d s (.of .params)
  | signature {id : SymbolId} {records : List Symbol}
      (inside : s.InMethod id d.params.length records) (spots : records.map Symbol.spot = d.layout)
      (first : d.locals = []) (read : s.inParams = false) : Staged d s (.of .signature)
  | locals {id : SymbolId} {records : List Symbol}
      (inside : s.InMethod id d.params.length records) (spots : records.map Symbol.spot = d.layout)
      (body : d.inBody = true) (read : s.inParams = false)
      (cursor : s.cursor = ⟨-2 - room d.locals, -1⟩) :
      Staged d s (.of .body)
  | code {id : SymbolId} {declared scratch : List Symbol} {n : Nat}
      (inside : s.InMethod id d.params.length (declared ++ scratch))
      (spots : declared.map Symbol.spot = d.layout) (read : s.inParams = false)
      (cursor : s.cursor = ⟨-2 - room d.locals - 2 * n, -1⟩)
      (added : Scratch (-2 - room d.locals) d.low n scratch) : Staged d s .code

namespace Staged

variable {d : Declarations} {s t : State} {σ τ : Stage} {a : Action}

/-- Only the log is longer behind a token. -/
theorem scanned (h : Staged d s σ) (log : Array LogRecord) :
    Staged d { s with log := log } σ := by
  cases h with
  | outside around => exact .outside around
  | head method record => exact .head method record
  | params inside spots first heading reading cursor =>
    exact .params (inside.same rfl rfl rfl rfl) spots first heading reading cursor
  | signature inside spots first read =>
    exact .signature (inside.same rfl rfl rfl rfl) spots first read
  | locals inside spots body read cursor =>
    exact .locals (inside.same rfl rfl rfl rfl) spots body read cursor
  | code inside spots read cursor added =>
    exact .code (inside.same rfl rfl rfl rfl) spots read cursor added

/-- The declarations of a body end. -/
theorem settle (h : Staged d s (.of .body)) : Staged d s .code := by
  cases h with
  | outside around => cases around
  | @locals id records inside spots body read cursor =>
    refine .code (n := 0) ((List.append_nil records).symm ▸ inside) spots read ?_ (.nil _ _)
    simpa using cursor

/-- A method is opened with no parameters yet. -/
theorem step_outside {φ : Phase} (hφ : φ.inMethod = false) (hs : Stands φ s)
    (hnext : (Stage.of φ).next? a = some τ) (happly : a.apply s = .ok t)
    (d : Declarations) : Staged d t τ := by
  have hτ : τ = .of τ.phase := Stage.eq_of_next? hnext
  have hmove := move_of_apply hs.fits (Stage.phase_of_next? hnext).2 happly
  rw [hτ]
  generalize hp : t.spine = p at hmove
  generalize τ.phase = ψ at hmove ⊢
  cases hmove with
  | still beside =>
    rcases beside with rfl | ⟨rfl, -⟩ | ⟨rfl, -⟩
    · exact .outside hφ
    · cases hφ
    · cases hφ
  | declared => exact .outside hφ
  | coded => cases hφ
  | methodOpened opens =>
    have hopened := opened_of_apply hs (Option.isSome_of_eq_some opens) happly
    obtain ⟨m, returns, hm, hdepth, hentity⟩ := hopened.record
    exact .head hopened.method ⟨m, hm, hdepth, by rw [hentity]; rfl, by rw [hentity]; rfl⟩
  | paramsEntered => cases hφ
  | methodClosed => cases hφ
  | _ => exact .outside rfl

theorem step_head (h : Staged d s (.of .methodHead)) (hs : Stands .methodHead s)
    (hnext : (Stage.of .methodHead).next? a = some τ) (happly : a.apply s = .ok t) :
    Staged (d.after a) t τ := by
  cases a with
  | scan item =>
    cases hnext
    cases happly
    rw [State.noteAll_eq]
    exact h.scanned _
  | openParams =>
    cases hnext
    cases h with
    | outside around => cases around
    | @head id method record =>
      obtain ⟨owner, rfl⟩ := eq_of_openParams method happly
      have hdepth : s.depth + 1 = 2 := by rw [hs.fits.depth]; rfl
      have hnone : s.symbols.atDepth 2 = [] := hs.fits.atDepth_two (Nat.le_refl 1)
      exact .params ⟨hdepth, rfl, method, record, hnone⟩ rfl rfl rfl rfl rfl
  | _ => cases hnext

theorem step_params (h : Staged d s (.of .params))
    (hnext : (Stage.of .params).next? a = some τ) (happly : a.apply s = .ok t) :
    Staged (d.after a) t τ := by
  cases h with
  | outside around => cases around
  | @params id records inside spots first heading reading cursor =>
    cases a with
    | scan item =>
      cases hnext
      cases happly
      rw [State.noteAll_eq]
      exact .params (inside.same rfl rfl rfl rfl) spots first heading reading cursor
    | closeParams =>
      cases hnext
      cases happly
      exact .signature (inside.same rfl rfl rfl rfl) spots first rfl
    | declare line name entity =>
      cases entity with
      | var type mode location =>
        cases hnext
        have hspot := inside.spot_recordOf name (.var type mode location)
        have hinside : (s.enroll name (.var type mode location)).InMethod id
            (d.params ++ [(name, Entity.var type mode location)]).length
            (records ++ [s.recordOf name (.var type mode location)]) := by
          have hinner : (Entity.var type mode location).isInner := rfl
          have henrolled := inside.enroll name hinner
          rw [reading] at henrolled
          simpa [Entity.isConst] using henrolled
        rw [reading] at hspot
        rw [eq_of_declare happly, after_param heading]
        refine .params hinside ?_ first heading ?_ ?_
        · rw [List.map_append, spots, List.map_singleton, hspot, cursor, layout, layout,
            first, paramSpots_concat]
          simp [localSpots, Entity.isConst]
        · rw [State.inParams_enroll]
          exact reading
        · rw [State.cursor_enroll, State.takesSlot_eq inside.depth, cursor]
          simp [Entity.isConst, FrameCursor.declare, room_append, room_singleton, Int.add_assoc]
      | _ => cases hnext
    | _ => cases hnext

theorem step_signature (h : Staged d s (.of .signature))
    (hnext : (Stage.of .signature).next? a = some τ) (happly : a.apply s = .ok t) :
    Staged (d.after a) t τ := by
  cases a with
  | scan item =>
    cases hnext
    cases happly
    rw [State.noteAll_eq]
    exact h.scanned _
  | openBody =>
    cases hnext
    cases happly
    cases h with
    | outside around => cases around
    | signature inside spots first read =>
      refine .locals (inside.same rfl rfl rfl rfl) spots rfl read ?_
      simp [Declarations.after, first, room, FrameCursor.locals]
  | _ => cases hnext

theorem step_locals (h : Staged d s (.of .body))
    (hnext : (Stage.of .body).next? a = some τ) (happly : a.apply s = .ok t) :
    Staged (d.after a) t τ := by
  cases a with
  | scan item =>
    cases hnext
    cases happly
    rw [State.noteAll_eq]
    exact h.scanned _
  | declare line name entity =>
    cases h with
    | outside around => cases around
    | @locals id records inside spots body read cursor =>
      cases hplain : entity.isPlain with
      | false =>
        obtain ⟨-, hphase⟩ := Stage.phase_of_next? hnext
        simp [Stage.phase, Phase.next?, hplain] at hphase
      | true =>
        rw [Stage.next_declare (by decide) line name entity hplain] at hnext
        cases hnext
        have hinner : entity.isInner = true := by cases entity <;> first | rfl | cases hplain
        have hspot := inside.spot_recordOf name entity
        have hinside := inside.enroll name hinner
        rw [read] at hspot hinside
        rw [eq_of_declare happly, after_local body]
        refine .locals hinside ?_ body ?_ ?_
        · rw [List.map_append, spots, List.map_singleton, hspot, cursor, layout, layout,
            localSpots_concat, List.append_assoc]
          rfl
        · rw [State.inParams_enroll]
          exact read
        · rw [State.cursor_enroll, State.takesSlot_eq inside.depth, cursor, room_append,
            room_singleton]
          cases hconst : entity.isConst with
          | true => simp [Entity.size_of_isConst hconst]
          | false =>
            simp only [Bool.not_false, if_true, FrameCursor.declare, FrameCursor.mk.injEq, and_true]
            omega
  | _ => cases hnext

/-- Code leaves the declarations where they are. -/
theorem coded (h : Staged d s .code) (hs : Stands .body s) (hcode : a.isCode = true)
    (happly : a.apply s = .ok t) : Staged d t .code := by
  have hwithin := State.within_code hs.fits.chained hcode (outcome_of_ok happly)
  have hcoded := State.coded_of_apply hcode happly
  have hread : t.inParams = s.inParams := hcoded.inParams_eq
  cases h with
  | @code id declared scratch n inside spots read cursor added =>
    cases hcoded.fills with
    | same symbols cursor' =>
      exact .code (inside.same symbols hwithin.depth hwithin.parent hwithin.currentMethod) spots
        (hread.trans read) (cursor'.trans cursor) added
    | word symbols cursor' =>
      have hword := State.within_newTemp s
      have hinside := inside.newTemp.same symbols (hwithin.depth.trans hword.depth.symm)
        (hwithin.parent.trans hword.parent.symm)
        (hwithin.currentMethod.trans hword.currentMethod.symm)
      rw [List.append_assoc] at hinside
      have hoffset : s.tempRecord.offset = lowest d.low scratch - 2 := by
        rw [← lowest_spots spots, ← lowest_append, ← inside.records, ← hs.minOffset_eq]
        rfl
      exact .code hinside spots (hread.trans read) (cursor'.trans cursor)
        (added.word s.isScratch_tempRecord rfl hoffset)
    | @placeholder name symbols cursor' =>
      have hnew := State.within_enroll s name (show Entity.placeholder.isInner = true from rfl)
      have hinside := (inside.enroll name (show Entity.placeholder.isInner = true from rfl)).same
        symbols (hwithin.depth.trans hnew.depth.symm) (hwithin.parent.trans hnew.parent.symm)
        (hwithin.currentMethod.trans hnew.currentMethod.symm)
      rw [read, List.append_assoc] at hinside
      have hoffset : (s.recordOf name .placeholder).offset = -2 - room d.locals - 2 * n := by
        have hspot := congrArg (fun x => x.2.2) (inside.spot_recordOf name .placeholder)
        rw [cursor] at hspot
        exact hspot
      refine .code hinside spots (hread.trans read) ?_
        (added.placeholder (s.isScratch_placeholder name) rfl hoffset)
      rw [cursor', State.cursor_enroll, State.takesSlot_eq inside.depth, cursor]
      simp only [Entity.isConst, Bool.not_false, if_true, FrameCursor.declare, Entity.size,
        FrameCursor.mk.injEq, and_true]
      change -2 - room d.locals - 2 * n + 2 * -1 = _
      omega

theorem step_code (h : Staged d s .code) (hs : Stands .body s)
    (hnext : Stage.code.next? a = some τ) (happly : a.apply s = .ok t) :
    Staged (d.after a) t τ := by
  have hcoded : a.isCode = true → d.after a = d ∧ τ = .code := by
    intro hcode
    cases a <;> first | exact ⟨rfl, (Option.some.inj hnext).symm⟩ | cases hcode
  cases hcode : a.isCode with
  | true =>
    obtain ⟨hafter, rfl⟩ := hcoded hcode
    rw [hafter]
    exact h.coded hs hcode happly
  | false =>
    cases a with
    | scan item =>
      cases hnext
      cases happly
      rw [State.noteAll_eq]
      exact h.scanned _
    | sizeFrame =>
      cases hnext
      cases h with
      | code inside spots read cursor added =>
        obtain ⟨hinside, hread, hcursor⟩ := inside.sizeFrame happly
        exact .code hinside spots (hread.trans read) (hcursor.trans cursor) added
    | closeMethod =>
      cases hnext
      exact .outside rfl
    | _ => first | exact Bool.noConfusion hcode | cases hnext

theorem step (h : Staged d s σ) (hs : Stands σ.phase s) (hnext : σ.next? a = some τ)
    (happly : a.apply s = .ok t) : Staged (d.after a) t τ := by
  cases h with
  | outside around => exact step_outside around hs hnext happly _
  | head method record => exact (head method record).step_head hs hnext happly
  | params inside spots first heading reading cursor =>
    exact (params inside spots first heading reading cursor).step_params hnext happly
  | signature inside spots first read =>
    exact (signature inside spots first read).step_signature hnext happly
  | locals inside spots body read cursor =>
    exact (locals inside spots body read cursor).step_locals hnext happly
  | code inside spots read cursor added =>
    exact (code inside spots read cursor added).step_code hs hnext happly

theorem run {done : List Action} (hordered : Stage.Ordered (.of .preface) done σ)
    (hrun : State.initial.run done = (s, none)) : Staged (declarations done) s σ :=
  hordered.state_induction (P := fun _ => True)
    (I := fun done σ s => Staged (declarations done) s σ)
    (fun _ _ _ => .outside rfl) (fun _ _ => settle)
    (by
      intro done σ a τ s t _ hs h hnext happly
      rw [declarations_snoc]
      exact h.step hs hnext happly)
    (fun _ _ => trivial) [] stands_initial (.outside rfl) hrun

end Staged

end Triad
