import Triad.Proofs.FrameStages
import Triad.Proofs.SizeAccounts

/-!
The variables and constants that may be used. Those of a class stay behind it, those of a method go
with its end (`Visible`). Main statement: what a name stands for as a value is the last of them that
has the name (`getLast?_visible`).
-/

namespace Triad

/-! ## Variables and constants in the table -/

/-- The value of a constant. -/
def Entity.constant? : Entity → Option ConstantValue
  | const _ value => some value
  | _ => none

theorem Symbol.constantValue?_eq (r : Symbol) : r.constantValue? = r.entity.constant? := by
  unfold Symbol.constantValue? Entity.constant?
  cases r.entity <;> rfl

/-- What a variable or a constant of the name is, if the record is one. -/
def Symbol.under? (name : String) (r : Symbol) : Option (Option ConstantValue) :=
  if r.name = name ∧ r.entity.isPlain = true then some r.entity.constant? else none

/-- The same outside methods. -/
def Symbol.outerUnder? (name : String) (r : Symbol) : Option (Option ConstantValue) :=
  if r.depth ≤ 1 then r.under? name else none

theorem Symbol.under?_outline (name : String) (r : Symbol) :
    r.outline.under? name = r.under? name := by
  unfold under? outline
  cases r.entity <;> rfl

theorem Symbol.outerUnder?_outline (name : String) (r : Symbol) :
    r.outline.outerUnder? name = r.outerUnder? name := by
  unfold outerUnder?
  rw [under?_outline]
  rfl

theorem Symbol.under?_of_not_isPlain {r : Symbol} (h : r.entity.isPlain = false) (name : String) :
    r.under? name = none := by
  simp [under?, h]

namespace SymbolTable

variable {β : Type} {t t' : SymbolTable} {f g : Symbol → Option β} {name : String} {q : Symbol}

theorem collect_congr (h : ∀ id r, t.get? id = some r → f r = g r) : t.collect f = t.collect g := by
  refine List.filterMap_congr fun r hr => ?_
  obtain ⟨id, hid⟩ := (t.mem_symbols_iff r).mp hr
  exact h id r hid

/-- A record of another kind, or under another name, does not count. -/
theorem Grows.collect_under_of_none (h : t.Grows q t') (hq : q.under? name = none) :
    t'.collect (Symbol.under? name) = t.collect (Symbol.under? name) ∧
      t'.collect (Symbol.outerUnder? name) = t.collect (Symbol.outerUnder? name) := by
  rw [h.collect (Symbol.under?_outline name), h.collect (Symbol.outerUnder?_outline name), hq,
    Symbol.outerUnder?, hq]
  simp

/-- The record that is found under a name is the last that counts. -/
theorem getLast?_collect_under (h : t.Chained) {id : SymbolId} {r : Symbol}
    (hid : t.lookup name = some id) (hr : t.get? id = some r) (hplain : r.entity.isPlain = true) :
    (t.collect (Symbol.under? name)).getLast? = some r.entity.constant? := by
  obtain ⟨⟨r', hr', hname⟩, hnewest⟩ := (lookup_eq_some_iff h name id).mp hid
  cases hr.symm.trans hr'
  have hunder : (t.get? id).bind (Symbol.under? name) = some r.entity.constant? := by
    rw [hr, Option.bind_some, Symbol.under?, if_pos ⟨hname, hplain⟩]
  obtain ⟨more, hmore⟩ := Nat.exists_eq_add_of_le (get?_lt hr)
  -- behind it there is none of the name
  have hlater : ((List.range more).map (id + 1 + ·)).filterMap
      (fun id => (t.get? id).bind (Symbol.under? name)) = [] := by
    refine List.filterMap_eq_nil_iff.mpr fun i hi => ?_
    obtain ⟨k, -, rfl⟩ := List.mem_map.mp hi
    cases hq : t.get? (id + 1 + k) with
    | none => rfl
    | some q =>
      have hother : q.name ≠ name := by
        intro hq'
        have hle := hnewest _ q hq hq'
        exact Nat.not_le.mpr (Nat.lt_of_lt_of_le (Nat.lt_succ_self id) (Nat.le_add_right _ k)) hle
      simp [Symbol.under?, hother]
  rw [collect_eq, show t.nextId = id + 1 + more from hmore, List.range_add, List.filterMap_append,
    hlater, List.append_nil, List.range_succ, List.filterMap_append, List.filterMap_cons, hunder]
  simp

end SymbolTable

/-! ## What may be used -/

/-- The variables and constants of the classes so far, and those of the open method. -/
structure Visible where
  fields : List (String × Option ConstantValue)
  locals : List (String × Option ConstantValue)
  inMethod : Bool

/-- What is declared under a name, in this order. -/
def under {α : Type} (name : String) (entries : List (String × α)) : List α :=
  entries.filterMap fun e => if e.1 = name then some e.2 else none

theorem under_append {α : Type} (name : String) (first later : List (String × α)) :
    under name (first ++ later) = under name first ++ under name later :=
  List.filterMap_append

namespace Visible

def add (v : Visible) (entries : List (String × Option ConstantValue)) : Visible :=
  if v.inMethod then { v with locals := v.locals ++ entries }
  else { v with fields := v.fields ++ entries }

def after (v : Visible) : Action → Visible
  | .openParams => { v with inMethod := true }
  | .closeMethod => { v with locals := [], inMethod := false }
  | .declare _ name entity => v.add [(name, entity.constant?)]
  | _ => v

/-- All of them, those of the method last. -/
def all (v : Visible) : List (String × Option ConstantValue) := v.fields ++ v.locals

theorem add_nil (v : Visible) : v.add [] = v := by
  cases v with
  | mk fields locals inMethod => cases inMethod <;> simp [add]

theorem add_add (v : Visible) (first later : List (String × Option ConstantValue)) :
    (v.add first).add later = v.add (first ++ later) := by
  cases v with
  | mk fields locals inMethod => cases inMethod <;> simp [add]

theorem all_add {v : Visible} (h : v.inMethod = false → v.locals = [])
    (entries : List (String × Option ConstantValue)) : (v.add entries).all = v.all ++ entries := by
  cases hin : v.inMethod with
  | true => simp [add, all, hin]
  | false => simp [add, all, hin, h hin]

/-- What leaves the scopes as they are, and code. -/
theorem after_eq {a : Action} (h : a.isAside = true ∨ a.isCode = true ∨ a = .sizeFrame)
    (v : Visible) : v.after a = v := by
  rcases h with h | h | rfl
  · cases a <;> first | rfl | cases h
  · cases a <;> first | rfl | cases h
  · rfl

theorem after_routine {a : Action} {name : String} {isConstructor : Bool}
    (h : a.routine? = some (name, isConstructor)) (v : Visible) : v.after a = v := by
  cases a <;> cases h <;> rfl

end Visible

def visible (actions : List Action) : Visible := actions.foldl Visible.after ⟨[], [], false⟩

/-! ## Steps and runs -/

/-- The table has the variables and constants of the name that may be used. -/
structure Sees (name : String) (v : Visible) (φ : Phase) (p : State.Spine) : Prop where
  inMethod : v.inMethod = true ↔ φ.depth = 2
  idle : v.inMethod = false → v.locals = []
  fields : p.symbols.collect (Symbol.outerUnder? name) = under name v.fields
  all : p.symbols.collect (Symbol.under? name) = under name v.all

namespace Sees

variable {name : String} {v : Visible} {φ ψ : Phase} {s : State} {p p' : State.Spine}

theorem same (h : Sees name v φ p) (hsymbols : p'.symbols = p.symbols) (hψ : ψ.depth = φ.depth) :
    Sees name v ψ p' := by
  refine ⟨h.inMethod.trans (by rw [hψ]), h.idle, ?_, ?_⟩
  · rw [hsymbols]
    exact h.fields
  · rw [hsymbols]
    exact h.all

/-- New records of another kind, or under other names, do not matter. -/
theorem grow {q : Symbol} (h : Sees name v φ p) (hgrows : p.symbols.Grows q p'.symbols)
    (hq : q.under? name = none) (hψ : ψ.depth = φ.depth ∨ φ.depth ≠ 2 ∧ ψ.depth ≠ 2) :
    Sees name v ψ p' := by
  obtain ⟨hall, hfields⟩ := hgrows.collect_under_of_none hq
  refine ⟨h.inMethod.trans ?_, h.idle, hfields.trans h.fields, hall.trans h.all⟩
  omega

/-- A variable or a constant is declared in the open scope. -/
theorem declare (hs : Fits φ s) (hφ : φ.depth = 1 ∨ φ.depth = 2) (h : Sees name v φ s.spine)
    {entity : Entity} (hplain : entity.isPlain = true) (declared : String) :
    Sees name (v.add [(declared, entity.constant?)]) φ (s.enroll declared entity).spine := by
  have hgrows := s.grows_enroll declared entity
  have hunder : (s.recordOf declared entity).under? name =
      if declared = name then some entity.constant? else none := by
    cases entity with
    | var | const =>
      simp [Symbol.under?, State.recordOf, Symbol.new, Entity.setLocation, Entity.isPlain,
        Entity.constant?]
    | _ => cases hplain
  have hsingle : under name [(declared, entity.constant?)] =
      ((s.recordOf declared entity).under? name).toList := by
    rw [hunder, under, List.filterMap_cons]
    by_cases hname : declared = name <;> simp [hname]
  have hdepth : (s.recordOf declared entity).depth = φ.depth := hs.depth
  have hall : (s.enroll declared entity).symbols.collect (Symbol.under? name) =
      under name (v.add [(declared, entity.constant?)]).all := by
    rw [Visible.all_add h.idle, under_append, hsingle, hgrows.collect (Symbol.under?_outline name)]
    exact congrArg (· ++ _) h.all
  have hfields := hgrows.collect (Symbol.outerUnder?_outline name)
  rw [show s.symbols.collect (Symbol.outerUnder? name) = _ from h.fields] at hfields
  cases hin : v.inMethod with
  | true =>
    have hdeep := h.inMethod.mp hin
    rw [Symbol.outerUnder?, if_neg (by omega), Option.toList_none, List.append_nil] at hfields
    have hadd : (v.add [(declared, entity.constant?)]).inMethod = true ∧
        (v.add [(declared, entity.constant?)]).fields = v.fields := by
      simp [Visible.add, hin]
    refine ⟨iff_of_true hadd.1 hdeep, fun hout => ?_, ?_, hall⟩
    · cases hadd.1.symm.trans hout
    · rw [hadd.2]
      exact hfields
  | false =>
    have houter : φ.depth = 1 := by
      rcases hφ with hφ | hφ
      · exact hφ
      · cases hin.symm.trans (h.inMethod.mpr hφ)
    rw [Symbol.outerUnder?, if_pos (by omega), ← hsingle, ← under_append] at hfields
    have hadd : (v.add [(declared, entity.constant?)]).inMethod = false ∧
        (v.add [(declared, entity.constant?)]).fields = v.fields ++ [(declared, entity.constant?)] ∧
        (v.add [(declared, entity.constant?)]).locals = v.locals := by
      simp [Visible.add, hin]
    refine ⟨iff_of_false ?_ (by omega), fun _ => hadd.2.2.trans (h.idle hin), ?_, hall⟩
    · rw [hadd.1]
      decide
    · rw [hadd.2.1]
      exact hfields

/-- Code brings words for values and placeholders, and their names do not count. -/
theorem code (hword : IsWord name) (h : Sees name v φ s.spine) {a : Action} {t : State}
    (hcode : a.isCode = true) (happly : a.apply s = .ok t) : Sees name v φ t.spine := by
  cases (State.coded_of_apply hcode happly).fills with
  | same symbols => exact h.same symbols rfl
  | word symbols =>
    have hgrows : s.symbols.Grows s.tempRecord t.symbols := symbols ▸ s.grows_newTemp
    refine h.grow hgrows ?_ (.inl rfl)
    refine if_neg fun hname => not_isWord_frameSlot (s.symbols.minOffset - 2) ?_
    rw [show frameSlot (s.symbols.minOffset - 2) = name from hname.1]
    exact hword
  | @placeholder declared symbols =>
    have hgrows : s.symbols.Grows (s.recordOf declared .placeholder) t.symbols :=
      symbols ▸ s.grows_enroll declared .placeholder
    exact h.grow hgrows (Symbol.under?_of_not_isPlain rfl name) (.inl rfl)

/-- The variables and constants of a method go with it. -/
theorem shed (h : Sees name v φ s.spine) {symbols : SymbolTable} (hsheds : s.symbols.Sheds symbols)
    (hsymbols : p'.symbols = symbols) (hψ : ψ.depth ≠ 2) :
    Sees name { v with locals := [], inMethod := false } ψ p' := by
  have hfields : symbols.collect (Symbol.outerUnder? name) = under name v.fields := by
    rw [hsheds.collect (Symbol.outerUnder?_outline name)]
    · exact h.fields
    · intro id r _ hdeep
      exact if_neg (Nat.not_le.mpr hdeep)
  refine ⟨iff_of_false Bool.false_ne_true hψ, fun _ => rfl, hsymbols ▸ hfields, ?_⟩
  rw [hsymbols, Visible.all, List.append_nil, ← hfields]
  refine SymbolTable.collect_congr fun id r hr => ?_
  exact (if_pos (hsheds.get?_old id r hr).1).symm

end Sees

/-- Every move keeps to what may be used. -/
theorem sees_move {name : String} (hword : IsWord name) {v : Visible} {φ ψ : Phase} {s : State}
    {p : State.Spine} {a : Action} (hs : Fits φ s) (h : Sees name v φ s.spine)
    (hmove : Move s φ a ψ p) : Sees name (v.after a) ψ p := by
  cases hmove with
  | still beside _ aside =>
    rw [Visible.after_eq (.inl aside)]
    refine h.same rfl ?_
    rcases beside with rfl | ⟨rfl, rfl⟩ | ⟨rfl, rfl⟩ <;> rfl
  | @declared _ line declared entity inScope plain =>
    refine h.declare hs ?_ plain declared
    simp only [List.mem_cons, List.not_mem_nil, or_false] at inScope
    rcases inScope with rfl | rfl | rfl
    · exact .inl rfl
    · exact .inr rfl
    · exact .inr rfl
  | coded _ within kind applied =>
    rcases kind with hcode | rfl
    · rw [Visible.after_eq (.inr (.inl hcode))]
      exact h.code hword hcode applied
    · have hnext := nextId_sizeFrame applied
      refine ⟨h.inMethod, h.idle, ?_, ?_⟩
      · exact (within.symbols.collect (Symbol.outerUnder?_outline name) hnext).trans h.fields
      · exact (within.symbols.collect (Symbol.under?_outline name) hnext).trans h.all
  | @spaceOpened line declared start =>
    exact h.grow (s.grows_enroll declared .space) (Symbol.under?_of_not_isPlain rfl name)
      (.inl rfl)
  | spaceClosed => exact h.same rfl rfl
  | @classOpened line declared =>
    exact h.grow (State.grows_enroll { s with depth := s.depth + 1 } declared .newClass)
      (Symbol.under?_of_not_isPlain rfl name) (.inr ⟨by decide, by decide⟩)
  | classEntered => exact h.same rfl rfl
  | @methodOpened _ declared _ _ returns opens =>
    rw [Visible.after_routine opens]
    exact h.grow (s.grows_enroll declared (.newMethod returns))
      (Symbol.under?_of_not_isPlain rfl name) (.inl rfl)
  | paramsEntered => exact ⟨iff_of_true rfl rfl, (fun hout => by cases hout), h.fields, h.all⟩
  | methodClosed sheds => exact h.shed sheds rfl (by decide)
  | @classClosed symbols sheds =>
    have hin : v.inMethod = false := Bool.eq_false_iff.mpr fun hin => by cases h.inMethod.mp hin
    have hleft : Sees name { v with locals := [], inMethod := false } .file (s.left symbols) :=
      h.shed sheds rfl (by decide)
    rwa [← hin, ← h.idle hin] at hleft

theorem sees_run {name : String} (hword : IsWord name) {done : List Action} {φ : Phase}
    (hlegal : Phase.Legal .preface done φ) {s : State}
    (hrun : State.initial.run done = (s, none)) : Sees name (visible done) φ s.spine := by
  refine hlegal.run_induction (I := fun done φ p => Sees name (visible done) φ p)
    (P := fun _ => True) (fun _ _ h => h.same rfl rfl) ?_ (fun _ _ => trivial) [] fits_initial ?_
    hrun
  · rintro done φ a ψ s p - hs h hmove
    rw [visible, List.foldl_concat]
    exact sees_move hword hs h hmove
  · exact ⟨by decide, fun _ => rfl, rfl, rfl⟩

/-- A name that stands for a variable or a constant stands for the last one that has it. -/
theorem getLast?_visible {name : String} (hword : IsWord name) {done : List Action} {φ : Phase}
    (hlegal : Phase.Legal .preface done φ) {s : State}
    (hrun : State.initial.run done = (s, none)) {id : SymbolId} {r : Symbol}
    (hid : s.symbols.lookup name = some id) (hr : s.symbols.get? id = some r)
    (hplain : r.entity.isPlain = true) :
    (under name (visible done).all).getLast? = some r.entity.constant? := by
  rw [← (sees_run hword hlegal hrun).all]
  exact SymbolTable.getLast?_collect_under (fits_of_run fits_initial hlegal hrun).chained hid hr
    hplain

end Triad
