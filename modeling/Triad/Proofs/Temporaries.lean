import Triad.Proofs.Scopes
import Triad.Proofs.WholeNumbers

/-!
New words of the frame for values worked out on the way. A new word lies below every live record,
and its name is no word of a program text, so that what names stand for stays the same
(`Follows.newTemp`).
-/

namespace Triad

open Triad.Text

/-! ## The lowest place -/

namespace SymbolTable

theorem mem_symbols_iff (t : SymbolTable) (r : Symbol) :
    r ∈ t.symbols ↔ ∃ id, t.get? id = some r := by
  simp only [symbols, toList, List.mem_map, List.mem_filterMap, Option.map_eq_some_iff]
  constructor
  · rintro ⟨⟨id, q⟩, ⟨⟨entry, i⟩, hmem, e, hentry, heq⟩, rfl⟩
    cases heq
    refine ⟨i, ?_⟩
    rw [List.mem_zipIdx_iff_getElem?] at hmem
    simp_all [get?, entryAt?]
  · rintro ⟨id, hid⟩
    obtain ⟨e, he, rfl⟩ := (get?_eq_some_iff t id r).mp hid
    refine ⟨(id, e.symbol), ⟨(some e, id), ?_, e, rfl, rfl⟩, rfl⟩
    rw [List.mem_zipIdx_iff_getElem?]
    simpa [entryAt?, Option.join_eq_some_iff] using he

private theorem le_foldl_min (records : List Symbol) (low least : Int) :
    low ≤ records.foldl (fun least s => min least s.offset) least ↔
      low ≤ least ∧ ∀ r ∈ records, low ≤ r.offset := by
  induction records generalizing least with
  | nil => simp
  | cons r records ih =>
    rw [List.foldl_cons, ih, Int.le_min, List.forall_mem_cons, and_assoc]

theorem le_minOffset_iff (t : SymbolTable) (low : Int) :
    low ≤ t.minOffset ↔ low ≤ 0 ∧ ∀ id r, t.get? id = some r → low ≤ r.offset := by
  unfold minOffset
  rw [le_foldl_min]
  simp only [mem_symbols_iff, forall_exists_index]
  constructor
  · rintro ⟨h0, h⟩
    exact ⟨h0, fun id r => h r id⟩
  · rintro ⟨h0, h⟩
    exact ⟨h0, fun r id => h id r⟩

theorem minOffset_le {t : SymbolTable} {id : SymbolId} {r : Symbol} (h : t.get? id = some r) :
    t.minOffset ≤ r.offset :=
  ((le_minOffset_iff t t.minOffset).mp (Int.le_refl _)).2 id r h

/-- Tables with the same live records of a name find the same one. -/
theorem lookup_congr {t t' : SymbolTable} (ht : t.Chained) (ht' : t'.Chained) {name : String}
    (h : ∀ id, (∃ r, t'.get? id = some r ∧ r.name = name) ↔
      ∃ r, t.get? id = some r ∧ r.name = name) : t'.lookup name = t.lookup name := by
  apply Option.ext
  intro id
  rw [lookup_eq_some_iff ht, lookup_eq_some_iff ht', h id]
  refine and_congr_right fun _ => ?_
  constructor
  · intro hnewest id' r' hr' hname
    obtain ⟨q, hq, hqname⟩ := (h id').mpr ⟨r', hr', hname⟩
    exact hnewest id' q hq hqname
  · intro hnewest id' r' hr' hname
    obtain ⟨q, hq, hqname⟩ := (h id').mp ⟨r', hr', hname⟩
    exact hnewest id' q hq hqname

/-- A name is found as before, if no new record has it. -/
theorem Evolves.lookup_eq {depth : Nat} {t t' : SymbolTable} (h : t.Evolves depth t')
    (ht : t.Chained) {name : String}
    (hnew : ∀ id r, t.nextId ≤ id → t'.get? id = some r → r.name ≠ name) :
    t'.lookup name = t.lookup name := by
  refine lookup_congr ht (h.chained ht) fun id => ?_
  constructor
  · rintro ⟨r, hr, hname⟩
    rcases Nat.lt_or_ge id t.nextId with hlt | hge
    · obtain ⟨q, hq, hout⟩ := h.get?_old hlt hr
      exact ⟨q, hq, (Symbol.name_of_outline hout).trans hname⟩
    · exact absurd hname (hnew id r hge hr)
  · rintro ⟨r, hr, hname⟩
    obtain ⟨q, hq, hout⟩ := h.get? hr
    exact ⟨q, hq, (Symbol.name_of_outline hout).trans hname⟩

theorem Grows.lookup_of_ne {t t' : SymbolTable} {s : Symbol} (h : t.Grows s t') (ht : t.Chained)
    {name : String} (hne : s.name ≠ name) : t'.lookup name = t.lookup name := by
  refine h.evolves.lookup_eq ht fun id r hge hr => ?_
  rcases h.cases hr with ⟨-, hout⟩ | ⟨q, hq, -⟩
  · rw [Symbol.name_of_outline hout]
    exact hne
  · exact absurd (get?_lt hq) (Nat.not_lt_of_le hge)

theorem Grows.lookup_new {t t' : SymbolTable} {s : Symbol} (h : t.Grows s t') (ht : t.Chained) :
    t'.lookup s.name = some t.nextId := by
  obtain ⟨r, hr, hout⟩ := h.new
  refine (lookup_eq_some_iff (h.evolves.chained ht) s.name t.nextId).mpr
    ⟨⟨r, hr, Symbol.name_of_outline hout⟩, fun id q hq _ => ?_⟩
  have hlt := get?_lt hq
  rw [h.nextId] at hlt
  exact Nat.le_of_lt_succ hlt

end SymbolTable

/-! ## Names of words -/

/-- A text that a name of a program can be. -/
def IsWord (name : String) : Prop := ∀ c ∈ name.toList, continuesWord c = true

theorem isWord_of_all {name : String} (h : name.toList.all continuesWord = true) : IsWord name :=
  List.all_eq_true.mp h

theorem exists_sign_frameSlot (offset : Int) :
    ∃ c ∈ (frameSlot offset).toList, c = '+' ∨ c = '-' := by
  cases offset with
  | ofNat n =>
    refine ⟨'+', ?_, .inl rfl⟩
    have hsign : ¬ (Int.ofNat n < 0) := by simp
    rw [frameSlot, if_neg hsign]
    change '+' ∈ ("_BP+" ++ toString (Int.ofNat n)).toList
    simp
  | negSucc n =>
    refine ⟨'-', ?_, .inr rfl⟩
    have htext : toString (Int.negSucc n) = "-" ++ toString (n + 1) := rfl
    simp [frameSlot, htext]

theorem not_isWord_frameSlot (offset : Int) : ¬ IsWord (frameSlot offset) := by
  intro h
  obtain ⟨c, hmem, rfl | rfl⟩ := exists_sign_frameSlot offset
  · exact absurd (h '+' hmem) (by decide +kernel)
  · exact absurd (h '-' hmem) (by decide +kernel)

namespace State

/-- The second state has what the names of the first one stand for, and its new records lie below
those of the first one. -/
structure Follows (b t : State) : Prop where
  chained : t.symbols.Chained
  lookup : ∀ name, IsWord name → t.symbols.lookup name = b.symbols.lookup name
  records : ∀ id r, b.symbols.get? id = some r →
    ∃ q, t.symbols.get? id = some q ∧ q.outline = r.outline
  low : t.symbols.minOffset ≤ b.symbols.minOffset
  warnings : t.warnings = b.warnings

theorem Follows.refl {b : State} (h : b.symbols.Chained) : b.Follows b :=
  ⟨h, fun _ _ => rfl, fun _ r hr => ⟨r, hr, rfl⟩, Int.le_refl _, rfl⟩

/-- Code, log and operands may differ. -/
theorem Follows.same {b s t : State} (h : b.Follows s) (hsymbols : t.symbols = s.symbols)
    (hwarnings : t.warnings = s.warnings) : b.Follows t := by
  refine ⟨?_, ?_, ?_, ?_, hwarnings.trans h.warnings⟩
  · rw [hsymbols]
    exact h.chained
  · rw [hsymbols]
    exact h.lookup
  · rw [hsymbols]
    exact h.records
  · rw [hsymbols]
    exact h.low

/-! ## A new word -/

theorem grows_newTemp (s : State) :
    s.symbols.Grows s.tempRecord s.newTemp.2.symbols := by
  have hinsert := s.symbols.grows_insert s.tempRecord
  unfold newTemp modifySymbol
  cases s.currentMethod with
  | none => exact hinsert
  | some id => exact hinsert.modify id fun r => r.outline_entity (Entity.outline_growLocals _ _)

theorem code_newTemp (s : State) : s.newTemp.2.code = s.code := by
  unfold newTemp modifySymbol
  cases s.currentMethod <;> rfl

theorem operands_newTemp (s : State) : s.newTemp.2.operands = s.operands := by
  unfold newTemp modifySymbol
  cases s.currentMethod <;> rfl

/-- The new word lies below all records. -/
theorem low_newTemp (s : State) : s.newTemp.2.symbols.minOffset ≤ s.tempRecord.offset := by
  obtain ⟨r, hr, hout⟩ := (grows_newTemp s).new
  rw [← Symbol.offset_of_outline hout]
  exact SymbolTable.minOffset_le hr

theorem lookup_newTemp {s : State} (h : s.symbols.Chained) {name : String} (hname : IsWord name) :
    s.newTemp.2.symbols.lookup name = s.symbols.lookup name := by
  refine (grows_newTemp s).lookup_of_ne h ?_
  rintro rfl
  exact not_isWord_frameSlot _ hname

theorem Follows.newTemp {b s : State} (h : b.Follows s) : b.Follows s.newTemp.2 := by
  have hwithin := (within_newTemp s).symbols
  refine ⟨hwithin.chained h.chained, ?_, ?_, ?_, ?_⟩
  · intro name hname
    rw [lookup_newTemp h.chained hname]
    exact h.lookup name hname
  · intro id r hr
    obtain ⟨q, hq, hout⟩ := h.records id r hr
    obtain ⟨q', hq', hout'⟩ := hwithin.get? hq
    exact ⟨q', hq', hout'.trans hout⟩
  · have hlow := low_newTemp s
    have hoffset : s.tempRecord.offset = s.symbols.minOffset - 2 := rfl
    have hbase := h.low
    omega
  · unfold State.newTemp modifySymbol
    cases s.currentMethod <;> exact h.warnings

end State

end Triad
