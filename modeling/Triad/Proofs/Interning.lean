import Mathlib.Data.List.Nodup
import Triad.StringPool

/-!
The pool of strings as a table. A literal that is already there keeps its label, and a new one goes
behind the others (`intern_cases`). Main statement: over any calls one after another, labels and
texts are in a one to one relation that no later call changes (`labels_stand_for_texts`).
-/

namespace Triad

namespace StringPool

/-! ## Labels -/

theorem toList_labelOf (n : Nat) : (labelOf n).toList = '_' :: 'S' :: Nat.toDigits 10 n := by
  have htext : labelOf n = "_S" ++ n.repr := rfl
  rw [htext, String.toList_append, Nat.toList_repr]
  rfl

theorem underscore_mem_labelOf (n : Nat) : '_' ∈ (labelOf n).toList := by
  simp [toList_labelOf]

theorem labelOf_inj {n k : Nat} (h : labelOf n = labelOf k) : n = k := by
  have hdigits : Nat.toDigits 10 n = Nat.toDigits 10 k := by
    simpa [toList_labelOf] using congrArg String.toList h
  have hvalue := congrArg (fun digits => Nat.ofDigitChars 10 digits 0) hdigits
  simpa using hvalue

/-! ## One call -/

/-- The label that a call for the literal returns. -/
def labelFor (pool : StringPool) (literal : String) : String := (pool.entryFor literal).1.label

/-- A literal is found under its text, or becomes the last entry. -/
theorem intern_cases (pool : StringPool) (literal : String) :
    (∃ e ∈ pool.entries, e.text = normalize literal ∧ pool.labelFor literal = e.label ∧
      pool.intern literal = pool) ∨
    ((∀ e ∈ pool.entries, e.text ≠ normalize literal) ∧
      pool.labelFor literal = labelOf pool.size ∧
      pool.intern literal = ⟨pool.entries ++ [⟨labelOf pool.size, normalize literal⟩]⟩) := by
  unfold labelFor intern entryFor
  dsimp only
  cases hfind : pool.find? (normalize literal) with
  | some e =>
    have htext := List.find?_some hfind
    exact .inl ⟨e, List.mem_of_find?_eq_some hfind, by simpa using htext, rfl, rfl⟩
  | none =>
    have hnone := List.find?_eq_none.mp hfind
    exact .inr ⟨fun e he => by simpa using hnone e he, rfl, rfl⟩

/-- The label that is returned stands for the text, in the pool behind the call. -/
theorem mem_intern (pool : StringPool) (literal : String) :
    ⟨pool.labelFor literal, normalize literal⟩ ∈ (pool.intern literal).entries := by
  rcases pool.intern_cases literal with ⟨e, he, htext, hlabel, hpool⟩ | ⟨-, hlabel, hpool⟩
  · rw [hpool, hlabel, ← htext]
    exact he
  · rw [hpool, hlabel]
    exact List.mem_append_right _ List.mem_cons_self

/-- No entry goes or changes. -/
theorem entries_prefix_intern (pool : StringPool) (literal : String) :
    pool.entries <+: (pool.intern literal).entries := by
  rcases pool.intern_cases literal with ⟨-, -, -, -, hpool⟩ | ⟨-, -, hpool⟩
  · exact hpool.symm ▸ List.prefix_rfl
  · exact hpool.symm ▸ List.prefix_append _ _

/-! ## Pools -/

/-- The entries have the labels in a row. -/
def IsNumbered (pool : StringPool) : Prop :=
  pool.entries.map PoolEntry.label = (List.range pool.size).map labelOf

theorem IsNumbered.intern {pool : StringPool} (h : pool.IsNumbered) (literal : String) :
    (pool.intern literal).IsNumbered := by
  rcases pool.intern_cases literal with ⟨-, -, -, -, hpool⟩ | ⟨-, -, hpool⟩
  · rw [hpool]
    exact h
  · have hsize : size ⟨pool.entries ++ [⟨labelOf pool.size, normalize literal⟩]⟩ = pool.size + 1 :=
      List.length_append
    rw [hpool, IsNumbered, hsize, List.range_succ, List.map_append, List.map_append,
      List.map_singleton, List.map_singleton]
    exact congrArg (· ++ [labelOf pool.size]) h

/-- Labels are in a row, and no text is kept twice. -/
structure Faithful (pool : StringPool) : Prop where
  numbered : pool.IsNumbered
  distinct : (pool.entries.map PoolEntry.text).Nodup

namespace Faithful

variable {pool : StringPool} {e e' : PoolEntry}

theorem intern (h : pool.Faithful) (literal : String) : (pool.intern literal).Faithful := by
  refine ⟨h.numbered.intern literal, ?_⟩
  rcases pool.intern_cases literal with ⟨-, -, -, -, hpool⟩ | ⟨hnew, -, hpool⟩
  · rw [hpool]
    exact h.distinct
  · rw [hpool, List.map_append, List.map_singleton, List.nodup_append]
    refine ⟨h.distinct, List.nodup_singleton _, fun text htext other hother => ?_⟩
    obtain ⟨e, he, rfl⟩ := List.mem_map.mp htext
    rw [List.mem_singleton.mp hother]
    exact hnew e he

theorem nodup_labels (h : pool.Faithful) : (pool.entries.map PoolEntry.label).Nodup := by
  rw [h.numbered]
  exact List.nodup_range.map fun _ _ => labelOf_inj

theorem label_eq_iff (h : pool.Faithful) (he : e ∈ pool.entries) (he' : e' ∈ pool.entries) :
    e.label = e'.label ↔ e.text = e'.text := by
  constructor
  · intro hlabel
    rw [List.inj_on_of_nodup_map h.nodup_labels he he' hlabel]
  · intro htext
    rw [List.inj_on_of_nodup_map h.distinct he he' htext]

theorem lookup_label (h : pool.Faithful) (he : e ∈ pool.entries) :
    pool.lookup e.label = some e := by
  cases hfind : pool.lookup e.label with
  | none => exact absurd (BEq.rfl) (List.find?_eq_none.mp hfind e he)
  | some e' =>
    have hlabel : e'.label = e.label := by simpa using List.find?_some hfind
    rw [List.inj_on_of_nodup_map h.nodup_labels (List.mem_of_find?_eq_some hfind) he hlabel]

end Faithful

/-! ## Calls one after another -/

def internAll (pool : StringPool) (literals : List String) : StringPool :=
  literals.foldl intern pool

/-- The calls for the literals, each with the label that it returns. -/
def calls (pool : StringPool) : List String → List (String × String)
  | [] => []
  | literal :: later => (literal, pool.labelFor literal) :: (pool.intern literal).calls later

theorem faithful_empty : empty.Faithful := ⟨rfl, List.nodup_nil⟩

theorem Faithful.internAll {pool : StringPool} (h : pool.Faithful) (literals : List String) :
    (pool.internAll literals).Faithful := by
  induction literals generalizing pool with
  | nil => exact h
  | cons literal literals ih => exact ih (h.intern literal)

theorem entries_prefix_internAll (pool : StringPool) (literals : List String) :
    pool.entries <+: (pool.internAll literals).entries := by
  induction literals generalizing pool with
  | nil => exact List.prefix_rfl
  | cons literal literals ih => exact (pool.entries_prefix_intern literal).trans (ih _)

/-- What a call has returned stands for its text behind all calls. -/
theorem mem_internAll_of_mem_calls {pool : StringPool} {literals : List String}
    {call : String × String} (h : call ∈ pool.calls literals) :
    ⟨call.2, normalize call.1⟩ ∈ (pool.internAll literals).entries := by
  induction literals generalizing pool with
  | nil => cases h
  | cons literal literals ih =>
    rcases List.mem_cons.mp h with rfl | h
    · exact (entries_prefix_internAll _ literals).mem (pool.mem_intern literal)
    · exact ih h

/-- The pool behind any calls: its labels count the entries and no text is in it twice; two calls
have returned one label just if their texts are the same, the empty text being kept as a blank; and
whatever is interned later, every entry stays as it is and every label that was returned is that of
the text it was returned for. -/
theorem labels_stand_for_texts (literals later : List String) :
    (empty.internAll literals).entries.map PoolEntry.label =
        (List.range (empty.internAll literals).size).map labelOf ∧
      ((empty.internAll literals).entries.map PoolEntry.text).Nodup ∧
      (∀ call ∈ empty.calls literals, ∀ call' ∈ empty.calls literals,
        call.2 = call'.2 ↔ normalize call.1 = normalize call'.1) ∧
      (∀ call ∈ empty.calls literals,
        ((empty.internAll literals).internAll later).lookup call.2 =
          some ⟨call.2, normalize call.1⟩) ∧
      (empty.internAll literals).entries <+:
        ((empty.internAll literals).internAll later).entries := by
  have hpool := faithful_empty.internAll literals
  have hstays := (empty.internAll literals).entries_prefix_internAll later
  refine ⟨hpool.numbered, hpool.distinct, fun call hcall call' hcall' => ?_, fun call hcall => ?_,
    hstays⟩
  · exact hpool.label_eq_iff (mem_internAll_of_mem_calls hcall) (mem_internAll_of_mem_calls hcall')
  · exact (hpool.internAll later).lookup_label (hstays.mem (mem_internAll_of_mem_calls hcall))

/-- The empty literal shares its entry with the blank one, in the order of the calls. -/
theorem labels_stand_for_texts_blank :
    empty.calls ["\"a\"", "\"\"", "\" \"", "\"a\""] =
        [("\"a\"", "_S0"), ("\"\"", "_S1"), ("\" \"", "_S1"), ("\"a\"", "_S0")] ∧
      ((empty.internAll ["\"a\"", "\"\"", "\" \"", "\"a\""]).internAll ["\"b\""]).lookup "_S1" =
        some ⟨"_S1", "\" \""⟩ := by
  have hcalls : empty.calls ["\"a\"", "\"\"", "\" \"", "\"a\""] =
      [("\"a\"", "_S0"), ("\"\"", "_S1"), ("\" \"", "_S1"), ("\"a\"", "_S0")] := by
    decide +kernel
  obtain ⟨-, -, -, hlookup, -⟩ :=
    labels_stand_for_texts ["\"a\"", "\"\"", "\" \"", "\"a\""] ["\"b\""]
  refine ⟨hcalls, hlookup ("\"\"", "_S1") ?_⟩
  rw [hcalls]
  exact List.mem_cons_of_mem _ List.mem_cons_self

end StringPool

end Triad
