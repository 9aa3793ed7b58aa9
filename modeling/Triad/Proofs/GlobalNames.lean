import Mathlib.Data.List.Count
import Mathlib.Data.List.Nodup
import Triad.Proofs.Desk

/-!
Names in the code. A name that code refers to by itself is that of a record outside methods, and
such a record stays to the end of the text. The data segment has a line for the name only if the
record, or another one of the name, is a variable of a class. Main statement: `named_operands`.
-/

namespace Triad

/-! ## The data segment -/

/-- Some class has a variable of the name. -/
def SymbolTable.HasField (t : SymbolTable) (name : String) : Prop :=
  ∃ id r, t.get? id = some r ∧ r.name = name ∧ r.depth = 1 ∧ r.entity.isVar = true

theorem nodup_eraseDups {α : Type} [BEq α] [LawfulBEq α] (l : List α) : l.eraseDups.Nodup := by
  induction hn : l.length using Nat.strong_induction_on generalizing l with
  | _ n ih =>
    cases l with
    | nil => simp
    | cons a l =>
      have hshorter : (l.filter fun b => !b == a).length < n := by
        have hle := List.length_filter_le (fun b => !b == a) l
        simp only [List.length_cons] at hn
        omega
      rw [List.eraseDups_cons, List.nodup_cons]
      exact ⟨by simp, ih _ hshorter _ rfl⟩

namespace Asm

theorem mem_globals_iff (table : SymbolTable) (name : String) :
    name ∈ globals table ↔ table.HasField name := by
  simp only [globals, List.mem_eraseDups, List.mem_map, List.mem_filter, SymbolTable.atDepth,
    SymbolTable.mem_symbols_iff, beq_iff_eq, SymbolTable.HasField]
  constructor
  · rintro ⟨r, ⟨⟨⟨id, hr⟩, hdepth⟩, hvar⟩, hname⟩
    exact ⟨id, r, hr, hname, hdepth, hvar⟩
  · rintro ⟨id, r, hr, hname, hdepth, hvar⟩
    exact ⟨r, ⟨⟨⟨id, hr⟩, hdepth⟩, hvar⟩, hname⟩

/-- Of the lines of the data segment only those that make room for variables end in a question
mark. -/
theorem getLast?_dataLines {table : SymbolTable} {pool : StringPool} {line : Line}
    (h : line ∈ dataLines table pool) :
    (∃ name ∈ globals table, line = .word name) ∨ line.render.toList.getLast? ≠ some '?' := by
  simp only [dataLines, List.mem_append, List.mem_cons, List.not_mem_nil, or_false,
    List.mem_map] at h
  rcases h with (((rfl | rfl) | ⟨e, -, rfl⟩) | ⟨name, hname, rfl⟩) | rfl
  · exact .inr (by decide)
  · exact .inr (by decide)
  · have hend : ", '$'".toList.getLast? = some '\'' := by decide
    refine .inr ?_
    rw [stringLine, Line.render, String.toList_append, List.getLast?_append, hend]
    simp
  · exact .inl ⟨name, hname, rfl⟩
  · exact .inr (by decide)

theorem getLast?_render_word (name : String) :
    (Line.word name).render.toList.getLast? = some '?' := by
  have hend : " dw ?".toList.getLast? = some '?' := by decide
  rw [Line.render, String.toList_append, List.getLast?_append, hend]
  rfl

theorem count_word (table : SymbolTable) (pool : StringPool) (name : String) :
    (dataLines table pool).count (.word name) = if name ∈ globals table then 1 else 0 := by
  have hword : Function.Injective Line.word := fun _ _ => Line.word.inj
  have hstrings : (pool.entries.map stringLine).count (.word name) = 0 := by
    simp [List.count_eq_zero, stringLine]
  have hwords : ((globals table).map Line.word).count (.word name) =
      if name ∈ globals table then 1 else 0 := by
    rw [List.count_map_of_injective _ _ hword]
    exact (nodup_eraseDups _).count
  rw [dataLines, List.count_append, List.count_append, List.count_append, hstrings, hwords]
  simp

/-- A variable of a class has one line in the data segment, and no other name has any. -/
theorem count_dataLines (table : SymbolTable) (pool : StringPool) (name : String) :
    ((dataLines table pool).map Line.render).count (name ++ " dw ?") =
      if name ∈ globals table then 1 else 0 := by
  rw [← count_word table pool name, List.count, List.count, List.countP_map]
  refine List.countP_congr fun line hline => ?_
  simp only [Function.comp_apply, beq_iff_eq]
  constructor
  · intro heq
    rcases getLast?_dataLines hline with ⟨other, -, rfl⟩ | hlast
    · exact congrArg Line.word (String.append_left_inj _ |>.mp heq)
    · exact absurd (heq ▸ getLast?_render_word name) hlast
  · rintro rfl
    rfl

end Asm

/-! ## Whole programs -/

/-- The code of a program refers to records that are still in its table. -/
theorem denotes_of_compile {source : String} {c : Compilation} (hc : compile source = .ok c)
    {i : Instr} (hi : i ∈ c.code) {name : String} (hname : .global name ∈ i.operands) :
    c.symbols.Denotes (.global name) := by
  obtain ⟨p, hp⟩ := exists_tree (completes_of_readsThrough (.inl ⟨c, hc⟩))
  obtain ⟨d, hrun, hcode, -⟩ := hp.exists_desk hc
  have hholds := hrun.induction
    (I := Desk.Holds fun o => ∀ name, o = .global name → c.symbols.Denotes o)
    (fun _ _ _ hd hstep => hstep.holds (fun _ ho _ _ => ho) nofun nofun nofun hd)
    ⟨fun _ ho => absurd ho List.not_mem_nil, fun _ hi => absurd hi List.not_mem_nil⟩
  rw [hcode] at hi
  rcases List.mem_append.mp hi with hi | hi
  · exact hholds.code i hi _ hname name rfl
  · rw [List.mem_singleton.mp hi] at hname
    cases hname

/-- What stands outside methods is a namespace, a class or a member of one. -/
theorem Standing.outer_cases {N : String → Prop} {t : SymbolTable} {parent : Option SymbolId}
    {id : SymbolId} {r : Symbol} (h : Standing N t parent id r) (hdepth : r.depth ≤ 1)
    (hconst : r.entity.isConst = false) :
    r.depth = 1 ∧ (r.entity.isVar = true ∨ r.entity.isMethod = true ∨ r.entity.isClass = true) ∨
      r.depth = 0 ∧ r.entity = .space := by
  cases h with
  | space _ depth _ entity => exact .inr ⟨depth, entity⟩
  | classType _ depth _ entity => exact .inl ⟨depth, .inr (.inr entity)⟩
  | member _ depth _ entity =>
    refine .inl ⟨depth, ?_⟩
    cases hentity : r.entity with
    | var => exact .inl rfl
    | method => exact .inr (.inl rfl)
    | _ => simp [hentity, Entity.isConst, Entity.isMember] at hconst entity
  | inner depth => omega

/-- A name that code refers to is that of a variable, a method or a class, or of the namespace. It
has one line in the data segment if some class has a variable of the name, and none otherwise. -/
theorem named_operands {source : String} {c : Compilation} (hc : compile source = .ok c)
    {i : Instr} (hi : i ∈ c.code) {name : String} (hname : .global name ∈ i.operands) :
    (∃ id r, c.symbols.get? id = some r ∧ r.name = name ∧
      (r.depth = 1 ∧
          (r.entity.isVar = true ∨ r.entity.isMethod = true ∨ r.entity.isClass = true) ∨
        r.depth = 0 ∧ r.entity = .space)) ∧
      (c.symbols.HasField name →
        ((Asm.dataLines c.symbols c.strings).map Asm.Line.render).count (name ++ " dw ?") = 1) ∧
      (¬ c.symbols.HasField name →
        ((Asm.dataLines c.symbols c.strings).map Asm.Line.render).count (name ++ " dw ?") = 0) := by
  refine ⟨?_, fun hfield => ?_, fun hnone => ?_⟩
  · obtain ⟨p, tokens, htokens, htree⟩ := exists_tree (completes_of_readsThrough (.inl ⟨c, hc⟩))
    obtain ⟨hquiet, -, hlegal⟩ := legal_actions htokens htree
    obtain ⟨s, hrun, -, hsymbols, -⟩ := exists_run_of_compile hquiet hc
    have hstands := stands_run hlegal stands_initial hrun
    cases denotes_of_compile hc hi hname with
    | @outer id r live depth changeable =>
      have hlive : s.symbols.get? id = some r := hsymbols ▸ live
      have hstanding := hstands.placed.records id r hlive
      exact ⟨id, r, live, rfl, hstanding.outer_cases depth changeable⟩
  · rw [Asm.count_dataLines, if_pos ((Asm.mem_globals_iff _ _).mpr hfield)]
  · rw [Asm.count_dataLines, if_neg (mt (Asm.mem_globals_iff _ _).mp hnone)]

namespace Sample

/-- A class is written out. -/
def unplaced : String := "class A\x7bint x;void Main()\x7bwrite(x,A);\x7d\x7d"

theorem compile_unplaced : ∃ c, compile unplaced = .ok c ∧
    c.code = [.proc "A.Main", .writeInt (.global "x"), .writeInt (.global "A"), .endp "A.Main",
      .start "A.Main"] ∧
    Asm.globals c.symbols = ["x"] := by
  have hvalue : (compile unplaced).toOption.map (fun c => (c.code, Asm.globals c.symbols)) =
      some ([.proc "A.Main", .writeInt (.global "x"), .writeInt (.global "A"), .endp "A.Main",
        .start "A.Main"], ["x"]) := by
    decide +kernel
  obtain ⟨c, hc, hvalues⟩ := exists_of_map_compile hvalue
  exact ⟨c, hc, Prod.mk.inj hvalues⟩

end Sample

open Sample in
theorem named_operands_unplaced :
    ∃ c, compile unplaced = .ok c ∧
      (.writeInt (.global "x") ∈ c.code ∧ c.symbols.HasField "x" ∧
        ((Asm.dataLines c.symbols c.strings).map Asm.Line.render).count "x dw ?" = 1) ∧
      .writeInt (.global "A") ∈ c.code ∧ ¬ c.symbols.HasField "A" ∧
        ((Asm.dataLines c.symbols c.strings).map Asm.Line.render).count "A dw ?" = 0 := by
  obtain ⟨c, hc, hcode, hglobals⟩ := compile_unplaced
  have hx : .writeInt (.global "x") ∈ c.code := by simp [hcode]
  have hA : .writeInt (.global "A") ∈ c.code := by simp [hcode]
  have hfield : c.symbols.HasField "x" := (Asm.mem_globals_iff _ _).mp (by simp [hglobals])
  have hnone : ¬ c.symbols.HasField "A" := mt (Asm.mem_globals_iff _ _).mpr (by simp [hglobals])
  obtain ⟨-, hone, -⟩ := named_operands hc hx List.mem_cons_self
  obtain ⟨-, -, hzero⟩ := named_operands hc hA List.mem_cons_self
  exact ⟨c, hc, ⟨hx, hfield, hone hfield⟩, hA, hnone, hzero hnone⟩

open Sample in
/-- The code refers to a name that no variable has, and that has no line in the data segment. -/
theorem class_written_out :
    ∃ c, compile unplaced = .ok c ∧ .writeInt (.global "A") ∈ c.code ∧
      ¬ c.symbols.HasField "A" ∧
      "A dw ?" ∉ (Asm.dataLines c.symbols c.strings).map Asm.Line.render := by
  obtain ⟨c, hc, hcode, hglobals⟩ := compile_unplaced
  have hnone : "A" ∉ Asm.globals c.symbols := by simp [hglobals]
  have hcount := Asm.count_dataLines c.symbols c.strings "A"
  rw [if_neg hnone] at hcount
  exact ⟨c, hc, by simp [hcode], mt (Asm.mem_globals_iff _ _).mpr hnone,
    List.count_eq_zero.mp hcount⟩

end Triad
