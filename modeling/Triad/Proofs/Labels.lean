import Mathlib.Data.List.Nodup
import Triad.Proofs.Accumulator
import Triad.Proofs.FrameWords
import Triad.Proofs.GlobalNames
import Triad.Proofs.Interning
import Triad.Proofs.Lexemes
import Triad.Proofs.QualifiedNames
import Triad.Proofs.StringData

/-!
The labels of an assembly file. Strings are numbered, variables keep the names of the text, and the
name of a procedure is that of its method with an underscore for the point. Main statement: two
labels are the same only where a variable has the name of another label, or where the names of two
methods differ in the place of the point only; and only a variable can be called like a register
(`labels_apart_iff`).
-/

namespace Triad

open Syntax

/-! ## Labels of lines -/

namespace Asm

/-- The label that a line defines. The end of a procedure repeats one. -/
def Line.label? : Line → Option String
  | string label _ => some label
  | word name => some name
  | procStart label => some label
  | _ => none

def labels (lines : List Line) : List String := lines.filterMap Line.label?

/-- The label that is defined where an instruction is carried out. -/
def labelOf? : Instr → Option String
  | .proc name => some (procLabel name)
  | .start _ => some "start"
  | _ => none

theorem labels_append (first later : List Line) :
    labels (first ++ later) = labels first ++ labels later := List.filterMap_append

theorem labels_ops (ops : List Op) : labels (ops.map .op) = [] := by
  rw [labels, List.filterMap_map]
  exact List.filterMap_eq_nil_iff.mpr fun _ _ => rfl

theorem labels_lower (table : SymbolTable) (i : Instr) :
    labels (lower table i) = (labelOf? i).toList := by
  cases i with
  | proc name =>
    rw [lower, enterLines]
    split <;> rfl
  | endp name =>
    rw [lower, leaveLines]
    split <;> rfl
  | binary dest left op right => exact labels_ops _
  | assign dest source => exact labels_ops _
  | negate dest source => exact labels_ops _
  | _ => rfl

theorem labels_code (table : SymbolTable) (code : Code) :
    labels (code.flatMap (lower table)) = code.filterMap labelOf? := by
  induction code with
  | nil => rfl
  | cons i code ih =>
    rw [List.flatMap_cons, labels_append, labels_lower, ih]
    cases hi : labelOf? i <;> simp [hi]

/-- The labels of a file, in its order. -/
theorem labels_program (table : SymbolTable) (pool : StringPool) (file : String) (code : Code) :
    labels (program table pool file code) =
      pool.entries.map PoolEntry.label ++ globals table ++ code.filterMap labelOf? := by
  have hstrings : labels (pool.entries.map stringLine) = pool.entries.map PoolEntry.label := by
    rw [labels, List.filterMap_map]
    exact congrFun List.filterMap_eq_map' _
  have hwords : labels ((globals table).map .word) = globals table := by
    rw [labels, List.filterMap_map]
    exact List.filterMap_some
  have hdata : labels (dataLines table pool) =
      pool.entries.map PoolEntry.label ++ globals table := by
    rw [dataLines, labels_append, labels_append, labels_append, hstrings, hwords]
    exact List.append_nil _
  have hcode : labels (codeLines table code) = code.filterMap labelOf? := by
    rw [codeLines, labels_append, labels_code]
    rfl
  rw [program, labels_append, labels_append, hdata, hcode]
  rfl

/-- The code of procedures has a label for each, and the start has one of its own. -/
theorem labels_procedures (procedures : List Procedure) (entry : String) :
    (procedures.flatMap Procedure.code ++ [Instr.start entry]).filterMap labelOf? =
      (procedures.map Procedure.name).map procLabel ++ ["start"] := by
  have hinner : ∀ i : Instr, i ∈ procedures.flatMap Procedure.code →
      labelOf? i = i.begins?.map procLabel := by
    intro i hi
    obtain ⟨q, -, hi⟩ := List.mem_flatMap.mp hi
    simp only [Procedure.code, List.mem_cons, List.mem_append, List.not_mem_nil, or_false] at hi
    rcases hi with (rfl | hi) | rfl
    · rfl
    · have hbody := q.inner i hi
      cases i <;> first | rfl | cases hbody
    · rfl
  rw [List.filterMap_append, List.filterMap_congr hinner, ← filterMap_begins?,
    List.map_filterMap]
  rfl

end Asm

/-! ## Labels of strings -/

theorem numbered_of_step {R : Operand → Prop} {d e : Desk} {a : Action} (h : d.Step R a e)
    (hd : d.strings.IsNumbered) : e.strings.IsNumbered := by
  cases h with
  | wroteText => exact hd.intern _
  | _ => exact hd

theorem IsTree.isNumbered {source : String} {p : Program} {c : Compilation} (hp : IsTree source p)
    (hc : compile source = .ok c) : c.strings.IsNumbered := by
  obtain ⟨d, hrun, -, hstrings⟩ := hp.exists_desk hc
  rw [hstrings]
  exact hrun.induction (I := fun d => d.strings.IsNumbered)
    (fun _ _ _ hd hstep => numbered_of_step hstep hd) rfl

/-! ## Labels of methods -/

/-- The name of a method with an underscore for the point. -/
def Declared.flatName (d : Declared) : String := d.className ++ "_" ++ d.name

theorem underscore_mem_flatName (d : Declared) : '_' ∈ d.flatName.toList := by
  simp [Declared.flatName]

/-- A word has no points in it. -/
theorem map_toList_of_isWord {name : String} (h : IsWord name) :
    name.toList.map (fun c => if c == '.' then '_' else c) = name.toList := by
  refine (List.map_congr_left fun c hc => ?_).trans (List.map_id _)
  have hne : c ≠ '.' := fun heq => point_not_mem_of_isWord h (heq ▸ hc)
  simp [hne]

theorem procLabel_fullName {d : Declared} (hclass : IsWord d.className) (hname : IsWord d.name) :
    Asm.procLabel d.fullName = d.flatName := by
  rw [Asm.procLabel, ← String.toList_inj, String.toList_ofList, Declared.fullName,
    Declared.flatName]
  simp only [String.toList_append, List.map_append, map_toList_of_isWord hclass,
    map_toList_of_isWord hname]
  rfl

/-- Where the names of classes have no underscore, the label of a method is read in one way. -/
theorem fullName_eq_of_flatName {d d' : Declared} (h : '_' ∉ d.className.toList)
    (h' : '_' ∉ d'.className.toList) (heq : d.flatName = d'.flatName) :
    d.fullName = d'.fullName := by
  have htext : d.className.toList ++ '_' :: d.name.toList =
      d'.className.toList ++ '_' :: d'.name.toList := by
    simpa [Declared.flatName] using congrArg String.toList heq
  obtain ⟨hclass, hname⟩ := append_cons_inj h h' htext
  rw [Declared.fullName, Declared.fullName, String.toList_inj.mp hclass, String.toList_inj.mp hname]

/-- The label of a string has its one underscore at the beginning, where a class has its name. -/
theorem flatName_ne_labelOf {d : Declared} (hclass : d.className.toList ≠ []) (n : Nat) :
    d.flatName ≠ StringPool.labelOf n := by
  intro heq
  have htext : d.className.toList ++ '_' :: d.name.toList =
      '_' :: 'S' :: Nat.toDigits 10 n := by
    rw [← StringPool.toList_labelOf, ← heq]
    simp [Declared.flatName]
  obtain ⟨c, rest, hrest⟩ := List.exists_cons_of_ne_nil hclass
  rw [hrest] at htext
  have hmem : '_' ∈ 'S' :: Nat.toDigits 10 n := by
    rw [← (List.cons.inj htext).2]
    simp
  rcases List.mem_cons.mp hmem with h | h
  · cases h
  · have hdigit := Nat.isDigit_of_mem_toDigits (by decide) (by decide) h
    cases hdigit

/-! ## Names of methods in a text -/

section Names

variable {source : String} {p : Program} {c : Compilation}

/-- A name of a text has a character at least. -/
theorem IsTree.toList_ne_nil (hp : IsTree source p) {t : Tok .identifier} (ht : t.1 ∈ p.tokens) :
    t.1.lexeme.toList ≠ [] := by
  obtain ⟨tokens, htokens, htree⟩ := hp
  obtain ⟨line, hending, hsame⟩ := withoutComments_tokens htokens
  rw [htree, hsame] at ht
  rcases List.mem_append.mp ht with ht | ht
  · obtain ⟨item, hitem, heq⟩ := List.mem_map.mp (List.mem_filter.mp ht).1
    rw [← heq]
    exact (Scanner.woven_scan _ hending).lexeme_ne_nil item hitem
  · have hkind := t.2
    rw [List.mem_singleton.mp ht] at hkind
    cases hkind

theorem IsTree.spelled_declared (hp : IsTree source p) {d : Declared} (hd : d ∈ p.declared) :
    IsWord d.className ∧ d.className.toList ≠ [] ∧ IsWord d.name := by
  obtain ⟨tokens, htokens, htree⟩ := id hp
  have hspelled : ∀ t ∈ p.tokens, t.WellSpelled := htree ▸ wellSpelled_of_tokenize htokens
  obtain ⟨cls, hcls, hd⟩ := List.mem_flatMap.mp hd
  obtain ⟨member, hmember, hd⟩ := List.mem_flatMap.mp hd
  obtain ⟨r, hr, hclassName, hname⟩ : ∃ r, member.core.routine? = some r ∧
      d.className = cls.name.1.lexeme ∧ d.name = r.name.1.lexeme := by
    cases hcore : member.core with
    | declaration _ =>
      rw [hcore] at hd
      cases hd
    | constructor r named =>
      rw [hcore] at hd
      cases List.mem_singleton.mp hd
      exact ⟨r, rfl, rfl, rfl⟩
    | method type r =>
      rw [hcore] at hd
      cases List.mem_singleton.mp hd
      exact ⟨r, rfl, rfl, rfl⟩
  have hroutine : r ∈ p.routines :=
    List.mem_flatMap.mpr ⟨cls, hcls, List.mem_filterMap.mpr ⟨member, hmember, hr⟩⟩
  have hrname : r.name.1 ∈ p.tokens :=
    Program.mem_tokens hroutine (by simp [Routine.tokens])
  have hcname : cls.name.1 ∈ p.tokens := by
    have hblock := Block.mem_tokens hcls (t := cls.name.1) (by simp [ClassDecl.tokens])
    simp [Program.tokens, hblock]
  rw [hclassName, hname]
  exact ⟨isWord_of_wellSpelled _ (hspelled _ hcname), hp.toList_ne_nil hcname,
    isWord_of_wellSpelled _ (hspelled _ hrname)⟩

/-- The labels of a program: those of its strings, its variables and its methods, and the start. -/
theorem IsTree.labels_eq (hp : IsTree source p) (hc : compile source = .ok c) (file : String) :
    Asm.labels (Asm.program c.symbols c.strings file c.code) =
      (List.range c.strings.size).map StringPool.labelOf ++ Asm.globals c.symbols ++
        (p.declared.map Declared.flatName ++ ["start"]) := by
  obtain ⟨procedures, hcode, hnames, -⟩ := hp.exists_tidy hc
  have hflat : (p.declared.map Declared.fullName).map Asm.procLabel =
      p.declared.map Declared.flatName := by
    rw [List.map_map]
    refine List.map_congr_left fun d hd => ?_
    obtain ⟨hclass, -, hname⟩ := hp.spelled_declared hd
    exact procLabel_fullName hclass hname
  rw [Asm.labels_program, hcode, Asm.labels_procedures, hnames, hflat,
    show c.strings.entries.map PoolEntry.label = _ from hp.isNumbered hc]

end Names

/-! ## Whole programs -/

/-- Only the second of four kinds of labels can have something in common with the others. -/
theorem nodup_four_iff {α : Type} {strings fields methods : List α} {start : α}
    (hstrings : strings.Nodup) (hfields : fields.Nodup)
    (hapart : ∀ label ∈ strings, label ∉ methods) (hstart : start ∉ strings)
    (hstart' : start ∉ methods) :
    (strings ++ fields ++ (methods ++ [start])).Nodup ↔
      (∀ label ∈ fields, label ≠ start ∧ label ∉ strings ∧ label ∉ methods) ∧
        methods.Nodup := by
  simp only [List.nodup_append, List.mem_append, List.mem_singleton]
  grind

theorem Asm.Register.underscore_not_mem_name (r : Asm.Register) : '_' ∉ r.name.toList := by
  cases r <;> decide

section Programs

variable {source : String} {p : Program} {c : Compilation}

theorem IsTree.nodup_labels_iff (hp : IsTree source p) (hc : compile source = .ok c)
    (file : String) :
    (Asm.labels (Asm.program c.symbols c.strings file c.code)).Nodup ↔
      (∀ name, c.symbols.HasField name → name ≠ "start" ∧
          (∀ n < c.strings.size, name ≠ StringPool.labelOf n) ∧
          ∀ d ∈ p.declared, name ≠ d.flatName) ∧
        (p.declared.map Declared.flatName).Nodup := by
  have hnone : '_' ∉ "start".toList := by decide
  have hstrings : ((List.range c.strings.size).map StringPool.labelOf).Nodup :=
    List.nodup_range.map fun _ _ h => StringPool.labelOf_inj h
  have hfields : (Asm.globals c.symbols).Nodup := nodup_eraseDups _
  have hapart : ∀ label ∈ (List.range c.strings.size).map StringPool.labelOf,
      label ∉ p.declared.map Declared.flatName := by
    intro label hlabel hmethod
    obtain ⟨n, -, rfl⟩ := List.mem_map.mp hlabel
    obtain ⟨d, hd, heq⟩ := List.mem_map.mp hmethod
    obtain ⟨-, hclass, -⟩ := hp.spelled_declared hd
    exact flatName_ne_labelOf hclass n heq
  have hstart : "start" ∉ (List.range c.strings.size).map StringPool.labelOf := by
    intro hmem
    obtain ⟨n, -, heq⟩ := List.mem_map.mp hmem
    exact hnone (heq ▸ StringPool.underscore_mem_labelOf n)
  have hstart' : "start" ∉ p.declared.map Declared.flatName := by
    intro hmem
    obtain ⟨d, -, heq⟩ := List.mem_map.mp hmem
    exact hnone (heq ▸ underscore_mem_flatName d)
  rw [hp.labels_eq hc file, nodup_four_iff hstrings hfields hapart hstart hstart']
  refine and_congr_left' (forall_congr' fun name => imp_congr (Asm.mem_globals_iff _ _) ?_)
  simp [eq_comm]

/-- Methods with names apart have labels apart, unless a class has an underscore in its name. -/
theorem IsTree.nodup_flatNames (hp : IsTree source p) (hc : compile source = .ok c)
    (hnames : c.symbols.methodNames.Nodup) (hplain : ∀ d ∈ p.declared, '_' ∉ d.className.toList) :
    (p.declared.map Declared.flatName).Nodup := by
  obtain ⟨s, hrun, hsymbols, -⟩ := hp.exists_titled hc
  obtain ⟨hmethods, -⟩ := hp.shaped hrun
  rw [hsymbols, hmethods, List.Nodup, List.pairwise_map] at hnames
  rw [List.Nodup, List.pairwise_map]
  refine hnames.imp_of_mem fun hd hd' hne heq => hne ?_
  exact congrArg some (fullName_eq_of_flatName (hplain _ hd) (hplain _ hd') heq)

theorem IsTree.register_mem_labels_iff (hp : IsTree source p) (hc : compile source = .ok c)
    (file : String) (r : Asm.Register) :
    r.name ∈ Asm.labels (Asm.program c.symbols c.strings file c.code) ↔
      c.symbols.HasField r.name := by
  have hnone := r.underscore_not_mem_name
  have hstart : r.name ≠ "start" := by cases r <;> decide
  rw [hp.labels_eq hc file, ← Asm.mem_globals_iff]
  simp only [List.mem_append, List.mem_map, List.mem_singleton, hstart, or_false]
  constructor
  · rintro ((⟨n, -, heq⟩ | hfield) | ⟨d, -, heq⟩)
    · exact absurd (heq ▸ StringPool.underscore_mem_labelOf n) hnone
    · exact hfield
    · exact absurd (heq ▸ underscore_mem_flatName d) hnone
  · exact fun hfield => .inl (.inr hfield)

end Programs

/-- The labels of a program are those of its strings, the names of the variables of its classes,
those of its methods, and `start`. They are apart just if no variable of a class has the name of
another label, and no two methods have names that differ in the place of the point only. That is so
if the names of methods are apart, no variable is called `start`, and no variable and no class has an
underscore in its name. Of the labels only a variable can be called like a register. -/
theorem labels_apart_iff {source : String} {c : Compilation} (hc : compile source = .ok c)
    (file : String) :
    (∃ p, IsTree source p) ∧ ∀ p, IsTree source p →
      Asm.labels (Asm.program c.symbols c.strings file c.code) =
        (List.range c.strings.size).map StringPool.labelOf ++ Asm.globals c.symbols ++
          (p.declared.map Declared.flatName ++ ["start"]) ∧
      (∀ name, name ∈ Asm.globals c.symbols ↔ c.symbols.HasField name) ∧
      ((Asm.labels (Asm.program c.symbols c.strings file c.code)).Nodup ↔
        (∀ name, c.symbols.HasField name → name ≠ "start" ∧
            (∀ n < c.strings.size, name ≠ StringPool.labelOf n) ∧
            ∀ d ∈ p.declared, name ≠ d.flatName) ∧
          (p.declared.map Declared.flatName).Nodup) ∧
      (c.symbols.methodNames.Nodup → ¬ c.symbols.HasField "start" →
        (∀ name, c.symbols.HasField name → '_' ∉ name.toList) →
        (∀ d ∈ p.declared, '_' ∉ d.className.toList) →
        (Asm.labels (Asm.program c.symbols c.strings file c.code)).Nodup) ∧
      ∀ r : Asm.Register,
        r.name ∈ Asm.labels (Asm.program c.symbols c.strings file c.code) ↔
          c.symbols.HasField r.name := by
  refine ⟨exists_tree (completes_of_readsThrough (.inl ⟨c, hc⟩)), fun p hp =>
    ⟨hp.labels_eq hc file, Asm.mem_globals_iff c.symbols, hp.nodup_labels_iff hc file,
      fun hnames hstart hfields hclasses => ?_, hp.register_mem_labels_iff hc file⟩⟩
  refine (hp.nodup_labels_iff hc file).mpr
    ⟨fun name hname => ⟨?_, fun n _ heq => ?_, fun d _ heq => ?_⟩,
      hp.nodup_flatNames hc hnames hclasses⟩
  · rintro rfl
    exact hstart hname
  · exact hfields name hname (heq ▸ StringPool.underscore_mem_labelOf n)
  · exact hfields name hname (heq ▸ underscore_mem_flatName d)

namespace Sample

/-- A class with two variables and a method that writes a string. -/
def writing (first second : String) : Program where
  usings := []
  block := .bare [{ classOf "A" (.method voidName emptyMain) with
    members := [
      ⟨[], .declaration (.vars intName ⟨tok .identifier first,
        [(tok .comma ",", tok .identifier second)]⟩ (tok .semicolon ";"))⟩,
      ⟨[], .method voidName
        { emptyMain with
          body := ⟨[], [(.write (tok .kwWrite "write") (tok .leftParen "(")
            ⟨.literal ⟨⟨.literal "a", "\"a\"", 1⟩, "a", rfl⟩, []⟩ (tok .rightParen ")"),
            tok .semicolon ";")], none⟩ }⟩] }]
  ending := tok .eof ""

def unlike : String := "class A\x7bint x,y;void Main()\x7bwrite(\"a\");\x7d\x7d"

/-- One variable is called like a register, the other one like the start. -/
def alike : String := "class A\x7bint ax,start;void Main()\x7bwrite(\"a\");\x7d\x7d"

theorem exists_labels {source first second : String} (hp : IsTree source (writing first second))
    (hvalues : (compile source).toOption.map (fun c => (c.strings.size, Asm.globals c.symbols)) =
      some (1, [first, second])) :
    ∃ c, compile source = .ok c ∧ c.symbols.methodNames = [some "A.Main"] ∧
      Asm.globals c.symbols = [first, second] ∧ ∀ file,
        Asm.labels (Asm.program c.symbols c.strings file c.code) =
          ["_S0", first, second, "A_Main", "start"] := by
  obtain ⟨c, hc, hvalues⟩ := exists_of_map_compile hvalues
  obtain ⟨hsize, hglobals⟩ := Prod.mk.inj hvalues
  obtain ⟨s, hrun, hsymbols, -⟩ := hp.exists_titled hc
  obtain ⟨hmethods, -⟩ := hp.shaped hrun
  refine ⟨c, hc, by rw [hsymbols, hmethods]; rfl, hglobals, fun file => ?_⟩
  rw [hp.labels_eq hc file, hsize, hglobals]
  rfl

end Sample

open Sample in
theorem labels_apart_iff_unlike :
    ∃ c, compile unlike = .ok c ∧ IsTree unlike (writing "x" "y") ∧ c.symbols.methodNames.Nodup ∧
      Asm.labels (Asm.program c.symbols c.strings "a.cs" c.code) =
        ["_S0", "x", "y", "A_Main", "start"] ∧
      (Asm.labels (Asm.program c.symbols c.strings "a.cs" c.code)).Nodup ∧
      ∀ r : Asm.Register,
        r.name ∉ Asm.labels (Asm.program c.symbols c.strings "a.cs" c.code) := by
  have htree : IsTree unlike (writing "x" "y") :=
    ⟨(writing "x" "y").tokens, by decide +kernel, by decide +kernel⟩
  obtain ⟨c, hc, hnames, hglobals, hlabels⟩ := exists_labels htree (by decide +kernel)
  have hnodup : c.symbols.methodNames.Nodup := by simp [hnames]
  have hfield : ∀ name, c.symbols.HasField name → name = "x" ∨ name = "y" := by
    intro name hname
    have hmem := (Asm.mem_globals_iff _ _).mpr hname
    simpa [hglobals] using hmem
  obtain ⟨-, htrees⟩ := labels_apart_iff hc "a.cs"
  obtain ⟨-, -, -, hplain, hregisters⟩ := htrees _ htree
  refine ⟨c, hc, htree, hnodup, hlabels "a.cs",
    hplain hnodup (fun h => ?_) (fun name hname => ?_) (by decide), fun r hr => ?_⟩
  · rcases hfield _ h with h | h <;> revert h <;> decide
  · rcases hfield name hname with rfl | rfl <;> decide
  · have hname := hfield _ ((hregisters r).mp hr)
    revert hname
    cases r <;> decide

open Sample in
/-- Two labels are the same, and one is the name of a register. -/
theorem labels_collide :
    ∃ c, compile alike = .ok c ∧ c.symbols.methodNames.Nodup ∧
      ¬ (Asm.labels (Asm.program c.symbols c.strings "a.cs" c.code)).Nodup ∧
      Asm.Register.ax.name ∈ Asm.labels (Asm.program c.symbols c.strings "a.cs" c.code) := by
  have htree : IsTree alike (writing "ax" "start") :=
    ⟨(writing "ax" "start").tokens, by decide +kernel, by decide +kernel⟩
  obtain ⟨c, hc, hnames, -, hlabels⟩ := exists_labels htree (by decide +kernel)
  refine ⟨c, hc, by simp [hnames], ?_, ?_⟩ <;> rw [hlabels "a.cs"] <;> decide

end Triad
