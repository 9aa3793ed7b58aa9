import Mathlib.Data.List.Forall2
import Triad.Proofs.Desk
import Triad.Proofs.FrameWords
import Triad.Proofs.Interning
import Triad.Proofs.Lexemes
import Triad.Proofs.StringData

/-!
Strings from the text to the data segment. Each literal that a statement writes is an entry of the
pool and one instruction that names the entry, in the order of the text. Main statements:
`strings_written`, that labels lead back to the literals and that the data segment gives back their
bodies; `empty_segment_iff`, that an empty string gets to the data segment just if one is written
between single quotes.
-/

namespace Triad

/-! ## Literals of a program -/

/-- The literal that an action writes. -/
def Action.text? : Action → Option String
  | writeText lexeme => some lexeme
  | _ => none

namespace Syntax

def WriteItem.literal? : WriteItem → Option Literal
  | literal t => some t
  | _ => none

def Statement.items : Statement → List WriteItem
  | write _ _ items _ => items.toList
  | writeln _ _ items _ => items.toList.flatMap Listed.toList
  | _ => []

/-- The literals among the items of the statements that write, in the order of the text. -/
def Program.writtenLiterals (p : Program) : List Literal :=
  p.routines.flatMap fun r => r.body.steps.flatMap fun st => st.items.filterMap WriteItem.literal?

/-- The lexemes of what the items of a list are. -/
def lexemesOf (items : List WriteItem) : List String :=
  (items.filterMap WriteItem.literal?).map fun l => l.token.lexeme

theorem WriteItem.filterMap_text? (items : List WriteItem) :
    (items.map WriteItem.action).filterMap Action.text? = lexemesOf items := by
  rw [List.filterMap_map, lexemesOf, List.map_filterMap]
  refine List.filterMap_congr fun item _ => ?_
  cases item <;> rfl

theorem Expr.text?_actions {r : Rank} (e : Expr r) : ∀ a ∈ e.actions, a.text? = none := by
  intro a ha
  have hvalue := e.isOperation_actions a ha
  cases a <;> first | rfl | cases hvalue

theorem Call.text?_actions (k : Call) : ∀ a ∈ k.actions, a.text? = none := by
  refine List.forall_mem_append.mpr ⟨fun a ha => ?_, by simp [Action.text?]⟩
  obtain ⟨e, -, ha⟩ := List.mem_flatMap.mp ha
  exact e.text?_actions a ha

theorem Source.text?_actions (op : Option BinOp) (source : Source) :
    ∀ a ∈ source.actions op, a.text? = none := by
  cases source with
  | call k =>
    refine List.forall_mem_append.mpr ⟨k.text?_actions, ?_⟩
    cases op <;> simp [Action.text?]
  | expr e => exact e.text?_actions

theorem Statement.filterMap_text? (st : Statement) :
    st.actions.filterMap Action.text? = lexemesOf st.items := by
  cases st with
  | assign target op source =>
    refine List.filterMap_eq_nil_iff.mpr ?_
    exact List.forall_mem_cons.mpr ⟨rfl, List.forall_mem_append.mpr
      ⟨source.text?_actions op.meaning, by simp [Action.text?]⟩⟩
  | call k => exact List.filterMap_eq_nil_iff.mpr k.text?_actions
  | read keyword left names right =>
    refine List.filterMap_eq_nil_iff.mpr fun a ha => ?_
    obtain ⟨t, -, rfl⟩ := List.mem_map.mp ha
    rfl
  | write keyword left items right => exact WriteItem.filterMap_text? items.toList
  | writeln keyword left items right =>
    change (_ ++ [Action.writeLine]).filterMap Action.text? = _
    rw [List.filterMap_append, List.filterMap_flatMap]
    cases items with
    | none => rfl
    | some l =>
      simp only [Option.toList_some, List.flatMap_singleton]
      rw [WriteItem.filterMap_text?]
      simp [Statement.items, Action.text?]

theorem Return.text?_actions (r : Return) : ∀ a ∈ r.actions, a.text? = none := by
  intro a ha
  obtain ⟨e, -, ha⟩ := List.mem_flatMap.mp ha
  exact List.forall_mem_append.mpr ⟨e.text?_actions, by simp [Action.text?]⟩ a ha

theorem lexemesOf_flatMap {α : Type} (xs : List α) (f : α → List WriteItem) :
    lexemesOf (xs.flatMap f) = xs.flatMap fun x => lexemesOf (f x) := by
  simp [lexemesOf, List.filterMap_flatMap, List.map_flatMap]

/-- Only the statements of a body write literals. -/
theorem Routine.filterMap_text? (r : Routine) :
    (r.heading ++ r.body.actions).filterMap Action.text? =
      lexemesOf (r.body.steps.flatMap Statement.items) := by
  have hheading : r.heading.filterMap Action.text? = [] := by
    refine List.filterMap_eq_nil_iff.mpr ?_
    simp only [Routine.heading, List.cons_append, List.forall_mem_cons, List.forall_mem_append]
    refine ⟨rfl, fun a ha => ?_, rfl, rfl, fun a ha => absurd ha List.not_mem_nil⟩
    have hdeclares := r.isDeclaration_paramActions a ha
    cases a <;> first | rfl | cases hdeclares
  have hdeclarations :
      (r.body.declarations.flatMap Declaration.actions).filterMap Action.text? = [] := by
    refine List.filterMap_eq_nil_iff.mpr fun a ha => ?_
    obtain ⟨d, -, ha⟩ := List.mem_flatMap.mp ha
    have hdeclares := d.isDeclaration_actions a ha
    cases a <;> first | rfl | cases hdeclares
  have hreturns : (r.body.returns.toList.flatMap Return.actions).filterMap Action.text? = [] := by
    refine List.filterMap_eq_nil_iff.mpr fun a ha => ?_
    obtain ⟨q, -, ha⟩ := List.mem_flatMap.mp ha
    exact q.text?_actions a ha
  rw [Body.actions, List.filterMap_append, List.filterMap_append, List.filterMap_append, hheading,
    hdeclarations, hreturns, List.filterMap_flatMap, lexemesOf_flatMap, Body.steps,
    List.flatMap_map]
  simp only [Statement.filterMap_text?, List.nil_append, List.append_nil]

/-- What opens and what ends a part of a program writes nothing. -/
theorem filterMap_text?_between {opening : Action} {inner ending : List Action}
    (hopening : opening.text? = none) (hending : ∀ a ∈ ending, a.text? = none) :
    (opening :: inner ++ ending).filterMap Action.text? = inner.filterMap Action.text? := by
  rw [List.cons_append, List.filterMap_cons_none hopening, List.filterMap_append,
    List.filterMap_eq_nil_iff.mpr hending, List.append_nil]

theorem MemberCore.filterMap_text? {className : String} (core : MemberCore className) :
    core.actions.filterMap Action.text? =
      lexemesOf (core.routine?.toList.flatMap fun r => r.body.steps.flatMap Statement.items) := by
  cases core with
  | declaration d =>
    refine List.filterMap_eq_nil_iff.mpr fun a ha => ?_
    have hdeclares := d.isDeclaration_actions a ha
    cases a <;> first | rfl | cases hdeclares
  | constructor r named =>
    rw [MemberCore.actions, List.cons_append,
      filterMap_text?_between rfl (by simp [Action.text?]), r.filterMap_text?]
    simp [MemberCore.routine?]
  | method type r =>
    rw [MemberCore.actions, List.cons_append,
      filterMap_text?_between rfl (by simp [Action.text?]), r.filterMap_text?]
    simp [MemberCore.routine?]

theorem ClassDecl.filterMap_text? (c : ClassDecl) :
    c.actions.filterMap Action.text? =
      lexemesOf (c.routines.flatMap fun r => r.body.steps.flatMap Statement.items) := by
  have hheading : c.heading.filterMap Action.text? = [] := by
    refine List.filterMap_eq_nil_iff.mpr ?_
    simp only [ClassDecl.heading, List.cons_append, List.forall_mem_cons, List.forall_mem_append,
      List.forall_mem_map]
    exact ⟨rfl, fun _ _ => rfl, rfl, fun a ha => absurd ha List.not_mem_nil⟩
  have hmembers : ∀ members : List (Member c.name.1.lexeme),
      (members.flatMap fun m => m.core.actions).filterMap Action.text? =
        lexemesOf ((members.filterMap fun m => m.core.routine?).flatMap fun r =>
          r.body.steps.flatMap Statement.items) := by
    intro members
    rw [List.filterMap_flatMap, lexemesOf_flatMap]
    induction members with
    | nil => rfl
    | cons m members ih =>
      rw [List.flatMap_cons, ih, MemberCore.filterMap_text?]
      cases hr : m.core.routine? <;> simp [hr, lexemesOf]
  rw [ClassDecl.actions, List.filterMap_append, List.filterMap_append, hheading, hmembers]
  exact List.append_nil _

/-- A program calls for its literals to be written in their order. -/
theorem Program.filterMap_text? (p : Program) :
    p.actions.filterMap Action.text? = p.writtenLiterals.map fun l => l.token.lexeme := by
  have hclasses : ∀ classes : List ClassDecl,
      (classes.flatMap ClassDecl.actions).filterMap Action.text? =
        lexemesOf ((classes.flatMap ClassDecl.routines).flatMap fun r =>
          r.body.steps.flatMap Statement.items) := by
    intro classes
    rw [List.filterMap_flatMap, List.flatMap_assoc, lexemesOf_flatMap]
    simp only [ClassDecl.filterMap_text?]
  have hblock : p.block.actions.filterMap Action.text? =
      lexemesOf (p.routines.flatMap fun r => r.body.steps.flatMap Statement.items) := by
    rw [Program.routines]
    cases p.block with
    | bare classes => exact hclasses classes
    | spaced keyword name left classes right =>
      rw [Block.actions, filterMap_text?_between rfl (by simp [Action.text?])]
      exact hclasses classes
  have husings :
      (p.usings.map fun u => Action.usingName u.name.text).filterMap Action.text? = [] := by
    refine List.filterMap_eq_nil_iff.mpr fun a ha => ?_
    obtain ⟨u, -, rfl⟩ := List.mem_map.mp ha
    rfl
  rw [Program.actions, List.filterMap_append, husings, hblock, List.nil_append]
  simp only [Program.writtenLiterals, lexemesOf, List.filterMap_flatMap]

end Syntax

/-! ## Instructions that write strings -/

/-- The label whose string an instruction writes. -/
def Instr.label? : Instr → Option String
  | writeStr label => some label
  | _ => none

/-- The labels of the strings that code writes, in its order. -/
def Code.written (code : Code) : List String := code.filterMap Instr.label?

theorem Code.written_append (first later : Code) :
    written (first ++ later) = written first ++ written later := List.filterMap_append

theorem label?_assignInstr (dest : Operand) (op : Option BinOp) (source : Operand) :
    (State.assignInstr dest op source).label? = none := by
  unfold State.assignInstr
  split
  · rfl
  · split <;> rfl

theorem Code.written_pushes (operands : List Operand) (target : String) :
    written (operands.map Instr.push ++ [Instr.call target]) = [] := by
  refine List.filterMap_eq_nil_iff.mpr (List.forall_mem_append.mpr ⟨fun i hi => ?_, by
    simp [Instr.label?]⟩)
  obtain ⟨o, -, rfl⟩ := List.mem_map.mp hi
  rfl

section Desk

variable {R : Operand → Prop} {d e : Desk}

/-- A literal is interned where its instruction is written, and nothing else writes strings. -/
theorem Desk.Step.written {a : Action} (h : d.Step R a e) :
    Code.written e.code = Code.written d.code ++ (d.strings.calls a.text?.toList).map Prod.snd ∧
      e.strings = d.strings.internAll a.text?.toList := by
  have hquiet : ∀ more : Code, Code.written more = [] →
      Code.written (d.code ++ more) = Code.written d.code ++ [] := by
    intro more hmore
    rw [Code.written_append, hmore]
  cases h with
  | idle still =>
    have hnone : a.text? = none := by cases a <;> first | rfl | cases still
    rw [hnone]
    exact ⟨(List.append_nil _).symm, rfl⟩
  | wroteText => exact ⟨Code.written_append _ _, rfl⟩
  | load | literal | turned | kept | target | result => exact ⟨(List.append_nil _).symm, rfl⟩
  | called => exact ⟨hquiet _ (Code.written_pushes _ _), rfl⟩
  | returned =>
    refine ⟨hquiet _ ?_, rfl⟩
    split <;> rfl
  | assigned =>
    refine ⟨hquiet _ ?_, rfl⟩
    simp [Code.written, label?_assignInstr]
  | _ => exact ⟨hquiet _ rfl, rfl⟩

theorem Desk.Run.written {actions : List Action} (h : d.Run R actions e) :
    Code.written e.code =
        Code.written d.code ++ (d.strings.calls (actions.filterMap Action.text?)).map Prod.snd ∧
      e.strings = d.strings.internAll (actions.filterMap Action.text?) := by
  induction h with
  | nil d => exact ⟨(List.append_nil _).symm, rfl⟩
  | @cons d m e a actions first later ih =>
    obtain ⟨hcode, hstrings⟩ := first.written
    rw [hcode, hstrings] at ih
    cases htext : a.text? with
    | none =>
      rw [htext, List.append_assoc] at ih
      rw [List.filterMap_cons_none htext]
      exact ih
    | some text =>
      rw [htext, List.append_assoc] at ih
      rw [List.filterMap_cons_some htext]
      exact ih

end Desk

namespace StringPool

/-- Every new entry is that of a call. -/
theorem mem_calls_of_mem_internAll {pool : StringPool} {literals : List String} {e : PoolEntry}
    (h : e ∈ (pool.internAll literals).entries) :
    e ∈ pool.entries ∨ ∃ literal, (literal, e.label) ∈ pool.calls literals ∧
      e.text = normalize literal := by
  induction literals generalizing pool with
  | nil => exact .inl h
  | cons literal literals ih =>
    rcases ih h with hlater | ⟨literal', hcall, htext⟩
    · rcases pool.intern_cases literal with ⟨-, -, -, -, hpool⟩ | ⟨-, hlabel, hpool⟩
      · rw [hpool] at hlater
        exact .inl hlater
      · rw [hpool] at hlater
        rcases List.mem_append.mp hlater with hold | hnew
        · exact .inl hold
        · cases List.mem_singleton.mp hnew
          exact .inr ⟨literal, by rw [calls, hlabel]; exact List.mem_cons_self, rfl⟩
    · exact .inr ⟨literal', List.mem_cons_of_mem _ hcall, htext⟩

theorem map_fst_calls (pool : StringPool) (literals : List String) :
    (pool.calls literals).map Prod.fst = literals := by
  induction literals generalizing pool with
  | nil => rfl
  | cons literal literals ih => exact congrArg (literal :: ·) (ih _)

end StringPool

/-! ## Literals of a text -/

namespace Head

theorem numberKind_ne_literal (run : List Char) (body : String) :
    numberKind run ≠ some (.literal body) := by
  unfold numberKind
  split
  · split <;> simp
  · simp
  · simp

theorem kind_symbol_ne_literal (c : Char) (rest : List Char) (body : String) :
    (symbol c rest).kind ≠ some (.literal body) := by
  have hsingle : Kind.ofSymbol c ≠ .literal body := by
    unfold Kind.ofSymbol
    split <;> simp
  cases rest with
  | nil => simpa [symbol] using hsingle
  | cons d rest =>
    simp only [symbol]
    split
    · rename_i kind hpair
      rintro ⟨⟩
      unfold Kind.ofPair at hpair
      split at hpair <;> cases hpair
    · simpa using hsingle

theorem ofWord_ne_literal (word body : String) : Kind.ofWord word ≠ .literal body := by
  rcases ofWord_cases word with hword | hword
  · rw [hword]
    simp
  · rintro heq
    rw [heq] at hword
    exact absurd hword (by simp [Kind.reserved])

/-- The lexeme of a literal has a quote at both ends, also where the text lacks the second. -/
theorem isQuoted_read {c : Char} {rest : List Char} {body : String}
    (h : (read c rest).kind = some (.literal body)) :
    IsQuoted (String.ofList (read c rest).lexeme) body.toList := by
  unfold read at h ⊢
  split
  · rename_i hcomment
    rw [if_pos hcomment] at h
    cases h
  rename_i hcomment
  rw [if_neg hcomment] at h
  split
  · rename_i hdigit
    rw [if_pos hdigit] at h
    exact absurd h (numberKind_ne_literal _ body)
  rename_i hdigit
  rw [if_neg hdigit] at h
  split
  · rename_i hword
    rw [if_pos hword] at h
    exact absurd (Option.some.inj h) (ofWord_ne_literal _ body)
  rename_i hword
  rw [if_neg hword] at h
  split
  · rename_i hquote
    rw [if_pos hquote] at h
    have hkind : c = '"' ∨ c = '\'' := by simpa using hquote
    obtain ⟨chars, behind, -, hcases⟩ := literal_cases c rest
    rcases hcases with ⟨-, hhead⟩ | ⟨-, -, hhead⟩ <;>
    · rw [hhead] at h ⊢
      cases h
      exact ⟨c, hkind, by simp⟩
  · rename_i hquote
    rw [if_neg hquote] at h
    exact absurd h (kind_symbol_ne_literal c rest body)

end Head

namespace Scanner

theorem isQuoted_next {s s' : Scanner} {item : Scanned} (h : s.next = (.ok item, s'))
    {body : String} (hkind : item.token.kind = .literal body) :
    IsQuoted item.token.lexeme body.toList := by
  unfold next at h
  split at h
  · cases h
    cases hkind
  · dsimp only at h
    split at h
    · rename_i hread
      cases h
      cases hkind
      exact Head.isQuoted_read hread
    · cases h

theorem isQuoted_scan (s : Scanner) : ∀ item ∈ s.scan.items, ∀ body,
    item.token.kind = .literal body → IsQuoted item.token.lexeme body.toList := by
  fun_induction scan s with
  | case1 => simp
  | case2 => simp
  | case3 s item s' hnext hkind later ih =>
    exact List.forall_mem_cons.mpr ⟨fun body => isQuoted_next hnext, ih⟩

end Scanner

namespace Syntax

theorem Program.mem_tokens_of_written {p : Program} {l : Literal} (h : l ∈ p.writtenLiterals) :
    l.token ∈ p.tokens := by
  obtain ⟨r, hr, h⟩ := List.mem_flatMap.mp h
  obtain ⟨st, hst, h⟩ := List.mem_flatMap.mp h
  obtain ⟨item, hitem, h⟩ := List.mem_filterMap.mp h
  have htoken : item.token = l.token := by
    cases item with
    | literal t =>
      cases h
      rfl
    | _ => cases h
  refine Program.mem_tokens hr (Routine.mem_tokens hst ?_)
  rw [← htoken]
  cases st with
  | assign | call | read => cases hitem
  | write keyword left items right =>
    have hmem : item.token ∈ items.tokens fun i => [i.token] :=
      Listed.mem_tokens hitem List.mem_cons_self
    simp [Statement.tokens, hmem]
  | writeln keyword left items right =>
    obtain ⟨list, hlist, hitem⟩ := List.mem_flatMap.mp hitem
    have hmem : item.token ∈ list.tokens fun i => [i.token] :=
      Listed.mem_tokens hitem List.mem_cons_self
    have hitems : item.token ∈ items.toList.flatMap (Listed.tokens fun i => [i.token]) :=
      List.mem_flatMap.mpr ⟨list, hlist, hmem⟩
    simp [Statement.tokens, hitems]

end Syntax

/-- The text that a literal is kept as has its quotes, and a body if the literal is not the empty
one between double quotes. -/
theorem isQuoted_normalize {lexeme : String} {body : List Char} (h : IsQuoted lexeme body) :
    ∃ body, IsQuoted (StringPool.normalize lexeme) body := by
  unfold StringPool.normalize
  split
  · exact ⟨[' '], '"', .inl rfl, by decide⟩
  · exact ⟨body, h⟩

namespace Asm

theorem stringLine_mem_dataLines {pool : StringPool} {e : PoolEntry} (he : e ∈ pool.entries)
    (table : SymbolTable) : stringLine e ∈ dataLines table pool := by
  have hline : stringLine e ∈ pool.entries.map stringLine := List.mem_map_of_mem he
  simp [dataLines, hline]

end Asm

section Programs

open Syntax

variable {source : String} {p : Program} {c : Compilation}

theorem IsTree.isQuoted (hp : IsTree source p) {t : Token} (ht : t ∈ p.tokens) {body : String}
    (hkind : t.kind = .literal body) : IsQuoted t.lexeme body.toList := by
  obtain ⟨tokens, htokens, htree⟩ := hp
  obtain ⟨line, -, hsame⟩ := withoutComments_tokens htokens
  rw [htree, hsame] at ht
  rcases List.mem_append.mp ht with ht | ht
  · obtain ⟨item, hitem, rfl⟩ := List.mem_map.mp (List.mem_filter.mp ht).1
    exact Scanner.isQuoted_scan _ item hitem body hkind
  · rw [List.mem_singleton.mp ht] at hkind
    cases hkind

/-- The strings of a program and the labels that it writes are those of calls for its literals. -/
theorem IsTree.strings_eq (hp : IsTree source p) (hc : compile source = .ok c) :
    c.strings = StringPool.empty.internAll (p.writtenLiterals.map fun l => l.token.lexeme) ∧
      Code.written c.code = (StringPool.empty.calls
        (p.writtenLiterals.map fun l => l.token.lexeme)).map Prod.snd := by
  obtain ⟨d, hrun, hcode, hstrings⟩ := hp.exists_desk hc
  obtain ⟨hwritten, hpool⟩ := hrun.written
  rw [p.filterMap_text?] at hwritten hpool
  refine ⟨hstrings.trans hpool, ?_⟩
  rw [hcode, Code.written_append, hwritten]
  exact List.append_nil _

/-- An entry is the text of a literal that is written, with the blank for the empty one. -/
theorem IsTree.exists_written (hp : IsTree source p) (hc : compile source = .ok c) {e : PoolEntry}
    (he : e ∈ c.strings.entries) :
    ∃ l ∈ p.writtenLiterals, e.text = StringPool.normalize l.token.lexeme ∧
      e.label ∈ Code.written c.code := by
  obtain ⟨hpool, hwritten⟩ := hp.strings_eq hc
  rw [hpool] at he
  rcases StringPool.mem_calls_of_mem_internAll he with hold | ⟨literal, hcall, htext⟩
  · cases hold
  · have hliteral := List.mem_map_of_mem (f := Prod.fst) hcall
    rw [StringPool.map_fst_calls] at hliteral
    obtain ⟨l, hl, rfl⟩ := List.mem_map.mp hliteral
    exact ⟨l, hl, htext, hwritten ▸ List.mem_map_of_mem hcall⟩

theorem IsTree.exists_entry (hp : IsTree source p) (hc : compile source = .ok c) {l : Literal}
    (hl : l ∈ p.writtenLiterals) :
    ∃ e ∈ c.strings.entries, e.text = StringPool.normalize l.token.lexeme := by
  have hlexeme : l.token.lexeme ∈ p.writtenLiterals.map fun l => l.token.lexeme :=
    List.mem_map_of_mem hl
  rw [← StringPool.map_fst_calls .empty (p.writtenLiterals.map fun l => l.token.lexeme)] at hlexeme
  obtain ⟨call, hcall, hliteral⟩ := List.mem_map.mp hlexeme
  refine ⟨⟨call.2, StringPool.normalize call.1⟩, ?_, congrArg StringPool.normalize hliteral⟩
  rw [(hp.strings_eq hc).1]
  exact StringPool.mem_internAll_of_mem_calls hcall

/-- The label that is written for a literal leads to the text of the literal. -/
theorem IsTree.forall₂_written (hp : IsTree source p) (hc : compile source = .ok c) :
    List.Forall₂ (fun label (l : Literal) =>
        c.strings.lookup label = some ⟨label, StringPool.normalize l.token.lexeme⟩)
      (Code.written c.code) p.writtenLiterals := by
  obtain ⟨hpool, hwritten⟩ := hp.strings_eq hc
  rw [hwritten, hpool]
  generalize hlexemes : p.writtenLiterals.map (fun l => l.token.lexeme) = lexemes
  have hcalls := StringPool.map_fst_calls .empty lexemes
  have hlookup : ∀ call ∈ StringPool.empty.calls lexemes,
      (StringPool.empty.internAll lexemes).lookup call.2 =
        some ⟨call.2, StringPool.normalize call.1⟩ := fun call hcall =>
    (StringPool.faithful_empty.internAll lexemes).lookup_label
      (StringPool.mem_internAll_of_mem_calls hcall)
  rw [← List.forall₂_map_right_iff (f := fun l : Literal => l.token.lexeme)
    (R := fun label lexeme => (StringPool.empty.internAll lexemes).lookup label =
      some ⟨label, StringPool.normalize lexeme⟩), hlexemes]
  nth_rewrite 3 [← hcalls]
  rw [List.forall₂_map_left_iff, List.forall₂_map_right_iff]
  exact List.forall₂_same.mpr hlookup

end Programs

open Syntax in
/-- The instructions that write strings are those for the literals among the written items, in the
order of the text. Each names an entry with the lexeme of its literal, the empty one being kept as a
blank, and every entry is named by one. The line of an entry in the data segment, cut into its
operands, gives back what stands between the quotes, and the mark of the end. -/
theorem strings_written {source : String} {c : Compilation} (hc : compile source = .ok c) :
    (∃ p, IsTree source p) ∧ (∀ p, IsTree source p →
      List.Forall₂ (fun label (l : Literal) => c.strings.lookup label =
          some ⟨label, if l.token.lexeme = "\"\"" then "\" \"" else l.token.lexeme⟩)
        (Code.written c.code) p.writtenLiterals) ∧
      (∀ e ∈ c.strings.entries,
        e.label ∈ Code.written c.code ∧ ∃ body, IsQuoted e.text body) ∧
      ∀ (table : SymbolTable) (pool : StringPool), ∀ e ∈ pool.entries, ∀ body,
        IsQuoted e.text body → Asm.stringLine e ∈ Asm.dataLines table pool ∧
          ∃ operands data,
            (Asm.stringLine e).render = e.label ++ " DB " ++ String.ofList operands ∧
            Asm.operandsFrom none operands = some data ∧
            data.flatMap Asm.Datum.chars = body ++ ['$'] := by
  obtain ⟨p, hp⟩ := exists_tree (completes_of_readsThrough (.inl ⟨c, hc⟩))
  refine ⟨⟨p, hp⟩, fun p hp => hp.forall₂_written hc, fun e he => ?_, fun table pool e he body h =>
    ⟨Asm.stringLine_mem_dataLines he table, Asm.exists_operands_stringLine h⟩⟩
  obtain ⟨l, hl, htext, hlabel⟩ := hp.exists_written hc he
  have hquoted := hp.isQuoted (Program.mem_tokens_of_written hl) l.spelled
  refine ⟨hlabel, ?_⟩
  rw [htext]
  exact isQuoted_normalize hquoted

namespace Sample

open Syntax

def literalOf (body lexeme : String) : Literal := ⟨⟨.literal body, lexeme, 1⟩, body, rfl⟩

def writingMain (first : Literal) (more : List Literal) : Routine :=
  { emptyMain with
    body := ⟨[], [(.write (tok .kwWrite "write") (tok .leftParen "(")
      ⟨.literal first, more.map fun l => (tok .comma ",", .literal l)⟩ (tok .rightParen ")"),
      tok .semicolon ";")], none⟩ }

/-- The first literal has a quote in its body and is written again behind the empty one. -/
def quoting : String := "class A\x7bvoid Main()\x7bwrite('a\"b',\"\",'a\"b');\x7d\x7d"

def quotingMain : Routine :=
  writingMain (literalOf "a\"b" "'a\"b'") [literalOf "" "\"\"", literalOf "a\"b" "'a\"b'"]

end Sample

open Sample in
theorem strings_written_quoting :
    ∃ c, compile quoting = .ok c ∧ IsTree quoting (programOf quotingMain) ∧
      Code.written c.code = ["_S0", "_S1", "_S0"] ∧
      c.strings.lookup "_S0" = some ⟨"_S0", "'a\"b'"⟩ ∧
      c.strings.lookup "_S1" = some ⟨"_S1", "\" \""⟩ ∧
      ∃ operands data,
        (Asm.stringLine ⟨"_S0", "'a\"b'"⟩).render = "_S0 DB " ++ String.ofList operands ∧
        Asm.operandsFrom none operands = some data ∧
        data.flatMap Asm.Datum.chars = ['a', '"', 'b', '$'] := by
  have htree : IsTree quoting (programOf quotingMain) :=
    ⟨(programOf quotingMain).tokens, by decide +kernel, by decide +kernel⟩
  have hentry : (ended quotingMain).entry = some "A.Main" := by decide +kernel
  obtain ⟨c, hc, -⟩ := htree.exists_compile (State.run_eq_of_none (by decide +kernel)) hentry
  have hwritten : Code.written c.code = ["_S0", "_S1", "_S0"] := by
    rw [(htree.strings_eq hc).2]
    decide +kernel
  obtain ⟨-, htrees, -, hdata⟩ := strings_written hc
  have hlabels := htrees _ htree
  rw [hwritten] at hlabels
  obtain ⟨hfirst, hlabels⟩ := List.forall₂_cons.mp hlabels
  obtain ⟨hsecond, -⟩ := List.forall₂_cons.mp hlabels
  obtain ⟨-, hline⟩ := hdata c.symbols c.strings _ (List.mem_of_find?_eq_some hfirst)
    ['a', '"', 'b'] ⟨'\'', .inr rfl, by decide⟩
  exact ⟨c, hc, htree, hwritten, hfirst, hsecond, hline⟩

/-! ## Empty strings -/

namespace Asm

def Line.isString : Line → Bool
  | string _ _ => true
  | _ => false

theorem filter_isString_lower (table : SymbolTable) (i : Instr) :
    (lower table i).filter Line.isString = [] := by
  have hops : ∀ ops : List Op, (ops.map Line.op).filter Line.isString = [] := by
    intro ops
    simp [List.filter_map, Line.isString]
  cases i with
  | proc name =>
    rw [lower, enterLines]
    split <;> rfl
  | endp name =>
    rw [lower, leaveLines]
    split <;> rfl
  | binary dest left op right => exact hops _
  | assign dest source => exact hops _
  | negate dest source => exact hops _
  | _ => rfl

/-- The lines of strings in a file are those of its pool. -/
theorem filter_isString_program (table : SymbolTable) (pool : StringPool) (file : String)
    (code : Code) :
    (program table pool file code).filter Line.isString = pool.entries.map stringLine := by
  have hcode : (code.flatMap (lower table)).filter Line.isString = [] := by
    refine List.filter_eq_nil_iff.mpr fun l hl hstring => ?_
    obtain ⟨i, -, hl⟩ := List.mem_flatMap.mp hl
    exact List.filter_eq_nil_iff.mp (filter_isString_lower table i) l hl hstring
  have hstrings : (pool.entries.map stringLine).filter Line.isString =
      pool.entries.map stringLine := by
    simp [List.filter_map, Line.isString, stringLine, Function.comp_def]
  have hwords : ((globals table).map Line.word).filter Line.isString = [] := by
    simp [List.filter_map, Line.isString]
  simp only [program, headerLines, dataLines, codeLines, List.filter_append, hcode, hstrings,
    hwords]
  simp [Line.isString]

end Asm

theorem StringPool.Faithful.quote_not_mem_label {pool : StringPool} (h : pool.Faithful)
    {e : PoolEntry} (he : e ∈ pool.entries) : '"' ∉ e.label.toList := by
  have hlabel : e.label ∈ pool.entries.map PoolEntry.label := List.mem_map_of_mem he
  rw [h.numbered] at hlabel
  obtain ⟨n, -, hn⟩ := List.mem_map.mp hlabel
  rw [← hn, toList_labelOf]
  intro hmem
  have hdigit : '"' ∈ Nat.toDigits 10 n := by simpa using hmem
  have hfalse := Nat.isDigit_of_mem_toDigits (by decide) (by decide) hdigit
  cases hfalse

open Syntax in
/-- The line of an entry has an empty segment just if its literal is the empty one between single
quotes, where no literal has double quotes in its body. -/
theorem IsTree.hasEmptySegment_iff {source : String} {p : Program} {c : Compilation}
    (hp : IsTree source p) (hc : compile source = .ok c) {e : PoolEntry}
    (he : e ∈ c.strings.entries) {l : Literal} (hl : l ∈ p.writtenLiterals)
    (htext : e.text = StringPool.normalize l.token.lexeme) (hplain : '"' ∉ l.body.toList) :
    (Asm.stringLine e).HasEmptySegment ↔ l.token.lexeme = "''" := by
  have hlabel : '"' ∉ e.label.toList := by
    have hfaithful := StringPool.faithful_empty.internAll
      (p.writtenLiterals.map fun l => l.token.lexeme)
    rw [← (hp.strings_eq hc).1] at hfaithful
    exact hfaithful.quote_not_mem_label he
  have hquoted := hp.isQuoted (Program.mem_tokens_of_written hl) l.spelled
  by_cases hempty : l.token.lexeme = "\"\""
  · have hblank : IsQuoted e.text [' '] := by
      rw [htext, hempty]
      exact ⟨'"', .inl rfl, by decide⟩
    rw [Asm.hasEmptySegment_stringLine_iff hblank hlabel (by decide), hempty]
    decide
  · rw [StringPool.normalize, if_neg hempty] at htext
    rw [Asm.hasEmptySegment_stringLine_iff (htext ▸ hquoted) hlabel hplain]
    obtain ⟨quote, hquote, hlexeme⟩ := hquoted
    constructor
    · intro hbody
      rw [hbody] at hlexeme
      rcases hquote with rfl | rfl
      · exact absurd (String.toList_inj.mp hlexeme) hempty
      · exact String.toList_inj.mp hlexeme
    · intro hsingle
      rw [hsingle] at hlexeme
      have hlength := congrArg List.length hlexeme
      simpa using hlength

open Syntax in
/-- Where no literal of a text has a double quote in its body, a line of the data segment has an
empty quoted segment just if the text writes the empty literal between single quotes. Between double
quotes it is kept as a blank. -/
theorem empty_segment_iff {source : String} {c : Compilation} (hc : compile source = .ok c)
    (hplain : ∀ tokens, tokenize source = .ok tokens →
      ∀ t ∈ tokens, ∀ body, t.kind = .literal body → '"' ∉ body.toList) (file : String) :
    (∃ p, IsTree source p) ∧ ∀ p, IsTree source p →
      ((∃ l ∈ Asm.program c.symbols c.strings file c.code,
          l.isString = true ∧ l.HasEmptySegment) ↔
        ∃ l ∈ p.writtenLiterals, l.token.lexeme = "''") := by
  refine ⟨exists_tree (completes_of_readsThrough (.inl ⟨c, hc⟩)), fun p hp => ?_⟩
  have hbodies : ∀ l ∈ p.writtenLiterals, '"' ∉ l.body.toList := by
    intro l hl
    obtain ⟨tokens, htokens, htree⟩ := hp
    have hmem := Program.mem_tokens_of_written hl
    rw [htree] at hmem
    exact hplain tokens htokens l.token (List.mem_of_mem_filter hmem) l.body l.spelled
  have hlines : ∀ l, l ∈ Asm.program c.symbols c.strings file c.code ∧ l.isString = true ↔
      ∃ e ∈ c.strings.entries, Asm.stringLine e = l := by
    intro l
    rw [← List.mem_filter, Asm.filter_isString_program, List.mem_map]
  constructor
  · rintro ⟨line, hline, hstring, hempty⟩
    obtain ⟨e, he, rfl⟩ := (hlines line).mp ⟨hline, hstring⟩
    obtain ⟨l, hl, htext, -⟩ := hp.exists_written hc he
    exact ⟨l, hl, (hp.hasEmptySegment_iff hc he hl htext (hbodies l hl)).mp hempty⟩
  · rintro ⟨l, hl, hsingle⟩
    obtain ⟨e, he, htext⟩ := hp.exists_entry hc hl
    obtain ⟨hline, hstring⟩ := (hlines _).mpr ⟨e, he, rfl⟩
    exact ⟨_, hline, hstring, (hp.hasEmptySegment_iff hc he hl htext (hbodies l hl)).mpr hsingle⟩

namespace Sample

open Syntax

def emptyMainOf (lexeme : String) : Routine := writingMain (literalOf "" lexeme) []

/-- The empty literal between double quotes. -/
def blank : String := "class A\x7bvoid Main()\x7bwrite(\"\");\x7d\x7d"

/-- The empty literal between single quotes. -/
def bare : String := "class A\x7bvoid Main()\x7bwrite('');\x7d\x7d"

theorem plain_of_kinds {source : String} {tokens : List Token} (h : tokenize source = .ok tokens)
    (hkinds : ∀ t ∈ tokens, t.kind = .literal "" ∨ t.kind.name ≠ "literal") :
    ∀ tokens, tokenize source = .ok tokens →
      ∀ t ∈ tokens, ∀ body, t.kind = .literal body → '"' ∉ body.toList := by
  intro tokens' h' t ht body hkind
  cases h.symm.trans h'
  rcases hkinds t ht with hempty | hname
  · cases hempty.symm.trans hkind
    exact List.not_mem_nil
  · exact absurd (congrArg Kind.name hkind) hname

end Sample

open Sample in
theorem empty_segment_iff_blank :
    ∃ c, compile blank = .ok c ∧ IsTree blank (programOf (emptyMainOf "\"\"")) ∧
      c.strings.entries = [⟨"_S0", "\" \""⟩] ∧
      (Asm.stringLine ⟨"_S0", "\" \""⟩).render = "_S0 DB \" \", '$'" ∧
      ∀ l ∈ Asm.program c.symbols c.strings "a.cs" c.code,
        l.isString = true → ¬ l.HasEmptySegment := by
  have htokens : tokenize blank = .ok (programOf (emptyMainOf "\"\"")).tokens := by decide +kernel
  have htree : IsTree blank (programOf (emptyMainOf "\"\"")) := ⟨_, htokens, by decide +kernel⟩
  have hentry : (ended (emptyMainOf "\"\"")).entry = some "A.Main" := by decide +kernel
  obtain ⟨c, hc, -⟩ := htree.exists_compile (State.run_eq_of_none (by decide +kernel)) hentry
  have hstrings : c.strings.entries = [⟨"_S0", "\" \""⟩] := by
    rw [(htree.strings_eq hc).1]
    decide +kernel
  obtain ⟨-, htrees⟩ :=
    empty_segment_iff hc (plain_of_kinds htokens (by decide +kernel)) "a.cs"
  refine ⟨c, hc, htree, hstrings, by decide +kernel, fun l hl hstring hempty => ?_⟩
  obtain ⟨l, hl, hsingle⟩ := (htrees _ htree).mp ⟨l, hl, hstring, hempty⟩
  cases List.mem_singleton.mp hl
  exact absurd hsingle (by decide)

open Sample in
/-- An empty string gets to the data segment. -/
theorem empty_string_written :
    ∃ c, compile bare = .ok c ∧
      (∀ tokens, tokenize bare = .ok tokens →
        ∀ t ∈ tokens, ∀ body, t.kind = .literal body → '"' ∉ body.toList) ∧
      ∃ l ∈ Asm.program c.symbols c.strings "a.cs" c.code,
        l.isString = true ∧ l.render = "_S0 DB \"\", '$'" ∧ l.HasEmptySegment := by
  have htokens : tokenize bare = .ok (programOf (emptyMainOf "''")).tokens := by decide +kernel
  have htree : IsTree bare (programOf (emptyMainOf "''")) := ⟨_, htokens, by decide +kernel⟩
  have hentry : (ended (emptyMainOf "''")).entry = some "A.Main" := by decide +kernel
  obtain ⟨c, hc, -⟩ := htree.exists_compile (State.run_eq_of_none (by decide +kernel)) hentry
  have hstrings : c.strings.entries = [⟨"_S0", "''"⟩] := by
    rw [(htree.strings_eq hc).1]
    decide +kernel
  have hline : Asm.stringLine ⟨"_S0", "''"⟩ ∈ Asm.dataLines c.symbols c.strings :=
    Asm.stringLine_mem_dataLines (by simp [hstrings]) c.symbols
  have hrender : (Asm.stringLine ⟨"_S0", "''"⟩).render = "_S0 DB \"\", '$'" := by decide +kernel
  refine ⟨c, hc, plain_of_kinds htokens (by decide +kernel), _, ?_, rfl, hrender, ?_⟩
  · simp [Asm.program, hline]
  · rw [Asm.Line.HasEmptySegment, hrender]
    decide +kernel

end Triad
