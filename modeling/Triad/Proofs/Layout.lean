import Triad.Proofs.Lockstep
import Triad.Proofs.ProgramRun
import Triad.Proofs.TrailingSpace

/-!
Layout and comments. Main statement: `compile_ignores_layout`, that texts with the same tokens have
the same outcome but for lines, and that white space at the end of a program makes no difference.
-/

namespace Triad

open Syntax Triad.Text

/-! ## Outcomes and lines -/

/-- The outcome with other numbers of lines. -/
def relineOutcome (ρ : Nat → Nat) : Except Fault Compilation → Except Fault Compilation
  | .ok c => .ok { c with warnings := c.warnings.map (Warning.reline ρ) }
  | .error fault => .error (fault.reline ρ)

/-- The outcome without lines. -/
def bareOutcome : Except Fault Compilation → Except Fault Compilation :=
  relineOutcome fun _ => 0

/-- What comes out of actions that a fault of form may follow. -/
def outcomeOf (actions : List Action) (formFault : Option Fault) : Except Fault Compilation :=
  match (State.initial.run actions).2, formFault with
  | some fault, _ => .error fault
  | none, some fault => .error fault
  | none, none => (State.initial.run actions).1.finish.result

theorem compile_eq_outcomeOf (source : String) :
    compile source = outcomeOf (Grammar.parse (Scanner.ofString source).scan).1
      (Grammar.parse (Scanner.ofString source).scan).2 :=
  compile_eq source

theorem finish_echo (s : State) (ρ : Nat → Nat) (log : Array LogRecord) :
    (s.echo ρ #[] log).finish.result = relineOutcome ρ s.finish.result := by
  have hentry : (s.echo ρ #[] log).entry = s.entry := rfl
  unfold State.finish
  rw [hentry]
  cases s.entry with
  | none => rfl
  | some entry => simp [relineOutcome, State.emit, State.note, State.echo]

/-- Other lines in the actions make for other lines in the outcome, and what the scanner tells is of
no account. -/
theorem outcomeOf_reline (ρ : Nat → Nat) (actions : List Action) (formFault : Option Fault) :
    outcomeOf (actions.map (Action.reline ρ)) (formFault.map (Fault.reline ρ)) =
      relineOutcome ρ (outcomeOf (quiet actions) formFault) := by
  obtain ⟨⟨log, hstate⟩, hfault⟩ := State.run_reline (State.echoes_initial ρ) actions
  unfold outcomeOf
  rw [hfault, hstate]
  cases (State.initial.run (quiet actions)).2 with
  | some fault => rfl
  | none =>
    cases formFault with
    | some fault => rfl
    | none => exact finish_echo _ ρ log

theorem relineOutcome_id (outcome : Except Fault Compilation) :
    relineOutcome id outcome = outcome := by
  cases outcome with
  | ok c => simp [relineOutcome, show Warning.reline id = id from rfl]
  | error fault => exact congrArg Except.error fault.reline_id

theorem outcomeOf_quiet (actions : List Action) (formFault : Option Fault) :
    outcomeOf actions formFault = outcomeOf (quiet actions) formFault := by
  have h := outcomeOf_reline id actions formFault
  have hactions : Action.reline id = id := funext Action.reline_id
  have hfault : Fault.reline id = id := funext Fault.reline_id
  rwa [hactions, hfault, List.map_id, Option.map_id, relineOutcome_id] at h

theorem quiet_quiet (actions : List Action) : quiet (quiet actions) = quiet actions := by
  simp [quiet]

theorem bareOutcome_outcomeOf (actions : List Action) (formFault : Option Fault) :
    bareOutcome (outcomeOf actions formFault) =
      outcomeOf (bareActions actions) (formFault.map Fault.bare) := by
  have h := outcomeOf_reline (fun _ => 0) (quiet actions) formFault
  rw [quiet_quiet, ← outcomeOf_quiet] at h
  exact h.symm

/-! ## White space at the end -/

/-- A list of phrases that each end in such a token ends in one, if it is not empty. -/
theorem exists_last_flatMap {α : Type} {spell : α → List Token} {Q : Token → Prop}
    (h : ∀ x, ∃ ts t, spell x = ts ++ [t] ∧ Q t) (xs : List α) :
    xs.flatMap spell = [] ∨ ∃ ts t, xs.flatMap spell = ts ++ [t] ∧ Q t := by
  rcases List.eq_nil_or_concat xs with rfl | ⟨init, last, rfl⟩
  · exact .inl rfl
  · obtain ⟨ts, t, hspell, ht⟩ := h last
    exact .inr ⟨init.flatMap spell ++ ts, t, by simp [hspell], ht⟩

/-- A program ends in a brace, or in a semicolon if it has no classes. -/
theorem Syntax.Program.last_not_literal {p : Program} {ts : List Token} {t last : Token}
    (h : p.tokens = ts ++ [t] ++ [last]) (body : String) : t.kind ≠ .literal body := by
  have hclasses : ∀ classes : List ClassDecl, classes.flatMap ClassDecl.tokens = [] ∨
      ∃ ts t, classes.flatMap ClassDecl.tokens = ts ++ [t] ∧ t.kind = .rightBrace :=
    exists_last_flatMap fun c => ⟨_, c.right.1, rfl, c.right.2⟩
  have husings : p.usings.flatMap Using.tokens = [] ∨
      ∃ ts t, p.usings.flatMap Using.tokens = ts ++ [t] ∧ t.kind = .semicolon :=
    exists_last_flatMap (fun u => ⟨_, u.semicolon.1, rfl, u.semicolon.2⟩) p.usings
  have htokens := (List.append_inj' h rfl).1
  have hblock : p.block.tokens = [] ∨ ∃ ts t, p.block.tokens = ts ++ [t] ∧ t.kind = .rightBrace := by
    cases p.block with
    | spaced keyword name left classes right => exact .inr ⟨_, right.1, rfl, right.2⟩
    | bare classes => exact hclasses classes
  rcases hblock with hblock | ⟨us, u, hblock, hu⟩
  · rw [hblock, List.append_nil] at htokens
    rcases husings with husings | ⟨us, u, husings, hu⟩
    · rw [husings] at htokens
      simp at htokens
    · rw [husings] at htokens
      rw [← List.head_eq_of_cons_eq (List.append_inj' htokens rfl).2, hu]
      nofun
  · rw [hblock, ← List.append_assoc] at htokens
    rw [← List.head_eq_of_cons_eq (List.append_inj' htokens rfl).2, hu]
    nofun

/-- A text with the tokens of a program, whatever its comments and its end, has the outcome of the
program. -/
theorem compile_of_matches {source other : String} {p : Program} (hp : IsTree source p)
    (h : (Scanner.ofString source).scan.Matches (Scanner.ofString other).scan) :
    compile other = compile source := by
  obtain ⟨tokens, htokens, hspelled⟩ := hp
  obtain ⟨line, hending, hline⟩ := withoutComments_tokens htokens
  obtain ⟨line', hending'⟩ := h.ending.mp ⟨line, hending⟩
  have hsame : p.usings.flatMap Using.tokens ++ p.block.tokens =
      significant (Scanner.ofString other).scan.items := by
    rw [hline] at hspelled
    rw [← h.tokens]
    exact (List.append_inj' hspelled rfl).1
  have hother : (⟨p.usings, p.block, ⟨Scanner.eofToken line', rfl⟩⟩ : Program).tokens =
      significant (Scanner.ofString other).scan.items ++ [Scanner.eofToken line'] :=
    congrArg (· ++ [Scanner.eofToken line']) hsame
  obtain ⟨hquiet, hnone, -⟩ := legal_actions htokens hspelled
  obtain ⟨hnone', hquiet'⟩ := Grammar.parse_of_tokens hending'
    (Scanner.mem_scan (Scanner.ofString other)) hother
  rw [compile_eq_outcomeOf, compile_eq_outcomeOf, hnone, hnone', outcomeOf_quiet, hquiet',
    outcomeOf_quiet (Grammar.parse (Scanner.ofString source).scan).1, hquiet]
  rfl

theorem IsTree.not_endsInLiteral {source : String} {p : Program} (hp : IsTree source p) :
    ¬ (Scanner.ofString source).scan.EndsInLiteral := by
  obtain ⟨tokens, htokens, hspelled⟩ := hp
  obtain ⟨line, -, hline⟩ := withoutComments_tokens htokens
  rintro ⟨ts, t, body, hlast, hkind⟩
  rw [hline, hlast] at hspelled
  exact Program.last_not_literal hspelled body hkind

theorem trimEnd_append (source : String) :
    ∃ blank, (∀ c ∈ blank, isWhiteSpace c = true) ∧
      source.toList = (trimEnd source).toList ++ blank := by
  refine ⟨(source.toList.reverse.takeWhile isWhiteSpace).reverse, ?_, ?_⟩
  · intro c hc
    exact List.mem_takeWhile_imp (List.mem_reverse.mp hc)
  · rw [trimEnd, String.toList_ofList, ← List.reverse_append, List.takeWhile_append_dropWhile,
      List.reverse_reverse]

theorem outlasts_trimEnd (source : String) :
    (Scanner.ofString (trimEnd source)).scan.Outlasts (Scanner.ofString source).scan := by
  obtain ⟨blank, hblank, htext⟩ := trimEnd_append source
  rw [Scanner.ofString, Scanner.ofString, htext]
  exact Scanner.scan_append_white hblank _ 1

theorem Scan.Matches.symm {a b : Scan} (h : a.Matches b) : b.Matches a :=
  ⟨h.tokens.symm, h.ending.symm⟩

/-- A program is compiled to the same with and without the white space at its end. -/
theorem compile_trimEnd_iff (source : String) (c : Compilation) :
    compile source = .ok c ↔ compile (trimEnd source) = .ok c := by
  have houtlasts := outlasts_trimEnd source
  constructor
  · intro hcompile
    obtain ⟨p, hp⟩ := exists_tree (completes_of_readsThrough (.inl ⟨c, hcompile⟩))
    rcases houtlasts with hmatches | ⟨-, hliteral⟩
    · rw [compile_of_matches hp hmatches.symm, hcompile]
    · exact absurd hliteral hp.not_endsInLiteral
  · intro hcompile
    obtain ⟨p, hp⟩ := exists_tree (completes_of_readsThrough (.inl ⟨c, hcompile⟩))
    rcases houtlasts with hmatches | ⟨hliteral, -⟩
    · rw [compile_of_matches hp hmatches, hcompile]
    · exact absurd hliteral hp.not_endsInLiteral

/-- Texts that agree in kind and lexeme of all tokens but the comments, and in what ends them, have
the same outcome but for lines: the same code, records, strings, entry and warned-of names, or the
same fault. A text is compiled to the same, lines included, if the white space at its end is cut. -/
theorem compile_ignores_layout :
    (∀ a b, (Scanner.ofString a).scan.SameTokens (Scanner.ofString b).scan →
      bareOutcome (compile a) = bareOutcome (compile b)) ∧
    ∀ source c, compile source = .ok c ↔ compile (trimEnd source) = .ok c := by
  refine ⟨fun a b h => ?_, compile_trimEnd_iff⟩
  obtain ⟨hactions, hfault⟩ := Grammar.parse_alike h
  rw [compile_eq_outcomeOf, compile_eq_outcomeOf, bareOutcome_outcomeOf, bareOutcome_outcomeOf,
    hactions, hfault]

/-- A name without a declaration is warned of on another line, and a comment hides no token. -/
theorem compile_ignores_layout_commented :
    (Scanner.ofString "class A\x7bint Main()\x7bx=1;\x7d\x7d").scan.SameTokens
      (Scanner.ofString "class A // x\n\x7bint Main()\n \x7bx =1;\x7d\x7d//").scan ∧
    bareOutcome (compile "class A\x7bint Main()\x7bx=1;\x7d\x7d") =
      bareOutcome (compile "class A // x\n\x7bint Main()\n \x7bx =1;\x7d\x7d//") :=
  have hsame : (Scanner.ofString "class A\x7bint Main()\x7bx=1;\x7d\x7d").scan.SameTokens
      (Scanner.ofString "class A // x\n\x7bint Main()\n \x7bx =1;\x7d\x7d//").scan :=
    ⟨by decide +kernel, by decide +kernel⟩
  ⟨hsame, compile_ignores_layout.1 _ _ hsame⟩

end Triad
