import Triad.Compilation
import Triad.Proofs.ProgramReading
import Triad.Proofs.Scopes

/-!
Which texts are accepted. Main statement: a text that falls into tokens is read to its end only if
its tokens, but for the comments, are spelled by a program of the grammar; and such a text fails for
its meaning only.
-/

namespace Triad

/-- A tree of the grammar spells the tokens. -/
def Derivable (tokens : List Token) : Prop := ∃ p : Syntax.Program, p.tokens = tokens

def withoutComments (tokens : List Token) : List Token :=
  tokens.filter fun t => t.kind ≠ .comment

theorem withoutComments_tokens {scan : Scan} {tokens : List Token} (h : scan.tokens = .ok tokens) :
    ∃ line, scan.ending = .eof line ∧
      withoutComments tokens = significant scan.items ++ [Scanner.eofToken line] := by
  unfold Scan.tokens at h
  split at h
  · rename_i line hending
    cases h
    exact ⟨line, hending, List.filter_append _ _⟩
  · cases h

/-- The tokens are those of a program exactly if reading meets no fault of form. -/
theorem derivable_iff_parse {source : String} {tokens : List Token}
    (h : tokenize source = .ok tokens) :
    Derivable (withoutComments tokens) ↔
      (Grammar.parse (Scanner.ofString source).scan).2 = none := by
  obtain ⟨line, hending, htokens⟩ := withoutComments_tokens h
  have hitems := Scanner.mem_scan (Scanner.ofString source)
  rw [htokens]
  constructor
  · rintro ⟨p, hp⟩
    exact (Grammar.parse_of_tokens hending hitems hp).1
  · exact Grammar.exists_program_of_parse hending hitems

/-- What comes out at the end of a text. -/
theorem finish_cases (s : State) :
    s.entry = none ∧ s.finish.result = .error .missingMain ∨
      ∃ c, s.finish.result = .ok c ∧ s.entry = some c.entry ∧ c.symbols = s.symbols ∧
        c.code = s.code.toList ++ [.start c.entry] := by
  unfold State.finish
  cases s.entry with
  | none => exact .inl ⟨rfl, rfl⟩
  | some entry => exact .inr ⟨_, rfl, rfl, rfl, Array.toList_push⟩

theorem result_finish (s : State) :
    (∃ c, s.finish.result = .ok c) ∨ s.finish.result = .error .missingMain := by
  rcases finish_cases s with ⟨-, hmissing⟩ | ⟨c, hc, -⟩
  · exact .inr hmissing
  · exact .inl ⟨c, hc⟩

theorem compile_eq (source : String) :
    compile source =
      let (actions, formFault) := Grammar.parse (Scanner.ofString source).scan
      match (State.initial.run actions).2, formFault with
      | some fault, _ => .error fault
      | none, some fault => .error fault
      | none, none => (State.initial.run actions).1.finish.result := by
  unfold compile report
  rcases Grammar.parse (Scanner.ofString source).scan with ⟨actions, formFault⟩
  dsimp only
  rcases State.initial.run actions with ⟨s, _ | fault⟩
  · cases formFault <;> rfl
  · rfl

/-- Unless the text fails for its meaning, its form decides, and after that its entry. -/
theorem compile_cases (source : String) :
    (∃ fault, compile source = .error fault ∧ fault.isMeaning = true) ∨
      match (Grammar.parse (Scanner.ofString source).scan).2 with
      | some fault =>
        compile source = .error fault ∧ fault.IsForm (Scanner.ofString source).scan.ending
      | none => (∃ c, compile source = .ok c) ∨ compile source = .error .missingMain := by
  have hlegal := Grammar.legal_parse (Scanner.ofString source).scan
  rw [compile_eq]
  rcases hparse : Grammar.parse (Scanner.ofString source).scan with ⟨actions, _ | formFault⟩
  all_goals rw [hparse] at hlegal
  · rcases fits_run fits_initial hlegal with ⟨-, hnone⟩ | ⟨fault, hsome, hmeaning⟩
    · dsimp only
      rw [hnone]
      exact .inr (result_finish _)
    · dsimp only
      rw [hsome]
      exact .inl ⟨fault, rfl, hmeaning⟩
  · obtain ⟨⟨φ, hφ⟩, hform⟩ := hlegal
    rcases fits_run fits_initial hφ with ⟨-, hnone⟩ | ⟨fault, hsome, hmeaning⟩
    · dsimp only
      rw [hnone]
      exact .inr ⟨rfl, hform⟩
    · dsimp only
      rw [hsome]
      exact .inl ⟨fault, rfl, hmeaning⟩

/-- The program is accepted, or it lacks only an entry. -/
def ReadsThrough (source : String) : Prop :=
  (∃ c, compile source = .ok c) ∨ compile source = .error .missingMain

theorem not_readsThrough {source : String} {fault : Fault} (h : compile source = .error fault)
    (hne : fault ≠ .missingMain) : ¬ ReadsThrough source := by
  unfold ReadsThrough
  rw [h]
  rintro (⟨c, hc⟩ | hmissing)
  · cases hc
  · cases hmissing
    exact hne rfl

/-- A text that falls into tokens is read through only if it is a program of the grammar, and a
program of the grammar that is not read through has a duplicate, an undeclared target or an
assignment to a constant. -/
theorem accepts_derivable {source : String} {tokens : List Token}
    (h : tokenize source = .ok tokens) :
    (ReadsThrough source → Derivable (withoutComments tokens)) ∧
      (Derivable (withoutComments tokens) →
        ReadsThrough source ∨ ∃ fault, compile source = .error fault ∧ fault.isMeaning = true) := by
  rw [derivable_iff_parse h]
  obtain ⟨line, hending, -⟩ := withoutComments_tokens h
  have hcases := compile_cases source
  constructor
  · intro hthrough
    cases hparse : (Grammar.parse (Scanner.ofString source).scan).2 with
    | none => rfl
    | some fault =>
      rw [hparse] at hcases
      rcases hcases with ⟨fault, hfault, hmeaning⟩ | ⟨hfault, hform⟩
      · refine absurd hthrough (not_readsThrough hfault ?_)
        rintro rfl
        cases hmeaning
      · refine absurd hthrough (not_readsThrough hfault ?_)
        rintro rfl
        rcases hform with ⟨_, _, _, hmismatch⟩ | hbroken
        · cases hmismatch
        · rw [hending] at hbroken
          cases hbroken
  · intro hnone
    rw [hnone] at hcases
    exact hcases.symm

theorem accepts_derivable_main :
    ∃ tokens, tokenize "class A\x7bint Main()\x7b\x7d\x7d// end" = .ok tokens ∧
      ReadsThrough "class A\x7bint Main()\x7b\x7d\x7d// end" ∧
      Derivable (withoutComments tokens) := by
  have htokens : tokenize "class A\x7bint Main()\x7b\x7d\x7d// end" =
      .ok [⟨.kwClass, "class", 1⟩, ⟨.identifier, "A", 1⟩, ⟨.leftBrace, "\x7b", 1⟩,
        ⟨.kwInt, "int", 1⟩, ⟨.identifier, "Main", 1⟩, ⟨.leftParen, "(", 1⟩, ⟨.rightParen, ")", 1⟩,
        ⟨.leftBrace, "\x7b", 1⟩, ⟨.rightBrace, "\x7d", 1⟩, ⟨.rightBrace, "\x7d", 1⟩,
        ⟨.comment, "// end", 1⟩, ⟨.eof, "", 1⟩] := by decide +kernel
  have hok : (compile "class A\x7bint Main()\x7b\x7d\x7d// end").isOk = true := by decide +kernel
  have hthrough : ReadsThrough "class A\x7bint Main()\x7b\x7d\x7d// end" := by
    unfold ReadsThrough
    cases hcompile : compile "class A\x7bint Main()\x7b\x7d\x7d// end" with
    | ok c => exact .inl ⟨c, rfl⟩
    | error fault =>
      rw [hcompile] at hok
      cases hok
  exact ⟨_, htokens, hthrough, (accepts_derivable htokens).1 hthrough⟩

end Triad
