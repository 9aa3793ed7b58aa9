import Triad.Proofs.Acceptance
import Triad.Proofs.Replay

/-!
A text, its tree and its run. A text that is read to its end has a tree, and what comes out of it
is what the actions of the tree lead to.
-/

namespace Triad

open Syntax

/-- The tree spells the tokens of the text but for the comments. -/
def IsTree (source : String) (p : Program) : Prop :=
  ∃ tokens, tokenize source = .ok tokens ∧ p.tokens = withoutComments tokens

theorem wellSpelled_of_tokenize {source : String} {tokens : List Token}
    (h : tokenize source = .ok tokens) : ∀ t ∈ withoutComments tokens, t.WellSpelled := by
  obtain ⟨line, -, htokens⟩ := withoutComments_tokens h
  have hitems := Scanner.mem_scan (Scanner.ofString source)
  intro t ht
  rw [htokens] at ht
  rcases List.mem_append.mp ht with ht | ht
  · obtain ⟨item, hitem, rfl⟩ := List.mem_map.mp (List.mem_filter.mp ht).1
    exact (hitems item hitem).1
  · rw [List.mem_singleton.mp ht]
    trivial

/-- The actions of a text and those of its tree. -/
theorem legal_actions {source : String} {tokens : List Token}
    (htokens : tokenize source = .ok tokens) {p : Program}
    (hp : p.tokens = withoutComments tokens) :
    quiet (Grammar.parse (Scanner.ofString source).scan).1 = p.actions ∧
      (Grammar.parse (Scanner.ofString source).scan).2 = none ∧
      Phase.Legal .preface p.actions .file := by
  obtain ⟨line, hending, hline⟩ := withoutComments_tokens htokens
  have hitems := Scanner.mem_scan (Scanner.ofString source)
  obtain ⟨hnone, hquiet⟩ := Grammar.parse_of_tokens hending hitems (hp.trans hline)
  have hlegal := Grammar.legal_parse (Scanner.ofString source).scan
  rw [hnone] at hlegal
  exact ⟨hquiet, hnone, hquiet ▸ Phase.legal_quiet hlegal⟩

/-- The parse comes to its end with neither a fault of form nor one of meaning. -/
def Completes (source : String) : Prop :=
  (Grammar.parse (Scanner.ofString source).scan).2 = none ∧
    (State.initial.run (Grammar.parse (Scanner.ofString source).scan).1).2 = none

theorem completes_of_readsThrough {source : String} (h : ReadsThrough source) :
    Completes source := by
  have hlegal := Grammar.legal_parse (Scanner.ofString source).scan
  have hcompile := compile_eq source
  unfold Completes
  rcases hparse : Grammar.parse (Scanner.ofString source).scan with ⟨actions, formFault⟩
  rw [hparse] at hlegal hcompile
  obtain ⟨φ, hφ⟩ : ∃ φ, Phase.Legal .preface actions φ := by
    cases formFault with
    | none => exact ⟨_, hlegal⟩
    | some fault => exact hlegal.1
  dsimp only at hcompile
  have hrun : (State.initial.run actions).2 = none := by
    rcases fits_run fits_initial hφ with ⟨-, hnone⟩ | ⟨fault, hfault, hmeaning⟩
    · exact hnone
    · rw [hfault] at hcompile
      refine absurd h (not_readsThrough hcompile ?_)
      rintro rfl
      cases hmeaning
  refine ⟨?_, hrun⟩
  cases formFault with
  | none => rfl
  | some fault =>
    rw [hrun] at hcompile
    refine absurd h (not_readsThrough hcompile ?_)
    rintro rfl
    rcases hlegal.2 with ⟨_, _, _, hmismatch⟩ | hbroken
    · cases hmismatch
    · obtain ⟨_, _, hnumber⟩ := Scanner.broken_scan hbroken
      cases hnumber

/-- A text that is read to its end has a tree. -/
theorem exists_tree {source : String} (h : Completes source) : ∃ p, IsTree source p := by
  have hitems := Scanner.mem_scan (Scanner.ofString source)
  obtain ⟨line, hending⟩ := Grammar.ending_of_parse (fun item hitem => (hitems item hitem).2) h.1
  have htokens : tokenize source =
      .ok ((Scanner.ofString source).scan.items.map Scanned.token ++ [Scanner.eofToken line]) := by
    rw [tokenize, Scan.tokens, hending]
  obtain ⟨p, hp⟩ := (derivable_iff_parse htokens).mpr h.1
  exact ⟨p, _, htokens, hp⟩

/-- What comes out of a text that is read to its end is what the actions of its tree lead to. -/
theorem exists_run {source : String} {actions : List Action}
    (hquiet : quiet (Grammar.parse (Scanner.ofString source).scan).1 = actions)
    (h : Completes source) :
    ∃ s, State.initial.run actions = (s, none) ∧
      (s.entry = none ∧ compile source = .error .missingMain ∨
        ∃ c, compile source = .ok c ∧ s.entry = some c.entry ∧ c.symbols = s.symbols ∧
          c.code = s.code.toList ++ [.start c.entry]) := by
  obtain ⟨hparse, hrun⟩ := h
  obtain ⟨⟨log, hstate⟩, hfault⟩ :=
    State.run_quiet (State.echoes_initial id) (Grammar.parse (Scanner.ofString source).scan).1
  rw [hquiet] at hstate hfault
  refine ⟨(State.initial.run actions).1, Prod.ext rfl (hfault.symm.trans hrun), ?_⟩
  rw [compile_eq]
  dsimp only
  rw [hrun, hparse]
  have hfinish := finish_cases
    (State.initial.run (Grammar.parse (Scanner.ofString source).scan).1).1
  rw [hstate] at hfinish ⊢
  simpa [State.echo] using hfinish

/-- A parse that comes to its end gives a program, but for the entry. -/
theorem completes_iff_readsThrough (source : String) : Completes source ↔ ReadsThrough source := by
  refine ⟨fun h => ?_, completes_of_readsThrough⟩
  obtain ⟨s, -, ⟨-, hmissing⟩ | ⟨c, hc, -⟩⟩ := exists_run rfl h
  · exact .inr hmissing
  · exact .inl ⟨c, hc⟩

/-- What is compiled is what the actions of the tree lead to, and the start behind it. -/
theorem exists_run_of_compile {source : String} {c : Compilation} {actions : List Action}
    (hquiet : quiet (Grammar.parse (Scanner.ofString source).scan).1 = actions)
    (h : compile source = .ok c) :
    ∃ s, State.initial.run actions = (s, none) ∧ s.entry = some c.entry ∧
      c.symbols = s.symbols ∧ c.code = s.code.toList ++ [.start c.entry] := by
  obtain ⟨s, hrun, ⟨-, hmissing⟩ | ⟨c', hc', hresult⟩⟩ :=
    exists_run hquiet (completes_of_readsThrough (.inl ⟨c, h⟩))
  · rw [h] at hmissing
    cases hmissing
  · rw [h] at hc'
    cases hc'
    exact ⟨s, hrun, hresult⟩

/-- What is compiled is what the run of the actions of the tree ends with, but for the log. -/
theorem finish_of_compile {source : String} {c : Compilation} {s : State}
    (hrun : State.initial.run (quiet (Grammar.parse (Scanner.ofString source).scan).1) = (s, none))
    (h : compile source = .ok c) : ∃ log, (s.echo id #[] log).finish.result = .ok c := by
  obtain ⟨hparse, hnone⟩ := completes_of_readsThrough (.inl ⟨c, h⟩)
  obtain ⟨⟨log, hstate⟩, -⟩ :=
    State.run_quiet (State.echoes_initial id) (Grammar.parse (Scanner.ofString source).scan).1
  rw [compile_eq] at h
  dsimp only at h
  rw [hnone, hparse, hstate, hrun] at h
  exact ⟨log, h⟩

/-- The warnings are those of the actions of the tree. -/
theorem warnings_of_compile {source : String} {c : Compilation} {s : State}
    (hrun : State.initial.run (quiet (Grammar.parse (Scanner.ofString source).scan).1) = (s, none))
    (h : compile source = .ok c) : c.warnings = s.warnings.toList := by
  obtain ⟨log, hfinish⟩ := finish_of_compile hrun h
  unfold State.finish at hfinish
  split at hfinish <;> cases hfinish
  simp [State.echo, State.emit, State.note, show Warning.reline id = id from rfl]

/-- The strings are those of the actions of the tree. -/
theorem strings_of_compile {source : String} {c : Compilation} {s : State}
    (hrun : State.initial.run (quiet (Grammar.parse (Scanner.ofString source).scan).1) = (s, none))
    (h : compile source = .ok c) : c.strings = s.strings := by
  obtain ⟨log, hfinish⟩ := finish_of_compile hrun h
  unfold State.finish at hfinish
  split at hfinish <;> cases hfinish
  rfl

/-- What is worked out from a program is worked out from what it is compiled to. -/
theorem exists_of_map_compile {β : Type} {source : String} {f : Compilation → β} {b : β}
    (h : (compile source).toOption.map f = some b) : ∃ c, compile source = .ok c ∧ f c = b := by
  cases hc : compile source with
  | error fault =>
    rw [hc] at h
    cases h
  | ok c =>
    rw [hc] at h
    exact ⟨c, rfl, Option.some.inj h⟩

/-- A tree whose actions come to their end with an entry is compiled. -/
theorem IsTree.exists_compile {source : String} {p : Program} (h : IsTree source p) {s : State}
    (hrun : State.initial.run p.actions = (s, none)) {entry : String}
    (hentry : s.entry = some entry) :
    ∃ c, compile source = .ok c ∧ c.symbols = s.symbols ∧
      c.code = s.code.toList ++ [.start entry] ∧ c.warnings = s.warnings.toList := by
  obtain ⟨tokens, htokens, hp⟩ := h
  obtain ⟨hquiet, hparse, -⟩ := legal_actions htokens hp
  obtain ⟨-, hfault⟩ :=
    State.run_quiet (State.echoes_initial id) (Grammar.parse (Scanner.ofString source).scan).1
  rw [hquiet, hrun] at hfault
  obtain ⟨s', hs', hresult⟩ := exists_run hquiet ⟨hparse, hfault⟩
  cases hrun.symm.trans hs'
  rcases hresult with ⟨hnone, -⟩ | ⟨c, hc, hsome, hsymbols, hcode⟩
  · cases hentry.symm.trans hnone
  · cases hentry.symm.trans hsome
    exact ⟨c, hc, hsymbols, hcode, warnings_of_compile (hquiet.symm ▸ hrun) hc⟩

end Triad
