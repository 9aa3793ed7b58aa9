import Triad.Proofs.Accumulator
import Triad.Proofs.CodeText
import Triad.Proofs.Consumption
import Triad.Proofs.MethodTraces
import Triad.Proofs.SymbolTree

/-!
New words of the frame. Wherever the translation of a text stands, a new word would lie below all
live records, and its record has a name that no live record has: names come from the text or are
spelled after the place of a word. Main statements: the names of live records (`wellNamed_run`), and
that the words which a method has drawn lie above a new one up to its end (`below_drawn`).
-/

namespace Triad

/-! ## Drawing a word -/

theorem Action.drawsWord_of_few {s : State} {op : BinOp} (few : s.operands.length < 2) :
    drawsWord s (.binary op) = false := by
  rw [drawsWord]
  split
  · rename_i operands
    simp only [operands, List.length_cons] at few
    omega
  · rfl

namespace State

variable {s t : State} {a : Action}

/-- The slots of the words that the actions take on their way. -/
def drawn (s : State) : List Action → List Int
  | [] => []
  | a :: rest =>
    (if a.drawsWord s then [s.tempRecord.offset] else []) ++
      match a.apply s with
      | .ok t => t.drawn rest
      | .error _ => []

/-- Only code draws words. -/
theorem drawsWord_eq_false (hcode : a.isCode = false) : a.drawsWord s = false := by
  cases a <;> first | rfl | cases hcode

/-- The word becomes the last value, and one more instruction sets it from values at hand or from
the accumulator. -/
structure Draws (s : State) (a : Action) (t : State) : Prop where
  symbols : t.symbols = s.newTemp.2.symbols
  operands : t.operands = .frame s.tempRecord.offset :: s.operands.drop a.pops
  code : ∃ i, t.code.toList = s.code.toList ++ [i] ∧
    i.changes = some (.frame s.tempRecord.offset) ∧
    ∀ o ∈ i.sources, o ∈ s.operands ∨ o = .accumulator

theorem draws_computed {rest : List Operand} {i : Instr} (htaken : rest = s.operands.drop a.pops)
    (hchanges : i.changes = some (.frame s.tempRecord.offset))
    (hsources : ∀ o ∈ i.sources, o ∈ s.operands ∨ o = .accumulator) :
    s.Draws a (({ s with operands := rest }.newTemp.2.emit i).pushOperand
      (.frame s.tempRecord.offset)) where
  symbols := symbols_newTemp_congr s rest
  operands := by
    change _ :: { s with operands := rest }.newTemp.2.operands = _
    rw [operands_newTemp, ← htaken]
  code := by
    refine ⟨i, ?_, hchanges, hsources⟩
    change ({ s with operands := rest }.newTemp.2.code.push i).toList = _
    rw [code_newTemp, Array.toList_push]

theorem draws_of_apply (h : a.drawsWord s = true) (happly : a.apply s = .ok t) : s.Draws a t := by
  cases outcome_of_ok happly with
  | @negated source rest operands =>
    rw [Action.drawsWord, operands] at h
    have htaken : rest = s.operands.drop 1 := by rw [operands]; rfl
    have hsources : ∀ o ∈ [source], o ∈ s.operands ∨ o = .accumulator := by simp [operands]
    unfold negate
    split
    · cases h
    · exact draws_computed (a := .negate) (i := .negate _ _) htaken rfl hsources
  | @combined op left right rest operands =>
    rw [Action.drawsWord, operands] at h
    have htaken : rest = s.operands.drop 2 := by rw [operands]; rfl
    have hsources : ∀ o ∈ [left, right], o ∈ s.operands ∨ o = .accumulator := by simp [operands]
    unfold combine
    rw [Option.isNone_iff_eq_none.mp h]
    exact draws_computed (a := .binary op) (i := .binary _ _ _ _) htaken rfl hsources
  | notNegated operands =>
    rw [Action.drawsWord, operands] at h
    cases h
  | notCombined few =>
    rw [Action.drawsWord_of_few few] at h
    cases h
  | parked => exact draws_computed (a := .park) (i := .assign _ _) rfl rfl (by simp [Instr.sources])
  | _ => cases h

end State

/-! ## Names of live records -/

/-- The name of a live record comes from the text, or it is that of a word of the frame. -/
def SymbolTable.WellNamed (t : SymbolTable) : Prop :=
  ∀ id r, t.get? id = some r → IsDotted r.name ∨ r.name = frameSlot r.offset

namespace SymbolTable

variable {t t' : SymbolTable}

theorem WellNamed.of_old (h : t.WellNamed)
    (hold : ∀ id r, t'.get? id = some r → ∃ q, t.get? id = some q ∧ q.outline = r.outline) :
    t'.WellNamed := by
  intro id r hr
  obtain ⟨q, hq, hout⟩ := hold id r hr
  rw [← Symbol.name_of_outline hout, ← Symbol.offset_of_outline hout]
  exact h id q hq

theorem WellNamed.grows (h : t.WellNamed) {q : Symbol} (hgrows : t.Grows q t')
    (hq : IsDotted q.name ∨ q.name = frameSlot q.offset) : t'.WellNamed := by
  intro id r hr
  rcases hgrows.cases hr with ⟨-, hout⟩ | ⟨p, hp, hout⟩
  · rw [Symbol.name_of_outline hout, Symbol.offset_of_outline hout]
    exact hq
  · rw [← Symbol.name_of_outline hout, ← Symbol.offset_of_outline hout]
    exact h id p hp

/-- No live record has the name of a word that lies below all of them. -/
theorem WellNamed.name_ne (h : t.WellNamed) {offset : Int}
    (hbelow : ∀ id r, t.get? id = some r → offset < r.offset) :
    ∀ id r, t.get? id = some r → r.name ≠ frameSlot offset := by
  intro id r hr heq
  have hlt := hbelow id r hr
  rcases h id r hr with hdotted | hname
  · exact not_isDotted_frameSlot offset (heq ▸ hdotted)
  · have hslots := congrArg (fun name : String => slotOf? name.toList) (hname.symm.trans heq)
    simp only [slotOf?_frameSlot, Option.some.injEq] at hslots
    omega

end SymbolTable

section Runs

variable {s t : State} {a : Action} {φ ψ : Phase}

/-- Code puts at most one record into the table: of a word that it draws, or of a name that it
mentions. -/
theorem State.Coded.table_cases (h : s.Coded a t) :
    t.symbols = s.symbols ∨ (a.drawsWord s = true ∧ t.symbols = s.newTemp.2.symbols) ∨
      ∃ name, a.mentioned? = some name ∧ t.symbols = (s.enroll name .placeholder).symbols := by
  cases h with
  | named _ _ resolved _ mentions =>
    rcases (margin_resolve resolved).2.2 with ⟨hsame, -⟩ | hwarned
    · rw [hsame]
      exact .inl rfl
    · exact .inr (.inr ⟨_, mentions, hwarned.symbols⟩)
  | pushed => exact .inl rfl
  | @computed rest i taken pushes known draws =>
    exact .inr (.inl ⟨draws, State.symbols_newTemp_congr s rest⟩)
  | emitted _ symbols => exact .inl symbols
  | still => exact .inl rfl

theorem wellNamed_code (hcode : a.isCode = true) (ha : a.IsSpelled) (h : s.symbols.WellNamed)
    (happly : a.apply s = .ok t) : t.symbols.WellNamed := by
  rcases (State.coded_of_apply hcode happly).table_cases with
    hsame | ⟨-, hword⟩ | ⟨name, hname, hnew⟩
  · rw [hsame]
    exact h
  · rw [hword]
    exact h.grows (State.grows_newTemp s) (.inr rfl)
  · rw [hnew]
    refine h.grows (State.grows_enroll s name .placeholder) (.inl ?_)
    cases a <;> first | cases hname; exact IsWord.isDotted ha | cases hname

theorem wellNamed_move {p : State.Spine} (ha : a.IsSpelled) (h : s.symbols.WellNamed)
    (hmove : Move s φ a ψ p) : p.symbols.WellNamed := by
  have henroll : ∀ name entity, IsDotted name → (s.enroll name entity).symbols.WellNamed :=
    fun name entity hname => h.grows (State.grows_enroll s name entity) (.inl hname)
  cases hmove with
  | still => exact h
  | declared => exact henroll _ _ (IsWord.isDotted ha)
  | coded _ within kind applied =>
    rcases kind with hcode | rfl
    · exact wellNamed_code hcode ha h applied
    · refine h.of_old fun id r hr => ?_
      have hlt := SymbolTable.get?_lt hr
      change id < SymbolTable.nextId _ at hlt
      rw [State.spine, nextId_sizeFrame applied] at hlt
      exact within.symbols.get?_old hlt hr
  | spaceOpened => exact henroll _ _ ha
  | spaceClosed => exact h
  | classOpened =>
    have hgrows := State.grows_enroll { s with depth := s.depth + 1 }
    exact SymbolTable.WellNamed.grows h (hgrows _ _) (.inl (IsWord.isDotted ha))
  | classEntered => exact h
  | @methodOpened _ name _ _ returns opens =>
    refine henroll name (.newMethod returns) ?_
    cases a <;> first | cases opens; exact IsWord.isDotted ha | cases opens
  | paramsEntered => exact h
  | methodClosed sheds => exact h.of_old fun id r hr => (sheds.get?_old id r hr).2
  | classClosed sheds => exact h.of_old fun id r hr => (sheds.get?_old id r hr).2

theorem wellNamed_run {actions : List Action} (hlegal : Phase.Legal .preface actions ψ)
    (hall : ∀ a ∈ actions, a.IsSpelled) (hrun : State.initial.run actions = (s, none)) :
    s.symbols.WellNamed :=
  hlegal.run_induction (P := Action.IsSpelled) (I := fun _ _ p => p.symbols.WellNamed)
    (fun _ _ h => h) (fun _ _ _ _ _ _ ha _ h hmove => wellNamed_move ha h hmove) hall []
    stands_initial.fits (fun _ _ hr => by cases hr) hrun

/-! ## Words stay -/

/-- Inside a method nothing but its end takes records away. -/
theorem live_move {p : State.Spine} (hmove : Move s φ a ψ p) (hφ : φ.inMethod = true)
    (ha : a ≠ .closeMethod) {id : SymbolId} {r : Symbol} (hr : s.symbols.get? id = some r) :
    ∃ q, p.symbols.get? id = some q ∧ q.outline = r.outline := by
  cases hmove with
  | still => exact ⟨r, hr, rfl⟩
  | declared => exact (State.evolves_enroll s _ _).get? hr
  | coded _ within => exact within.symbols.get? hr
  | paramsEntered => exact ⟨r, hr, rfl⟩
  | methodClosed => exact absurd rfl ha
  | _ => cases hφ

theorem live_run {actions : List Action} (hlegal : Phase.Legal φ actions ψ) (hfits : Fits φ s)
    (hφ : φ.inMethod = true) (hall : ∀ a ∈ actions, a ≠ .closeMethod)
    (hrun : s.run actions = (t, none)) {id : SymbolId} {r : Symbol}
    (hr : s.symbols.get? id = some r) :
    ∃ q, t.symbols.get? id = some q ∧ q.outline = r.outline :=
  (hlegal.run_induction (P := fun a => a ≠ .closeMethod)
    (I := fun _ φ p => φ.inMethod = true ∧
      ∃ q, p.symbols.get? id = some q ∧ q.outline = r.outline) (fun _ _ h => by cases h.1)
    (by
      rintro _ φ a ψ u p ha - ⟨hφ, q, hq, hout⟩ hmove
      obtain ⟨q', hq', hout'⟩ := live_move hmove hφ ha hq
      exact ⟨(sameMethod_move hmove hφ ha).1, q', hq', hout'.trans hout⟩)
    hall [] hfits ⟨hφ, r, hr, rfl⟩ hrun).2

/-- A new word lies two bytes or more below all live records. -/
theorem State.tempRecord_below (s : State) :
    ∀ id r, s.symbols.get? id = some r → s.tempRecord.offset + 2 ≤ r.offset := by
  intro id r hr
  have hle := SymbolTable.minOffset_le hr
  have hoffset : s.tempRecord.offset = s.symbols.minOffset - 2 := rfl
  omega

theorem Phase.eq_body_of_drawsWord (hdraws : a.drawsWord s = true)
    (h : (φ.next? a).isSome = true) : φ = .body := by
  cases a with
  | negate => cases φ <;> first | rfl | cases h
  | binary op => cases φ <;> first | rfl | cases h
  | park => cases φ <;> first | rfl | cases h
  | _ => cases hdraws

/-- As long as its method is not closed, a word that was drawn lies above the next one. -/
theorem below_drawn {before later : List Action} (hlegal : Phase.Legal .preface
    (before ++ a :: later) ψ) (hbefore : State.initial.run before = (s, none))
    (hdraws : a.drawsWord s = true) (hopen : .closeMethod ∉ later)
    (hrun : State.initial.run (before ++ a :: later) = (t, none)) :
    t.tempRecord.offset + 2 ≤ s.tempRecord.offset := by
  obtain ⟨φ, hstands, hrest⟩ := exists_phase hlegal hbefore
  cases Phase.eq_of_legal hrest (fun _ => Phase.eq_body_of_drawsWord hdraws) (by decide)
  obtain ⟨s', hs', hlater⟩ := State.run_append_eq_none.mp hrun
  cases hbefore.symm.trans hs'
  obtain ⟨u, happly, hu⟩ := State.run_cons_eq_none.mp hlater
  obtain ⟨r, hr, hout⟩ := (State.grows_newTemp s).new
  rw [← (State.draws_of_apply hdraws happly).symbols] at hr
  cases hrest with
  | cons here hrest =>
    have hfits := fits_apply hstands.fits here
    rw [happly] at hfits
    have hin : ∀ b ∈ later, b ≠ .closeMethod := fun b hb heq => hopen (heq ▸ hb)
    have hχ := (sameMethod_move (move_of_apply hstands.fits here happly) rfl
      fun heq => by rw [heq] at hdraws; cases hdraws).1
    obtain ⟨q, hq, hout'⟩ := live_run hrest hfits hχ hin hu hr
    have hbelow := t.tempRecord_below _ q hq
    rwa [Symbol.offset_of_outline (hout'.trans hout)] at hbelow

end Runs

/-- What is called for inside a method of a text is spelled as in the text. -/
theorem Place.isSpelled {source : String} {p : Syntax.Program} (hp : IsTree source p)
    (place : Place p) :
    ∀ a ∈ place.routine.heading ++ place.routine.body.actions, a.IsSpelled := by
  intro a ha
  obtain ⟨tokens, htokens, htree⟩ := hp
  have hmem : a ∈ p.actions := by
    rw [place.actions_before]
    exact List.mem_append_right _ (List.mem_append_left _ ha)
  rw [← (legal_actions htokens htree).1] at hmem
  exact Grammar.spelled_parse source a (List.mem_of_mem_filter hmem)

end Triad
