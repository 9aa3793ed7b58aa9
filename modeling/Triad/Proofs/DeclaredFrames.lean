import Triad.Proofs.FrameStages
import Triad.Proofs.FrameWords
import Triad.Proofs.FreshWords

/-!
Where a method has what it declares, from the declaration on until the method is closed. Main
statement: `declared_frame_layout`.
-/

namespace Triad

open Declarations

/-! ## Methods of programs -/

namespace Declarations

theorem add_nil (d : Declarations) : d.add [] = d := by
  unfold add
  split <;> simp

theorem add_add (d : Declarations) (declared more : List (String × Entity)) :
    (d.add declared).add more = d.add (declared ++ more) := by
  unfold add
  split <;> rename_i h <;> simp [h]

theorem foldl_declare {α : Type} (f : α → Action) (declared : α → String × Entity)
    (hf : ∀ x, ∃ line, f x = .declare line (declared x).1 (declared x).2) (xs : List α)
    (d : Declarations) : (xs.map f).foldl after d = d.add (xs.map declared) := by
  induction xs generalizing d with
  | nil => exact d.add_nil.symm
  | cons x xs ih =>
    obtain ⟨line, hx⟩ := hf x
    rw [List.map_cons, List.foldl_cons, ih, hx]
    exact d.add_add _ _

theorem foldl_code {actions : List Action} (h : ∀ a ∈ actions, a.isCode = true)
    (d : Declarations) : actions.foldl after d = d := by
  induction actions with
  | nil => rfl
  | cons a actions ih =>
    rw [List.foldl_cons, after_code (h a List.mem_cons_self)]
    exact ih fun b hb => h b (List.mem_cons_of_mem a hb)

end Declarations

namespace Syntax

def Declaration.declared : Declaration → List (String × Entity)
  | constants _ type items _ =>
    items.toList.map fun c => (c.name.1.lexeme, .const type.type (c.word.value type.type))
  | vars type names _ => names.toList.map fun t => (t.1.lexeme, .newVar type.type)

def Param.declared (p : Param) : String × Entity :=
  (p.name.1.lexeme, .var p.type.type p.passingMode 0)

/-- What a method declares in its heading and at the beginning of its body. -/
def Routine.declared (r : Routine) : Declarations where
  params := (r.params.toList.flatMap Listed.toList).map Param.declared
  locals := r.body.declarations.flatMap Declaration.declared
  inBody := true

theorem Declaration.foldl_actions (x : Declaration) (d : Declarations) :
    x.actions.foldl Declarations.after d = d.add x.declared := by
  cases x with
  | constants keyword type items semicolon =>
    exact foldl_declare (Constant.action type.type)
      (fun c => (c.name.1.lexeme, .const type.type (c.word.value type.type)))
      (fun _ => ⟨_, rfl⟩) items.toList d
  | vars type names semicolon =>
    exact foldl_declare (fun t => .declare t.1.line t.1.lexeme (.newVar type.type))
      (fun t => (t.1.lexeme, .newVar type.type)) (fun _ => ⟨_, rfl⟩) names.toList d

theorem Body.foldl_actions (b : Body) (d : Declarations) :
    b.actions.foldl Declarations.after d = d.add (b.declarations.flatMap Declaration.declared) := by
  have hdeclared : ∀ (xs : List Declaration) (d : Declarations),
      (xs.flatMap Declaration.actions).foldl Declarations.after d =
        d.add (xs.flatMap Declaration.declared) := by
    intro xs
    induction xs with
    | nil => exact fun d => d.add_nil.symm
    | cons x xs ih =>
      intro d
      rw [List.flatMap_cons, List.foldl_append, x.foldl_actions, ih, add_add, List.flatMap_cons]
  unfold Body.actions
  rw [List.append_assoc, List.foldl_append, hdeclared]
  refine foldl_code (fun a ha => ?_) _
  rcases List.mem_append.mp ha with ha | ha
  · obtain ⟨step, -, hstep⟩ := List.mem_flatMap.mp ha
    exact step.1.isCode_actions a hstep
  · obtain ⟨r, -, hr⟩ := List.mem_flatMap.mp ha
    exact r.isCode_actions a hr

end Syntax

/-- At the end of the body of a method, all is declared that it declares. -/
theorem Place.declarations_reading {p : Syntax.Program} (place : Place p) :
    declarations place.reading = place.routine.declared := by
  have hparams : place.routine.paramActions =
      (place.routine.params.toList.flatMap Syntax.Listed.toList).map Syntax.Param.action := by
    unfold Syntax.Routine.paramActions
    rw [List.map_flatMap]
  unfold declarations Place.reading Syntax.Routine.heading
  simp only [List.foldl_append, List.foldl_cons, List.foldl_nil, Syntax.Body.foldl_actions, hparams,
    foldl_declare Syntax.Param.action Syntax.Param.declared fun _ => ⟨_, rfl⟩]
  rfl

theorem declarations_quiet (actions : List Action) :
    declarations (quiet actions) = declarations actions := by
  unfold declarations
  generalize (⟨[], [], false⟩ : Declarations) = d
  induction actions generalizing d with
  | nil => rfl
  | cons a actions ih =>
    by_cases hscan : a.isScan = true
    · rw [quiet_cons_scan hscan, List.foldl_cons, ih]
      cases a <;> first | rfl | cases hscan
    · rw [quiet_cons hscan, List.foldl_cons, List.foldl_cons, ih]

/-! ## Layouts -/

/-- All that is declared lies where it belongs. Nothing outside the open method has a place in its
frame, and behind its declarations stands what its code has added. -/
structure State.LaidOut (d : Declarations) (s : State) : Prop where
  outer : ∀ id r, s.symbols.get? id = some r → r.depth ≤ 1 → r.offset = 0
  inner : s.depth = 2 → ∃ declared scratch, s.symbols.atDepth 2 = declared ++ scratch ∧
    declared.map Symbol.spot = d.layout ∧ ∀ r ∈ scratch, r.IsScratch

theorem Staged.laidOut {d : Declarations} {s : State} {σ : Stage} (h : Staged d s σ)
    (hs : Stands σ.phase s) : s.LaidOut d where
  outer := fun _ _ hr hdepth => hs.offset_eq_zero hr hdepth
  inner := by
    intro hdepth
    have hnone : ∀ r ∈ ([] : List Symbol), r.IsScratch := fun _ hr => absurd hr List.not_mem_nil
    have hphase : σ.phase.depth = 2 := hs.fits.depth.symm.trans hdepth
    cases h with
    | @outside φ around => cases φ <;> first | exact absurd hphase (by decide) | cases around
    | head => exact absurd hphase (by decide)
    | params inside spots => exact ⟨_, [], by rw [inside.records, List.append_nil], spots, hnone⟩
    | signature inside spots => exact ⟨_, [], by rw [inside.records, List.append_nil], spots, hnone⟩
    | locals inside spots => exact ⟨_, [], by rw [inside.records, List.append_nil], spots, hnone⟩
    | code inside spots read cursor added => exact ⟨_, _, inside.records, spots, added.scratch⟩

theorem Symbol.location_of_outline {r q : Symbol} (h : q.outline = r.outline) :
    q.location = r.location := by
  have hsame : ∀ r : Symbol, r.outline.location = r.location := by
    intro r
    unfold Symbol.outline Symbol.location
    cases r.entity <;> rfl
  rw [← hsame q, h, hsame]

/-- A record stays while its scope is open. -/
theorem record_stays {φ ψ : Phase} {s t : State} {actions : List Action} {id : SymbolId}
    {r : Symbol} (hlegal : Phase.Legal φ actions ψ) (hs : Stands φ s)
    (hrun : s.run actions = (t, none)) (hr : s.symbols.get? id = some r)
    (hopen : r.depth ≤ 1 ∨ .closeMethod ∉ actions) :
    ∃ q, t.symbols.get? id = some q ∧ q.outline = r.outline := by
  by_cases hdepth : r.depth ≤ 1
  · exact record_run hlegal hs hrun hr hdepth
  · have hall : ∀ a ∈ actions, a ≠ .closeMethod := fun a ha heq =>
      hopen.resolve_left hdepth (heq ▸ ha)
    have hφ : φ.inMethod = true := by
      have hbound := hs.fits.bounded id r hr
      cases φ <;> first
        | rfl
        | exact absurd hbound hdepth
        | (simp only [Phase.bound] at hbound; omega)
    exact live_run hlegal hs.fits hφ hall hrun hr

/-- Wherever the translation of a text stands, what the open method has declared lies where it
belongs, which at the end of a method is all that the method declares. No record is moved before its
scope is closed. -/
theorem declared_frame_layout {source : String} {done more rest : List Action} {s t : State}
    (hactions : (Grammar.parse (Scanner.ofString source).scan).1 = done ++ more ++ rest)
    (hs : State.initial.run done = (s, none)) (ht : s.run more = (t, none)) :
    s.LaidOut (declarations done) ∧
      (∀ (p : Syntax.Program) (place : Place p), quiet done = place.reading →
        declarations done = place.routine.declared) ∧
      ∀ id r, s.symbols.get? id = some r → (r.depth ≤ 1 ∨ .closeMethod ∉ more) →
        ∃ q, t.symbols.get? id = some q ∧ q.offset = r.offset ∧ q.location = r.location := by
  obtain ⟨τ, hordered⟩ := Grammar.exists_ordered (Scanner.ofString source).scan
  rw [hactions, List.append_assoc] at hordered
  obtain ⟨σ, hdone, hlater⟩ := hordered.split
  obtain ⟨χ, hmore, -⟩ := hlater.split
  have hstands : Stands σ.phase s := stands_run hdone.legal stands_initial hs
  refine ⟨?_, fun p place hplace => ?_, fun id r hr hopen => ?_⟩
  · exact (Staged.run hdone hs).laidOut hstands
  · rw [← declarations_quiet, hplace]
    exact place.declarations_reading
  · obtain ⟨q, hq, hout⟩ := record_stays hmore.legal hstands ht hr hopen
    exact ⟨q, hq, Symbol.offset_of_outline hout, Symbol.location_of_outline hout⟩

namespace Sample

open Syntax

def mixed : String :=
  "class A\x7bvoid Main(int a,char b)\x7bfloat x;const int k=3;char c;c=a*b;\x7d\x7d"

def mixedMain : Routine :=
  { packedMain with
    body :=
      { packedMain.body with
        declarations := [.vars floatName ⟨tok .identifier "x", []⟩ (tok .semicolon ";"),
          constantOf intName "k" (.numeral none (numberOf 3 "3")),
          .vars charName ⟨tok .identifier "c", []⟩ (tok .semicolon ";")] } }

/-- What is done for the text up to the end of its method. -/
def mixedActions : List Action :=
  (Grammar.parse (Scanner.ofString mixed).scan).1.takeWhile fun a => a ≠ .closeMethod

/-- What is done for the text before there is code. -/
def mixedHead : List Action := mixedActions.takeWhile fun a => !a.isCode

def mixedTail : List Action := mixedActions.dropWhile fun a => !a.isCode

theorem mixed_eq : (Grammar.parse (Scanner.ofString mixed).scan).1 =
    mixedActions ++ (Grammar.parse (Scanner.ofString mixed).scan).1.dropWhile
      fun a => a ≠ .closeMethod := List.takeWhile_append_dropWhile.symm

end Sample

open Sample in
theorem declared_frame_layout_mixed :
    (∃ s declared scratch, State.initial.run mixedActions = (s, none) ∧
      s.symbols.atDepth 2 = declared ++ scratch ∧
      declared.map Symbol.spot =
        [("a", .var .int .byValue 1, 4), ("b", .var .char .byValue 2, 6),
          ("x", .var .float .byValue 0, -2), ("k", .const .int (.int 3), 0),
          ("c", .var .char .byValue 0, -6)]) ∧
    ∃ s t r q, State.initial.run mixedHead = (s, none) ∧ s.run mixedTail = (t, none) ∧
      s.symbols.get? 6 = some r ∧ t.symbols.get? 6 = some q ∧ q.offset = r.offset ∧
      q.location = r.location ∧ r.name = "c" := by
  constructor
  · have hrun : (State.initial.run mixedActions).2 = none := by decide +kernel
    have hall : (Grammar.parse (Scanner.ofString mixed).scan).1 = mixedActions ++ [] ++
        (Grammar.parse (Scanner.ofString mixed).scan).1.dropWhile fun a => a ≠ .closeMethod :=
      (List.append_nil mixedActions).symm ▸ mixed_eq
    obtain ⟨hlaid, hmethod, -⟩ := declared_frame_layout hall (Prod.ext rfl hrun) rfl
    obtain ⟨declared, scratch, hrecords, hspots, -⟩ := hlaid.inner (by decide +kernel)
    rw [hmethod _ (placeOf mixedMain) (by decide +kernel)] at hspots
    exact ⟨_, declared, scratch, Prod.ext rfl hrun, hrecords, hspots⟩
  · have hhead : (State.initial.run mixedHead).2 = none := by decide +kernel
    have htail : ((State.initial.run mixedHead).1.run mixedTail).2 = none := by decide +kernel
    have hsplit : mixedActions = mixedHead ++ mixedTail := List.takeWhile_append_dropWhile.symm
    obtain ⟨-, -, hstays⟩ := declared_frame_layout (hsplit ▸ mixed_eq) (Prod.ext rfl hhead)
      (Prod.ext rfl htail)
    have hname : ((State.initial.run mixedHead).1.symbols.get? 6).map Symbol.name = some "c" := by
      decide +kernel
    obtain ⟨r, hr, hname⟩ := Option.map_eq_some_iff.mp hname
    obtain ⟨q, hq, hoffset, hlocation⟩ := hstays 6 r hr (.inr (by decide +kernel))
    exact ⟨_, _, r, q, Prod.ext rfl hhead, Prod.ext rfl htail, hr, hq, hoffset, hlocation, hname⟩

end Triad
