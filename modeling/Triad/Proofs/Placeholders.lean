import Triad.Proofs.FaultCauses
import Triad.Proofs.FrameStages
import Triad.Proofs.FrameWords

/-!
The placeholders of names that were never declared. Each lies in the frame where a next local would
lie, and so apart from all that is declared and from the placeholders before it. The words for
values go below all that there is, and take that place as well: a placeholder that comes behind them
may share the place of one. Main statement: `placeholder_shares_iff`.
-/

namespace Triad

/-! ## Places of declarations -/

namespace Declarations

theorem le_of_mem_paramSpots {params : List (String × Entity)} {spot : String × Entity × Int}
    (h : spot ∈ paramSpots params) : 4 ≤ spot.2.2 := by
  obtain ⟨k, -, rfl⟩ := List.mem_mapIdx.mp h
  have hroom := room_nonneg (params.take k)
  dsimp only
  omega

/-- Locals that take bytes lie above the place of the next one. -/
theorem lt_of_mem_localSpots {locals : List (String × Entity)} {spot : String × Entity × Int}
    (h : spot ∈ localSpots locals) (hbytes : spot.2.1.isConst = true ∨ spot.2.1.size ≠ 0) :
    -2 - room locals < spot.2.2 := by
  obtain ⟨k, hk, rfl⟩ := List.mem_mapIdx.mp h
  have hsize := locals[k].2.size_nonneg
  have hbefore := room_nonneg (locals.take k)
  have hbehind := room_nonneg (locals.drop (k + 1))
  have hroom : room locals =
      room (locals.take k) + (locals[k].2.size + room (locals.drop (k + 1))) := by
    conv => lhs; rw [← List.take_append_drop k locals, room_append, List.drop_eq_getElem_cons hk]
    rfl
  have hsame : (locals[k].2.setLocation 0).isConst = locals[k].2.isConst ∧
      (locals[k].2.setLocation 0).size = locals[k].2.size := by
    cases locals[k].2 <;> exact ⟨rfl, rfl⟩
  dsimp only at hbytes ⊢
  rw [hsame.1, hsame.2] at hbytes
  rw [room_variablesOf]
  split
  · omega
  · rename_i hvar
    have hne := hbytes.resolve_left hvar
    change -2 - room locals < -2 - room (locals.take k)
    omega

theorem location_of_mem_localSpots {locals : List (String × Entity)} {r : Symbol}
    (h : r.spot ∈ localSpots locals) : r.location = 0 := by
  obtain ⟨k, hk, hspot⟩ := List.mem_mapIdx.mp h
  have hentity : locals[k].2.setLocation 0 = r.entity := congrArg (fun spot => spot.2.1) hspot
  unfold Symbol.location
  rw [← hentity]
  cases locals[k].2 <;> rfl

end Declarations

open Declarations

/-! ## The place of a placeholder -/

/-- A placeholder goes behind the locals and the placeholders before it. It shares its place with
none of them, but for locals that take no bytes. It shares it with the word of a value just if the
frame reaches down to it in whole words from below the declarations. -/
structure PlaceholderSlot (d : Declarations) (declared scratch : List Symbol) (low : Int)
    (r : Symbol) : Prop where
  entity : r.entity = .placeholder
  depth : r.depth = 2
  offset : r.offset =
    -2 - room d.locals - 2 * ((scratch.countP fun q => q.entity.isPlaceholder : Nat) : Int)
  declared : ∀ q ∈ declared, 0 < q.location ∨ q.entity.isConst = true ∨ q.entity.size ≠ 0 →
    q.offset ≠ r.offset
  earlier : ∀ q ∈ scratch, q.entity.isPlaceholder = true → q.offset ≠ r.offset
  shares_iff : (∃ q ∈ scratch, q.offset = r.offset) ↔
    low ≤ r.offset ∧ r.offset + 2 ≤ d.low ∧ 2 ∣ r.offset - low

section Slots

variable {d : Declarations} {declared scratch : List Symbol} {n : Nat} {start low : Int}
  {s : State} {σ τ : Stage} {a : Action} {rest : List Action}

/-- Nothing that is declared lies at the place of a placeholder. -/
theorem declared_apart (hspots : declared.map Symbol.spot = d.layout) {q : Symbol}
    (hq : q ∈ declared) (hbytes : 0 < q.location ∨ q.entity.isConst = true ∨ q.entity.size ≠ 0)
    (n : Nat) : q.offset ≠ -2 - room d.locals - 2 * n := by
  have hspot : q.spot ∈ d.layout := hspots ▸ List.mem_map_of_mem hq
  have hroom := room_nonneg d.locals
  rcases List.mem_append.mp hspot with hspot | hspot
  · have hle : 4 ≤ q.offset := le_of_mem_paramSpots hspot
    omega
  · have hnone := location_of_mem_localSpots hspot
    have hlt : -2 - room d.locals < q.offset :=
      lt_of_mem_localSpots hspot (hbytes.resolve_left (by omega))
    omega

namespace Scratch

theorem countP_eq (h : Scratch start low n scratch) :
    scratch.countP (fun q => q.entity.isPlaceholder) = n := by
  have hlength := congrArg List.length h.placeholders
  rwa [List.length_map, List.length_map, List.length_range, ← List.countP_eq_length_filter]
    at hlength

/-- The places of placeholders are used once. -/
theorem placeholder_apart (h : Scratch start low n scratch) {q : Symbol} (hq : q ∈ scratch)
    (hplaceholder : q.entity.isPlaceholder = true) : q.offset ≠ start - 2 * n := by
  have hmem : q.offset ∈ (List.range n).map fun k : Nat => start - 2 * (k : Int) :=
    h.placeholders ▸ List.mem_map_of_mem (List.mem_filter.mpr ⟨hq, hplaceholder⟩)
  obtain ⟨k, hk, hoffset⟩ := List.mem_map.mp hmem
  have hlt := List.mem_range.mp hk
  omega

theorem shares_iff (h : Scratch start low n scratch) :
    (∃ q ∈ scratch, q.offset = start - 2 * n) ↔
      lowest low scratch ≤ start - 2 * n ∧ start - 2 * n + 2 ≤ low ∧
        2 ∣ start - 2 * n - lowest low scratch := by
  rw [← h.words _ (Int.le_refl _)]
  refine exists_congr fun q => and_congr_right fun hq => ?_
  cases hplaceholder : q.entity.isPlaceholder with
  | true => simp [h.placeholder_apart hq hplaceholder]
  | false => simp

end Scratch

/-- Code stands behind the declarations. -/
theorem Staged.code_of_ordered (h : Staged d s σ) (hordered : Stage.Ordered σ (a :: rest) τ)
    (hcode : a.isCode = true) : Staged d s .code := by
  rcases (hordered.code_of_cons hcode).1 with rfl | rfl
  · exact h.settle
  · exact h

/-- A name without a record gets one in any case. -/
theorem State.resolve_of_unknown {name : String} (hunknown : s.symbols.lookup name = none)
    (line : Nat) :
    ∃ t r, s.resolve line name = .ok (s.symbols.nextId, t) ∧
      t.symbols.get? s.symbols.nextId = some r ∧
      r.outline = (s.recordOf name .placeholder).outline := by
  obtain ⟨⟨id, t⟩, ht⟩ := s.exists_resolve line name
  rcases State.resolve_cases ht with ⟨-, hfound⟩ | ⟨-, rfl, hsymbols, -⟩
  · rw [hunknown] at hfound
    cases hfound
  · obtain ⟨r, hr, hout⟩ := (State.grows_enroll s name .placeholder).new
    exact ⟨t, r, ht, hsymbols ▸ hr, hout⟩

end Slots

/-- Wherever a text mentions a name that has no record, the name gets a placeholder. It is apart
from all that the open method has declared and from the placeholders before it. Whether it shares
its place with the word of a value is told by how far down the frame reaches. -/
theorem placeholder_shares_iff {source : String} {done rest : List Action} {a : Action} {s : State}
    {name : String}
    (hactions : (Grammar.parse (Scanner.ofString source).scan).1 = done ++ a :: rest)
    (hs : State.initial.run done = (s, none)) (ha : a.mentioned? = some name)
    (hunknown : s.symbols.lookup name = none) (line : Nat) :
    ∃ t r declared scratch, s.resolve line name = .ok (s.symbols.nextId, t) ∧
      t.symbols.get? s.symbols.nextId = some r ∧
      s.symbols.atDepth 2 = declared ++ scratch ∧
      declared.map Symbol.spot = (declarations done).layout ∧ (∀ q ∈ scratch, q.IsScratch) ∧
      PlaceholderSlot (declarations done) declared scratch s.symbols.minOffset r := by
  obtain ⟨τ, hordered⟩ := Grammar.exists_ordered (Scanner.ofString source).scan
  rw [hactions] at hordered
  obtain ⟨σ, hdone, hlater⟩ := hordered.split
  have hcode : a.isCode = true := by cases a <;> first | rfl | cases ha
  have hstands : Stands σ.phase s := stands_run hdone.legal stands_initial hs
  obtain ⟨t, r, hresolve, hr, hout⟩ := State.resolve_of_unknown hunknown line
  cases (Staged.run hdone hs).code_of_ordered hlater hcode with
  | @code id declared scratch n inside spots read cursor added =>
    have hspot := inside.spot_recordOf name .placeholder
    have hoffset : r.offset = -2 - room (declarations done).locals - 2 * n := by
      rw [Symbol.offset_of_outline hout]
      have hcursor := congrArg (fun spot => spot.2.2) hspot
      rw [cursor] at hcursor
      exact hcursor
    have hlow : s.symbols.minOffset = lowest (declarations done).low scratch := by
      rw [hstands.minOffset_eq, inside.records, lowest_append, lowest_spots spots]
    refine ⟨t, r, declared, scratch, hresolve, hr, inside.records, spots, added.scratch,
      ?_, ?_, ?_, ?_, ?_, ?_⟩
    · have hentity : r.entity.outline = .placeholder := congrArg Symbol.entity hout
      cases hr : r.entity <;> rw [hr] at hentity <;> first | rfl | cases hentity
    · exact (Symbol.depth_of_outline hout).trans inside.depth
    · rw [added.countP_eq]
      exact hoffset
    · intro q hq hbytes
      rw [hoffset]
      exact declared_apart spots hq hbytes n
    · intro q hq hplaceholder
      rw [hoffset]
      exact added.placeholder_apart hq hplaceholder
    · rw [hoffset, hlow]
      exact added.shares_iff

namespace Sample

open Syntax

def nameOf (name : String) : Expr .factor := .name (tok .identifier name)

/-- Two names without a record, and no value to be worked out between them. -/
def unknowns : String := "class A\x7bvoid Main()\x7bint a;a=y+z;\x7d\x7d"

def unknownsActions : List Action :=
  (Grammar.parse (Scanner.ofString unknowns).scan).1.takeWhile fun a => a.mentioned? ≠ some "z"

/-- A name without a record behind a value that takes a word. -/
def late : String := "class A\x7bvoid Main()\x7bint a;a=a*a+y;\x7d\x7d"

def lateActions : List Action :=
  (Grammar.parse (Scanner.ofString late).scan).1.takeWhile fun a => a.mentioned? ≠ some "y"

def lateMain : Routine :=
  { emptyMain with
    body :=
      { declarations := [.vars intName ⟨tok .identifier "a", []⟩ (tok .semicolon ";")]
        statements := [assignTo "a" (.sum
          (.ofTerm (.product (.ofFactor (nameOf "a")) times (nameOf "a"))) plus
          (.ofFactor (nameOf "y")))]
        returns := none } }

theorem offset_of_resolve {s t : State} {line : Nat} {name : String} {id : SymbolId} {r : Symbol}
    {offset : Int} (hresolve : s.resolve line name = .ok (id, t))
    (hr : t.symbols.get? id = some r)
    (hoffset : (s.resolve line name).toOption.bind
      (fun found => (found.2.symbols.get? found.1).map Symbol.offset) = some offset) :
    r.offset = offset := by
  rw [hresolve] at hoffset
  simpa [Except.toOption, hr] using hoffset

end Sample

open Sample in
theorem placeholder_shares_iff_unknowns :
    ∃ s t r declared scratch, State.initial.run unknownsActions = (s, none) ∧
      s.resolve 1 "z" = .ok (s.symbols.nextId, t) ∧
      t.symbols.get? s.symbols.nextId = some r ∧
      s.symbols.atDepth 2 = declared ++ scratch ∧
      PlaceholderSlot (declarations unknownsActions) declared scratch s.symbols.minOffset r ∧
      r.offset = -6 ∧ ∀ q ∈ scratch, q.offset ≠ -6 := by
  have hrun : (State.initial.run unknownsActions).2 = none := by decide +kernel
  have hnext : (Grammar.parse (Scanner.ofString unknowns).scan).1 =
      unknownsActions ++ .load 1 "z" ::
        (Grammar.parse (Scanner.ofString unknowns).scan).1.drop (unknownsActions.length + 1) := by
    decide +kernel
  obtain ⟨t, r, declared, scratch, hresolve, hr, hrecords, -, -, hslot⟩ :=
    placeholder_shares_iff hnext (Prod.ext rfl hrun) rfl (by decide +kernel) 1
  have hoffset : r.offset = -6 := offset_of_resolve hresolve hr (by decide +kernel)
  have hlow : (State.initial.run unknownsActions).1.symbols.minOffset = -4 := by decide +kernel
  refine ⟨_, t, r, declared, scratch, Prod.ext rfl hrun, hresolve, hr, hrecords, hslot, hoffset,
    fun q hq heq => ?_⟩
  have hshares := hslot.shares_iff.mp ⟨q, hq, heq.trans hoffset.symm⟩
  rw [hlow, hoffset] at hshares
  omega

open Sample in
/-- The value before the name is lost: the sum takes the placeholder twice. -/
theorem placeholder_shares_word :
    ∃ s t r q c, (Grammar.parse (Scanner.ofString late).scan).1 = lateActions ++ .load 1 "y" ::
        (Grammar.parse (Scanner.ofString late).scan).1.drop (lateActions.length + 1) ∧
      State.initial.run lateActions = (s, none) ∧ s.symbols.lookup "y" = none ∧
      s.resolve 1 "y" = .ok (s.symbols.nextId, t) ∧ t.symbols.get? s.symbols.nextId = some r ∧
      s.symbols.get? 3 = some q ∧ q.depth = 2 ∧ q.isTemporary = true ∧ q.offset = r.offset ∧
      compile late = .ok c ∧
      c.code = [.proc "A.Main", .binary (.frame (-4)) (.frame (-2)) .mul (.frame (-2)),
        .binary (.frame (-6)) (.frame (-4)) .add (.frame (-4)), .assign (.frame (-2)) (.frame (-6)),
        .endp "A.Main", .start "A.Main"] := by
  have hrun : (State.initial.run lateActions).2 = none := by decide +kernel
  have hunknown : (State.initial.run lateActions).1.symbols.lookup "y" = none := by decide +kernel
  obtain ⟨t, r, hresolve, hr, -⟩ := State.resolve_of_unknown hunknown 1
  have hoffset : r.offset = -4 := offset_of_resolve hresolve hr (by decide +kernel)
  have hword : ((State.initial.run lateActions).1.symbols.get? 3).map (fun q =>
      (q.depth, q.isTemporary, q.offset)) = some (2, true, -4) := by decide +kernel
  obtain ⟨q, hq, hspot⟩ := Option.map_eq_some_iff.mp hword
  simp only [Prod.mk.injEq] at hspot
  have htree : IsTree late (programOf lateMain) :=
    ⟨(programOf lateMain).tokens, by decide +kernel, by decide +kernel⟩
  have hentry : (ended lateMain).entry = some "A.Main" := by decide +kernel
  obtain ⟨c, hc, -, hcode, -⟩ := htree.exists_compile
    (State.run_eq_of_none (by decide +kernel)) hentry
  refine ⟨_, t, r, q, c, by decide +kernel, Prod.ext rfl hrun, hunknown, hresolve, hr, hq, hspot.1,
    hspot.2.1, hspot.2.2.trans hoffset.symm, hc, hcode.trans ?_⟩
  decide +kernel

end Triad
