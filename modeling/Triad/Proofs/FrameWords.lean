import Triad.Proofs.FrameSlots
import Triad.Proofs.MethodTraces

/-!
Words in the frame of a method. Code reads and writes whole words, whatever the type of a variable
is. Main statement: `frame_words_apart_iff`, when the words of a method have no byte in common, and
how far down its code reaches.
-/

namespace Triad

open Syntax

/-! ## Words -/

/-- The bytes of the word at an offset. -/
def wordAt (offset : Int) : List Int := [offset, offset + 1]

/-- The words at the offsets have no byte in common. -/
def WordsApart (a b : Int) : Prop := ∀ byte ∈ wordAt a, byte ∉ wordAt b

instance (a b : Int) : Decidable (WordsApart a b) :=
  inferInstanceAs (Decidable (∀ byte ∈ wordAt a, byte ∉ wordAt b))

theorem wordsApart_iff {a b : Int} : WordsApart a b ↔ a + 2 ≤ b ∨ b + 2 ≤ a := by
  simp only [WordsApart, wordAt, List.mem_cons, List.not_mem_nil, or_false, forall_eq_or_imp,
    forall_eq]
  omega

/-- A variable that is not the last one needs a word to keep apart from the next one. -/
theorem FrameCursor.pairwise_slots {c : FrameCursor} (hstep : c.step = 1 ∨ c.step = -1)
    (types : List ValueType) :
    (c.slots types).Pairwise WordsApart ↔ ∀ type ∈ types.dropLast, 2 ≤ type.size := by
  induction types generalizing c with
  | nil => simp [slots]
  | cons type types ih =>
    cases types with
    | nil => simp [slots]
    | cons next types =>
      have hrest := ih (c := c.declare type.size) hstep
      rw [slots, List.pairwise_cons, hrest, List.dropLast_cons_cons, List.forall_mem_cons]
      refine and_congr_left fun _ => ⟨fun hall => ?_, fun hsize o ho => ?_⟩
      · have hnext := wordsApart_iff.mp (hall (c.declare type.size).offset List.mem_cons_self)
        have hnonneg := type.size_nonneg
        simp only [declare] at hnext
        rcases hstep with hstep | hstep <;> rw [hstep] at hnext <;> omega
      · rw [wordsApart_iff]
        rcases hstep with hstep | hstep
        · have hle := le_of_mem_slots (c := c.declare type.size) hstep ho
          simp only [declare, hstep] at hle
          omega
        · have hle := ge_of_mem_slots (c := c.declare type.size) hstep ho
          simp only [declare, hstep] at hle
          omega

theorem le_of_mem_words {low o : Int} {n : Nat} (h : o ∈ State.words low n) : o + 2 ≤ low := by
  induction n generalizing low with
  | zero => cases h
  | succ n ih =>
    rcases List.mem_cons.mp h with rfl | h
    · omega
    · have hle := ih h
      omega

theorem pairwise_words (low : Int) (n : Nat) : (State.words low n).Pairwise WordsApart := by
  induction n generalizing low with
  | zero => exact .nil
  | succ n ih =>
    refine .cons (fun o ho => ?_) (ih (low - 2))
    exact wordsApart_iff.mpr (.inr (le_of_mem_words ho))

theorem foldl_min_le (low : Int) (offsets : List Int) :
    offsets.foldl min low ≤ low ∧ ∀ o ∈ offsets, offsets.foldl min low ≤ o := by
  induction offsets generalizing low with
  | nil => exact ⟨Int.le_refl low, fun o ho => absurd ho List.not_mem_nil⟩
  | cons o offsets ih =>
    obtain ⟨hlow, hall⟩ := ih (min low o)
    rw [List.foldl_cons, List.forall_mem_cons]
    exact ⟨by omega, by omega, hall⟩

/-- The words of a method are apart just if those of its parameters are, and those of its locals. -/
theorem Syntax.Routine.pairwise_slots (r : Routine) (n : Nat) :
    (r.slots n).Pairwise WordsApart ↔
      (∀ type ∈ r.paramTypes.dropLast, 2 ≤ type.size) ∧
        ∀ type ∈ r.body.localTypes.dropLast, 2 ≤ type.size := by
  obtain ⟨hlow, hlowest⟩ := foldl_min_le 0 (FrameCursor.locals.slots r.body.localTypes)
  rw [foldl_min_locals] at hlow hlowest
  have hparams : ∀ o ∈ FrameCursor.params.slots r.paramTypes, 4 ≤ o :=
    fun o ho => FrameCursor.le_of_mem_slots (c := .params) rfl ho
  have hlocals : ∀ o ∈ FrameCursor.locals.slots r.body.localTypes, o ≤ -2 :=
    fun o ho => FrameCursor.ge_of_mem_slots (c := .locals) rfl ho
  rw [slots, List.pairwise_append, List.pairwise_append, FrameCursor.pairwise_slots (.inl rfl),
    FrameCursor.pairwise_slots (.inr rfl)]
  constructor
  · rintro ⟨⟨hwide, hwide', -⟩, -⟩
    exact ⟨hwide, hwide'⟩
  · rintro ⟨hwide, hwide'⟩
    refine ⟨⟨hwide, hwide', fun a ha b hb => ?_⟩, pairwise_words _ n, fun a ha b hb => ?_⟩
    · have hle := hparams a ha
      have hle' := hlocals b hb
      exact wordsApart_iff.mpr (by omega)
    · have hbelow := le_of_mem_words hb
      rw [wordsApart_iff]
      rcases List.mem_append.mp ha with ha | ha
      · have hle := hparams a ha
        omega
      · have hle := hlowest a ha
        omega

/-! ## Frames of a program -/

def Entity.locals? : Entity → Option Int
  | method _ _ locals _ => some locals
  | _ => none

namespace SymbolTable

variable {t : SymbolTable} {id : SymbolId}

/-- The bytes of the locals of a method. -/
def localsAt? (t : SymbolTable) (id : SymbolId) : Option Int :=
  (t.get? id).bind fun r => r.entity.locals?

theorem localsAt?_eq_some {z : Int} :
    t.localsAt? id = some z ↔
      ∃ m, t.get? id = some m ∧ m.entity.isMethod = true ∧ m.sizeOfLocals = z := by
  rw [localsAt?, Option.bind_eq_some_iff]
  refine exists_congr fun m => and_congr_right fun _ => ?_
  unfold Symbol.sizeOfLocals
  cases m.entity with
  | method returns numParams locals params => simp [Entity.locals?, Entity.isMethod]
  | _ => simp [Entity.locals?, Entity.isMethod]

theorem mem_methods_of_localsAt? {z : Int} (h : t.localsAt? id = some z) : id ∈ t.methods := by
  obtain ⟨m, hm, hmethod, -⟩ := localsAt?_eq_some.mp h
  exact mem_methods_of_get? hm hmethod

end SymbolTable

theorem FrameCursor.length_slots (c : FrameCursor) (types : List ValueType) :
    (c.slots types).length = types.length := by
  induction types generalizing c with
  | nil => rfl
  | cons type types ih => rw [slots, List.length_cons, ih, List.length_cons]

theorem State.length_words (low : Int) (n : Nat) : (words low n).length = n := by
  induction n generalizing low with
  | zero => rfl
  | succ n ih => rw [words, List.length_cons, ih]

/-- A method has the frame of its declarations, from the end of its body to the end of the text. -/
theorem exists_framed {source : String} {c : Compilation} (hc : compile source = .ok c)
    (hquiet : c.warnings = []) {p : Program} (hp : IsTree source p) {id : SymbolId}
    (hid : id ∈ c.symbols.methods) :
    ∃ (place : Place p) (s : State) (m : Symbol) (q : Procedure) (n : Nat),
      Framed c place id s m q ∧
        s.Frame id (place.routine.slots n)
          (-(bytes place.routine.body.localTypes + shortfall place.routine.body.localTypes) -
            2 * n) ∧
        bytes place.routine.body.localTypes + 2 * n ≤ m.sizeOfLocals ∧
        ∀ i ∈ q.body, ∀ o ∈ i.operands, o.From s.symbols.minOffset := by
  obtain ⟨place, t, s, m, q, htraced⟩ := exists_traced hc hp hid
  have hquiets : s.warnings = #[] := by
    obtain ⟨final, hfinal, -, hwarnings⟩ := htraced.ended
    rw [hquiet] at hwarnings
    exact State.quiet_of_run hfinal (Array.toList_eq_nil_iff.mp hwarnings.symm)
  obtain ⟨r, returns, hr, hdepth, -⟩ := htraced.fresh
  obtain ⟨⟨n, hframe⟩, more, hmore, hfrom⟩ := frame_routine place.routine
    htraced.stands.fits htraced.stands.placed htraced.method ⟨r, hr, hdepth⟩ htraced.operands
    htraced.body hquiets
  have hbody : more = q.body := List.append_cancel_left (hmore.symm.trans htraced.emitted)
  refine ⟨place, s, m, q, n, htraced.toFramed, hframe, ?_, hbody ▸ hfrom⟩
  obtain ⟨params, locals, scratch, returns, hall, hparams, hlocals, -, hscratch, hentity⟩ :=
    htraced.exists_account hp
  have hlength : scratch.length = n := by
    have hlengths := congrArg List.length hframe.offsets
    rw [hall, Routine.slots] at hlengths
    simp only [List.length_map, List.length_append, FrameCursor.length_slots, State.length_words,
      ← hparams, ← hlocals] at hlengths
    omega
  have hnonneg := bytes_nonneg place.routine.paramTypes
  rw [Symbol.sizeOfLocals, hentity, totalSize_scratch hscratch, hlength]
  dsimp only
  split <;> omega

/-- The words of the frame of a method. They have no byte in common just if all its parameters but
the last and all its locals but the last take a word or more, and no code of the method reaches
further below the bytes of its locals than the last of them is short of a word. -/
theorem frame_words_apart_iff {source : String} {c : Compilation} (hc : compile source = .ok c)
    (hquiet : c.warnings = []) :
    (∃ p, IsTree source p) ∧
      ∀ p, IsTree source p → ∀ id ∈ c.symbols.methods,
        ∃ (place : Place p) (s : State) (m : Symbol) (q : Procedure), Framed c place id s m q ∧
          ((s.frame.map Symbol.offset).Pairwise WordsApart ↔
            (∀ type ∈ place.routine.paramTypes.dropLast, 2 ≤ type.size) ∧
              ∀ type ∈ place.routine.body.localTypes.dropLast, 2 ≤ type.size) ∧
          ∀ i ∈ q.body, ∀ o, .frame o ∈ i.operands →
            -o ≤ m.sizeOfLocals + shortfall place.routine.body.localTypes := by
  refine ⟨exists_tree (completes_of_readsThrough (.inl ⟨c, hc⟩)), fun p hp id hid => ?_⟩
  obtain ⟨place, s, m, q, n, hframed, hframe, hsize, hfrom⟩ := exists_framed hc hquiet hp hid
  refine ⟨place, s, m, q, hframed, ?_, fun i hi o ho => ?_⟩
  · rw [hframe.offsets]
    exact place.routine.pairwise_slots n
  · have hlow := hfrom i hi _ ho o rfl
    rw [hframe.low] at hlow
    omega

namespace Sample

def charName : TypeName := ⟨⟨.kwChar, "char", 1⟩, .char, rfl⟩

def floatName : TypeName := ⟨⟨.kwFloat, "float", 1⟩, .float, rfl⟩

def voidName : TypeName := ⟨⟨.kwVoid, "void", 1⟩, .void, rfl⟩

def plus : Operator addops := ⟨⟨.addOp, "+", 1⟩, .add, List.mem_cons_self⟩

def times : Operator mulops := ⟨⟨.mulOp, "*", 1⟩, .mul, List.mem_cons_self⟩

def numberOf (value : Nat) (text : String) : Numeric := ⟨⟨.number value, text, 1⟩, rfl⟩

def constantOf (type : TypeName) (name : String) (word : ConstantWord) : Declaration :=
  .constants (tok .kwConst "const") type
    ⟨⟨tok .identifier name, ⟨⟨.assignOp, "=", 1⟩, rfl, rfl⟩, word⟩, []⟩ (tok .semicolon ";")

def assignTo (name : String) (e : Expr .expr) : Statement × Tok .semicolon :=
  (.assign (tok .identifier name) ⟨⟨.assignOp, "=", 1⟩, none, List.mem_cons_self⟩ (.expr e),
    tok .semicolon ";")

def programOf (main : Routine) : Program where
  usings := []
  block := .bare [classOf "A" (.method voidName main)]
  ending := tok .eof ""

def placeOf (main : Routine) : Place (programOf main) where
  routine := main
  before := [.openClass 1 "A", .openClassBody,
    .openMethod main.name.1.line main.name.1.lexeme .void]
  after := [.closeMethod, .closeClass]
  mem := List.mem_cons_self
  actions_eq := by
    simp [programOf, Program.actions, Block.actions, ClassDecl.actions, ClassDecl.heading,
      MemberCore.actions, classOf, tok, voidName]
  rest := [.closeClass]
  after_eq := .inl rfl

/-- The state at the end of the body. -/
def read (main : Routine) : State := (State.initial.run (placeOf main).reading).1

/-- The state at the end of the text. -/
def ended (main : Routine) : State := (State.initial.run (programOf main).actions).1

theorem exists_compile_of_read {source : String} {main : Routine} {z : Int}
    (htree : IsTree source (programOf main))
    (hread : (State.initial.run (placeOf main).reading).2 = none)
    (hz : (read main).symbols.localsAt? 1 = some z)
    (hend : (State.initial.run (programOf main).actions).2 = none)
    (hentry : (ended main).entry = some "A.Main") (hquiet : (ended main).warnings = #[]) :
    ∃ c, compile source = .ok c ∧ c.warnings = [] ∧ c.symbols.localsAt? 1 = some z ∧
      c.code = (ended main).code.toList ++ [.start "A.Main"] := by
  have hrun : State.initial.run (programOf main).actions = (ended main, none) :=
    State.run_eq_of_none hend
  obtain ⟨c, hc, hsymbols, hcode, hwarnings⟩ := htree.exists_compile hrun hentry
  rw [hquiet] at hwarnings
  refine ⟨c, hc, hwarnings, ?_, hcode⟩
  obtain ⟨tokens, htokens, hp⟩ := htree
  obtain ⟨hstands, hlegal⟩ := (placeOf main).at_end (legal_actions htokens hp).2.2
    (State.run_eq_of_none hread)
  rw [(placeOf main).actions_reading] at hrun
  obtain ⟨s, hs, hafter⟩ := State.run_append_eq_none.mp hrun
  cases (State.run_eq_of_none hread).symm.trans hs
  obtain ⟨m, hm, hmethod, -⟩ := SymbolTable.localsAt?_eq_some.mp hz
  obtain ⟨⟨m', hm', hentity⟩, -⟩ := closed_of_run hstands hm hmethod hlegal hafter
  rw [hsymbols]
  rw [SymbolTable.localsAt?, hm', ← hz, SymbolTable.localsAt?, hm]
  exact congrArg Entity.locals? hentity

/-- The last parameter and the last local take less than a word. -/
def packed : String := "class A\x7bvoid Main(int a,char b)\x7bfloat x;char c;c=a*b;\x7d\x7d"

def packedMain : Routine :=
  { emptyMain with
    params := some ⟨⟨none, intName, tok .identifier "a"⟩,
      [(tok .comma ",", ⟨none, charName, tok .identifier "b"⟩)]⟩
    body :=
      { declarations := [.vars floatName ⟨tok .identifier "x", []⟩ (tok .semicolon ";"),
          .vars charName ⟨tok .identifier "c", []⟩ (tok .semicolon ";")]
        statements := [assignTo "c" (.ofTerm (.product (.ofFactor (.name (tok .identifier "a")))
          ⟨⟨.mulOp, "*", 1⟩, .mul, List.mem_cons_self⟩ (.name (tok .identifier "b"))))]
        returns := none } }

/-- The second local lies in the word of the first one. -/
def chars : String := "class A\x7bvoid Main()\x7bchar c,d;c=3;d=4;\x7d\x7d"

def charsMain : Routine :=
  { emptyMain with
    body :=
      { declarations := [.vars charName ⟨tok .identifier "c",
          [(tok .comma ",", tok .identifier "d")]⟩ (tok .semicolon ";")]
        statements := [
          assignTo "c" (.ofTerm (.ofFactor (.numeral ⟨⟨.number 3, "3", 1⟩, rfl⟩))),
          assignTo "d" (.ofTerm (.ofFactor (.numeral ⟨⟨.number 4, "4", 1⟩, rfl⟩)))]
        returns := none } }

def charsBody : Procedure where
  name := "A.Main"
  body := [.assign (.frame (-2)) (.literal "3"), .assign (.frame (-3)) (.literal "4")]
  inner := by decide

end Sample

open Sample in
theorem frame_words_apart_iff_packed :
    ∃ c, compile packed = .ok c ∧ c.warnings = [] ∧ 1 ∈ c.symbols.methods ∧
      ∃ (place : Place (programOf packedMain)) (s : State) (m : Symbol) (q : Procedure),
        Framed c place 1 s m q ∧ (s.frame.map Symbol.offset).Pairwise WordsApart ∧
          ∀ i ∈ q.body, ∀ o, .frame o ∈ i.operands → -o ≤ m.sizeOfLocals + 1 := by
  have htree : IsTree packed (programOf packedMain) :=
    ⟨(programOf packedMain).tokens, by decide +kernel, by decide +kernel⟩
  obtain ⟨c, hc, hquiet, hz, -⟩ := exists_compile_of_read (z := 7) htree (by decide +kernel)
    (by decide +kernel) (by decide +kernel) (by decide +kernel) (by decide +kernel)
  have hid := SymbolTable.mem_methods_of_localsAt? hz
  obtain ⟨-, hframes⟩ := frame_words_apart_iff hc hquiet
  obtain ⟨place, s, m, q, hframed, hapart, hbound⟩ := hframes _ htree 1 hid
  have hroutine : place.routine = packedMain := List.mem_singleton.mp place.mem
  rw [hroutine] at hapart hbound
  exact ⟨c, hc, hquiet, hid, place, s, m, q, hframed, hapart.mpr (by decide), hbound⟩

open Sample in
/-- Neither are the words apart, nor are there bytes for all of them. -/
theorem frame_words_overlap :
    ∃ (c : Compilation) (s : State) (m : Symbol), compile chars = .ok c ∧ c.warnings = [] ∧
      IsTree chars (programOf charsMain) ∧ 1 ∈ c.symbols.methods ∧
      Framed c (placeOf charsMain) 1 s m charsBody ∧
      ¬ (s.frame.map Symbol.offset).Pairwise WordsApart ∧
      ∃ i ∈ charsBody.body, ∃ o, .frame o ∈ i.operands ∧ o < 0 ∧ ¬ -o ≤ m.sizeOfLocals := by
  have htree : IsTree chars (programOf charsMain) :=
    ⟨(programOf charsMain).tokens, by decide +kernel, by decide +kernel⟩
  have hread : (State.initial.run (placeOf charsMain).reading).2 = none := by decide +kernel
  obtain ⟨c, hc, hquiet, hz, hcode⟩ := exists_compile_of_read (z := 2) htree hread
    (by decide +kernel) (by decide +kernel) (by decide +kernel) (by decide +kernel)
  obtain ⟨m, hm, -, hlocals⟩ := SymbolTable.localsAt?_eq_some.mp hz
  have hended : (ended charsMain).code.toList = charsBody.code := by decide +kernel
  have hoffsets : (read charsMain).frame.map Symbol.offset = [-2, -3] := by decide +kernel
  rw [hended] at hcode
  refine ⟨c, read charsMain, m, hc, hquiet, htree, SymbolTable.mem_methods_of_localsAt? hz,
    ⟨State.run_eq_of_none hread, by decide +kernel, hm, [], [.start "A.Main"], by decide +kernel,
      hcode⟩, ?_, _, List.mem_cons_of_mem _ List.mem_cons_self, -3, List.mem_cons_self,
    by decide, ?_⟩
  · rw [hoffsets]
    decide
  · rw [hlocals]
    decide

end Triad
