import Triad.Proofs.Consumption

/-!
Reading ends, whatever the text is. The loops of the grammar and the recursion of its expressions
are written down once more without a bound, each as what one round does, with the further rounds as
a parameter. Main statement: a round calls for a further one only after a token was passed, so that
no round is reached beyond the number of tokens, the bounds in the grammar are never met, and what
the grammar reads is what the unbounded loops read; the scanner is not asked for anything behind the
mark of the end (`reading_ends`).
-/

namespace Triad

/-! ## Recursions that end -/

section Recursion

variable {X R : Type}

/-- The recursion unrolled to a depth, with `stop` in place of the calls beyond it. -/
def unrolled (round : (X → R) → X → R) (stop : X → R) : Nat → X → R
  | 0 => stop
  | n + 1 => round (unrolled round stop n)

/-- `p` is what the recursion with the given rounds does, and it ends: a round at `x` comes to the
result of `p` whatever further rounds do at places that are not smaller than `x`, and the recursion
unrolled deeper than the size of `x` does not come to its stop. -/
structure Terminates (size : X → Nat) (round : (X → R) → X → R) (p : X → R) : Prop where
  descends : ∀ x g, (∀ y, size y < size x → g y = p y) → round g x = p x
  unrolls : ∀ n stop x, size x < n → unrolled round stop n x = p x

variable {size : X → Nat} {round : (X → R) → X → R}

theorem terminates_of_descends {p : X → R}
    (h : ∀ x g, (∀ y, size y < size x → g y = p y) → round g x = p x) :
    Terminates size round p := by
  refine ⟨h, fun n stop => ?_⟩
  induction n with
  | zero => exact fun x hx => absurd hx (Nat.not_lt_zero _)
  | succ n ih =>
    intro x hx
    exact h x _ fun y hy => ih y (by omega)

/-- `loop` goes through the rounds up to a bound. At a place of size 0 there is no further round. -/
structure BoundedLoop (size : X → Nat) (round : (X → R) → X → R) (loop : Nat → X → R) : Prop where
  step : ∀ n x, size x ≤ n + 1 → loop (n + 1) x = round (loop n) x
  base : ∀ x g, size x = 0 → round g x = loop 0 x
  descends : ∀ n x g, (∀ y, size y < size x → g y = loop n y) → round g x = round (loop n) x

namespace BoundedLoop

variable {loop : Nat → X → R} {n m : Nat} {x : X}

/-- A bound that is not below the size leaves room for one more round. -/
theorem round_eq (h : BoundedLoop size round loop) (hn : size x ≤ n) :
    round (loop n) x = loop n x := by
  induction n generalizing x with
  | zero => exact h.base x _ (Nat.le_zero.mp hn)
  | succ n ih =>
    rw [h.step n x hn]
    exact h.descends n x _ fun y hy => by rw [h.step n y (by omega), ih (by omega)]

theorem eq_of_le (h : BoundedLoop size round loop) (hn : size x ≤ n) (hle : n ≤ m) :
    loop n x = loop m x := by
  induction m, hle using Nat.le_induction with
  | base => rfl
  | succ m hle ih => rw [ih, h.step m x (by omega), h.round_eq (by omega)]

/-- Bounds that are not below the size do not matter. -/
theorem eq (h : BoundedLoop size round loop) (hn : size x ≤ n) (hm : size x ≤ m) :
    loop n x = loop m x :=
  (Nat.le_total n m).elim (h.eq_of_le hn) fun hle => (h.eq_of_le hm hle).symm

theorem terminates (h : BoundedLoop size round loop) {bound : X → Nat}
    (hbound : ∀ x, size x ≤ bound x) : Terminates size round fun x => loop (bound x) x := by
  refine terminates_of_descends fun x g hg => ?_
  rw [← h.round_eq (hbound x)]
  refine h.descends _ x g fun y hy => ?_
  rw [hg y hy, h.eq (hbound y) (hy.le.trans (hbound x))]

end BoundedLoop

end Recursion

/-! ## Loops -/

namespace Parser

variable {c : Cursor} {α β : Type}

/-- What comes behind a parser matters only where the parser can come to. -/
theorem bind_eq_of_goes {p : Parser α} {f g : α → Parser β} {P : α → Cursor → Prop}
    (hp : Goes False p c P) (h : ∀ a c', c'.left ≤ c.left → P a c' → f a c' = g a c') :
    (p >>= f) c = (p >>= g) c := by
  rcases hp' : p c with ⟨acts, fault | ⟨a, c'⟩⟩
  · rw [bind_error hp', bind_error hp']
  · rw [Goes, hp'] at hp
    rw [bind_ok hp', bind_ok hp', h a c' hp.1.left hp.2]

theorem bind_eq_of_eq {p q : Parser α} (f : α → Parser β) (h : p c = q c) :
    (p >>= f) c = (q >>= f) c := by
  change Parser.bind p f c = Parser.bind q f c
  rw [Parser.bind, Parser.bind, h]

/-- A round of repeating an item as long as the test is passed. -/
def manyRound (test : Token → Bool) (item again : Parser Unit) : Parser Unit := do
  if test (← token) then
    item
    again
  else return ()

/-- A round of reading items with commas between them. -/
def listRound (item : Parser Unit) (again : Parser Nat) : Parser Nat := do
  item
  if ← consume .comma then
    return (← again) + 1
  else return 1

/-- A round of reading a dotted name, given with what was read of it so far. -/
def dottedRound (again : String × Cursor → Parsed String) (x : String × Cursor) : Parsed String :=
  (do
    if ← consume .period then
      let next ← expectName
      fun c => again (x.1 ++ "." ++ next, c)
    else return x.1 : Parser String) x.2

theorem terminates_many {test : Token → Bool} {item : Parser Unit}
    (htest : ∀ t, test t = true → t.kind ≠ .eof)
    (hitem : ∀ c : Cursor, test c.current = true → Gains False item c) :
    Terminates Cursor.left (manyRound test item) (many test item) := by
  have hloop : BoundedLoop Cursor.left (manyRound test item) (manyWithin test item) := by
    refine ⟨fun _ _ _ => rfl, ?_, ?_⟩
    · intro c again hleft
      have hstop : ¬ test c.current = true := fun h => htest _ h (Cursor.kind_of_left hleft)
      change (if test c.current then item >>= fun _ => again else pure ()) c = _
      rw [if_neg hstop]
      rfl
    · intro n c again hagain
      change (if test c.current then item >>= fun _ => again else pure ()) c =
        (if test c.current then item >>= fun _ => manyWithin test item n else pure ()) c
      split
      · exact bind_eq_of_goes (hitem c ‹_›) fun _ c' _ hlt => hagain c' hlt
      · rfl
  exact hloop.terminates Cursor.left_le_remaining

theorem terminates_list {item : Parser Unit} (hitem : ∀ c, Gains False item c) :
    Terminates Cursor.left (listRound item) (list item) := by
  have hloop : BoundedLoop Cursor.left (listRound item) (listWithin item) := by
    refine ⟨fun _ _ _ => rfl, ?_, ?_⟩
    · intro c again hleft
      exact bind_eq_of_goes (hitem c) fun _ c' _ hlt => by omega
    · intro n c again hagain
      refine bind_eq_of_goes (hitem c) fun _ c₁ _ hlt => ?_
      refine bind_eq_of_goes (goes_consume False.elim (by decide)).keeps fun passed c₂ hle _ => ?_
      cases passed with
      | true => exact bind_eq_of_eq _ (hagain c₂ (by omega))
      | false => rfl
  exact hloop.terminates Cursor.left_le_remaining

theorem terminates_dotted :
    Terminates (fun x : String × Cursor => x.2.left) dottedRound
      fun x => dottedWithin x.1 x.2.remaining x.2 := by
  have hloop : BoundedLoop (fun x : String × Cursor => x.2.left) dottedRound
      fun n x => dottedWithin x.1 n x.2 := by
    refine ⟨fun _ _ _ => rfl, ?_, ?_⟩
    · rintro ⟨name, c⟩ again hleft
      have hstop : ¬ c.current.kind = .period := by
        rw [Cursor.kind_of_left hleft]
        decide
      have hconsume : consume .period c = ⟨[], .ok (false, c)⟩ := by
        change (if decide (c.current.kind = .period) = true then _ else _ : Parser Bool) c = _
        rw [if_neg (by simpa using hstop)]
        rfl
      exact bind_ok hconsume
    · rintro n ⟨name, c⟩ again hagain
      refine bind_eq_of_goes (goes_consume False.elim (by decide)) fun passed c₁ _ hpassed => ?_
      cases passed with
      | true =>
        refine bind_eq_of_goes (goes_expectName False.elim) fun next c₂ hle _ => ?_
        exact hagain (_, c₂) (Nat.lt_of_le_of_lt hle (hpassed rfl))
      | false => rfl
  exact hloop.terminates fun x => x.2.left_le_remaining

end Parser

namespace Grammar

open Triad.Parser

/-! ## Expressions -/

variable {c : Cursor} {kinds : List Kind} {operand operand' : Parser Unit}

/-- A round of an operator loop: an operation and its right operand. -/
def chainRound (kinds : List Kind) (operand again : Parser Unit) : Parser Unit := do
  match operationAt kinds (← token) with
  | some op =>
    advance
    operand
    perform (.binary op)
    again
  | none => return ()

/-- The operations behind a first operand. -/
def operations (kinds : List Kind) (operand : Parser Unit) : Parser Unit := do
  chainWithin kinds operand (← remaining)

theorem chainRound_none {again : Parser Unit} (h : operationAt kinds c.current = none) :
    chainRound kinds operand again c = ⟨[], .ok ((), c)⟩ := by
  change (match operationAt kinds c.current with
    | some op => advance >>= fun _ => operand >>= fun _ => perform (.binary op) >>= fun _ => again
    | none => pure ()) c = _
  rw [h]
  rfl

theorem chainRound_some {again : Parser Unit} {op : BinOp}
    (h : operationAt kinds c.current = some op) :
    chainRound kinds operand again c =
      (advance >>= fun _ => operand >>= fun _ => perform (.binary op) >>= fun _ => again) c := by
  change (match operationAt kinds c.current with
    | some op => advance >>= fun _ => operand >>= fun _ => perform (.binary op) >>= fun _ => again
    | none => pure ()) c = _
  rw [h]

/-- A round depends on the operand and on further rounds only behind the operation. -/
theorem chainRound_congr {again again' : Parser Unit} (hkinds : Kind.eof ∉ kinds)
    (hgains : ∀ c, Gains False operand c)
    (hoperand : ∀ c' : Cursor, c'.left < c.left → operand c' = operand' c')
    (hagain : ∀ c' : Cursor, c'.left < c.left → again c' = again' c') :
    chainRound kinds operand again c = chainRound kinds operand' again' c := by
  rcases hop : operationAt kinds c.current with _ | op
  · rw [chainRound_none hop, chainRound_none hop]
  · rw [chainRound_some hop, chainRound_some hop]
    have hkind := kind_of_operationAt hkinds hop
    refine bind_eq_of_goes (gains_advance False.elim hkind) fun _ c₁ _ hlt => ?_
    refine .trans ?_ (bind_eq_of_eq _ (hoperand c₁ hlt))
    refine bind_eq_of_goes (hgains c₁) fun _ c₂ _ hlt₂ => ?_
    have hperform : Keeps False (perform (.binary op)) c₂ :=
      goes_perform False.elim rfl False.elim trivial
    exact bind_eq_of_goes hperform fun _ c₃ hle _ => hagain c₃ (by omega)

theorem operationAt_of_left (hkinds : Kind.eof ∉ kinds) (h : c.left = 0) :
    operationAt kinds c.current = none := by
  rcases hop : operationAt kinds c.current with _ | op
  · rfl
  · exact absurd (Cursor.kind_of_left h) (kind_of_operationAt hkinds hop)

/-- Operator loops with enough room do the same if their operands do. -/
theorem chainWithin_congr (hkinds : Kind.eof ∉ kinds) (hgains : ∀ c, Gains False operand c)
    {n m : Nat} (hoperand : ∀ c' : Cursor, c'.left ≤ c.left → operand c' = operand' c')
    (hn : c.left ≤ n) (hm : c.left ≤ m) :
    chainWithin kinds operand n c = chainWithin kinds operand' m c := by
  induction n generalizing m c with
  | zero =>
    cases m with
    | zero => rfl
    | succ m => exact (chainRound_none (operationAt_of_left hkinds (Nat.le_zero.mp hn))).symm
  | succ n ih =>
    cases m with
    | zero => exact chainRound_none (operationAt_of_left hkinds (Nat.le_zero.mp hm))
    | succ m =>
      refine chainRound_congr hkinds hgains (fun c' hlt => hoperand c' hlt.le) fun c' hlt => ?_
      exact ih (fun c'' hle => hoperand c'' (by omega)) (by omega) (by omega)

theorem terminates_operations (hkinds : Kind.eof ∉ kinds) (hgains : ∀ c, Gains False operand c) :
    Terminates Cursor.left (chainRound kinds operand) (operations kinds operand) := by
  have hloop : BoundedLoop Cursor.left (chainRound kinds operand) (chainWithin kinds operand) := by
    refine ⟨fun _ _ _ => rfl, ?_, ?_⟩
    · exact fun c again hleft => chainRound_none (operationAt_of_left hkinds hleft)
    · exact fun n c again hagain => (chainRound_congr hkinds hgains (fun _ _ => rfl)
        fun c' hlt => (hagain c' hlt).symm).symm
  exact hloop.terminates Cursor.left_le_remaining

theorem chain_congr (hkinds : Kind.eof ∉ kinds) (hgains : ∀ c, Gains False operand c) {n m : Nat}
    (hoperand : ∀ c' : Cursor, c'.left ≤ c.left → operand c' = operand' c') (hn : c.left ≤ n)
    (hm : c.left ≤ m) : chain kinds operand n c = chain kinds operand' m c := by
  refine .trans ?_ (bind_eq_of_eq _ (hoperand c le_rfl))
  exact bind_eq_of_goes (hgains c) fun _ c' hle _ => chainWithin_congr hkinds hgains
    (fun c'' hle' => hoperand c'' (hle'.trans hle)) (by omega) (by omega)

theorem exprOver_congr (hgains : ∀ c, Gains False operand c) {n m : Nat}
    (hoperand : ∀ c' : Cursor, c'.left ≤ c.left → operand c' = operand' c') (hn : c.left ≤ n)
    (hm : c.left ≤ m) : exprOver operand n c = exprOver operand' m c := by
  refine chain_congr (by decide) (fun _ => gains_chain (by decide) (fun _ _ => hgains _) n
    False.elim) (fun c' hle => ?_) hn hm
  exact chain_congr (by decide) hgains (fun c'' hle' => hoperand c'' (hle'.trans hle)) (by omega)
    (by omega)

/-- A round of reading a factor, with `inner` for what stands in parentheses and `again` for what
has a sign before it. -/
def factorRound (inner again : Parser Unit) : Parser Unit := do
  let t ← token
  match t.kind with
  | .identifier =>
    perform (.load t.line t.lexeme)
    advance
  | .number _ =>
    advance
    perform (.literal t.lexeme)
  | .decimal _ =>
    advance
    perform (.literal t.lexeme)
  | .leftParen =>
    advance
    inner
    let _ ← expect .rightParen
  | .signOp =>
    advance
    again
    perform .negate
  | _ => mismatch "an identifier, number, ( or -"

def factor : Parser Unit := do
  factorWithin (← remaining)

/-- A sum of products of the given factors. -/
def expression (factor : Parser Unit) : Parser Unit := do
  exprOver factor (← remaining)

def signedWithin (inner : Parser Unit) : Nat → Parser Unit
  | 0 => mismatch "an identifier, number, ( or -"
  | n + 1 => factorRound inner (signedWithin inner n)

/-- A factor, with `inner` for what stands in parentheses. -/
def factorOver (inner : Parser Unit) : Parser Unit := do
  signedWithin inner (← remaining)

/-- What a factor is made from matters only behind its first token. -/
theorem factorRound_congr {inner inner' again again' : Parser Unit}
    (hinner : ∀ c' : Cursor, c'.left < c.left → inner c' = inner' c')
    (hagain : ∀ c' : Cursor, c'.left < c.left → again c' = again' c') :
    factorRound inner again c = factorRound inner' again' c := by
  have htoken : Goes False token c fun t c' => t = c.current ∧ c' = c :=
    goes_of_ok rfl (.refl False.elim) ⟨rfl, rfl⟩
  refine bind_eq_of_goes htoken ?_
  rintro t c - ⟨rfl, rfl⟩
  cases hkind : c.current.kind with
  | leftParen =>
    refine bind_eq_of_goes (gains_advance False.elim (hkind ▸ by decide)) fun _ c' _ hlt => ?_
    exact bind_eq_of_eq _ (hinner c' hlt)
  | signOp =>
    refine bind_eq_of_goes (gains_advance False.elim (hkind ▸ by decide)) fun _ c' _ hlt => ?_
    exact bind_eq_of_eq _ (hagain c' hlt)
  | _ => rfl

theorem factorRound_of_left {inner again : Parser Unit} (h : c.left = 0) :
    factorRound inner again c = factorWithin 0 c := by
  refine (bind_ok rfl).trans ?_
  rw [Cursor.kind_of_left h]
  rfl

theorem expression_congr (hgains : ∀ c, Gains False operand c)
    (hoperand : ∀ c' : Cursor, c'.left ≤ c.left → operand c' = operand' c') :
    expression operand c = expression operand' c :=
  exprOver_congr hgains hoperand c.left_le_remaining c.left_le_remaining

/-- Factors call for one another, directly or within an expression in parentheses. -/
theorem boundedLoop_factor :
    BoundedLoop Cursor.left (fun again => factorRound (expression again) again) factorWithin := by
  have hgains : ∀ n c, Gains False (factorWithin n) c := fun n c => gains_factorWithin n False.elim
  refine ⟨fun n c hle => ?_, fun _ _ => factorRound_of_left, fun n c again hagain => ?_⟩
  · refine factorRound_congr (fun c' hlt => ?_) fun _ _ => rfl
    exact exprOver_congr (hgains n) (fun _ _ => rfl) (by omega) c'.left_le_remaining
  · refine factorRound_congr (fun c' hlt => ?_) hagain
    exact (expression_congr (hgains n) fun c'' hle => (hagain c'' (by omega)).symm).symm

theorem terminates_factor :
    Terminates Cursor.left (fun again => factorRound (expression again) again) factor :=
  boundedLoop_factor.terminates Cursor.left_le_remaining

theorem gains_factor (c : Cursor) : Gains False factor c :=
  goes_remaining_bind (gains_factorWithin _ False.elim)

/-- An expression is a sum of products of factors. -/
theorem expr_eq (c : Cursor) : expr c = expression factor c := by
  refine exprOver_congr (fun _ => gains_factorWithin _ False.elim) (fun c' hle => ?_)
    c.left_le_remaining c.left_le_remaining
  exact boundedLoop_factor.eq (hle.trans c.left_le_remaining) c'.left_le_remaining

theorem signedWithin_eq {inner : Parser Unit} {n : Nat}
    (hinner : ∀ c' : Cursor, c'.left < c.left → inner c' = expr c') (hn : c.left ≤ n) :
    signedWithin inner n c = factor c := by
  induction n generalizing c with
  | zero =>
    rw [← terminates_factor.descends c factor fun _ _ => rfl]
    exact (factorRound_of_left (Nat.le_zero.mp hn)).symm
  | succ n ih =>
    rw [← terminates_factor.descends c factor fun _ _ => rfl]
    refine factorRound_congr (fun c' hlt => (hinner c' hlt).trans (expr_eq c')) fun c' hlt => ?_
    exact ih (fun c'' hlt' => hinner c'' (by omega)) (by omega)

/-- Expressions call for one another, within parentheses. -/
theorem terminates_expr :
    Terminates Cursor.left (fun inner => expression (factorOver inner)) expr := by
  refine terminates_of_descends fun c inner hinner => ?_
  rw [expr_eq]
  refine (expression_congr gains_factor fun c' hle => (signedWithin_eq ?_ ?_).symm).symm
  · exact fun c'' hlt => hinner c'' (by omega)
  · exact c'.left_le_remaining

/-- A product of factors. -/
def term : Parser Unit := do
  factor
  operations [.mulOp, .andOp] factor

theorem gains_term (c : Cursor) : Gains False term c :=
  gains_bind (gains_factor c) fun _ _ _ => goes_remaining_bind
    (keeps_chainWithin (by decide) (fun c _ => gains_factor c) _ False.elim)

/-- The two operator loops of an expression. -/
theorem expr_eq_sum (c : Cursor) :
    expr c = (term >>= fun _ => operations [.addOp, .signOp, .orOp] term) c := by
  rw [expr_eq]
  have hterm : ∀ c' : Cursor, c'.left ≤ c.left →
      term c' = chain [.mulOp, .andOp] factor c.remaining c' := fun c' hle =>
    bind_eq_of_goes (gains_factor c') fun _ c'' hle' _ =>
      chainWithin_congr (by decide) gains_factor (fun _ _ => rfl) c''.left_le_remaining
        (hle'.trans (hle.trans c.left_le_remaining))
  refine .symm (.trans ?_ (bind_eq_of_eq (fun _ => chainWithin [.addOp, .signOp, .orOp]
    (chain [.mulOp, .andOp] factor c.remaining) c.remaining) (hterm c le_rfl)))
  exact bind_eq_of_goes (gains_term c) fun _ c' hle _ =>
    chainWithin_congr (by decide) gains_term (fun c'' hle' => hterm c'' (hle'.trans hle))
      c'.left_le_remaining (hle.trans c.left_le_remaining)

/-! ## The grammar -/

/-- All loops of the grammar end, and so does the recursion of its expressions. -/
structure LoopsEnd : Prop where
  usings : Terminates Cursor.left (manyRound (fun t => t.kind = .kwUsing) usingDirective)
    (many (fun t => t.kind = .kwUsing) usingDirective)
  classes : Terminates Cursor.left (manyRound startsClass classDeclaration) classes
  modifiers : Terminates Cursor.left (manyRound (fun t => t.kind.isModifier) advance) modifiers
  members : ∀ className,
    Terminates Cursor.left (manyRound (startsMember className) (member className))
      (many (startsMember className) (member className))
  declarations : Terminates Cursor.left (manyRound startsDeclaration declaration)
    (many startsDeclaration declaration)
  statements : Terminates Cursor.left (manyRound startsStatement statement)
    (many startsStatement statement)
  variableItems : ∀ type, Terminates Cursor.left (listRound (variableItem type))
    (list (variableItem type))
  constantItems : ∀ type, Terminates Cursor.left (listRound (constant type))
    (list (constant type))
  params : Terminates Cursor.left (listRound param) (list param)
  arguments : Terminates Cursor.left (listRound expr) (list expr)
  readItems : Terminates Cursor.left (listRound readItem) (list readItem)
  writeItems : Terminates Cursor.left (listRound writeItem) (list writeItem)
  dotted : Terminates (fun x : String × Cursor => x.2.left) dottedRound
    fun x => dottedWithin x.1 x.2.remaining x.2
  products : Terminates Cursor.left (chainRound [.mulOp, .andOp] factor)
    (operations [.mulOp, .andOp] factor)
  sums : Terminates Cursor.left (chainRound [.addOp, .signOp, .orOp] term)
    (operations [.addOp, .signOp, .orOp] term)
  sum : ∀ c, expr c = (term >>= fun _ => operations [.addOp, .signOp, .orOp] term) c
  factors : Terminates Cursor.left (fun again => factorRound (expression again) again) factor
  exprs : Terminates Cursor.left (fun inner => expression (factorOver inner)) expr

theorem loopsEnd : LoopsEnd where
  usings := terminates_many (fun _ h => of_decide_eq_true h ▸ by decide)
    fun _ _ => gains_usingDirective False.elim
  classes := terminates_many
    (fun t h heof => by simp [startsClass, heof, Kind.isModifier] at h)
    fun _ _ => gains_classDeclaration False.elim
  modifiers := terminates_many (fun t h heof => by simp [heof, Kind.isModifier] at h)
    fun c h => gains_advance False.elim fun heof => by simp [heof, Kind.isModifier] at h
  members := fun className => terminates_many
    (fun t h heof => by
      simp [startsMember, heof, Kind.isModifier, Kind.isType, Kind.valueType?] at h)
    fun _ _ => gains_member className False.elim
  declarations := terminates_many
    (fun t h heof => by simp [startsDeclaration, heof, Kind.isType, Kind.valueType?] at h)
    fun _ _ => gains_declaration False.elim
  statements := terminates_many (fun t h heof => by simp [startsStatement, heof] at h)
    fun _ h => gains_statement False.elim h
  variableItems := fun type => terminates_list fun _ => gains_variableItem type False.elim
  constantItems := fun type => terminates_list fun _ => gains_constant type False.elim
  params := terminates_list fun _ => gains_param False.elim
  arguments := terminates_list fun _ => gains_expr False.elim
  readItems := terminates_list fun _ => gains_readItem False.elim
  writeItems := terminates_list fun _ => gains_writeItem False.elim
  dotted := terminates_dotted
  products := terminates_operations (by decide) gains_factor
  sums := terminates_operations (by decide) gains_term
  sum := expr_eq_sum
  factors := terminates_factor
  exprs := terminates_expr

/-- Behind the mark of the end nothing is scanned. -/
theorem scans_eq_nil_of_eof {source : String} {done later : List Action} {mark : Scanned}
    (hparse : (parse (Scanner.ofString source).scan).1 = done ++ .scan mark :: later)
    (hmark : mark.token.kind = .eof) : scans later = [] := by
  obtain ⟨rest, hrest⟩ := scans_parse source
  have hitems := Scanner.mem_scan (Scanner.ofString source)
  rw [hparse, scans_append, List.append_assoc] at hrest
  -- The mark is not one of the items, so it stands behind all of them.
  have hend : ∃ before, Cursor.endMark (Scanner.ofString source).scan.ending =
      before ++ mark :: (scans later ++ rest) := by
    rcases List.append_eq_append_iff.mp hrest with ⟨more, hmore, h⟩ | ⟨more, -, h⟩
    · cases more with
      | nil => exact ⟨[], h.symm⟩
      | cons item more =>
        obtain ⟨rfl, -⟩ := List.cons.inj h
        exact absurd hmark (hitems mark (by rw [hmore]; simp)).2
    · exact ⟨more, h⟩
  obtain ⟨before, hbefore⟩ := hend
  have hlength := Cursor.length_endMark_le (Scanner.ofString source).scan.ending
  rw [hbefore] at hlength
  simp only [List.length_append, List.length_cons] at hlength
  exact List.eq_nil_of_length_eq_zero (by omega)

/-- For every text: the loops that read it end, its items are scanned in order and each of them once
at most, and nothing is scanned once the mark of the end was. -/
theorem reading_ends (source : String) :
    LoopsEnd ∧
      scans (parse (Scanner.ofString source).scan).1 <+:
        (Scanner.ofString source).scan.items ++
          Cursor.endMark (Scanner.ofString source).scan.ending ∧
      ∀ done mark later, (parse (Scanner.ofString source).scan).1 = done ++ .scan mark :: later →
        mark.token.kind = .eof → scans later = [] :=
  ⟨loopsEnd, scans_parse source, fun _ _ _ => scans_eq_nil_of_eof⟩

/-- Here the mark of the end is met behind the name of a variable, which is read only then. -/
theorem reading_ends_truncated :
    ∃ done mark,
      (parse (Scanner.ofString "class A\x7bvoid F()\x7bx").scan).1 =
        done ++ .scan mark :: [.target 1 "x"] ∧
      mark.token.kind = .eof ∧ scans [.target 1 "x"] = [] := by
  have hparse : (parse (Scanner.ofString "class A\x7bvoid F()\x7bx").scan).1 =
      ((parse (Scanner.ofString "class A\x7bvoid F()\x7bx").scan).1.takeWhile
        fun a => a ≠ .scan ⟨Scanner.eofToken 1, none⟩) ++
          .scan ⟨Scanner.eofToken 1, none⟩ :: [.target 1 "x"] := by
    decide +kernel
  exact ⟨_, _, hparse, rfl, (reading_ends _).2.2 _ _ _ hparse rfl⟩

end Grammar

end Triad
