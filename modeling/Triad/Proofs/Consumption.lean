import Triad.Proofs.ProgramActions

/-!
What reading consumes. No parser comes back to a token that it has passed, and one that accepts
something has passed a token. The items that are scanned on the way are those of the text, each of
them once and in order, with the mark of the end as the last one; the names in the actions are
spelled as the text spells names. All this is also so where the reading fails. Main statements: the
parsers of the grammar, one by one (`gains_expr`, `gains_statement` and so on), and what follows for
a whole text (`scans_parse`, `spelled_parse`).
-/

namespace Triad

/-! ## Cursors -/

namespace Cursor

/-- The number of tokens from the current one on, without comments and the mark of the end. -/
def left (c : Cursor) : Nat :=
  if c.current.kind = .eof then 0
  else (significant c.rest).length + (if c.peeked.any (·.kind ≠ .eof) then 1 else 0) + 1

theorem left_le_remaining (c : Cursor) : c.left ≤ c.remaining := by
  have hrest : (significant c.rest).length ≤ c.rest.length := by
    have := List.length_filter_le (fun t : Token => t.kind ≠ .comment) (c.rest.map Scanned.token)
    rwa [List.length_map] at this
  unfold left remaining
  cases c.peeked <;> grind

theorem kind_of_left {c : Cursor} (h : c.left = 0) : c.current.kind = .eof := by
  by_contra hkind
  simp [left, hkind] at h

/-- The mark that stands behind the items of a text, unless the text breaks off. -/
def endMark : Ending → List Scanned
  | .eof line => [⟨Scanner.eofToken line, none⟩]
  | .broken _ => []

theorem length_endMark_le (ending : Ending) : (endMark ending).length ≤ 1 := by
  cases ending <;> simp [endMark]

/-- What is still to be scanned: nothing once the mark of the end was. -/
def awaited (c : Cursor) : List Scanned :=
  if c.current.kind = .eof ∨ c.peeked.any (·.kind = .eof) then [] else c.rest ++ endMark c.ending

theorem awaited_eq {c : Cursor} (hkind : c.current.kind ≠ .eof) (hpeeked : c.peeked = none) :
    c.awaited = c.rest ++ endMark c.ending := by
  simp [awaited, hkind, hpeeked]

/-- The tokens are spelled as their kinds say, and the mark of the end is not among the items. -/
structure Sound (c : Cursor) : Prop where
  current : c.current.WellSpelled
  peeked : ∀ t ∈ c.peeked, t.WellSpelled
  rest : ∀ item ∈ c.rest, item.token.WellSpelled ∧ item.token.kind ≠ .eof

/-- The next token is the mark of the end, or one of the items, and then those before it are
scanned too. -/
theorem scanned_cases {ending : Ending} {items scanned rest : List Scanned} {t : Token}
    (h : pull ending items = (scanned, .ok (t, rest))) :
    (scanned = items ++ endMark ending ∧ rest = [] ∧ t.WellSpelled ∧ t.kind = .eof) ∨
      ∃ before item, items = before ++ item :: rest ∧ scanned = before ++ [item] ∧
        t = item.token ∧ significant items = t :: significant rest := by
  induction items generalizing scanned with
  | nil =>
    cases ending with
    | eof line =>
      cases h
      exact .inl ⟨rfl, rfl, trivial, rfl⟩
    | broken fault => cases h
  | cons item items ih =>
    rw [pull] at h
    split at h
    · rcases hpull : pull ending items with ⟨more, result⟩
      rw [hpull] at h
      cases h
      rcases ih hpull with ⟨rfl, hrest⟩ | ⟨before, last, rfl, rfl, ht, hsignificant⟩
      · exact .inl ⟨rfl, hrest⟩
      · refine .inr ⟨item :: before, last, rfl, rfl, ht, ?_⟩
        rw [← hsignificant]
        simp [significant, *]
    · cases h
      exact .inr ⟨[], item, rfl, rfl, rfl, by simp [significant, *]⟩

theorem length_pull {ending : Ending} {items scanned rest : List Scanned} {t : Token}
    (h : pull ending items = (scanned, .ok (t, rest))) :
    (significant rest).length + (if t.kind = .eof then 0 else 1) ≤ (significant items).length := by
  rcases scanned_cases h with ⟨-, rfl, -, hkind⟩ | ⟨-, -, -, -, -, hsignificant⟩
  · simp [hkind, significant]
  · rw [hsignificant, List.length_cons]
    split <;> omega

/-- Behind the next token stands what is still to be scanned. -/
theorem scanned_pull {ending : Ending} {items scanned rest : List Scanned} {t : Token}
    (hitems : ∀ item ∈ items, item.token.WellSpelled ∧ item.token.kind ≠ .eof)
    (h : pull ending items = (scanned, .ok (t, rest))) :
    t.WellSpelled ∧ (∀ item ∈ rest, item.token.WellSpelled ∧ item.token.kind ≠ .eof) ∧
      scanned ++ (if t.kind = .eof then [] else rest ++ endMark ending) =
        items ++ endMark ending := by
  rcases scanned_cases h with ⟨rfl, rfl, hspelled, hkind⟩ | ⟨before, item, rfl, rfl, rfl, -⟩
  · refine ⟨hspelled, fun _ hmem => absurd hmem List.not_mem_nil, ?_⟩
    rw [if_pos hkind, List.append_nil]
  · have hitem := hitems item (by simp)
    refine ⟨hitem.1, fun other hmem => hitems other (by simp [hmem]), ?_⟩
    rw [if_neg hitem.2]
    simp

/-- A text that breaks off is scanned up to where it does. -/
theorem pull_error {ending : Ending} {items scanned : List Scanned} {fault : Fault}
    (h : pull ending items = (scanned, .error fault)) : scanned = items := by
  induction items generalizing scanned with
  | nil =>
    cases ending with
    | eof line => cases h
    | broken fault => cases h; rfl
  | cons item items ih =>
    rw [pull] at h
    split at h
    · rcases hpull : pull ending items with ⟨more, result⟩
      rw [hpull] at h
      cases h
      rw [ih hpull]
    · cases h

end Cursor

/-! ## Actions -/

namespace Action

/-- The item that the action tells of, if it is one of scanning. -/
def scanned? : Action → Option Scanned
  | scan item => some item
  | _ => none

/-- The names in the action are spelled as in a text. Only the name of a namespace may have points
in it. -/
def IsSpelled : Action → Prop
  | openNamespace _ name _ => IsDotted name
  | openClass _ name | declare _ name _ | openMethod _ name _ | openConstructor _ name
  | load _ name | target _ name | read _ name | writeName _ name => IsWord name
  | _ => True

end Action

/-- The items scanned by the actions. -/
def scans (actions : List Action) : List Scanned := actions.filterMap Action.scanned?

@[simp]
theorem scans_append (first second : List Action) :
    scans (first ++ second) = scans first ++ scans second :=
  List.filterMap_append

@[simp]
theorem scans_map_scan (items : List Scanned) : scans (items.map .scan) = items := by
  induction items with
  | nil => rfl
  | cons item items ih => exact congrArg (item :: ·) ih

theorem isSpelled_map_scan (items : List Scanned) : ∀ a ∈ items.map Action.scan, a.IsSpelled := by
  intro a ha
  obtain ⟨item, -, rfl⟩ := List.mem_map.mp ha
  trivial

/-! ## Ways through the tokens -/

namespace Parser

variable {S : Prop} {c c' c'' : Cursor} {α β : Type}

/-- A way from one cursor to the other with the actions on it. What depends on a sound cursor is
said for the case that `S` holds. -/
structure Passes (S : Prop) (c : Cursor) (actions : List Action) (c' : Cursor) : Prop where
  left : c'.left ≤ c.left
  sound : S → c'.Sound
  scanned : S → scans actions ++ c'.awaited = c.awaited
  spelled : S → ∀ a ∈ actions, a.IsSpelled

/-- A way that ends with a fault. -/
structure Halts (S : Prop) (c : Cursor) (actions : List Action) : Prop where
  scanned : S → scans actions <+: c.awaited
  spelled : S → ∀ a ∈ actions, a.IsSpelled

theorem Passes.refl (hc : S → c.Sound) : Passes S c [] c :=
  ⟨Nat.le_refl _, hc, fun _ => rfl, fun _ _ ha => absurd ha List.not_mem_nil⟩

theorem Passes.trans {first second : List Action} (h : Passes S c first c')
    (h' : Passes S c' second c'') : Passes S c (first ++ second) c'' where
  left := h'.left.trans h.left
  sound := h'.sound
  scanned := by
    intro hS
    rw [scans_append, List.append_assoc, h'.scanned hS, h.scanned hS]
  spelled := fun hS a ha => (List.mem_append.mp ha).elim (h.spelled hS a) (h'.spelled hS a)

theorem Passes.halts {first second : List Action} (h : Passes S c first c')
    (h' : Halts S c' second) : Halts S c (first ++ second) where
  scanned := by
    intro hS
    rw [scans_append, ← h.scanned hS]
    exact (List.prefix_append_right_inj _).mpr (h'.scanned hS)
  spelled := fun hS a ha => (List.mem_append.mp ha).elim (h.spelled hS a) (h'.spelled hS a)

/-- The parser goes its way from the cursor, and where it succeeds, the value and the new cursor are
as `Q` says. -/
def Goes (S : Prop) (p : Parser α) (c : Cursor) (Q : α → Cursor → Prop) : Prop :=
  match (p c).result with
  | .ok (a, c') => Passes S c (p c).actions c' ∧ Q a c'
  | .error _ => Halts S c (p c).actions

/-- The parser goes its way. -/
def Keeps (S : Prop) (p : Parser α) (c : Cursor) : Prop := Goes S p c fun _ _ => True

/-- The parser passes a token if it succeeds. -/
def Gains (S : Prop) (p : Parser α) (c : Cursor) : Prop := Goes S p c fun _ c' => c'.left < c.left

theorem goes_of_ok {p : Parser α} {actions : List Action} {a : α} {Q : α → Cursor → Prop}
    (hp : p c = ⟨actions, .ok (a, c')⟩) (h : Passes S c actions c') (hQ : Q a c') :
    Goes S p c Q := by
  rw [Goes, hp]
  exact ⟨h, hQ⟩

theorem goes_of_error {p : Parser α} {actions : List Action} {fault : Fault}
    {Q : α → Cursor → Prop} (hp : p c = ⟨actions, .error fault⟩) (h : Halts S c actions) :
    Goes S p c Q := by
  rw [Goes, hp]
  exact h

theorem goes_bind {p : Parser α} {f : α → Parser β} {P : α → Cursor → Prop}
    {Q : β → Cursor → Prop} (hp : Goes S p c P)
    (hf : ∀ a c', (S → c'.Sound) → c'.left ≤ c.left → P a c' → Goes S (f a) c' Q) :
    Goes S (p >>= f) c Q := by
  rcases hp' : p c with ⟨acts, fault | ⟨a, c'⟩⟩
  · rw [Goes, hp'] at hp
    exact goes_of_error (bind_error hp') hp
  · rw [Goes, hp'] at hp
    obtain ⟨hpasses, hP⟩ := hp
    have hfa := hf a c' hpasses.sound hpasses.left hP
    have hbind := bind_ok (f := f) hp'
    rcases hf' : f a c' with ⟨acts', fault | ⟨b, c''⟩⟩
    · rw [Goes, hf'] at hfa
      rw [hf'] at hbind
      exact goes_of_error hbind (hpasses.halts hfa)
    · rw [Goes, hf'] at hfa
      rw [hf'] at hbind
      exact goes_of_ok hbind (hpasses.trans hfa.1) hfa.2

theorem Goes.mono {p : Parser α} {P Q : α → Cursor → Prop} (hp : Goes S p c P)
    (h : ∀ a c', c'.left ≤ c.left → P a c' → Q a c') : Goes S p c Q := by
  rcases hp' : p c with ⟨acts, fault | ⟨a, c'⟩⟩
  · rw [Goes, hp'] at hp
    exact goes_of_error hp' hp
  · rw [Goes, hp'] at hp
    exact goes_of_ok hp' hp.1 (h a c' hp.1.left hp.2)

theorem Goes.keeps {p : Parser α} {P : α → Cursor → Prop} (hp : Goes S p c P) : Keeps S p c :=
  hp.mono fun _ _ _ _ => trivial

theorem Gains.keeps {p : Parser α} (hp : Gains S p c) : Keeps S p c :=
  Goes.keeps hp

/-- What comes behind a parser that passes a token need not pass another one. -/
theorem gains_bind {p : Parser α} {f : α → Parser β} (hp : Gains S p c)
    (hf : ∀ a c', (S → c'.Sound) → Keeps S (f a) c') : Gains S (p >>= f) c :=
  goes_bind hp fun a c' hc' _ hlt => (hf a c' hc').mono fun _ _ hle _ => Nat.lt_of_le_of_lt hle hlt

/-- Nor does what comes before it. -/
theorem bind_gains {p : Parser α} {f : α → Parser β} (hp : Keeps S p c)
    (hf : ∀ a c', (S → c'.Sound) → Gains S (f a) c') : Gains S (p >>= f) c :=
  goes_bind hp fun a c' hc' hle _ => (hf a c' hc').mono fun _ _ _ hlt => Nat.lt_of_lt_of_le hlt hle

theorem keeps_bind {p : Parser α} {f : α → Parser β} (hp : Keeps S p c)
    (hf : ∀ a c', (S → c'.Sound) → Keeps S (f a) c') : Keeps S (p >>= f) c :=
  goes_bind hp fun a c' hc' _ _ => hf a c' hc'

theorem goes_pure {a : α} {Q : α → Cursor → Prop} (hc : S → c.Sound) (hQ : Q a c) :
    Goes S (pure a) c Q :=
  goes_of_ok rfl (.refl hc) hQ

theorem keeps_pure {a : α} (hc : S → c.Sound) : Keeps S (pure a) c := goes_pure hc trivial

theorem goes_ite {P : Prop} [Decidable P] {p q : Parser α} {Q : α → Cursor → Prop}
    (hp : P → Goes S p c Q) (hq : ¬ P → Goes S q c Q) : Goes S (if P then p else q) c Q := by
  split
  · exact hp ‹P›
  · exact hq ‹¬ P›

/-! ## Single tokens -/

theorem goes_mismatch {expected : String} {Q : α → Cursor → Prop} :
    Goes S (mismatch expected) c Q :=
  goes_of_error rfl ⟨fun _ => List.nil_prefix, fun _ _ ha => absurd ha List.not_mem_nil⟩

theorem goes_token_bind {f : Token → Parser β} {Q : β → Cursor → Prop}
    (h : Goes S (f c.current) c Q) : Goes S (token >>= f) c Q :=
  h

theorem goes_remaining_bind {f : Nat → Parser β} {Q : β → Cursor → Prop}
    (h : Goes S (f c.remaining) c Q) : Goes S (remaining >>= f) c Q :=
  h

theorem goes_check_bind {kind : Kind} {f : Bool → Parser β} {Q : β → Cursor → Prop}
    (h : Goes S (f (decide (c.current.kind = kind))) c Q) : Goes S (check kind >>= f) c Q :=
  h

theorem goes_nameAhead_bind {f : Token → Parser β} {Q : β → Cursor → Prop}
    (h : c.current.kind = .identifier → Goes S (f c.current) c Q) :
    Goes S (nameAhead >>= f) c Q := by
  by_cases hkind : c.current.kind = .identifier
  · have hname : nameAhead c = ⟨[], .ok (c.current, c)⟩ := by
      change (if c.current.kind = .identifier then pure c.current else mismatch _) c = _
      rw [if_pos hkind]
      rfl
    have hbind := bind_ok (f := f) hname
    rw [Goes, hbind]
    exact h hkind
  · refine goes_bind (P := fun _ _ => False) ?_ fun _ _ _ _ hfalse => hfalse.elim
    exact goes_token_bind (goes_ite (fun h => absurd h hkind) fun _ => goes_mismatch)

theorem goes_perform {action : Action} {Q : Unit → Cursor → Prop} (hc : S → c.Sound)
    (hscan : action.scanned? = none) (hspelled : S → action.IsSpelled) (hQ : Q () c) :
    Goes S (perform action) c Q := by
  refine goes_of_ok rfl ⟨Nat.le_refl _, hc, fun _ => ?_, fun hS a ha => ?_⟩ hQ
  · rw [scans, List.filterMap_cons_none hscan]
    rfl
  · rw [List.mem_singleton.mp ha]
    exact hspelled hS

theorem goes_perform_bind {action : Action} {f : Unit → Parser β} {Q : β → Cursor → Prop}
    (hc : S → c.Sound) (hscan : action.scanned? = none) (hspelled : S → action.IsSpelled)
    (h : Goes S (f ()) c Q) : Goes S (perform action >>= f) c Q :=
  goes_bind (goes_perform (Q := fun _ c' => c' = c) hc hscan hspelled rfl)
    fun _ _ _ _ heq => heq ▸ h

/-- Where the text breaks off, all that was awaited of it has been scanned. -/
theorem halts_of_pull {scanned : List Scanned} {fault : Fault} (hkind : c.current.kind ≠ .eof)
    (hpeeked : c.peeked = none) (hpull : Cursor.pull c.ending c.rest = (scanned, .error fault)) :
    Halts S c (scanned.map .scan) := by
  refine ⟨fun _ => ?_, fun _ => isSpelled_map_scan _⟩
  rw [scans_map_scan, Cursor.awaited_eq hkind hpeeked, Cursor.pull_error hpull]
  exact List.prefix_append _ _

theorem gains_advance (hc : S → c.Sound) (hkind : c.current.kind ≠ .eof) : Gains S advance c := by
  rcases hpeeked : c.peeked with _ | t
  · rcases hpull : Cursor.pull c.ending c.rest with ⟨scanned, fault | ⟨t, rest⟩⟩
    · have hadvance : advance c = ⟨scanned.map .scan, .error fault⟩ := by
        simp only [advance, Cursor.advance, hpeeked, hpull]
      exact goes_of_error hadvance (halts_of_pull hkind hpeeked hpull)
    · have hadvance : advance c =
          ⟨scanned.map .scan, .ok ((), { c with current := t, rest := rest })⟩ := by
        simp only [advance, Cursor.advance, hpeeked, hpull]
      have hlength := Cursor.length_pull hpull
      have hold : c.left = (significant c.rest).length + 1 := by
        simp [Cursor.left, hkind, hpeeked]
      have hnew : Cursor.left { c with current := t, rest := rest } =
          if t.kind = .eof then 0 else (significant rest).length + 1 := by
        simp [Cursor.left, hpeeked]
      have hlt : Cursor.left { c with current := t, rest := rest } < c.left := by
        rw [hold, hnew]
        by_cases hend : t.kind = .eof
        · rw [if_pos hend] at hlength ⊢
          omega
        · rw [if_neg hend] at hlength ⊢
          omega
      refine goes_of_ok hadvance ⟨hlt.le, fun hS => ?_, fun hS => ?_, fun _ =>
        isSpelled_map_scan _⟩ hlt
      · obtain ⟨hspelled, hrest, -⟩ := Cursor.scanned_pull (hc hS).rest hpull
        exact ⟨hspelled, (hc hS).peeked, hrest⟩
      · obtain ⟨-, -, hscanned⟩ := Cursor.scanned_pull (hc hS).rest hpull
        rw [scans_map_scan, Cursor.awaited_eq hkind hpeeked, ← hscanned]
        simp [Cursor.awaited, hpeeked]
  · have hadvance : advance c = ⟨[], .ok ((), { c with current := t, peeked := none })⟩ := by
      simp only [advance, Cursor.advance, hpeeked, List.map_nil]
    have hlt : Cursor.left { c with current := t, peeked := none } < c.left := by
      by_cases hend : t.kind = .eof
      · simp [Cursor.left, hkind, hend]
      · simp [Cursor.left, hkind, hend, hpeeked]
    refine goes_of_ok hadvance ⟨hlt.le, fun hS => ?_, fun _ => ?_, fun _ _ ha =>
      absurd ha List.not_mem_nil⟩ hlt
    · exact ⟨(hc hS).peeked t hpeeked, fun _ ht => absurd ht (Option.not_mem_none _), (hc hS).rest⟩
    · simp [Cursor.awaited, hkind, hpeeked, scans]

theorem goes_peek (hc : S → c.Sound) (hkind : c.current.kind ≠ .eof) :
    Goes S peek c fun _ c' => c'.current = c.current := by
  rcases hpeeked : c.peeked with _ | t
  · rcases hpull : Cursor.pull c.ending c.rest with ⟨scanned, fault | ⟨t, rest⟩⟩
    · have hpeek : peek c = ⟨scanned.map .scan, .error fault⟩ := by
        simp only [peek, Cursor.peek, hpeeked, hpull]
      exact goes_of_error hpeek (halts_of_pull hkind hpeeked hpull)
    · have hpeek : peek c =
          ⟨scanned.map .scan, .ok (t.kind, { c with peeked := some t, rest := rest })⟩ := by
        simp only [peek, Cursor.peek, hpeeked, hpull]
      have hlength := Cursor.length_pull hpull
      refine goes_of_ok hpeek ⟨?_, fun hS => ?_, fun hS => ?_, fun _ => isSpelled_map_scan _⟩ rfl
      · by_cases hend : t.kind = .eof
        · rw [if_pos hend] at hlength
          simpa [Cursor.left, hkind, hpeeked, hend] using hlength
        · rw [if_neg hend] at hlength
          simpa [Cursor.left, hkind, hpeeked, hend] using hlength
      · obtain ⟨hspelled, hrest, -⟩ := Cursor.scanned_pull (hc hS).rest hpull
        exact ⟨(hc hS).current, fun _ ht => Option.some.inj ht ▸ hspelled, hrest⟩
      · obtain ⟨-, -, hscanned⟩ := Cursor.scanned_pull (hc hS).rest hpull
        rw [scans_map_scan, Cursor.awaited_eq hkind hpeeked, ← hscanned]
        simp [Cursor.awaited, hkind]
  · have hpeek : peek c = ⟨[], .ok (t.kind, c)⟩ := by
      simp only [peek, Cursor.peek, hpeeked, List.map_nil]
    exact goes_of_ok hpeek (.refl hc) rfl

theorem gains_expect {kind : Kind} (hc : S → c.Sound) (hkind : kind ≠ .eof) :
    Gains S (expect kind) c := by
  refine goes_token_bind (goes_ite (fun heq => ?_) fun _ => goes_mismatch)
  exact gains_bind (gains_advance hc (heq ▸ hkind)) fun _ _ hc' => keeps_pure hc'

/-- A token that closes what was read. -/
theorem keeps_close {kind : Kind} (hc : S → c.Sound) (hkind : kind ≠ .eof) :
    Keeps S (do let _ ← expect kind) c :=
  keeps_bind (gains_expect hc hkind).keeps fun _ _ hc' => keeps_pure hc'

/-- A closing token with what is done behind it. -/
theorem keeps_close_perform {kind : Kind} {action : Action} (hc : S → c.Sound) (hkind : kind ≠ .eof)
    (hscan : action.scanned? = none) (hspelled : S → action.IsSpelled) :
    Keeps S (do let _ ← expect kind; perform action) c :=
  keeps_bind (gains_expect hc hkind).keeps fun _ _ hc' => goes_perform hc' hscan hspelled trivial

theorem isWord_current (hc : S → c.Sound) (hkind : c.current.kind = .identifier) :
    S → IsWord c.current.lexeme :=
  fun hS => Syntax.isWord_of_wellSpelled ⟨c.current, hkind⟩ (hc hS).current

theorem goes_expectName (hc : S → c.Sound) :
    Goes S expectName c fun name c' => c'.left < c.left ∧ (S → IsWord name) := by
  refine goes_bind (P := fun t c' => c'.left < c.left ∧ (S → IsWord t.lexeme)) ?_
    fun _ _ hc' _ h => goes_pure hc' h
  refine goes_token_bind (goes_ite (fun heq => ?_) fun _ => goes_mismatch)
  exact goes_bind (gains_advance hc (heq ▸ by decide)) fun _ _ hc' _ hlt =>
    goes_pure hc' ⟨hlt, isWord_current hc heq⟩

theorem gains_expectName (hc : S → c.Sound) : Gains S expectName c :=
  (goes_expectName hc).mono fun _ _ _ h => h.1

theorem goes_consume {kind : Kind} (hc : S → c.Sound) (hkind : kind ≠ .eof) :
    Goes S (consume kind) c fun passed c' => passed = true → c'.left < c.left := by
  refine goes_check_bind (goes_ite (fun heq => ?_) fun _ =>
    goes_pure hc fun h => absurd h Bool.false_ne_true)
  exact goes_bind (gains_advance hc (of_decide_eq_true heq ▸ hkind)) fun _ _ hc' _ hlt =>
    goes_pure hc' fun _ => hlt

theorem keeps_expectEnd (hc : S → c.Sound) : Keeps S expectEnd c :=
  goes_token_bind (goes_ite (fun _ => keeps_pure hc) fun _ => goes_mismatch)

/-! ## Repetition -/

theorem keeps_manyWithin {test : Token → Bool} {item : Parser Unit}
    (hitem : ∀ c, (S → c.Sound) → test c.current = true → Keeps S item c) (n : Nat)
    (hc : S → c.Sound) : Keeps S (manyWithin test item n) c := by
  induction n generalizing c with
  | zero => exact keeps_pure hc
  | succ n ih =>
    exact goes_token_bind (goes_ite
      (fun htest => keeps_bind (hitem c hc htest) fun _ _ hc' => ih hc') fun _ => keeps_pure hc)

theorem keeps_many {test : Token → Bool} {item : Parser Unit}
    (hitem : ∀ c, (S → c.Sound) → test c.current = true → Keeps S item c) (hc : S → c.Sound) :
    Keeps S (many test item) c :=
  goes_remaining_bind (keeps_manyWithin hitem _ hc)

theorem gains_listWithin {item : Parser Unit} (hitem : ∀ c, (S → c.Sound) → Gains S item c)
    (n : Nat) (hc : S → c.Sound) : Gains S (listWithin item n) c := by
  induction n generalizing c with
  | zero => exact gains_bind (hitem c hc) fun _ _ hc' => keeps_pure hc'
  | succ n ih =>
    refine gains_bind (hitem c hc) fun _ c₁ hc₁ => ?_
    refine keeps_bind (goes_consume hc₁ (by decide)).keeps fun _ c₂ hc₂ => ?_
    exact goes_ite (fun _ => keeps_bind (ih hc₂).keeps fun _ _ hc' => keeps_pure hc')
      fun _ => keeps_pure hc₂

theorem gains_list {item : Parser Unit} (hitem : ∀ c, (S → c.Sound) → Gains S item c)
    (hc : S → c.Sound) : Gains S (list item) c :=
  goes_remaining_bind (gains_listWithin hitem _ hc)

theorem goes_dottedWithin {name : String} (hname : S → IsDotted name) (n : Nat)
    (hc : S → c.Sound) : Goes S (dottedWithin name n) c fun text _ => S → IsDotted text := by
  induction n generalizing c name with
  | zero => exact goes_pure hc hname
  | succ n ih =>
    refine goes_bind (goes_consume hc (by decide)).keeps fun _ c₁ hc₁ _ _ => ?_
    refine goes_ite (fun _ => ?_) fun _ => goes_pure hc₁ hname
    refine goes_bind (goes_expectName hc₁) fun next c₂ hc₂ _ hnext => ?_
    exact ih (fun hS => Syntax.isDotted_append (hname hS) (hnext.2 hS).isDotted) hc₂

theorem goes_dottedName (hc : S → c.Sound) :
    Goes S dottedName c fun text c' => c'.left < c.left ∧ (S → IsDotted text) := by
  refine goes_bind (goes_expectName hc) fun name c₁ hc₁ _ hname => goes_remaining_bind ?_
  exact (goes_dottedWithin (fun hS => (hname.2 hS).isDotted) _ hc₁).mono fun _ _ hle htext =>
    ⟨Nat.lt_of_le_of_lt hle hname.1, htext⟩

theorem keeps_dottedName (hc : S → c.Sound) : Keeps S dottedName c := (goes_dottedName hc).keeps

end Parser

namespace Grammar

open Triad.Parser

variable {S : Prop} {c : Cursor}

/-! ## Expressions -/

theorem kind_of_operationAt {kinds : List Kind} {t : Token} {op : BinOp} (hkinds : Kind.eof ∉ kinds)
    (h : operationAt kinds t = some op) : t.kind ≠ .eof := by
  unfold operationAt at h
  split at h
  · intro hkind
    exact hkinds (hkind ▸ ‹t.kind ∈ kinds›)
  · cases h

theorem keeps_chainWithin {kinds : List Kind} {operand : Parser Unit} (hkinds : Kind.eof ∉ kinds)
    (hoperand : ∀ c, (S → c.Sound) → Gains S operand c) (n : Nat) (hc : S → c.Sound) :
    Keeps S (chainWithin kinds operand n) c := by
  induction n generalizing c with
  | zero => exact keeps_pure hc
  | succ n ih =>
    refine goes_token_bind ?_
    split
    · have hkind := kind_of_operationAt hkinds ‹_›
      refine keeps_bind (gains_advance hc hkind).keeps fun _ c₁ hc₁ => ?_
      refine keeps_bind (hoperand c₁ hc₁).keeps fun _ c₂ hc₂ => ?_
      exact goes_perform_bind hc₂ rfl (fun _ => trivial) (ih hc₂)
    · exact keeps_pure hc

theorem gains_chain {kinds : List Kind} {operand : Parser Unit} (hkinds : Kind.eof ∉ kinds)
    (hoperand : ∀ c, (S → c.Sound) → Gains S operand c) (n : Nat) (hc : S → c.Sound) :
    Gains S (chain kinds operand n) c :=
  gains_bind (hoperand c hc) fun _ _ hc' => keeps_chainWithin hkinds hoperand n hc'

theorem gains_exprOver {factor : Parser Unit} (hfactor : ∀ c, (S → c.Sound) → Gains S factor c)
    (n : Nat) (hc : S → c.Sound) : Gains S (exprOver factor n) c :=
  gains_chain (by decide) (fun _ hc' => gains_chain (by decide) hfactor n hc') n hc

theorem gains_factorWithin (n : Nat) (hc : S → c.Sound) : Gains S (factorWithin n) c := by
  induction n generalizing c with
  | zero => exact goes_mismatch
  | succ n ih =>
    refine goes_token_bind ?_
    split
    · rename_i hkind
      exact goes_perform_bind hc rfl (isWord_current hc hkind)
        (gains_advance hc (hkind ▸ by decide))
    · rename_i hkind
      exact gains_bind (gains_advance hc (by simp [hkind])) fun _ _ hc' =>
        goes_perform hc' rfl (fun _ => trivial) trivial
    · rename_i hkind
      exact gains_bind (gains_advance hc (by simp [hkind])) fun _ _ hc' =>
        goes_perform hc' rfl (fun _ => trivial) trivial
    · rename_i hkind
      refine gains_bind (gains_advance hc (hkind ▸ by decide)) fun _ _ hc₁ => ?_
      refine keeps_bind (gains_exprOver (fun _ => ih) n hc₁).keeps fun _ _ hc₂ => ?_
      exact keeps_close hc₂ (by decide)
    · rename_i hkind
      refine gains_bind (gains_advance hc (hkind ▸ by decide)) fun _ _ hc₁ => ?_
      exact keeps_bind (ih hc₁).keeps fun _ _ hc' => goes_perform hc' rfl (fun _ => trivial) trivial
    · exact goes_mismatch

theorem gains_expr (hc : S → c.Sound) : Gains S expr c :=
  goes_remaining_bind (gains_exprOver (fun _ => gains_factorWithin _) _ hc)

/-! ## Statements -/

theorem goes_atCall (hc : S → c.Sound) :
    Goes S atCall c fun _ c' => c'.current = c.current := by
  refine goes_check_bind (goes_ite (fun hkind => ?_) fun _ => goes_pure hc rfl)
  refine goes_bind (goes_peek hc (of_decide_eq_true hkind ▸ by decide)) ?_
  exact fun _ _ hc' _ hcurrent => goes_pure hc' hcurrent

theorem keeps_arguments (hc : S → c.Sound) : Keeps S arguments c :=
  goes_check_bind (goes_ite (fun _ => keeps_pure hc) fun _ =>
    (gains_list (fun _ => gains_expr) hc).keeps)

theorem gains_call (hc : S → c.Sound) : Gains S call c := by
  refine gains_bind (gains_expectName hc) fun first c₁ hc₁ => ?_
  refine keeps_bind (goes_consume hc₁ (by decide)).keeps fun qualified c₂ hc₂ => ?_
  have hrest : ∀ method c, (S → c.Sound) → Keeps S (do
      let _ ← expect .leftParen
      let count ← arguments
      let _ ← expect .rightParen
      perform (.call (if qualified then some first else none) method count)) c := by
    intro method c hc
    refine keeps_bind (gains_expect hc (by decide)).keeps fun _ _ hc₁ => ?_
    refine keeps_bind (keeps_arguments hc₁) fun _ _ hc₂ => ?_
    exact keeps_close_perform hc₂ (by decide) rfl fun _ => trivial
  exact goes_ite (fun _ => keeps_bind (gains_expectName hc₂).keeps hrest)
    fun _ => keeps_bind (keeps_pure hc₂) hrest

theorem keeps_assignment (hc : S → c.Sound) : Keeps S assignment c := by
  refine goes_token_bind (goes_ite (fun hkind => ?_) fun _ => goes_mismatch)
  split
  · exact keeps_bind (gains_advance hc (hkind ▸ by decide)).keeps fun _ _ hc' => keeps_pure hc'
  · exact goes_mismatch

theorem gains_assignStatement (hc : S → c.Sound) (hkind : c.current.kind = .identifier) :
    Gains S assignStatement c := by
  refine goes_bind (goes_atCall hc) fun _ c₁ hc₁ hle hcurrent => Goes.mono
    (P := fun _ c' => c'.left < c₁.left) ?_ fun _ _ _ hlt => Nat.lt_of_lt_of_le hlt hle
  refine goes_ite (fun _ => gains_call hc₁) fun _ => goes_token_bind ?_
  have hkind₁ : c₁.current.kind = .identifier := hcurrent ▸ hkind
  refine goes_perform_bind hc₁ rfl (isWord_current hc₁ hkind₁) ?_
  refine gains_bind (gains_advance hc₁ (hkind₁ ▸ by decide)) fun _ c₂ hc₂ => ?_
  refine keeps_bind (keeps_assignment hc₂) fun op c₃ hc₃ => ?_
  refine keeps_bind (goes_atCall hc₃).keeps fun _ c₄ hc₄ => goes_ite (fun _ => ?_) fun _ => ?_
  · refine keeps_bind (gains_call hc₄).keeps fun _ c₅ hc₅ => ?_
    refine goes_perform_bind hc₅ (by cases op <;> rfl) (fun _ => by cases op <;> trivial) ?_
    exact goes_perform hc₅ rfl (fun _ => trivial) trivial
  · exact keeps_bind (gains_expr hc₄).keeps fun _ _ hc' =>
      goes_perform hc' rfl (fun _ => trivial) trivial

theorem gains_readItem (hc : S → c.Sound) : Gains S readItem c :=
  goes_nameAhead_bind fun hkind => goes_perform_bind hc rfl (isWord_current hc hkind)
    (gains_advance hc (hkind ▸ by decide))

theorem gains_readStatement (hc : S → c.Sound) : Gains S readStatement c := by
  refine gains_bind (gains_expect hc (by decide)) fun _ _ hc₁ => ?_
  refine keeps_bind (gains_expect hc₁ (by decide)).keeps fun _ _ hc₂ => ?_
  exact keeps_bind (gains_list (fun _ => gains_readItem) hc₂).keeps fun _ _ hc' =>
    keeps_close hc' (by decide)

theorem gains_writeItem (hc : S → c.Sound) : Gains S writeItem c := by
  refine goes_token_bind ?_
  dsimp only
  split
  · rename_i hkind
    exact goes_perform_bind hc rfl (isWord_current hc hkind) (gains_advance hc (by simp [hkind]))
  · rename_i hkind
    exact goes_perform_bind hc rfl (fun _ => trivial) (gains_advance hc (by simp [hkind]))
  · rename_i hkind
    exact goes_perform_bind hc rfl (fun _ => trivial) (gains_advance hc (by simp [hkind]))
  · rename_i hkind
    exact goes_perform_bind hc rfl (fun _ => trivial) (gains_advance hc (by simp [hkind]))
  · exact goes_bind (P := fun _ _ => False) goes_mismatch fun _ _ _ _ hfalse => hfalse.elim

theorem gains_writeStatement (hc : S → c.Sound) (hkind : c.current.kind ≠ .eof) :
    Gains S writeStatement c := by
  refine goes_check_bind (gains_bind (gains_advance hc hkind) fun _ _ hc₁ => ?_)
  refine keeps_bind (gains_expect hc₁ (by decide)).keeps fun _ c₂ hc₂ => ?_
  have hend : ∀ (newline : Bool) c, (S → c.Sound) → Keeps S (do
      let _ ← expect .rightParen
      if newline then perform .writeLine) c :=
    fun newline c hc => keeps_bind (gains_expect hc (by decide)).keeps fun _ _ hc' =>
      goes_ite (fun _ => goes_perform hc' rfl (fun _ => trivial) trivial) fun _ => keeps_pure hc'
  refine goes_check_bind (goes_ite (fun _ => hend _ _ hc₂) fun _ => ?_)
  exact keeps_bind (gains_list (fun _ => gains_writeItem) hc₂).keeps fun _ _ hc' => hend _ _ hc'

theorem gains_statement (hc : S → c.Sound) (hstarts : startsStatement c.current = true) :
    Gains S statement c := by
  refine goes_token_bind ?_
  dsimp only
  split
  · rename_i hkind
    exact gains_bind (gains_assignStatement hc hkind) fun _ _ hc' => keeps_close hc' (by decide)
  · exact gains_bind (gains_readStatement hc) fun _ _ hc' => keeps_close hc' (by decide)
  · have hkind : c.current.kind ≠ .eof := by
      intro heof
      simp [startsStatement, heof] at hstarts
    exact gains_bind (gains_writeStatement hc hkind) fun _ _ hc' => keeps_close hc' (by decide)

/-! ## Declarations -/

theorem gains_valueType (hc : S → c.Sound) : Gains S valueType c := by
  refine goes_token_bind ?_
  split
  · rename_i htype
    refine gains_bind (gains_advance hc fun hkind => ?_) fun _ _ hc' => keeps_pure hc'
    rw [hkind] at htype
    cases htype
  · exact goes_mismatch

theorem keeps_modifiers (hc : S → c.Sound) : Keeps S modifiers c := by
  refine keeps_many (fun c hc hmodifier => (gains_advance hc fun hkind => ?_).keeps) hc
  rw [hkind] at hmodifier
  cases hmodifier

/-- The value of a constant is read at a token, which is not passed yet. -/
theorem goes_constantValue (type : ValueType) (negative : Bool) (hc : S → c.Sound) :
    Goes S (constantValue type negative) c fun _ c' => c' = c ∧ c.current.kind ≠ .eof := by
  refine goes_token_bind ?_
  split
  · rename_i hkind
    exact goes_pure hc ⟨rfl, by simp [hkind]⟩
  · rename_i hkind
    exact goes_pure hc ⟨rfl, by simp [hkind]⟩
  · rename_i hkind
    refine goes_ite (fun _ => goes_mismatch) fun _ => ?_
    split
    · exact goes_pure hc ⟨rfl, by simp [hkind]⟩
    · exact goes_mismatch
  · exact goes_mismatch

theorem gains_constant (type : ValueType) (hc : S → c.Sound) : Gains S (constant type) c := by
  refine goes_bind (goes_expectName hc) fun name c₁ hc₁ _ hname => Goes.mono
    (P := fun _ _ => True) ?_ fun _ _ hle _ => Nat.lt_of_le_of_lt hle hname.1
  refine keeps_bind (gains_expect hc₁ (by decide)).keeps fun _ c₂ hc₂ => ?_
  refine goes_ite (fun _ => ?_) fun _ => goes_mismatch
  refine keeps_bind (goes_consume hc₂ (by decide)).keeps fun negative c₃ hc₃ => ?_
  refine goes_bind (goes_constantValue type negative hc₃) ?_
  rintro value c₄ hc₄ - ⟨rfl, hkind⟩
  exact goes_token_bind (goes_perform_bind hc₄ rfl hname.2 (gains_advance hc₄ hkind).keeps)

theorem gains_constants (hc : S → c.Sound) : Gains S constants c := by
  refine gains_bind (gains_expect hc (by decide)) fun _ _ hc₁ => ?_
  refine keeps_bind (gains_valueType hc₁).keeps fun type _ hc₂ => ?_
  exact keeps_bind (gains_list (fun _ => gains_constant type) hc₂).keeps fun _ _ hc' =>
    keeps_close hc' (by decide)

theorem gains_variableItem (type : ValueType) (hc : S → c.Sound) :
    Gains S (variableItem type) c :=
  goes_nameAhead_bind fun hkind => goes_perform_bind hc rfl (isWord_current hc hkind)
    (gains_advance hc (hkind ▸ by decide))

theorem keeps_variableList (type : ValueType) (hc : S → c.Sound) :
    Keeps S (variableList type) c :=
  keeps_bind (gains_list (fun _ => gains_variableItem type) hc).keeps fun _ _ hc' =>
    keeps_close hc' (by decide)

theorem gains_declaration (hc : S → c.Sound) : Gains S declaration c :=
  goes_check_bind (goes_ite (fun _ => gains_constants hc) fun _ =>
    gains_bind (gains_valueType hc) fun type _ hc' => keeps_variableList type hc')

theorem gains_param (hc : S → c.Sound) : Gains S param c := by
  have hrest : ∀ mode c, (S → c.Sound) → Gains S (do
      let type ← valueType
      let t ← nameAhead
      perform (.declare t.line t.lexeme (.var type mode 0))
      advance) c := fun mode c hc =>
    gains_bind (gains_valueType hc) fun _ _ hc₁ => goes_nameAhead_bind fun hkind =>
      goes_perform_bind hc₁ rfl (isWord_current hc₁ hkind)
        (gains_advance hc₁ (hkind ▸ by decide)).keeps
  refine goes_token_bind (goes_ite (fun hmode => ?_) fun _ => hrest _ _ hc)
  refine bind_gains (gains_advance hc fun hkind => ?_).keeps fun _ _ hc' => hrest _ _ hc'
  rw [hkind] at hmode
  cases hmode

/-! ## Methods and classes -/

theorem gains_params (hc : S → c.Sound) : Gains S params c := by
  have hend : ∀ c, (S → c.Sound) → Keeps S (do
      let _ ← expect .rightParen
      perform .closeParams) c := fun c hc =>
    keeps_close_perform hc (by decide) rfl fun _ => trivial
  refine gains_bind (gains_expect hc (by decide)) fun _ _ hc₁ => ?_
  refine goes_perform_bind hc₁ rfl (fun _ => trivial) (goes_check_bind ?_)
  exact goes_ite (fun _ => hend _ hc₁) fun _ =>
    keeps_bind (gains_list (fun _ => gains_param) hc₁).keeps fun _ _ hc' => hend _ hc'

theorem gains_returnStatement (hc : S → c.Sound) : Gains S returnStatement c := by
  refine gains_bind (gains_expect hc (by decide)) fun _ _ hc₁ => goes_check_bind ?_
  refine goes_ite (fun _ => keeps_close hc₁ (by decide)) fun _ => ?_
  exact keeps_bind (gains_expr hc₁).keeps fun _ _ hc₂ =>
    goes_perform_bind hc₂ rfl (fun _ => trivial) (keeps_close hc₂ (by decide))

theorem gains_body (hc : S → c.Sound) : Gains S body c := by
  refine gains_bind (gains_expect hc (by decide)) fun _ _ hc₁ => ?_
  refine goes_perform_bind hc₁ rfl (fun _ => trivial) ?_
  refine keeps_bind (keeps_many (fun _ hc _ => (gains_declaration hc).keeps) hc₁) fun _ _ hc₂ => ?_
  refine keeps_bind (keeps_many (fun _ hc htest => (gains_statement hc htest).keeps) hc₂) ?_
  exact fun _ _ hc₃ => goes_check_bind (goes_ite (fun _ => (gains_returnStatement hc₃).keeps)
    fun _ => keeps_pure hc₃)

/-- A method and a constructor are alike but for what opens them, and for what stands before their
closing braces. -/
theorem gains_method (returns : ValueType) (hc : S → c.Sound)
    (hkind : c.current.kind = .identifier) : Gains S (method returns) c := by
  refine goes_token_bind (goes_perform_bind hc rfl (isWord_current hc hkind) ?_)
  refine gains_bind (gains_advance hc (hkind ▸ by decide)) fun _ _ hc₁ => ?_
  refine keeps_bind (gains_params hc₁).keeps fun _ _ hc₂ => ?_
  exact keeps_bind (gains_body hc₂).keeps fun _ _ hc₃ =>
    keeps_close_perform hc₃ (by decide) rfl fun _ => trivial

theorem gains_constructor (hc : S → c.Sound) (hkind : c.current.kind = .identifier) :
    Gains S constructor c := by
  refine goes_token_bind (goes_perform_bind hc rfl (isWord_current hc hkind) ?_)
  refine gains_bind (gains_advance hc (hkind ▸ by decide)) fun _ _ hc₁ => ?_
  refine keeps_bind (gains_params hc₁).keeps fun _ _ hc₂ => ?_
  refine keeps_bind (gains_body hc₂).keeps fun _ _ hc₃ => ?_
  refine goes_perform_bind hc₃ rfl (fun _ => trivial) ?_
  exact keeps_close_perform hc₃ (by decide) rfl fun _ => trivial

theorem goes_atSignature (test : String → Bool) (hc : S → c.Sound) :
    Goes S (atSignature test) c fun found c' =>
      found = true → c'.current.kind = .identifier := by
  refine goes_token_bind (goes_ite (fun htest => ?_) fun _ =>
    goes_pure hc fun h => absurd h Bool.false_ne_true)
  have hkind : c.current.kind = .identifier := by
    simp only [Bool.and_eq_true, decide_eq_true_eq] at htest
    exact htest.1
  refine goes_bind (goes_peek hc (hkind ▸ by decide)) fun _ _ hc' _ hcurrent => ?_
  exact goes_pure hc' fun _ => hcurrent ▸ hkind

theorem gains_member (className : String) (hc : S → c.Sound) : Gains S (member className) c := by
  refine bind_gains (keeps_modifiers hc) fun _ c₁ hc₁ => goes_check_bind ?_
  refine goes_ite (fun _ => gains_constants hc₁) fun _ => ?_
  refine goes_bind (goes_atSignature _ hc₁) fun _ c₂ hc₂ hle hfound => Goes.mono
    (P := fun _ c' => c'.left < c₂.left) ?_ fun _ _ _ hlt => Nat.lt_of_lt_of_le hlt hle
  refine goes_ite (fun h => gains_constructor hc₂ (hfound h)) fun _ => ?_
  refine gains_bind (gains_valueType hc₂) fun type c₃ hc₃ => ?_
  refine goes_bind (goes_atSignature _ hc₃) fun _ c₄ hc₄ _ hfound => ?_
  exact goes_ite (fun h => (gains_method type hc₄ (hfound h)).keeps)
    fun _ => keeps_variableList type hc₄

theorem gains_classDeclaration (hc : S → c.Sound) : Gains S classDeclaration c := by
  refine bind_gains (keeps_modifiers hc) fun _ _ hc₁ => ?_
  refine gains_bind (gains_expect hc₁ (by decide)) fun _ c₂ hc₂ => ?_
  refine goes_nameAhead_bind fun hkind => ?_
  refine goes_perform_bind hc₂ rfl (isWord_current hc₂ hkind) ?_
  refine keeps_bind (gains_advance hc₂ (hkind ▸ by decide)).keeps fun _ _ hc₃ => ?_
  refine keeps_bind (goes_consume hc₃ (by decide)).keeps fun _ _ hc₄ => ?_
  have hrest : ∀ c, (S → c.Sound) → Keeps S (do
      let _ ← expect .leftBrace
      perform .openClassBody
      many (startsMember c₂.current.lexeme) (member c₂.current.lexeme)
      let _ ← expect .rightBrace
      perform .closeClass) c := by
    intro c hc
    refine keeps_bind (gains_expect hc (by decide)).keeps fun _ _ hc₁ => ?_
    refine goes_perform_bind hc₁ rfl (fun _ => trivial) ?_
    refine keeps_bind (keeps_many (fun _ hc _ => (gains_member _ hc).keeps) hc₁) fun _ _ hc₂ => ?_
    exact keeps_close_perform hc₂ (by decide) rfl fun _ => trivial
  refine goes_ite (fun _ => ?_) fun _ => hrest _ hc₄
  exact keeps_bind (keeps_dottedName hc₄) fun _ _ hc₅ =>
    goes_perform_bind hc₅ rfl (fun _ => trivial) (hrest _ hc₅)

/-! ## Programs -/

theorem gains_usingDirective (hc : S → c.Sound) : Gains S usingDirective c := by
  refine gains_bind (gains_expect hc (by decide)) fun _ _ hc₁ => ?_
  refine keeps_bind (keeps_dottedName hc₁) fun _ _ hc₂ => ?_
  exact goes_perform_bind hc₂ rfl (fun _ => trivial) (keeps_close hc₂ (by decide))

theorem keeps_classes (hc : S → c.Sound) : Keeps S classes c :=
  keeps_many (fun _ hc _ => (gains_classDeclaration hc).keeps) hc

theorem keeps_namespaceBlock (hc : S → c.Sound) : Keeps S namespaceBlock c := by
  refine keeps_bind (gains_expect hc (by decide)).keeps fun _ c₁ hc₁ => goes_token_bind ?_
  refine goes_bind (goes_dottedName hc₁) fun name c₂ hc₂ _ hname => goes_token_bind ?_
  refine goes_perform_bind hc₂ rfl hname.2 ?_
  refine keeps_bind (gains_expect hc₂ (by decide)).keeps fun _ _ hc₃ => ?_
  exact keeps_bind (keeps_classes hc₃) fun _ _ hc₄ =>
    keeps_close_perform hc₄ (by decide) rfl fun _ => trivial

theorem keeps_program (hc : S → c.Sound) : Keeps S program c := by
  have husings : Keeps S (many (fun t => t.kind = .kwUsing) usingDirective) c :=
    keeps_many (fun _ hc _ => (gains_usingDirective hc).keeps) hc
  refine keeps_bind husings fun _ _ hc₁ => goes_check_bind (goes_ite (fun _ => ?_) fun _ => ?_)
  · exact keeps_bind (keeps_namespaceBlock hc₁) fun _ _ hc' => keeps_expectEnd hc'
  · exact keeps_bind (keeps_classes hc₁) fun _ _ hc' => keeps_expectEnd hc'

/-- Reading a text from its start. The token before the first one is passed whatever it is, so it
can be taken for one that does not mark the end. -/
theorem keeps_parse {scan : Scan}
    (hitems : ∀ item ∈ scan.items, item.token.WellSpelled ∧ item.token.kind ≠ .eof) :
    scans (parse scan).1 <+: scan.items ++ Cursor.endMark scan.ending ∧
      ∀ a ∈ (parse scan).1, a.IsSpelled := by
  let before : Cursor := ⟨⟨.period, ".", 1⟩, none, scan.items, scan.ending⟩
  have hsound : True → before.Sound :=
    fun _ => ⟨trivial, fun _ ht => absurd ht (Option.not_mem_none _), hitems⟩
  have hkind : Kind.period ≠ .eof := by decide
  have hkeeps : Keeps True (do advance; program : Parser Unit) before :=
    keeps_bind (gains_advance hsound hkind).keeps fun _ _ hc' => keeps_program hc'
  have hsame : (do advance; program : Parser Unit) (Cursor.start scan) =
      (do advance; program : Parser Unit) before := rfl
  unfold parse
  rw [hsame]
  rcases hparsed : (do advance; program : Parser Unit) before with ⟨acts, fault | ⟨a, c'⟩⟩
  · rw [Keeps, Goes, hparsed] at hkeeps
    exact ⟨hkeeps.scanned trivial, hkeeps.spelled trivial⟩
  · rw [Keeps, Goes, hparsed] at hkeeps
    exact ⟨⟨_, hkeeps.1.scanned trivial⟩, hkeeps.1.spelled trivial⟩

/-- Each item of a text is scanned once at most, in order, and behind the mark of the end nothing
is. -/
theorem scans_parse (source : String) :
    scans (parse (Scanner.ofString source).scan).1 <+:
      (Scanner.ofString source).scan.items ++
        Cursor.endMark (Scanner.ofString source).scan.ending :=
  (keeps_parse (Scanner.mem_scan _)).1

theorem spelled_parse (source : String) :
    ∀ a ∈ (parse (Scanner.ofString source).scan).1, a.IsSpelled :=
  (keeps_parse (Scanner.mem_scan _)).2

end Grammar

end Triad
