import Triad.Proofs.Replay

/-!
Two texts read side by side. If their tokens agree but for the lines and the comments, every parser
does the same before both of them: it calls for the same actions, and it fails for the same reason.
The bounds of loops differ, since they count comments too, but no loop comes to its bound: a loop
that goes on has passed a token. Main statement: `parse_alike`.
-/

namespace Triad

/-! ## What is left without lines -/

def Token.bare (t : Token) : Token := { t with line := 0 }

def Fault.bare : Fault → Fault := Fault.reline fun _ => 0

def Action.bare : Action → Action := Action.reline fun _ => 0

def Ending.bare : Ending → Ending
  | .eof _ => .eof 0
  | .broken fault => .broken fault.bare

/-- The actions but for those of the scanner, without lines. -/
def bareActions (actions : List Action) : List Action := (quiet actions).map Action.bare

@[simp] theorem bareActions_append (as bs : List Action) :
    bareActions (as ++ bs) = bareActions as ++ bareActions bs := by
  simp [bareActions]

@[simp] theorem bareActions_scans (items : List Scanned) : bareActions (items.map .scan) = [] := by
  simp [bareActions]

theorem Token.kind_of_bare {t u : Token} (h : t.bare = u.bare) : t.kind = u.kind :=
  show t.bare.kind = u.bare.kind from congrArg Token.kind h

/-- The tokens of two scanned texts agree, and so does what ends them. -/
structure Scan.SameTokens (a b : Scan) : Prop where
  tokens : (significant a.items).map Token.bare = (significant b.items).map Token.bare
  ending : a.ending.bare = b.ending.bare

namespace Cursor

/-- The cursors stand at the same place of texts with the same tokens. -/
structure Like (c d : Cursor) : Prop where
  current : c.current.bare = d.current.bare
  peeked : c.peeked.map Token.bare = d.peeked.map Token.bare
  rest : (significant c.rest).map Token.bare = (significant d.rest).map Token.bare
  ending : c.ending.bare = d.ending.bare

def isMet (t : Token) : Bool := t.kind ≠ .eof

/-- The number of tokens that can still be passed, the current one included. -/
def pending (c : Cursor) : Nat :=
  (c.current :: (c.peeked.toList ++ significant c.rest)).countP isMet

theorem countP_bare {ts us : List Token} (h : ts.map Token.bare = us.map Token.bare) :
    ts.countP isMet = us.countP isMet := by
  have hbare : ∀ vs : List Token, (vs.map Token.bare).countP isMet = vs.countP isMet :=
    fun vs => List.countP_map
  rw [← hbare ts, h, hbare]

theorem Like.pending_eq {c d : Cursor} (h : c.Like d) : c.pending = d.pending := by
  refine countP_bare ?_
  have hpeeked : c.peeked.toList.map Token.bare = d.peeked.toList.map Token.bare := by
    rw [← Option.toList_map, h.peeked, Option.toList_map]
  rw [List.map_cons, List.map_cons, List.map_append, List.map_append, h.current, h.rest, hpeeked]

theorem pending_le_remaining (c : Cursor) : c.pending ≤ c.remaining := by
  have hrest : (significant c.rest).length ≤ c.rest.length := by
    have := List.length_filter_le (fun t : Token => t.kind ≠ .comment) (c.rest.map Scanned.token)
    rwa [List.length_map] at this
  have hcount := List.countP_le_length (p := isMet)
    (l := c.current :: (c.peeked.toList ++ significant c.rest))
  unfold pending remaining
  cases hpeeked : c.peeked <;> simp [hpeeked] at hcount ⊢ <;> omega

theorem pending_pos {c : Cursor} (h : c.current.kind ≠ .eof) : 0 < c.pending := by
  have hmet : isMet c.current = true := by simpa [isMet] using h
  rw [pending, List.countP_cons_of_pos hmet]
  omega

/-- What is pulled is the first token that is no comment, or else what ends the text. -/
theorem pull_cases (ending : Ending) (items : List Scanned) :
    (∃ scanned t rest, pull ending items = (scanned, .ok (t, rest)) ∧
      significant items = t :: significant rest) ∨
    significant items = [] ∧
      ((∃ line scanned, ending = .eof line ∧
          pull ending items = (scanned, .ok (Scanner.eofToken line, []))) ∨
        ∃ fault scanned, ending = .broken fault ∧ pull ending items = (scanned, .error fault)) := by
  induction items with
  | nil =>
    cases ending with
    | eof line => exact .inr ⟨rfl, .inl ⟨line, _, rfl, rfl⟩⟩
    | broken fault => exact .inr ⟨rfl, .inr ⟨fault, _, rfl, rfl⟩⟩
  | cons item items ih =>
    by_cases h : item.token.kind = .comment
    · have hsame : significant (item :: items) = significant items := by simp [significant, h]
      rw [hsame, pull, if_pos h]
      rcases ih with ⟨scanned, t, rest, hpull, hsig⟩ | ⟨hsig, hend⟩
      · exact .inl ⟨item :: scanned, t, rest, by rw [hpull], hsig⟩
      · refine .inr ⟨hsig, ?_⟩
        rcases hend with ⟨line, scanned, hline, hpull⟩ | ⟨fault, scanned, hfault, hpull⟩
        · exact .inl ⟨line, item :: scanned, hline, by rw [hpull]⟩
        · exact .inr ⟨fault, item :: scanned, hfault, by rw [hpull]⟩
    · have hfirst : significant (item :: items) = item.token :: significant items := by
        simp [significant, h]
      exact .inl ⟨[item], item.token, items, by rw [pull, if_neg h], hfirst⟩

/-- Both texts have a next token, the same one, or both break off, for the same reason. -/
theorem like_pull {e e' : Ending} {items items' : List Scanned} (hend : e.bare = e'.bare)
    (hitems : (significant items).map Token.bare = (significant items').map Token.bare) :
    (∃ scanned t rest scanned' t' rest', pull e items = (scanned, .ok (t, rest)) ∧
      pull e' items' = (scanned', .ok (t', rest')) ∧ t.bare = t'.bare ∧
      (significant rest).map Token.bare = (significant rest').map Token.bare ∧
      (t :: significant rest).countP isMet ≤ (significant items).countP isMet) ∨
    ∃ scanned fault scanned' fault', pull e items = (scanned, .error fault) ∧
      pull e' items' = (scanned', .error fault') ∧ fault.bare = fault'.bare := by
  rcases pull_cases e items with ⟨scanned, t, rest, hpull, hsig⟩ | ⟨hsig, hcases⟩ <;>
    rcases pull_cases e' items' with ⟨scanned', t', rest', hpull', hsig'⟩ | ⟨hsig', hcases'⟩ <;>
      rw [hsig, hsig'] at hitems
  · rw [List.map_cons, List.map_cons, List.cons.injEq] at hitems
    exact .inl ⟨scanned, t, rest, scanned', t', rest', hpull, hpull', hitems.1, hitems.2,
      by rw [hsig]⟩
  · cases hitems
  · cases hitems
  · rcases hcases with ⟨line, scanned, rfl, hpull⟩ | ⟨fault, scanned, rfl, hpull⟩ <;>
      rcases hcases' with ⟨line', scanned', rfl, hpull'⟩ | ⟨fault', scanned', rfl, hpull'⟩
    · exact .inl ⟨scanned, _, _, scanned', _, _, hpull, hpull', rfl, rfl, Nat.zero_le _⟩
    · cases hend
    · cases hend
    · exact .inr ⟨scanned, fault, scanned', fault', hpull, hpull', Ending.broken.inj hend⟩

end Cursor

/-! ## Parsers in lockstep -/

/-- The same actions, and the same fault or values in the relation, with cursors at the same place.
At most `n` tokens are left, and fewer if tokens must have been passed. -/
inductive Parsed.Agrees {α : Type} (n : Nat) (strict : Bool) (R : α → α → Prop) :
    Parsed α → Parsed α → Prop
  | ok {as bs : List Action} {a b : α} {c d : Cursor} (actions : bareActions as = bareActions bs)
      (value : R a b) (like : c.Like d) (fewer : c.pending + strict.toNat ≤ n) :
      Agrees n strict R ⟨as, .ok (a, c)⟩ ⟨bs, .ok (b, d)⟩
  | error {as bs : List Action} {f g : Fault} (actions : bareActions as = bareActions bs)
      (fault : f.bare = g.bare) : Agrees n strict R ⟨as, .error f⟩ ⟨bs, .error g⟩

theorem Parsed.Agrees.weak {α : Type} {n : Nat} {strict : Bool} {R : α → α → Prop}
    {x y : Parsed α} (h : x.Agrees n strict R y) : x.Agrees n false R y := by
  cases h with
  | ok actions value like fewer =>
    exact .ok actions value like (Nat.le_trans (Nat.le_add_right _ _) fewer)
  | error actions fault => exact .error actions fault

namespace Parser

variable {α β : Type} {K : Kind → Prop} {n : Nat} {strict strict' : Bool} {R : α → α → Prop}
  {S : β → β → Prop}

/-- Before texts with the same tokens, of which at most `n` are left, the parsers do the same. The
kind of the current token is known to be in `K`. -/
def Lockstep (K : Kind → Prop) (n : Nat) (strict : Bool) (R : α → α → Prop) (p q : Parser α) :
    Prop :=
  ∀ c d : Cursor, c.Like d → c.pending ≤ n → K c.current.kind →
    (p c).Agrees c.pending strict R (q d)

def anywhere : Kind → Prop := fun _ => True

theorem Lockstep.mono {p q : Parser α} {m : Nat} (h : Lockstep K n strict R p q) (hm : m ≤ n) :
    Lockstep K m strict R p q :=
  fun c d hlike hc hK => h c d hlike (hc.trans hm) hK

theorem Lockstep.here {p q : Parser α} (h : Lockstep anywhere n strict R p q) :
    Lockstep K n strict R p q :=
  fun c d hlike hc _ => h c d hlike hc trivial

theorem Lockstep.weak {p q : Parser α} (h : Lockstep K n strict R p q) :
    Lockstep K n false R p q :=
  fun c d hlike hc hK => (h c d hlike hc hK).weak

/-- Where the first parser has passed a token, there is one token less for the second. -/
theorem Lockstep.bind {p q : Parser α} {f g : α → Parser β} {both : Bool}
    (hp : Lockstep K n strict R p q)
    (hf : ∀ a b, R a b → Lockstep anywhere (n - strict.toNat) strict' S (f a) (g b))
    (hboth : both.toNat ≤ strict.toNat + strict'.toNat) :
    Lockstep K n both S (p >>= f) (q >>= g) := by
  intro c d hlike hc hK
  have hpq := hp c d hlike hc hK
  generalize hpc : p c = x at hpq
  generalize hqd : q d = y at hpq
  cases hpq with
  | error actions fault =>
    rw [bind_error hpc, bind_error hqd]
    exact .error actions fault
  | @ok as bs a b c' d' actions value like fewer =>
    rw [bind_ok hpc, bind_ok hqd]
    have hfg := hf a b value c' d' like (by omega) trivial
    generalize f a c' = x' at hfg ⊢
    generalize g b d' = y' at hfg ⊢
    cases hfg with
    | error actions' fault =>
      exact .error (by rw [bareActions_append, bareActions_append, actions, actions']) fault
    | ok actions' value' like' fewer' =>
      exact .ok (by rw [bareActions_append, bareActions_append, actions, actions']) value' like'
        (by omega)

theorem lockstep_bind {p q : Parser α} {f g : α → Parser β} (hp : Lockstep K n false Eq p q)
    (hf : ∀ a, Lockstep anywhere n strict S (f a) (g a)) :
    Lockstep K n strict S (p >>= f) (q >>= g) := by
  refine hp.bind ?_ (Nat.le_add_left _ _)
  rintro a _ rfl
  exact hf a

theorem lockstep_pass_bind {p q : Parser α} {f g : α → Parser β} (hp : Lockstep K n true Eq p q)
    (hf : ∀ a, Lockstep anywhere (n - 1) false S (f a) (g a)) :
    Lockstep K n strict S (p >>= f) (q >>= g) := by
  have hboth : strict.toNat ≤ true.toNat + false.toNat := Bool.toNat_le strict
  refine hp.bind ?_ hboth
  rintro a _ rfl
  exact hf a

theorem lockstep_pure (a : α) : Lockstep K n false Eq (pure a) (pure a) :=
  fun _ _ hlike _ _ => .ok rfl rfl hlike (Nat.le_refl _)

theorem lockstep_perform {a b : Action} (h : bareActions [a] = bareActions [b]) :
    Lockstep K n false Eq (perform a) (perform b) :=
  fun _ _ hlike _ _ => .ok h rfl hlike (Nat.le_refl _)

theorem lockstep_ite {P : Prop} [Decidable P] {p q p' q' : Parser α}
    (hp : Lockstep K n strict R p p') (hq : Lockstep K n strict R q q') :
    Lockstep K n strict R (if P then p else q) (if P then p' else q') := by
  split
  · exact hp
  · exact hq

theorem lockstep_token_bind {f g : Token → Parser β}
    (h : ∀ kind lexeme line line',
      Lockstep (· = kind) n strict S (f ⟨kind, lexeme, line⟩) (g ⟨kind, lexeme, line'⟩)) :
    Lockstep K n strict S (token >>= f) (token >>= g) := by
  intro c d hlike hc _
  have hcurrent := hlike.current
  rcases hc' : c.current with ⟨kind, lexeme, line⟩
  rcases hd' : d.current with ⟨kind', lexeme', line'⟩
  rw [hc', hd'] at hcurrent
  cases hcurrent
  have hagree := h kind lexeme line line' c d hlike hc (by rw [hc'])
  rw [← hc', ← hd'] at hagree
  exact hagree

theorem lockstep_mismatch (expected : String) :
    Lockstep K n strict R (mismatch expected) (mismatch expected) :=
  fun _ _ hlike _ _ => .error rfl (by
    rw [Fault.bare, Fault.reline, Fault.reline, Token.kind_of_bare hlike.current])

/-- A token that does not mark the end is passed. -/
theorem lockstep_advance_of (hK : strict = true → ∀ kind, K kind → kind ≠ .eof) :
    Lockstep K n strict Eq advance advance := by
  intro c d hlike _ hkind
  have hmet : strict.toNat ≤ if Cursor.isMet c.current then 1 else 0 := by
    cases strict with
    | false => exact Nat.zero_le _
    | true => simp [Cursor.isMet, hK rfl _ hkind]
  have hpending : c.pending = (c.peeked.toList ++ significant c.rest).countP Cursor.isMet +
      if Cursor.isMet c.current then 1 else 0 := List.countP_cons
  unfold advance Cursor.advance
  cases hc : c.peeked with
  | some t =>
    cases hd : d.peeked with
    | none => simpa [hc, hd] using hlike.peeked
    | some u =>
      have htu : t.bare = u.bare := by simpa [hc, hd] using hlike.peeked
      refine .ok rfl rfl ⟨htu, rfl, hlike.rest, hlike.ending⟩ ?_
      rw [hpending, hc]
      exact Nat.add_le_add_left hmet _
  | none =>
    cases hd : d.peeked with
    | some u => simpa [hc, hd] using hlike.peeked
    | none =>
      dsimp only
      rcases Cursor.like_pull hlike.ending hlike.rest with
        ⟨scanned, t, rest, scanned', t', rest', hpull, hpull', htoken, hrest, hcount⟩ |
          ⟨scanned, fault, scanned', fault', hpull, hpull', hfault⟩
      · rw [hpull, hpull']
        refine .ok (by simp) rfl ⟨htoken, rfl, hrest, hlike.ending⟩ ?_
        rw [hpending, Cursor.pending]
        dsimp only
        rw [hc]
        exact Nat.add_le_add hcount hmet
      · rw [hpull, hpull']
        exact .error (by simp) hfault

theorem lockstep_advance : Lockstep K n false Eq advance advance :=
  lockstep_advance_of nofun

theorem lockstep_pass {kind : Kind} (hkind : kind ≠ .eof) :
    Lockstep (· = kind) n true Eq advance advance :=
  lockstep_advance_of fun _ _ h => h ▸ hkind

theorem lockstep_peek : Lockstep K n false Eq peek peek := by
  intro c d hlike _ _
  unfold peek Cursor.peek
  cases hc : c.peeked with
  | some t =>
    cases hd : d.peeked with
    | none => simpa [hc, hd] using hlike.peeked
    | some u =>
      have htu : t.bare = u.bare := by simpa [hc, hd] using hlike.peeked
      exact .ok rfl (Token.kind_of_bare htu) hlike (Nat.le_refl _)
  | none =>
    cases hd : d.peeked with
    | some u => simpa [hc, hd] using hlike.peeked
    | none =>
      dsimp only
      rcases Cursor.like_pull hlike.ending hlike.rest with
        ⟨scanned, t, rest, scanned', t', rest', hpull, hpull', htoken, hrest, hcount⟩ |
          ⟨scanned, fault, scanned', fault', hpull, hpull', hfault⟩
      · rw [hpull, hpull']
        refine .ok (by simp) (Token.kind_of_bare htoken)
          ⟨hlike.current, congrArg some htoken, hrest, hlike.ending⟩ ?_
        simp only [Cursor.pending, hc, Option.toList, List.nil_append, List.cons_append,
          List.countP_cons, Bool.toNat_false] at hcount ⊢
        omega
      · rw [hpull, hpull']
        exact .error (by simp) hfault

/-- The bounds of a loop may differ, but both suffice for what is left. -/
theorem lockstep_remaining_bind {f g : Nat → Parser β}
    (h : ∀ m i j, m ≤ i → m ≤ j → Lockstep anywhere m strict S (f i) (g j)) :
    Lockstep K n strict S (remaining >>= f) (remaining >>= g) :=
  fun c d hlike _ _ => h c.pending c.remaining d.remaining c.pending_le_remaining
    (hlike.pending_eq ▸ d.pending_le_remaining) c d hlike (Nat.le_refl _) trivial

/-! ## Single tokens -/

theorem lockstep_check (kind : Kind) : Lockstep K n false Eq (check kind) (check kind) :=
  lockstep_token_bind fun _ _ _ _ => lockstep_pure _

theorem lockstep_expect_bind {kind : Kind} (hkind : kind ≠ .eof) {f g : Token → Parser β}
    (hf : ∀ lexeme line line', Lockstep anywhere (n - 1) false S
      (f ⟨kind, lexeme, line⟩) (g ⟨kind, lexeme, line'⟩)) :
    Lockstep K n strict S (expect kind >>= f) (expect kind >>= g) := by
  have hexpect : Lockstep K n true (fun t u => t.bare = u.bare ∧ t.kind = kind) (expect kind)
      (expect kind) := by
    refine lockstep_token_bind fun found lexeme line line' => ?_
    by_cases h : found = kind
    · rw [if_pos h, if_pos h]
      exact lockstep_pass_bind (lockstep_pass (h ▸ hkind)) fun _ =>
        fun _ _ hlike _ _ => .ok rfl ⟨rfl, h⟩ hlike (Nat.le_refl _)
    · rw [if_neg h, if_neg h]
      exact lockstep_mismatch _
  have hboth : strict.toNat ≤ true.toNat + false.toNat := Bool.toNat_le strict
  refine hexpect.bind ?_ hboth
  rintro ⟨_, lexeme, line⟩ ⟨_, _, line'⟩ ⟨⟨⟩, rfl⟩
  exact hf lexeme line line'

theorem lockstep_expect {kind : Kind} (hkind : kind ≠ .eof) :
    Lockstep K n true Eq (do let _ ← expect kind) (do let _ ← expect kind) :=
  lockstep_expect_bind hkind fun _ _ _ => lockstep_pure ()

theorem lockstep_expectName : Lockstep K n true Eq expectName expectName :=
  lockstep_expect_bind (by decide) fun _ _ _ => lockstep_pure _

theorem lockstep_nameAhead_bind {f g : Token → Parser β}
    (hf : ∀ lexeme line line', Lockstep anywhere n strict S
      (f ⟨.identifier, lexeme, line⟩) (g ⟨.identifier, lexeme, line'⟩)) :
    Lockstep K n strict S (nameAhead >>= f) (nameAhead >>= g) := by
  have hname : Lockstep K n false (fun t u => t.bare = u.bare ∧ t.kind = .identifier) nameAhead
      nameAhead := by
    refine lockstep_token_bind fun found lexeme line line' => ?_
    by_cases h : found = .identifier
    · rw [if_pos h, if_pos h]
      exact fun _ _ hlike _ _ => .ok rfl ⟨rfl, h⟩ hlike (Nat.le_refl _)
    · rw [if_neg h, if_neg h]
      exact lockstep_mismatch _
  refine hname.bind ?_ (Nat.le_add_left _ _)
  rintro ⟨_, lexeme, line⟩ ⟨_, _, line'⟩ ⟨⟨⟩, ⟨⟩⟩
  exact hf lexeme line line'

theorem lockstep_expectEnd : Lockstep K n false Eq expectEnd expectEnd :=
  lockstep_token_bind fun _ _ _ _ => lockstep_ite (lockstep_pure _) (lockstep_mismatch _)

theorem lockstep_consume (kind : Kind) : Lockstep K n false Eq (consume kind) (consume kind) :=
  lockstep_bind (lockstep_check kind) fun _ => lockstep_ite
    (lockstep_bind lockstep_advance fun _ => lockstep_pure _) (lockstep_pure _)

/-! ## Loops

At the end of a text no loop goes on, so that a loop with no steps left stops as it would have
stopped anyway. -/

theorem Lockstep.atEnd {p q p' q' : Parser α} (h : Lockstep anywhere 0 strict R p' q')
    (hp : ∀ c : Cursor, c.current.kind = .eof → p c = p' c)
    (hq : ∀ c : Cursor, c.current.kind = .eof → q c = q' c) :
    Lockstep anywhere 0 strict R p q := by
  intro c d hlike hc hK
  have hend : c.current.kind = .eof := by
    by_contra hne
    have := Cursor.pending_pos hne
    omega
  rw [hp c hend, hq d (Token.kind_of_bare hlike.current ▸ hend)]
  exact h c d hlike hc hK

/-- A loop whose bound suffices for the tokens that are left does not depend on the bound: it is
enough that a round with a token to pass leaves the rest to a loop with one token less. -/
theorem lockstep_loop {ι : Type} {p q : ι → Nat → Parser α}
    (hzero : ∀ x i j, Lockstep anywhere 0 false Eq (p x i) (q x j))
    (hstep : ∀ m x i j, m < n → m ≤ i → m ≤ j →
      (∀ y, Lockstep anywhere m false Eq (p y i) (q y j)) →
        Lockstep anywhere (m + 1) false Eq (p x (i + 1)) (q x (j + 1)))
    (x : ι) (i j : Nat) (hi : n ≤ i) (hj : n ≤ j) :
    Lockstep anywhere n false Eq (p x i) (q x j) := by
  induction n generalizing x i j with
  | zero => exact hzero x i j
  | succ n ih =>
    have hbelow := ih fun m y i j hm => hstep m y i j (by omega)
    cases i with
    | zero => omega
    | succ i =>
      cases j with
      | zero => omega
      | succ j =>
        exact hstep n x i j (by omega) (by omega) (by omega) fun y =>
          hbelow y i j (by omega) (by omega)

theorem token_bind (f : Token → Parser β) (c : Cursor) : (token >>= f) c = f c.current c := rfl

theorem consume_bind_of {kind : Kind} (f : Bool → Parser β) {c : Cursor}
    (h : c.current.kind = kind) :
    (consume kind >>= f) c = (advance >>= fun _ => f true) c := by
  have hconsume : consume kind c = (advance >>= fun _ => pure true) c := by
    change (if decide (c.current.kind = kind) then _ else _ : Parser Bool) c = _
    rw [if_pos (decide_eq_true h)]
  rcases hadvance : advance c with ⟨actions, fault | ⟨_, c'⟩⟩
  · rw [bind_error hadvance] at hconsume ⊢
    rw [bind_error hconsume]
  · rw [bind_ok hadvance] at hconsume ⊢
    rw [bind_ok hconsume]
    simp [pure, Parser.pure]

theorem consume_bind_of_ne {kind : Kind} (f : Bool → Parser β) {c : Cursor}
    (h : c.current.kind ≠ kind) : (consume kind >>= f) c = f false c := by
  have hconsume : consume kind c = ⟨[], .ok (false, c)⟩ := by
    change (if decide (c.current.kind = kind) then _ else _ : Parser Bool) c = _
    rw [if_neg (by simpa using h)]
    rfl
  rw [bind_ok hconsume]
  rfl

/-- A token that is consumed is passed. -/
theorem lockstep_consume_bind {kind : Kind} (hkind : kind ≠ .eof) {f g : Bool → Parser β}
    (hyes : Lockstep anywhere n false S (f true) (g true))
    (hno : Lockstep anywhere (n + 1) false S (f false) (g false)) :
    Lockstep K (n + 1) false S (consume kind >>= f) (consume kind >>= g) := by
  intro c d hlike hc _
  have hsame := Token.kind_of_bare hlike.current
  by_cases h : c.current.kind = kind
  · rw [consume_bind_of f h, consume_bind_of g (hsame ▸ h)]
    exact lockstep_pass_bind (n := n + 1) (lockstep_pass hkind) (fun _ => hyes) c d hlike hc h
  · rw [consume_bind_of_ne f h, consume_bind_of_ne g (hsame ▸ h)]
    exact hno c d hlike hc trivial

theorem lockstep_many {test : Token → Bool} {item : Parser Unit}
    (htest : ∀ t : Token, test t.bare = test t) (heof : ∀ t, t.kind = .eof → test t = false)
    (hitem : ∀ n kind, (∃ lexeme line, test ⟨kind, lexeme, line⟩ = true) →
      Lockstep (· = kind) n true Eq item item) :
    Lockstep K n false Eq (many test item) (many test item) := by
  have hstop : ∀ (i : Nat) (c : Cursor), c.current.kind = .eof →
      manyWithin test item i c = (pure () : Parser Unit) c := by
    intro i c hend
    cases i with
    | zero => rfl
    | succ i =>
      rw [manyWithin, token_bind, heof _ hend]
      rfl
  refine lockstep_remaining_bind fun m => lockstep_loop (p := fun _ => manyWithin test item)
    (q := fun _ => manyWithin test item) ?_ ?_ ()
  · exact fun _ i j => (lockstep_pure ()).atEnd (hstop i) (hstop j)
  · intro m _ i j _ _ _ ih
    refine lockstep_token_bind fun kind lexeme line line' => ?_
    have hsame : test ⟨kind, lexeme, line⟩ = test ⟨kind, lexeme, line'⟩ := by
      rw [← htest, ← htest ⟨kind, lexeme, line'⟩]
      rfl
    rw [hsame]
    split
    · rename_i hgo
      exact lockstep_pass_bind (hitem (m + 1) kind ⟨lexeme, line', hgo⟩) fun _ => ih ()
    · exact lockstep_pure ()

theorem lockstep_list {item : Parser Unit} (hitem : ∀ n, Lockstep anywhere n false Eq item item) :
    Lockstep K n false Eq (list item) (list item) := by
  -- Behind the first item a list ends as one item does, if no comma can follow.
  have hstop : ∀ i (c : Cursor), c.current.kind = .eof →
      (do if ← consume .comma then return (← listWithin item i) + 1 else return 1 : Parser Nat) c =
        (pure 1 : Parser Nat) c := by
    intro i c hend
    rw [consume_bind_of_ne _ (by rw [hend]; decide)]
    rfl
  refine lockstep_remaining_bind fun m => lockstep_loop (p := fun _ => listWithin item)
    (q := fun _ => listWithin item) ?_ ?_ ()
  · intro _ i j
    cases i with
    | zero =>
      cases j with
      | zero => exact lockstep_bind (hitem 0) fun _ => lockstep_pure 1
      | succ j =>
        exact lockstep_bind (hitem 0) fun _ =>
          (lockstep_pure 1).atEnd (fun _ _ => rfl) (hstop j)
    | succ i =>
      cases j with
      | zero =>
        exact lockstep_bind (hitem 0) fun _ =>
          (lockstep_pure 1).atEnd (hstop i) fun _ _ => rfl
      | succ j =>
        exact lockstep_bind (hitem 0) fun _ => (lockstep_pure 1).atEnd (hstop i) (hstop j)
  · intro m _ i j _ _ _ ih
    exact lockstep_bind (hitem (m + 1)) fun _ => lockstep_consume_bind (by decide)
      (lockstep_bind (ih ()) fun _ => lockstep_pure _) (lockstep_pure 1)

theorem lockstep_dottedName : Lockstep K n true Eq dottedName dottedName := by
  have hstop : ∀ name i (c : Cursor), c.current.kind = .eof →
      dottedWithin name i c = (pure name : Parser String) c := by
    intro name i c hend
    cases i with
    | zero => rfl
    | succ i =>
      rw [dottedWithin, consume_bind_of_ne _ (by rw [hend]; decide)]
      rfl
  refine lockstep_pass_bind lockstep_expectName fun name => lockstep_remaining_bind fun m =>
    lockstep_loop (p := dottedWithin) (q := dottedWithin) ?_ ?_ name
  · exact fun name i j => (lockstep_pure name).atEnd (hstop name i) (hstop name j)
  · intro m name i j _ _ _ ih
    refine lockstep_consume_bind (by decide) ?_ (lockstep_pure name)
    exact lockstep_pass_bind lockstep_expectName fun _ => (ih _).mono (Nat.sub_le _ _)

end Parser

namespace Grammar

open Triad.Parser

variable {K : Kind → Prop} {n : Nat}

/-! ## Expressions -/

theorem lockstep_chain {kinds : List Kind} (hkinds : .eof ∉ kinds) {p q : Parser Unit}
    (hpq : Lockstep anywhere n false Eq p q) {i j : Nat} (hi : n ≤ i) (hj : n ≤ j) :
    Lockstep anywhere n false Eq (chain kinds p i) (chain kinds q j) := by
  have hnone : ∀ t : Token, t.kind = .eof → operationAt kinds t = none := by
    intro t hend
    rw [operationAt, hend, if_neg hkinds]
  have hstop : ∀ (r : Parser Unit) i (c : Cursor), c.current.kind = .eof →
      chainWithin kinds r i c = (pure () : Parser Unit) c := by
    intro r i c hend
    cases i with
    | zero => rfl
    | succ i =>
      rw [chainWithin, token_bind, hnone _ hend]
  refine lockstep_bind hpq fun _ => lockstep_loop (p := fun _ => chainWithin kinds p)
    (q := fun _ => chainWithin kinds q) ?_ ?_ () i j hi hj
  · exact fun _ i j => (lockstep_pure ()).atEnd (hstop p i) (hstop q j)
  · intro m _ i j hm _ _ ih
    refine lockstep_token_bind fun kind lexeme line line' => ?_
    have hsame : operationAt kinds ⟨kind, lexeme, line⟩ = operationAt kinds ⟨kind, lexeme, line'⟩ :=
      rfl
    rw [hsame]
    split
    · rename_i op hop
      have hkind : kind ≠ .eof := by
        rintro rfl
        rw [hnone _ rfl] at hop
        cases hop
      exact lockstep_pass_bind (lockstep_pass hkind) fun _ =>
        lockstep_bind (hpq.mono (by omega)) fun _ =>
          lockstep_bind (lockstep_perform rfl) fun _ => ih ()
    · exact lockstep_pure ()

theorem lockstep_exprOver {p q : Parser Unit} (hpq : Lockstep anywhere n false Eq p q) {i j : Nat}
    (hi : n ≤ i) (hj : n ≤ j) :
    Lockstep anywhere n false Eq (exprOver p i) (exprOver q j) :=
  lockstep_chain (by decide) (lockstep_chain (by decide) hpq hi hj) hi hj

theorem factorWithin_end (i : Nat) {c : Cursor} (h : c.current.kind = .eof) :
    factorWithin i c = (mismatch "an identifier, number, ( or -" : Parser Unit) c := by
  cases i with
  | zero => rfl
  | succ i => rw [factorWithin, token_bind, h]

theorem lockstep_factorWithin (i j : Nat) (hi : n ≤ i) (hj : n ≤ j) :
    Lockstep anywhere n false Eq (factorWithin i) (factorWithin j) := by
  refine lockstep_loop (p := fun _ => factorWithin) (q := fun _ => factorWithin) ?_ ?_ () i j hi hj
  · exact fun _ i j => (lockstep_mismatch _).atEnd (fun _ => factorWithin_end i)
      fun _ => factorWithin_end j
  · intro m _ i j _ hi hj ih
    refine lockstep_token_bind fun kind lexeme line line' => ?_
    cases kind with
    | identifier => exact lockstep_bind (lockstep_perform rfl) fun _ => lockstep_advance
    | number value => exact lockstep_bind lockstep_advance fun _ => lockstep_perform rfl
    | decimal value => exact lockstep_bind lockstep_advance fun _ => lockstep_perform rfl
    | leftParen =>
      exact lockstep_pass_bind (lockstep_pass (by decide)) fun _ =>
        lockstep_bind (lockstep_exprOver (ih ()) hi hj) fun _ => (lockstep_expect (by decide)).weak
    | signOp =>
      exact lockstep_pass_bind (lockstep_pass (by decide)) fun _ =>
        lockstep_bind (ih ()) fun _ => lockstep_perform rfl
    | _ => exact lockstep_mismatch _

theorem lockstep_expr : Lockstep K n false Eq expr expr :=
  lockstep_remaining_bind fun _ i j hi hj =>
    lockstep_exprOver (lockstep_factorWithin i j hi hj) hi hj

/-! ## Statements -/

theorem lockstep_atCall : Lockstep K n false Eq atCall atCall :=
  lockstep_bind (lockstep_check _) fun _ =>
    lockstep_ite (lockstep_bind lockstep_peek fun _ => lockstep_pure _) (lockstep_pure _)

theorem lockstep_call : Lockstep K n true Eq call call := by
  refine lockstep_pass_bind lockstep_expectName fun first =>
    lockstep_bind (lockstep_consume _) fun qualified => ?_
  have harguments : ∀ n, Lockstep anywhere n false Eq arguments arguments := fun _ =>
    lockstep_bind (lockstep_check _) fun _ =>
      lockstep_ite (lockstep_pure _) (lockstep_list fun _ => lockstep_expr)
  have hrest : ∀ n method, Lockstep anywhere n false Eq (do
      let _ ← expect .leftParen
      let count ← arguments
      let _ ← expect .rightParen
      perform (.call (if qualified then some first else none) method count)) (do
      let _ ← expect .leftParen
      let count ← arguments
      let _ ← expect .rightParen
      perform (.call (if qualified then some first else none) method count)) :=
    fun _ _ => lockstep_expect_bind (by decide) fun _ _ _ => lockstep_bind (harguments _) fun _ =>
      lockstep_expect_bind (by decide) fun _ _ _ => lockstep_perform rfl
  exact lockstep_ite (lockstep_pass_bind lockstep_expectName (hrest _))
    (lockstep_bind (lockstep_pure _) (hrest _))

theorem lockstep_assignment : Lockstep K n false Eq assignment assignment := by
  refine lockstep_token_bind fun kind lexeme line line' => lockstep_ite ?_ (lockstep_mismatch _)
  dsimp only
  split
  · exact lockstep_bind lockstep_advance fun _ => lockstep_pure _
  · exact lockstep_mismatch _

theorem lockstep_assignStatement : Lockstep K n false Eq assignStatement assignStatement := by
  refine lockstep_bind lockstep_atCall fun _ => lockstep_ite lockstep_call.weak ?_
  refine lockstep_token_bind fun kind lexeme line line' => Lockstep.here ?_
  refine lockstep_bind (lockstep_perform rfl) fun _ => lockstep_bind lockstep_advance fun _ =>
    lockstep_bind lockstep_assignment fun op => lockstep_bind lockstep_atCall fun _ =>
      lockstep_ite ?_ ?_
  · exact lockstep_pass_bind lockstep_call fun _ => lockstep_bind (lockstep_perform rfl) fun _ =>
      lockstep_perform rfl
  · exact lockstep_bind lockstep_expr fun _ => lockstep_perform rfl

theorem lockstep_readStatement : Lockstep K n false Eq readStatement readStatement := by
  have hitem : ∀ n, Lockstep anywhere n false Eq readItem readItem := fun _ =>
    lockstep_nameAhead_bind fun _ _ _ => lockstep_bind (lockstep_perform rfl) fun _ =>
      lockstep_advance
  exact lockstep_expect_bind (by decide) fun _ _ _ => lockstep_expect_bind (by decide) fun _ _ _ =>
    lockstep_bind (lockstep_list hitem) fun _ => (lockstep_expect (by decide)).weak

theorem lockstep_writeItem : Lockstep K n false Eq writeItem writeItem := by
  refine lockstep_token_bind fun kind lexeme line line' => ?_
  cases kind with
  | identifier => exact lockstep_bind (lockstep_perform rfl) fun _ => lockstep_advance
  | number value => exact lockstep_bind (lockstep_perform rfl) fun _ => lockstep_advance
  | decimal value => exact lockstep_bind (lockstep_perform rfl) fun _ => lockstep_advance
  | literal body => exact lockstep_bind (lockstep_perform rfl) fun _ => lockstep_advance
  | _ => exact lockstep_bind (lockstep_mismatch _) fun _ => lockstep_advance

theorem lockstep_writeStatement : Lockstep K n false Eq writeStatement writeStatement := by
  have hend : ∀ n (newline : Bool), Lockstep anywhere n false Eq (do
      let _ ← expect .rightParen
      if newline then perform .writeLine) (do
      let _ ← expect .rightParen
      if newline then perform .writeLine) := fun _ _ =>
    lockstep_expect_bind (by decide) fun _ _ _ =>
      lockstep_ite (lockstep_perform rfl) (lockstep_pure ())
  exact lockstep_bind (lockstep_check _) fun newline => lockstep_bind lockstep_advance fun _ =>
    lockstep_expect_bind (by decide) fun _ _ _ => lockstep_bind (lockstep_check _) fun _ =>
      lockstep_ite (hend _ newline)
        (lockstep_bind (lockstep_list fun _ => lockstep_writeItem) fun _ => hend _ newline)

theorem lockstep_statement : Lockstep K n true Eq statement statement := by
  have hend : ∀ n, Lockstep anywhere n true Eq (do let _ ← expect .semicolon)
      (do let _ ← expect .semicolon) := fun _ => lockstep_expect (by decide)
  refine lockstep_token_bind fun kind lexeme line line' => ?_
  cases kind with
  | identifier => exact lockstep_bind lockstep_assignStatement fun _ => hend _
  | kwRead => exact lockstep_bind lockstep_readStatement fun _ => hend _
  | _ => exact lockstep_bind lockstep_writeStatement fun _ => hend _

theorem lockstep_returnStatement : Lockstep K n false Eq returnStatement returnStatement := by
  have hend : ∀ n, Lockstep anywhere n false Eq (do let _ ← expect .semicolon)
      (do let _ ← expect .semicolon) := fun _ => (lockstep_expect (by decide)).weak
  exact lockstep_expect_bind (by decide) fun _ _ _ => lockstep_bind (lockstep_check _) fun _ =>
    lockstep_ite (hend _) (lockstep_bind lockstep_expr fun _ =>
      lockstep_bind (lockstep_perform rfl) fun _ => hend _)

/-! ## Declarations -/

theorem lockstep_valueType : Lockstep K n true Eq valueType valueType := by
  refine lockstep_token_bind fun kind lexeme line line' => ?_
  dsimp only
  split
  · rename_i type htype
    have hkind : kind ≠ .eof := by
      rintro rfl
      cases htype
    exact lockstep_pass_bind (lockstep_pass hkind) fun _ => lockstep_pure _
  · exact lockstep_mismatch _

theorem lockstep_modifiers : Lockstep K n false Eq modifiers modifiers := by
  refine lockstep_many (fun _ => rfl) (fun t ht => by rw [ht]; rfl) fun n kind hkind => ?_
  refine lockstep_pass ?_
  rintro rfl
  obtain ⟨_, _, hmodifier⟩ := hkind
  cases hmodifier

theorem lockstep_constantValue (type : ValueType) (negative : Bool) :
    Lockstep K n false Eq (constantValue type negative) (constantValue type negative) := by
  refine lockstep_token_bind fun kind lexeme line line' => ?_
  cases kind with
  | number value => exact lockstep_pure _
  | decimal value => exact lockstep_pure _
  | literal body =>
    refine lockstep_ite (lockstep_mismatch _) ?_
    split
    · exact lockstep_pure _
    · exact lockstep_mismatch _
  | _ => exact lockstep_mismatch _

theorem lockstep_constants : Lockstep K n true Eq constants constants := by
  have hitem : ∀ type n, Lockstep anywhere n false Eq (constant type) (constant type) := by
    intro type n
    refine lockstep_pass_bind lockstep_expectName fun name =>
      lockstep_expect_bind (by decide) fun lexeme line line' =>
        lockstep_ite ?_ (lockstep_mismatch _)
    exact lockstep_bind (lockstep_consume _) fun _ =>
      lockstep_bind (lockstep_constantValue _ _) fun _ => lockstep_token_bind fun _ _ _ _ =>
        lockstep_bind (lockstep_perform rfl) fun _ => lockstep_advance
  exact lockstep_expect_bind (by decide) fun _ _ _ => lockstep_pass_bind lockstep_valueType fun type =>
    lockstep_bind (lockstep_list (hitem type)) fun _ => (lockstep_expect (by decide)).weak

theorem lockstep_variableList (type : ValueType) :
    Lockstep K n true Eq (variableList type) (variableList type) := by
  have hitem : ∀ n, Lockstep anywhere n false Eq (variableItem type) (variableItem type) := fun _ =>
    lockstep_nameAhead_bind fun _ _ _ => lockstep_bind (lockstep_perform rfl) fun _ =>
      lockstep_advance
  exact lockstep_bind (lockstep_list hitem) fun _ => lockstep_expect (by decide)

theorem lockstep_declaration : Lockstep K n true Eq declaration declaration :=
  lockstep_bind (lockstep_check _) fun _ => lockstep_ite lockstep_constants
    (lockstep_pass_bind lockstep_valueType fun type => (lockstep_variableList type).weak)

theorem lockstep_param : Lockstep K n false Eq param param := by
  have hrest : ∀ mode, Lockstep anywhere n false Eq (do
      let type ← valueType
      let t ← nameAhead
      perform (.declare t.line t.lexeme (.var type mode 0))
      advance) (do
      let type ← valueType
      let t ← nameAhead
      perform (.declare t.line t.lexeme (.var type mode 0))
      advance) := fun _ =>
    lockstep_pass_bind lockstep_valueType fun _ => lockstep_nameAhead_bind fun _ _ _ =>
      lockstep_bind (lockstep_perform rfl) fun _ => lockstep_advance
  refine lockstep_token_bind fun kind lexeme line line' => Lockstep.here ?_
  exact lockstep_ite (lockstep_bind lockstep_advance fun _ => hrest _) (hrest _)

/-! ## Methods and classes -/

theorem lockstep_params : Lockstep K n false Eq params params := by
  have hend : ∀ n, Lockstep anywhere n false Eq (do
      let _ ← expect .rightParen
      perform .closeParams) (do
      let _ ← expect .rightParen
      perform .closeParams) := fun _ =>
    lockstep_expect_bind (by decide) fun _ _ _ => lockstep_perform rfl
  exact lockstep_expect_bind (by decide) fun _ _ _ => lockstep_bind (lockstep_perform rfl) fun _ =>
    lockstep_bind (lockstep_check _) fun _ =>
      lockstep_ite (hend _) (lockstep_bind (lockstep_list fun _ => lockstep_param) fun _ => hend _)

theorem lockstep_body : Lockstep K n false Eq body body := by
  have hdeclarations : ∀ n, Lockstep anywhere n false Eq (many startsDeclaration declaration)
      (many startsDeclaration declaration) := fun _ =>
    lockstep_many (fun _ => rfl) (fun t ht => by simp [startsDeclaration, ht, Kind.isType,
      Kind.valueType?]) fun _ _ _ => lockstep_declaration
  have hstatements : ∀ n, Lockstep anywhere n false Eq (many startsStatement statement)
      (many startsStatement statement) := fun _ =>
    lockstep_many (fun _ => rfl) (fun t ht => by simp [startsStatement, ht])
      fun _ _ _ => lockstep_statement
  exact lockstep_expect_bind (by decide) fun _ _ _ => lockstep_bind (lockstep_perform rfl) fun _ =>
    lockstep_bind (hdeclarations _) fun _ => lockstep_bind (hstatements _) fun _ =>
      lockstep_bind (lockstep_check _) fun _ =>
        lockstep_ite lockstep_returnStatement (lockstep_pure ())

theorem lockstep_method (returns : ValueType) :
    Lockstep K n true Eq (method returns) (method returns) := by
  refine lockstep_token_bind fun kind lexeme line line' => Lockstep.here ?_
  exact lockstep_bind (lockstep_perform rfl) fun _ => lockstep_bind lockstep_advance fun _ =>
    lockstep_bind lockstep_params fun _ => lockstep_bind lockstep_body fun _ =>
      lockstep_expect_bind (by decide) fun _ _ _ => lockstep_perform rfl

theorem lockstep_constructor : Lockstep K n true Eq constructor constructor := by
  refine lockstep_token_bind fun kind lexeme line line' => Lockstep.here ?_
  exact lockstep_bind (lockstep_perform rfl) fun _ => lockstep_bind lockstep_advance fun _ =>
    lockstep_bind lockstep_params fun _ => lockstep_bind lockstep_body fun _ =>
      lockstep_bind (lockstep_perform rfl) fun _ =>
        lockstep_expect_bind (by decide) fun _ _ _ => lockstep_perform rfl

theorem lockstep_atSignature (test : String → Bool) :
    Lockstep K n false Eq (atSignature test) (atSignature test) :=
  lockstep_token_bind fun _ _ _ _ =>
    lockstep_ite (lockstep_bind lockstep_peek fun _ => lockstep_pure _) (lockstep_pure _)

theorem lockstep_member (className : String) :
    Lockstep K n true Eq (member className) (member className) :=
  lockstep_bind lockstep_modifiers fun _ => lockstep_bind (lockstep_check _) fun _ =>
    lockstep_ite lockstep_constants (lockstep_bind (lockstep_atSignature _) fun _ =>
      lockstep_ite lockstep_constructor (lockstep_pass_bind lockstep_valueType fun type =>
        lockstep_bind (lockstep_atSignature _) fun _ =>
          lockstep_ite (lockstep_method type).weak (lockstep_variableList type).weak))

theorem lockstep_classDeclaration : Lockstep K n true Eq classDeclaration classDeclaration := by
  refine lockstep_bind lockstep_modifiers fun _ => lockstep_expect_bind (by decide) fun _ _ _ =>
    lockstep_nameAhead_bind fun lexeme line line' => ?_
  have hrest : ∀ n, Lockstep anywhere n false Eq (do
      let _ ← expect .leftBrace
      perform .openClassBody
      many (startsMember lexeme) (member lexeme)
      let _ ← expect .rightBrace
      perform .closeClass) (do
      let _ ← expect .leftBrace
      perform .openClassBody
      many (startsMember lexeme) (member lexeme)
      let _ ← expect .rightBrace
      perform .closeClass) := by
    intro n
    have hmembers : ∀ n, Lockstep anywhere n false Eq (many (startsMember lexeme) (member lexeme))
        (many (startsMember lexeme) (member lexeme)) := fun _ =>
      lockstep_many (fun _ => rfl) (fun t ht => by simp [startsMember, ht, Kind.isType,
        Kind.valueType?, Kind.isModifier]) fun _ _ _ => lockstep_member lexeme
    exact lockstep_expect_bind (by decide) fun _ _ _ => lockstep_bind (lockstep_perform rfl) fun _ =>
      lockstep_bind (hmembers _) fun _ => lockstep_expect_bind (by decide) fun _ _ _ =>
        lockstep_perform rfl
  exact lockstep_bind (lockstep_perform rfl) fun _ => lockstep_bind lockstep_advance fun _ =>
    lockstep_bind (lockstep_consume _) fun _ =>
      lockstep_ite (lockstep_pass_bind lockstep_dottedName fun _ =>
        lockstep_bind (lockstep_perform rfl) fun _ => hrest _) (hrest _)

/-! ## Programs -/

theorem lockstep_program : Lockstep K n false Eq program program := by
  have husing : ∀ n, Lockstep anywhere n true Eq usingDirective usingDirective := fun _ =>
    lockstep_expect_bind (by decide) fun _ _ _ => lockstep_pass_bind lockstep_dottedName fun _ =>
      lockstep_bind (lockstep_perform rfl) fun _ => (lockstep_expect (by decide)).weak
  have hclasses : ∀ n, Lockstep anywhere n false Eq classes classes := fun _ =>
    lockstep_many (fun _ => rfl) (fun t ht => by simp [startsClass, ht, Kind.isModifier])
      fun _ _ _ => lockstep_classDeclaration
  have hspace : ∀ n, Lockstep anywhere n false Eq namespaceBlock namespaceBlock := fun _ =>
    lockstep_expect_bind (by decide) fun _ _ _ => lockstep_token_bind fun _ _ _ _ =>
      lockstep_pass_bind lockstep_dottedName fun _ => lockstep_token_bind fun _ _ _ _ =>
        lockstep_bind (lockstep_perform rfl) fun _ => lockstep_expect_bind (by decide) fun _ _ _ =>
          lockstep_bind (hclasses _) fun _ => lockstep_expect_bind (by decide) fun _ _ _ =>
            lockstep_perform rfl
  have husings : ∀ n, Lockstep K n false Eq (many (fun t => t.kind = .kwUsing) usingDirective)
      (many (fun t => t.kind = .kwUsing) usingDirective) := fun _ =>
    lockstep_many (fun _ => rfl) (fun t ht => by simp [ht]) fun n _ _ => (husing n).here
  exact lockstep_bind (husings n) fun _ => lockstep_bind (lockstep_check _) fun _ =>
    lockstep_ite (lockstep_bind (hspace _) fun _ => lockstep_expectEnd)
      (lockstep_bind (hclasses _) fun _ => lockstep_expectEnd)

/-- Texts with the same tokens call for the same actions and have the same fault of form, but for
the lines. -/
theorem parse_alike {a b : Scan} (h : a.SameTokens b) :
    bareActions (parse a).1 = bareActions (parse b).1 ∧
      (parse a).2.map Fault.bare = (parse b).2.map Fault.bare := by
  have hstart : (Cursor.start a).Like (Cursor.start b) := ⟨rfl, rfl, h.tokens, h.ending⟩
  have hread := lockstep_bind (K := anywhere) lockstep_advance
    (fun _ => lockstep_program) _ _ hstart (Nat.le_refl _) trivial
  unfold parse
  dsimp only
  generalize (do advance; program : Parser Unit) (Cursor.start a) = x at hread ⊢
  generalize (do advance; program : Parser Unit) (Cursor.start b) = y at hread ⊢
  cases hread with
  | ok actions => exact ⟨actions, rfl⟩
  | error actions fault => exact ⟨actions, congrArg some fault⟩

end Grammar

end Triad
