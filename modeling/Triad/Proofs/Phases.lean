import Triad.Grammar

/-!
The order of actions. Reading goes through phases, and each action has its place in them: a method
is opened in the body of a class only, a value is used in the body of a method only, and so on. Main
statements: whatever the tokens are, and also where the reading ends with a fault, the actions
called for keep to the phases (`legal_parse`), with the declarations of a body before its code
(`ordered_parse`); a reading without a fault has met the end of the text (`ending_of_parse`).
-/

namespace Triad

inductive Phase
  /-- Nothing has been declared. -/
  | preface
  /-- Between classes. -/
  | file
  /-- Behind the name of a class. -/
  | classHead
  | classBody
  /-- Behind the name of a method. -/
  | methodHead
  | params
  /-- Behind the parameters of a method. -/
  | signature
  | body
  deriving DecidableEq, Repr

/-- Whether a fault is one of form: a token out of place, or what broke the text. -/
def Fault.IsForm (ending : Ending) (fault : Fault) : Prop :=
  (∃ line expected found, fault = .mismatch line expected found) ∨ ending = .broken fault

/-- What the code of a body is made from. -/
def Action.isCode : Action → Bool
  | load _ _ | literal _ | negate | binary _ | target _ _ | assign _ | call _ _ _ | result | park
  | returnValue | read _ _ | writeName _ _ | writeNumber _ | writeText _ | writeLine => true
  | _ => false

/-- Variables and constants are declared as they are; classes and methods have actions of their
own. -/
def Entity.isPlain : Entity → Bool
  | var _ _ _ => true
  | const _ _ => true
  | _ => false

namespace Phase

/-- The phase behind an action, if the action has its place here. -/
def next? : Phase → Action → Option Phase
  | φ, .scan _ => some φ
  | .preface, .usingName _ => some .preface
  | .preface, .openNamespace _ _ _ => some .file
  | .file, .closeNamespace => some .file
  | .file, .openClass _ _ => some .classHead
  | .classHead, .derive _ _ => some .classHead
  | .classHead, .openClassBody => some .classBody
  | .classBody, .declare _ _ entity => if entity.isPlain then some .classBody else none
  | .classBody, .openMethod _ _ _ => some .methodHead
  | .classBody, .openConstructor _ _ => some .methodHead
  | .classBody, .closeClass => some .file
  | .methodHead, .openParams => some .params
  | .params, .declare _ _ entity => if entity.isPlain then some .params else none
  | .params, .closeParams => some .signature
  | .signature, .openBody => some .body
  | .body, .declare _ _ entity => if entity.isPlain then some .body else none
  | .body, .sizeFrame => some .body
  | .body, .closeMethod => some .classBody
  | .body, action => if action.isCode then some .body else none
  | _, _ => none

/-- The actions keep to the phases from the first to the second. Where nothing has been declared,
classes may follow at once. -/
inductive Legal : Phase → List Action → Phase → Prop
  | nil (φ : Phase) : Legal φ [] φ
  | cons {φ χ ψ : Phase} {action : Action} {actions : List Action} (here : φ.next? action = some χ)
      (later : Legal χ actions ψ) : Legal φ (action :: actions) ψ
  | begin {ψ : Phase} {actions : List Action} (later : Legal .file actions ψ) :
      Legal .preface actions ψ

theorem Legal.append {φ χ ψ : Phase} {as bs : List Action} (has : Legal φ as χ)
    (hbs : Legal χ bs ψ) : Legal φ (as ++ bs) ψ := by
  induction has with
  | nil φ => exact hbs
  | cons here _ ih => exact .cons here (ih hbs)
  | begin _ ih => exact .begin (ih hbs)

theorem Legal.split {φ ψ : Phase} {as bs : List Action} (h : Legal φ (as ++ bs) ψ) :
    ∃ χ, Legal φ as χ ∧ Legal χ bs ψ := by
  generalize hall : as ++ bs = actions at h
  induction h generalizing as with
  | nil φ =>
    obtain ⟨rfl, rfl⟩ := List.append_eq_nil_iff.mp hall
    exact ⟨φ, .nil φ, .nil φ⟩
  | begin _ ih =>
    obtain ⟨χ, has, hbs⟩ := ih hall
    exact ⟨χ, .begin has, hbs⟩
  | @cons φ χ ψ action actions here later ih =>
    cases as with
    | nil =>
      subst hall
      exact ⟨φ, .nil φ, .cons here later⟩
    | cons a as =>
      cases hall
      obtain ⟨χ', has, hbs⟩ := ih rfl
      exact ⟨χ', .cons here has, hbs⟩

/-- Variables and constants are declared in classes, parameter lists and bodies. -/
theorem next_declare {φ : Phase} (hφ : φ ∈ [classBody, params, body]) (line : Nat) (name : String)
    (entity : Entity) (h : entity.isPlain = true) :
    φ.next? (.declare line name entity) = some φ := by
  simp only [List.mem_cons, List.not_mem_nil, or_false] at hφ
  rcases hφ with rfl | rfl | rfl <;> simp [next?, h]

end Phase

/-! ## Stages -/

/-- Where a reading stands, told more closely than by the phase: the body of a method begins with
its declarations. -/
inductive Stage
  | of (φ : Phase)
  /-- Behind the declarations of a body. -/
  | code
  deriving DecidableEq, Repr

namespace Stage

def phase : Stage → Phase
  | of φ => φ
  | code => .body

/-- Whether the stage has a place for an action that its phase has a place for. Parameters are
variables, and nothing is declared behind the declarations of a body. -/
def admits : Stage → Action → Bool
  | of .params, .declare _ _ entity => entity.isVar
  | of .body, .scan _ | of .body, .declare _ _ _ => true
  | of .body, _ => false
  | code, .declare _ _ _ => false
  | _, _ => true

/-- The stage in which the phase comes behind this one. -/
def toward : Stage → Phase → Stage
  | code, .body => code
  | _, φ => of φ

def next? (σ : Stage) (action : Action) : Option Stage :=
  if σ.admits action then (σ.phase.next? action).map σ.toward else none

theorem phase_toward (σ : Stage) (φ : Phase) : (σ.toward φ).phase = φ := by
  cases σ <;> cases φ <;> rfl

/-- The stages go through the phases. -/
theorem phase_of_next? {σ τ : Stage} {action : Action} (h : σ.next? action = some τ) :
    σ.admits action = true ∧ σ.phase.next? action = some τ.phase := by
  unfold next? at h
  split at h
  · rename_i hadmits
    obtain ⟨φ, hφ, rfl⟩ := Option.map_eq_some_iff.mp h
    exact ⟨hadmits, hφ.trans (congrArg some (phase_toward σ φ).symm)⟩
  · cases h

theorem eq_of_next? {φ : Phase} {τ : Stage} {action : Action}
    (h : (of φ).next? action = some τ) : τ = of τ.phase := by
  unfold next? at h
  split at h
  · obtain ⟨ψ, -, rfl⟩ := Option.map_eq_some_iff.mp h
    rfl
  · cases h

/-- The actions keep to the stages from the first to the second. The declarations of a body may end
anywhere. -/
inductive Ordered : Stage → List Action → Stage → Prop
  | nil (σ : Stage) : Ordered σ [] σ
  | cons {σ χ τ : Stage} {action : Action} {actions : List Action} (here : σ.next? action = some χ)
      (later : Ordered χ actions τ) : Ordered σ (action :: actions) τ
  | begin {τ : Stage} {actions : List Action} (later : Ordered (of .file) actions τ) :
      Ordered (of .preface) actions τ
  | settle {τ : Stage} {actions : List Action} (later : Ordered code actions τ) :
      Ordered (of .body) actions τ

theorem Ordered.append {σ χ τ : Stage} {as bs : List Action} (has : Ordered σ as χ)
    (hbs : Ordered χ bs τ) : Ordered σ (as ++ bs) τ := by
  induction has with
  | nil σ => exact hbs
  | cons here _ ih => exact .cons here (ih hbs)
  | begin _ ih => exact .begin (ih hbs)
  | settle _ ih => exact .settle (ih hbs)

theorem Ordered.split {σ τ : Stage} {as bs : List Action} (h : Ordered σ (as ++ bs) τ) :
    ∃ χ, Ordered σ as χ ∧ Ordered χ bs τ := by
  generalize hall : as ++ bs = actions at h
  induction h generalizing as with
  | nil σ =>
    obtain ⟨rfl, rfl⟩ := List.append_eq_nil_iff.mp hall
    exact ⟨σ, .nil σ, .nil σ⟩
  | begin _ ih =>
    obtain ⟨χ, has, hbs⟩ := ih hall
    exact ⟨χ, .begin has, hbs⟩
  | settle _ ih =>
    obtain ⟨χ, has, hbs⟩ := ih hall
    exact ⟨χ, .settle has, hbs⟩
  | @cons σ χ τ action actions here later ih =>
    cases as with
    | nil =>
      subst hall
      exact ⟨σ, .nil σ, .cons here later⟩
    | cons a as =>
      cases hall
      obtain ⟨χ', has, hbs⟩ := ih rfl
      exact ⟨χ', .cons here has, hbs⟩

theorem Ordered.legal {σ τ : Stage} {actions : List Action} (h : Ordered σ actions τ) :
    Phase.Legal σ.phase actions τ.phase := by
  induction h with
  | nil σ => exact .nil _
  | cons here _ ih => exact .cons (phase_of_next? here).2 ih
  | begin _ ih => exact .begin ih
  | settle _ ih => exact ih

theorem ordered_scans (σ : Stage) (items : List Scanned) : Ordered σ (items.map .scan) σ := by
  have hscan : ∀ item, σ.next? (.scan item) = some σ := by
    intro item
    cases σ with
    | of φ => cases φ <;> rfl
    | code => rfl
  induction items with
  | nil => exact .nil σ
  | cons item items ih => exact .cons (hscan item) ih

/-- Variables and constants are declared in classes and at the beginning of bodies. -/
theorem next_declare {φ : Phase} (hφ : φ ∈ [Phase.classBody, .body]) (line : Nat) (name : String)
    (entity : Entity) (h : entity.isPlain = true) :
    (of φ).next? (.declare line name entity) = some (of φ) := by
  simp only [List.mem_cons, List.not_mem_nil, or_false] at hφ
  rcases hφ with rfl | rfl <;> simp [next?, admits, phase, Phase.next?, h, toward]

end Stage

/-! ## Texts that break off -/

namespace Cursor

/-- The text breaks off, and nothing ahead marks its end. -/
structure BreaksOff (c : Cursor) : Prop where
  ending : ∃ fault, c.ending = .broken fault
  peeked : ∀ t, c.peeked = some t → t.kind ≠ .eof
  rest : ∀ item ∈ c.rest, item.token.kind ≠ .eof

theorem error_of_pull {ending : Ending} {items scanned : List Scanned} {fault : Fault}
    (h : pull ending items = (scanned, .error fault)) : ending = .broken fault := by
  induction items generalizing scanned with
  | nil =>
    cases ending with
    | eof line => cases h
    | broken fault' =>
      cases h
      rfl
  | cons item items ih =>
    rw [pull] at h
    split at h
    · rcases hpull : pull ending items with ⟨scanned', result⟩
      rw [hpull] at h
      cases h
      exact ih hpull
    · cases h

theorem ok_of_pull {fault : Fault} {items scanned rest : List Scanned} {t : Token}
    (h : pull (.broken fault) items = (scanned, .ok (t, rest))) :
    ∃ item ∈ items, item.token = t ∧ rest ⊆ items := by
  induction items generalizing scanned with
  | nil => cases h
  | cons item items ih =>
    rw [pull] at h
    split at h
    · rcases hpull : pull (.broken fault) items with ⟨scanned', result⟩
      rw [hpull] at h
      cases h
      obtain ⟨item', hmem, htoken, hsub⟩ := ih hpull
      exact ⟨item', List.mem_cons_of_mem _ hmem, htoken,
        List.Subset.trans hsub (List.subset_cons_self _ _)⟩
    · cases h
      exact ⟨item, List.mem_cons_self, rfl, List.subset_cons_self _ _⟩

/-- Advancing fails only where the text breaks off, and comes to no mark of an end before that. -/
theorem advance_spec (c : Cursor) :
    match c.advance with
    | (_, .ok c') =>
      c'.ending = c.ending ∧ (c.BreaksOff → c'.BreaksOff ∧ c'.current.kind ≠ .eof)
    | (_, .error fault) => c.ending = .broken fault := by
  unfold advance
  cases hpeeked : c.peeked with
  | some t => exact ⟨rfl, fun h => ⟨⟨h.ending, nofun, h.rest⟩, h.peeked t hpeeked⟩⟩
  | none =>
    dsimp only
    rcases hpull : pull c.ending c.rest with ⟨scanned, fault | ⟨t, rest⟩⟩
    · exact error_of_pull hpull
    · refine ⟨rfl, fun h => ?_⟩
      obtain ⟨fault, hfault⟩ := h.ending
      rw [hfault] at hpull
      obtain ⟨item, hmem, rfl, hsub⟩ := ok_of_pull hpull
      exact ⟨⟨h.ending, nofun, fun i hi => h.rest i (hsub hi)⟩, h.rest item hmem⟩

theorem peek_spec (c : Cursor) :
    match c.peek with
    | (_, .ok (_, c')) =>
      c'.ending = c.ending ∧ c'.current = c.current ∧ (c.BreaksOff → c'.BreaksOff)
    | (_, .error fault) => c.ending = .broken fault := by
  unfold peek
  cases hpeeked : c.peeked with
  | some t => exact ⟨rfl, rfl, id⟩
  | none =>
    dsimp only
    rcases hpull : pull c.ending c.rest with ⟨scanned, fault | ⟨t, rest⟩⟩
    · exact error_of_pull hpull
    · refine ⟨rfl, rfl, fun h => ?_⟩
      obtain ⟨fault, hfault⟩ := h.ending
      rw [hfault] at hpull
      obtain ⟨item, hmem, rfl, hsub⟩ := ok_of_pull hpull
      refine ⟨h.ending, ?_, fun i hi => h.rest i (hsub hi)⟩
      rintro _ ⟨⟩
      exact h.rest item hmem

/-- The second cursor is on the way from the first one through the same text. It does not come to a
mark of the end that the text does not have. -/
structure Onward (c c' : Cursor) : Prop where
  ending : c'.ending = c.ending
  unended : c.BreaksOff ∧ c.current.kind ≠ .eof → c'.BreaksOff ∧ c'.current.kind ≠ .eof

theorem Onward.refl (c : Cursor) : c.Onward c := ⟨rfl, id⟩

theorem Onward.trans {c c' c'' : Cursor} (h : c.Onward c') (h' : c'.Onward c'') : c.Onward c'' :=
  ⟨h'.ending.trans h.ending, h'.unended ∘ h.unended⟩

end Cursor

namespace Parser

open Stage

variable {α β : Type} {σ χ τ : Stage}

/-- The actions of the parser keep to the stages, from the first to the second one if it succeeds,
and from the first one on if it fails. A failure is for a token out of place or for the end of the
text, which no parser changes. -/
def Obeys (σ : Stage) (p : Parser α) (τ : Stage) : Prop :=
  ∀ c : Cursor,
    match (p c).result with
    | .ok (_, c') => Ordered σ (p c).actions τ ∧ c.Onward c'
    | .error fault => (∃ χ, Ordered σ (p c).actions χ) ∧ fault.IsForm c.ending

theorem obeys_bind {p : Parser α} {f : α → Parser β} (hp : Obeys σ p χ)
    (hf : ∀ a, Obeys χ (f a) τ) : Obeys σ (p >>= f) τ := by
  intro c
  have hpc := hp c
  rcases hp' : p c with ⟨acts, fault | ⟨a, c'⟩⟩
  · rw [hp'] at hpc
    rw [bind_error hp']
    exact hpc
  · rw [hp'] at hpc
    obtain ⟨hacts, honward⟩ := hpc
    have hfc := hf a c'
    rw [bind_ok hp']
    rcases hf' : f a c' with ⟨acts', fault | ⟨b, c''⟩⟩
    · rw [hf'] at hfc
      obtain ⟨⟨χ', hacts'⟩, hfault⟩ := hfc
      exact ⟨⟨χ', hacts.append hacts'⟩, honward.ending ▸ hfault⟩
    · rw [hf'] at hfc
      exact ⟨hacts.append hfc.1, honward.trans hfc.2⟩

/-- A stage that another one may come behind without an action. -/
theorem obeys_before {p : Parser α}
    (h : ∀ actions χ, Ordered τ actions χ → Ordered σ actions χ) (hp : Obeys τ p χ) :
    Obeys σ p χ := by
  intro c
  have hc := hp c
  split
  · rename_i hresult
    rw [hresult] at hc
    exact ⟨h _ _ hc.1, hc.2⟩
  · rename_i hresult
    rw [hresult] at hc
    obtain ⟨⟨χ, hχ⟩, hfault⟩ := hc
    exact ⟨⟨χ, h _ _ hχ⟩, hfault⟩

/-! ## Parsers that call for nothing -/

theorem obeys_pure (a : α) : Obeys σ (pure a) σ := fun c => ⟨.nil σ, .refl c⟩

theorem obeys_token : Obeys σ token σ := fun c => ⟨.nil σ, .refl c⟩

theorem obeys_remaining : Obeys σ remaining σ := fun c => ⟨.nil σ, .refl c⟩

theorem obeys_advance : Obeys σ advance σ := by
  intro c
  have hspec := c.advance_spec
  unfold advance
  rcases hadvance : c.advance with ⟨scanned, fault | c'⟩
  · rw [hadvance] at hspec
    exact ⟨⟨σ, ordered_scans σ scanned⟩, .inr hspec⟩
  · rw [hadvance] at hspec
    exact ⟨ordered_scans σ scanned, hspec.1, fun h => hspec.2 h.1⟩

theorem obeys_peek : Obeys σ peek σ := by
  intro c
  have hspec := c.peek_spec
  unfold peek
  rcases hpeek : c.peek with ⟨scanned, fault | ⟨kind, c'⟩⟩
  · rw [hpeek] at hspec
    exact ⟨⟨σ, ordered_scans σ scanned⟩, .inr hspec⟩
  · rw [hpeek] at hspec
    obtain ⟨hending, hcurrent, hbreaks⟩ := hspec
    exact ⟨ordered_scans σ scanned, hending, fun h => ⟨hbreaks h.1, hcurrent ▸ h.2⟩⟩

theorem obeys_mismatch (expected : String) : Obeys σ (mismatch expected : Parser α) τ :=
  fun _ => ⟨⟨σ, .nil σ⟩, .inl ⟨_, _, _, rfl⟩⟩

theorem obeys_ite {c : Prop} [Decidable c] {p q : Parser α} (hp : Obeys σ p τ) (hq : Obeys σ q τ) :
    Obeys σ (if c then p else q) τ := by
  split
  · exact hp
  · exact hq

theorem obeys_check (kind : Kind) : Obeys σ (check kind) σ :=
  obeys_bind obeys_token fun _ => obeys_pure _

theorem obeys_consume (kind : Kind) : Obeys σ (consume kind) σ :=
  obeys_bind (obeys_check kind) fun _ =>
    obeys_ite (obeys_bind obeys_advance fun _ => obeys_pure _) (obeys_pure _)

theorem obeys_expect (kind : Kind) : Obeys σ (expect kind) σ :=
  obeys_bind obeys_token fun _ =>
    obeys_ite (obeys_bind obeys_advance fun _ => obeys_pure _) (obeys_mismatch _)

theorem obeys_expectEnd : Obeys σ expectEnd σ :=
  obeys_bind obeys_token fun _ => obeys_ite (obeys_pure _) (obeys_mismatch _)

theorem obeys_expectName : Obeys σ expectName σ :=
  obeys_bind (obeys_expect _) fun _ => obeys_pure _

theorem obeys_nameAhead : Obeys σ nameAhead σ :=
  obeys_bind obeys_token fun _ => obeys_ite (obeys_pure _) (obeys_mismatch _)

/-! ## Actions and repetition -/

theorem obeys_perform {action : Action} (h : σ.next? action = some τ) :
    Obeys σ (perform action) τ :=
  fun c => ⟨.cons h (.nil τ), .refl c⟩

theorem obeys_many {test : Token → Bool} {item : Parser Unit} (hitem : Obeys σ item σ) :
    Obeys σ (many test item) σ := by
  refine obeys_bind obeys_remaining fun n => ?_
  induction n with
  | zero => exact obeys_pure ()
  | succ n ih =>
    exact obeys_bind obeys_token fun _ => obeys_ite (obeys_bind hitem fun _ => ih) (obeys_pure ())

theorem obeys_list {item : Parser Unit} (hitem : Obeys σ item σ) : Obeys σ (list item) σ := by
  refine obeys_bind obeys_remaining fun n => ?_
  induction n with
  | zero => exact obeys_bind hitem fun _ => obeys_pure _
  | succ n ih =>
    exact obeys_bind hitem fun _ => obeys_bind (obeys_consume _) fun _ =>
      obeys_ite (obeys_bind ih fun _ => obeys_pure _) (obeys_pure _)

theorem obeys_dottedName : Obeys σ dottedName σ := by
  refine obeys_bind obeys_expectName fun name => obeys_bind obeys_remaining fun n => ?_
  induction n generalizing name with
  | zero => exact obeys_pure _
  | succ n ih =>
    exact obeys_bind (obeys_consume _) fun _ =>
      obeys_ite (obeys_bind obeys_expectName fun _ => ih _) (obeys_pure _)

end Parser

namespace Grammar

open Triad.Parser Stage

/-! ## Bodies -/

theorem obeys_chain {kinds : List Kind} {operand : Parser Unit}
    (hoperand : Obeys .code operand .code) (n : Nat) :
    Obeys .code (chain kinds operand n) .code := by
  refine obeys_bind hoperand fun _ => ?_
  induction n with
  | zero => exact obeys_pure ()
  | succ n ih =>
    refine obeys_bind obeys_token fun t => ?_
    split
    · exact obeys_bind obeys_advance fun _ => obeys_bind hoperand fun _ =>
        obeys_bind (obeys_perform rfl) fun _ => ih
    · exact obeys_pure ()

theorem obeys_exprOver {factor : Parser Unit} (hfactor : Obeys .code factor .code) (n : Nat) :
    Obeys .code (exprOver factor n) .code :=
  obeys_chain (obeys_chain hfactor n) n

theorem obeys_factorWithin (n : Nat) : Obeys .code (factorWithin n) .code := by
  induction n with
  | zero => exact obeys_mismatch _
  | succ n ih =>
    refine obeys_bind obeys_token fun t => ?_
    split
    · exact obeys_bind (obeys_perform rfl) fun _ => obeys_advance
    · exact obeys_bind obeys_advance fun _ => obeys_perform rfl
    · exact obeys_bind obeys_advance fun _ => obeys_perform rfl
    · exact obeys_bind obeys_advance fun _ => obeys_bind (obeys_exprOver ih n) fun _ =>
        obeys_bind (obeys_expect _) fun _ => obeys_pure ()
    · exact obeys_bind obeys_advance fun _ => obeys_bind ih fun _ => obeys_perform rfl
    · exact obeys_mismatch _

theorem obeys_expr : Obeys .code expr .code :=
  obeys_bind obeys_remaining fun n => obeys_exprOver (obeys_factorWithin n) n

theorem obeys_atCall {σ : Stage} : Obeys σ atCall σ :=
  obeys_bind (obeys_check _) fun _ =>
    obeys_ite (obeys_bind obeys_peek fun _ => obeys_pure _) (obeys_pure _)

theorem obeys_call : Obeys .code call .code := by
  refine obeys_bind obeys_expectName fun first => obeys_bind (obeys_consume _) fun qualified => ?_
  have harguments : Obeys .code arguments .code :=
    obeys_bind (obeys_check _) fun _ => obeys_ite (obeys_pure _) (obeys_list obeys_expr)
  have hrest : ∀ method, Obeys .code (do
      let _ ← expect .leftParen
      let count ← arguments
      let _ ← expect .rightParen
      perform (.call (if qualified then some first else none) method count)) .code :=
    fun method => obeys_bind (obeys_expect _) fun _ => obeys_bind harguments fun _ =>
      obeys_bind (obeys_expect _) fun _ => obeys_perform rfl
  exact obeys_ite (obeys_bind obeys_expectName hrest) (obeys_bind (obeys_pure _) hrest)

theorem obeys_assignment {σ : Stage} : Obeys σ assignment σ := by
  refine obeys_bind obeys_token fun t => obeys_ite ?_ (obeys_mismatch _)
  split
  · exact obeys_bind obeys_advance fun _ => obeys_pure _
  · exact obeys_mismatch _

theorem obeys_assignStatement : Obeys .code assignStatement .code := by
  refine obeys_bind obeys_atCall fun _ => obeys_ite obeys_call ?_
  refine obeys_bind obeys_token fun t => obeys_bind (obeys_perform rfl) fun _ =>
    obeys_bind obeys_advance fun _ => obeys_bind obeys_assignment fun op =>
      obeys_bind obeys_atCall fun _ => obeys_ite ?_ ?_
  · have hresult : Stage.code.next? (if op.isSome then .park else .result) = some .code := by
      cases op <;> rfl
    exact obeys_bind obeys_call fun _ => obeys_bind (obeys_perform hresult) fun _ =>
      obeys_perform rfl
  · exact obeys_bind obeys_expr fun _ => obeys_perform rfl

theorem obeys_readStatement : Obeys .code readStatement .code := by
  have hitem : Obeys .code readItem .code :=
    obeys_bind obeys_nameAhead fun _ => obeys_bind (obeys_perform rfl) fun _ => obeys_advance
  exact obeys_bind (obeys_expect _) fun _ => obeys_bind (obeys_expect _) fun _ =>
    obeys_bind (obeys_list hitem) fun _ => obeys_bind (obeys_expect _) fun _ => obeys_pure ()

theorem obeys_writeItem : Obeys .code writeItem .code := by
  refine obeys_bind obeys_token fun t => ?_
  dsimp only
  split
  · exact obeys_bind (obeys_perform rfl) fun _ => obeys_advance
  · exact obeys_bind (obeys_perform rfl) fun _ => obeys_advance
  · exact obeys_bind (obeys_perform rfl) fun _ => obeys_advance
  · exact obeys_bind (obeys_perform rfl) fun _ => obeys_advance
  · exact obeys_bind (obeys_mismatch _) fun _ => obeys_advance

theorem obeys_writeStatement : Obeys .code writeStatement .code := by
  have hend : ∀ newline : Bool, Obeys .code (do
      let _ ← expect .rightParen
      if newline then perform .writeLine) .code :=
    fun _ => obeys_bind (obeys_expect _) fun _ => obeys_ite (obeys_perform rfl) (obeys_pure ())
  exact obeys_bind (obeys_check _) fun newline => obeys_bind obeys_advance fun _ =>
    obeys_bind (obeys_expect _) fun _ => obeys_bind (obeys_check _) fun _ =>
      obeys_ite (hend newline) (obeys_bind (obeys_list obeys_writeItem) fun _ => hend newline)

theorem obeys_statement : Obeys .code statement .code := by
  have hend : Obeys .code (do let _ ← expect .semicolon) .code :=
    obeys_bind (obeys_expect _) fun _ => obeys_pure ()
  refine obeys_bind obeys_token fun t => ?_
  dsimp only
  split
  · exact obeys_bind obeys_assignStatement fun _ => hend
  · exact obeys_bind obeys_readStatement fun _ => hend
  · exact obeys_bind obeys_writeStatement fun _ => hend

theorem obeys_returnStatement : Obeys .code returnStatement .code := by
  have hend : Obeys .code (do let _ ← expect .semicolon) .code :=
    obeys_bind (obeys_expect _) fun _ => obeys_pure ()
  exact obeys_bind (obeys_expect _) fun _ => obeys_bind (obeys_check _) fun _ =>
    obeys_ite hend (obeys_bind obeys_expr fun _ => obeys_bind (obeys_perform rfl) fun _ => hend)

/-! ## Declarations -/

section Declarations

variable {σ : Stage}

theorem obeys_valueType : Obeys σ valueType σ := by
  refine obeys_bind obeys_token fun t => ?_
  split
  · exact obeys_bind obeys_advance fun _ => obeys_pure _
  · exact obeys_mismatch _

theorem obeys_modifiers : Obeys σ modifiers σ := obeys_many obeys_advance

theorem obeys_constantValue (type : ValueType) (negative : Bool) :
    Obeys σ (constantValue type negative) σ := by
  refine obeys_bind obeys_token fun t => ?_
  split
  · exact obeys_pure _
  · exact obeys_pure _
  · refine obeys_ite (obeys_mismatch _) ?_
    split
    · exact obeys_pure _
    · exact obeys_mismatch _
  · exact obeys_mismatch _

variable (hσ : ∀ line name entity, entity.isPlain = true →
  σ.next? (.declare line name entity) = some σ)
include hσ

theorem obeys_constants : Obeys σ constants σ := by
  have hitem : ∀ type, Obeys σ (constant type) σ := by
    intro type
    refine obeys_bind obeys_expectName fun name => obeys_bind (obeys_expect _) fun op =>
      obeys_ite ?_ (obeys_mismatch _)
    exact obeys_bind (obeys_consume _) fun _ => obeys_bind (obeys_constantValue _ _) fun _ =>
      obeys_bind obeys_token fun _ => obeys_bind (obeys_perform (hσ _ _ _ rfl)) fun _ =>
        obeys_advance
  exact obeys_bind (obeys_expect _) fun _ => obeys_bind obeys_valueType fun type =>
    obeys_bind (obeys_list (hitem type)) fun _ => obeys_bind (obeys_expect _) fun _ => obeys_pure ()

theorem obeys_variableList (type : ValueType) : Obeys σ (variableList type) σ := by
  have hitem : Obeys σ (variableItem type) σ :=
    obeys_bind obeys_nameAhead fun _ => obeys_bind (obeys_perform (hσ _ _ _ rfl)) fun _ =>
      obeys_advance
  exact obeys_bind (obeys_list hitem) fun _ => obeys_bind (obeys_expect _) fun _ => obeys_pure ()

theorem obeys_declaration : Obeys σ declaration σ :=
  obeys_bind (obeys_check _) fun _ => obeys_ite (obeys_constants hσ)
    (obeys_bind obeys_valueType fun type => obeys_variableList hσ type)

end Declarations

theorem obeys_param : Obeys (.of .params) param (.of .params) := by
  have hrest : ∀ mode, Obeys (.of .params) (do
      let type ← valueType
      let t ← nameAhead
      perform (.declare t.line t.lexeme (.var type mode 0))
      advance) (.of .params) :=
    fun mode => obeys_bind obeys_valueType fun _ => obeys_bind obeys_nameAhead fun _ =>
      obeys_bind (obeys_perform (τ := .of .params) rfl) fun _ => obeys_advance
  exact obeys_bind obeys_token fun _ =>
    obeys_ite (obeys_bind obeys_advance fun _ => hrest _) (hrest _)

/-! ## Methods and classes -/

theorem obeys_params : Obeys (.of .methodHead) params (.of .signature) := by
  have hend : Obeys (.of .params) (do
      let _ ← expect .rightParen
      perform .closeParams) (.of .signature) :=
    obeys_bind (obeys_expect _) fun _ => obeys_perform rfl
  have hlist : Obeys (.of .params) (list param) (.of .params) := obeys_list obeys_param
  exact obeys_bind (obeys_expect _) fun _ =>
    obeys_bind (obeys_perform (τ := .of .params) rfl) fun _ =>
      obeys_bind (obeys_check _) fun _ => obeys_ite hend (obeys_bind hlist fun _ => hend)

theorem obeys_body : Obeys (.of .signature) body .code := by
  have hcode : Obeys .code (do
      many startsStatement statement
      if ← check .kwReturn then returnStatement) .code :=
    obeys_bind (obeys_many obeys_statement) fun _ => obeys_bind (obeys_check _) fun _ =>
      obeys_ite obeys_returnStatement (obeys_pure ())
  exact obeys_bind (obeys_expect _) fun _ =>
    obeys_bind (obeys_perform (τ := .of .body) rfl) fun _ =>
      obeys_bind (obeys_many (obeys_declaration (next_declare (by decide)))) fun _ =>
        obeys_before (fun _ _ => .settle) hcode

theorem obeys_method (returns : ValueType) :
    Obeys (.of .classBody) (method returns) (.of .classBody) :=
  obeys_bind obeys_token fun _ => obeys_bind (obeys_perform (τ := .of .methodHead) rfl) fun _ =>
    obeys_bind obeys_advance fun _ => obeys_bind obeys_params fun _ =>
      obeys_bind obeys_body fun _ => obeys_bind (obeys_expect _) fun _ => obeys_perform rfl

theorem obeys_constructor : Obeys (.of .classBody) constructor (.of .classBody) :=
  obeys_bind obeys_token fun _ => obeys_bind (obeys_perform (τ := .of .methodHead) rfl) fun _ =>
    obeys_bind obeys_advance fun _ => obeys_bind obeys_params fun _ =>
      obeys_bind obeys_body fun _ => obeys_bind (obeys_perform (τ := .code) rfl) fun _ =>
        obeys_bind (obeys_expect _) fun _ => obeys_perform rfl

theorem obeys_atSignature {σ : Stage} (test : String → Bool) : Obeys σ (atSignature test) σ :=
  obeys_bind obeys_token fun _ =>
    obeys_ite (obeys_bind obeys_peek fun _ => obeys_pure _) (obeys_pure _)

theorem obeys_member (className : String) :
    Obeys (.of .classBody) (member className) (.of .classBody) := by
  have hdeclare := fun line name entity =>
    Stage.next_declare (φ := .classBody) (by decide) line name entity
  exact obeys_bind obeys_modifiers fun _ => obeys_bind (obeys_check _) fun _ =>
    obeys_ite (obeys_constants hdeclare) (obeys_bind (obeys_atSignature _) fun _ =>
      obeys_ite obeys_constructor (obeys_bind obeys_valueType fun type =>
        obeys_bind (obeys_atSignature _) fun _ =>
          obeys_ite (obeys_method type) (obeys_variableList hdeclare type)))

theorem obeys_classDeclaration : Obeys (.of .file) classDeclaration (.of .file) := by
  refine obeys_bind obeys_modifiers fun _ => obeys_bind (obeys_expect _) fun _ =>
    obeys_bind obeys_nameAhead fun t =>
      obeys_bind (obeys_perform (τ := .of .classHead) rfl) fun _ =>
        obeys_bind obeys_advance fun _ => obeys_bind (obeys_consume _) fun _ => ?_
  have hrest : Obeys (.of .classHead) (do
      let _ ← expect .leftBrace
      perform .openClassBody
      many (startsMember t.lexeme) (member t.lexeme)
      let _ ← expect .rightBrace
      perform .closeClass) (.of .file) :=
    obeys_bind (obeys_expect _) fun _ =>
      obeys_bind (obeys_perform (τ := .of .classBody) rfl) fun _ =>
        obeys_bind (obeys_many (obeys_member _)) fun _ =>
          obeys_bind (obeys_expect _) fun _ => obeys_perform rfl
  exact obeys_ite (obeys_bind obeys_dottedName fun _ =>
    obeys_bind (obeys_perform (τ := .of .classHead) rfl) fun _ => hrest) hrest

/-! ## Programs -/

theorem obeys_program : Obeys (.of .preface) program (.of .file) := by
  have husing : Obeys (.of .preface) usingDirective (.of .preface) :=
    obeys_bind (obeys_expect _) fun _ => obeys_bind obeys_dottedName fun _ =>
      obeys_bind (obeys_perform (τ := .of .preface) rfl) fun _ =>
        obeys_bind (obeys_expect _) fun _ => obeys_pure ()
  have hclasses : Obeys (.of .file) classes (.of .file) := obeys_many obeys_classDeclaration
  have hspace : Obeys (.of .preface) namespaceBlock (.of .file) :=
    obeys_bind (obeys_expect _) fun _ => obeys_bind obeys_token fun _ =>
      obeys_bind obeys_dottedName fun _ => obeys_bind obeys_token fun _ =>
        obeys_bind (obeys_perform (τ := .of .file) rfl) fun _ =>
          obeys_bind (obeys_expect _) fun _ => obeys_bind hclasses fun _ =>
            obeys_bind (obeys_expect _) fun _ => obeys_perform rfl
  have hbare : Obeys (.of .preface) classes (.of .file) :=
    obeys_before (fun _ _ => .begin) hclasses
  exact obeys_bind (obeys_many husing) fun _ => obeys_bind (obeys_check _) fun _ =>
    obeys_ite (obeys_bind hspace fun _ => obeys_expectEnd)
      (obeys_bind hbare fun _ => obeys_expectEnd)

/-- A parser that succeeds at the mark of the end only. -/
def Ends {α : Type} (p : Parser α) : Prop :=
  ∀ c a c', (p c).result = .ok (a, c') → c'.current.kind = .eof

theorem ends_bind {α β : Type} {p : Parser α} {f : α → Parser β} (hf : ∀ a, Ends (f a)) :
    Ends (p >>= f) := by
  intro c b c' hok
  rcases hp : p c with ⟨acts, fault | ⟨a, c₁⟩⟩
  · rw [bind_error hp] at hok
    cases hok
  · rw [bind_ok hp] at hok
    exact hf a c₁ b c' hok

theorem ends_expectEnd : Ends expectEnd := by
  intro c a c' hok
  have htoken : token c = ⟨[], .ok (c.current, c)⟩ := rfl
  unfold expectEnd at hok
  rw [bind_ok htoken] at hok
  split at hok
  · cases hok
    assumption
  · cases hok

theorem ends_program : Ends program := by
  refine ends_bind fun _ => ends_bind fun b => ?_
  cases b with
  | true => exact ends_bind fun _ => ends_expectEnd
  | false => exact ends_bind fun _ => ends_expectEnd

/-- Whatever is read, its actions keep to the stages, and reading fails for the form of the text
only. -/
theorem ordered_parse (scan : Scan) :
    match (parse scan).2 with
    | none => Ordered (.of .preface) (parse scan).1 (.of .file)
    | some fault =>
      (∃ τ, Ordered (.of .preface) (parse scan).1 τ) ∧ fault.IsForm scan.ending := by
  have h : Obeys (.of .preface) (do advance; program : Parser Unit) (.of .file) :=
    obeys_bind obeys_advance fun _ => obeys_program
  have hstart := h (Cursor.start scan)
  unfold parse
  dsimp only
  rcases hresult : ((do advance; program : Parser Unit) (Cursor.start scan)).result with
    fault | result
  · rw [hresult] at hstart
    exact hstart
  · rw [hresult] at hstart
    exact hstart.1

theorem exists_ordered (scan : Scan) : ∃ τ, Ordered (.of .preface) (parse scan).1 τ := by
  have h := ordered_parse scan
  split at h
  · exact ⟨_, h⟩
  · exact h.1

/-- Whatever is read, its actions keep to the phases, and reading fails for the form of the text
only. -/
theorem legal_parse (scan : Scan) :
    match (parse scan).2 with
    | none => Phase.Legal .preface (parse scan).1 .file
    | some fault => (∃ φ, Phase.Legal .preface (parse scan).1 φ) ∧ fault.IsForm scan.ending := by
  have h := ordered_parse scan
  split at h
  · exact h.legal
  · obtain ⟨⟨τ, hτ⟩, hfault⟩ := h
    exact ⟨⟨τ.phase, hτ.legal⟩, hfault⟩

/-- A text that is read to its end has one. -/
theorem ending_of_parse {scan : Scan} (hitems : ∀ item ∈ scan.items, item.token.kind ≠ .eof)
    (h : (parse scan).2 = none) : ∃ line, scan.ending = .eof line := by
  cases hending : scan.ending with
  | eof line => exact ⟨line, rfl⟩
  | broken fault =>
    have hstart : (Cursor.start scan).BreaksOff := ⟨⟨fault, hending⟩, nofun, hitems⟩
    have hspec := (Cursor.start scan).advance_spec
    unfold parse at h
    dsimp only at h
    rcases hresult : ((do advance; program : Parser Unit) (Cursor.start scan)).result with
      fault' | ⟨u, c'⟩
    · rw [hresult] at h
      cases h
    · have hend : c'.current.kind = .eof :=
        ends_bind (p := advance) (fun _ => ends_program) _ u c' hresult
      rcases hadvance : (Cursor.start scan).advance with ⟨scanned, fault' | c₁⟩
      · have hfirst : advance (Cursor.start scan) = ⟨scanned.map .scan, .error fault'⟩ := by
          rw [advance, hadvance]
        rw [bind_error hfirst] at hresult
        cases hresult
      · have hfirst : advance (Cursor.start scan) = ⟨scanned.map .scan, .ok ((), c₁)⟩ := by
          rw [advance, hadvance]
        rw [hadvance] at hspec
        rw [bind_ok hfirst] at hresult
        have honward := obeys_program c₁
        rw [hresult] at honward
        exact absurd hend (honward.2.unended (hspec.2 hstart)).2

end Grammar

/-! ## Places in a list of actions -/

namespace Action

/-- What comes before the first action like `a`. -/
def before (a : Action) (actions : List Action) : List Action :=
  actions.takeWhile fun b => b ≠ a

def behind (a : Action) (actions : List Action) : List Action :=
  (actions.dropWhile fun b => b ≠ a).tail

theorem eq_before_behind {a : Action} {actions : List Action} (h : a ∈ actions) :
    actions = a.before actions ++ a :: a.behind actions := by
  induction actions with
  | nil => cases h
  | cons b actions ih =>
    rw [before, behind]
    by_cases heq : b = a
    · simp [heq]
    · rw [List.takeWhile_cons_of_pos (by simpa using heq),
        List.dropWhile_cons_of_pos (by simpa using heq), List.cons_append]
      exact congrArg (b :: ·) (ih (List.mem_of_ne_of_mem (Ne.symm heq) h))

theorem not_mem_before (a : Action) (actions : List Action) : a ∉ a.before actions := by
  intro ha
  have hne := List.all_eq_true.mp List.all_takeWhile a ha
  simp at hne

end Action

end Triad
