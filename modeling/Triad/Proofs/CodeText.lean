import Triad.Proofs.Temporaries

/-!
The text of three-address code. An instruction is a line of words with blanks between them, and an
indented line has two empty words in front. From words the operands and instructions can be read
back (`Operand.ofWord_render`, `Instr.ofWords?_words`). Main statement: code with legible names and
numbers is told by its text (`eq_of_render`).
-/

namespace Triad

open Triad.Text

/-! ## Legible code -/

/-- The text begins like a name. -/
def beginsWord (text : List Char) : Bool := text.head?.any opensWord

def isIdentifier (name : List Char) : Bool := beginsWord name && name.all continuesWord

/-- Digits with at most one point behind the first of them, and perhaps a sign in front. -/
def isSignedDecimal (text : List Char) : Bool :=
  let digits := if text.head? == some '-' then text.tail else text
  digits.head?.any isDigit && digits.all Head.inNumber && decide (digits.count '.' ≤ 1)

/-- There is no white space in the name. -/
def isSolid (name : String) : Bool := name.toList.all fun c => !isWhiteSpace c

def Operand.isLegible : Operand → Bool
  | literal text => isSignedDecimal text.toList
  | frame _ => true
  | global name => isIdentifier name.toList && name != "_AX"
  | accumulator => true

/-- No instruction negates a number, since its sign would be taken for that of the number. -/
def Instr.isLegible : Instr → Bool
  | proc name | endp name | call name | writeStr name | start name => isSolid name
  | push o | readInt o | writeInt o => o.isLegible
  | binary dest left _ right => dest.isLegible && left.isLegible && right.isLegible
  | assign dest source => dest.isLegible && source.isLegible
  | negate dest source => dest.isLegible && source.isLegible && !source.isLiteral
  | writeLn => true

/-! ## Beginnings -/

/-- Letters come behind the digits. -/
theorem le_of_opensWord {c : Char} (h : opensWord c = true) : 65 ≤ c.toNat := by
  simp only [opensWord, Bool.or_eq_true, beq_iff_eq] at h
  rcases h with h | rfl
  · have hrange : isLetter c = (decide (65 ≤ c.toNat) && _) := rfl
    rw [hrange, Bool.and_eq_true] at h
    exact of_decide_eq_true h.1
  · decide

theorem opensWord_of_isDigit {c : Char} (h : isDigit c = true) : opensWord c = false := by
  simp only [isDigit, Bool.and_eq_true, decide_eq_true_eq] at h
  have hle : c.toNat ≤ 57 := h.2
  refine Bool.eq_false_iff.mpr fun hopens => ?_
  have hge := le_of_opensWord hopens
  omega

theorem beginsWord_of_digit {text : List Char} (h : text.head?.any isDigit = true) :
    beginsWord text = false := by
  cases text with
  | nil => cases h
  | cons c text => exact opensWord_of_isDigit h

theorem beginsWord_of_isSignedDecimal {text : List Char} (h : isSignedDecimal text = true) :
    beginsWord text = false := by
  simp only [isSignedDecimal, Bool.and_eq_true] at h
  split at h
  · rename_i hsign
    rw [beginsWord, eq_of_beq hsign]
    decide +kernel
  · exact beginsWord_of_digit h.1.1

/-- Behind the sign of a number comes no name. -/
theorem beginsWord_of_sign {text : List Char} (h : isSignedDecimal ('-' :: text) = true) :
    beginsWord text = false := by
  simp only [isSignedDecimal, Bool.and_eq_true] at h
  exact beginsWord_of_digit h.1.1

/-! ## Operands -/

/-- The offset that the text of a slot tells. -/
def slotOf? : List Char → Option Int
  | '_' :: 'B' :: 'P' :: '+' :: digits => some (Nat.ofDigitChars 10 digits 0)
  | '_' :: 'B' :: 'P' :: '-' :: digits => some (-Nat.ofDigitChars 10 digits 0)
  | _ => none

theorem toList_frameSlot (offset : Int) :
    (frameSlot offset).toList =
      '_' :: 'B' :: 'P' :: (if offset < 0 then '-' else '+') :: Nat.toDigits 10 offset.natAbs := by
  cases offset with
  | ofNat n =>
    have htext : frameSlot (.ofNat n) = "_BP+" ++ n.repr := if_neg (by simp)
    rw [htext, String.toList_append, Nat.toList_repr, if_neg (by simp)]
    rfl
  | negSucc n =>
    have htext : frameSlot (.negSucc n) = "_BP" ++ ("-" ++ (n + 1).repr) :=
      if_pos (Int.negSucc_lt_zero n)
    rw [htext, String.toList_append, String.toList_append, Nat.toList_repr,
      if_pos (Int.negSucc_lt_zero n)]
    rfl

theorem slotOf?_frameSlot (offset : Int) : slotOf? (frameSlot offset).toList = some offset := by
  rw [toList_frameSlot]
  split
  · rw [slotOf?, Nat.ofDigitChars_ten_toDigits, Option.some.injEq]
    omega
  · rw [slotOf?, Nat.ofDigitChars_ten_toDigits, Option.some.injEq]
    omega

/-- The text of a slot begins like a name and has a sign in it. -/
theorem slotOf?_eq_none {text : List Char}
    (h : beginsWord text = false ∨ text.all continuesWord = true) : slotOf? text = none := by
  unfold slotOf?
  split
  · rcases h with h | h
    · cases h
    · exact absurd (List.all_eq_true.mp h '+' (by simp)) (by decide +kernel)
  · rcases h with h | h
    · cases h
    · exact absurd (List.all_eq_true.mp h '-' (by simp)) (by decide +kernel)
  · rfl

namespace Operand

/-- The operand that a word tells. -/
def ofWord (word : String) : Operand :=
  if word == "_AX" then .accumulator
  else
    match slotOf? word.toList with
    | some offset => .frame offset
    | none => if beginsWord word.toList then .global word else .literal word

variable {o : Operand}

theorem beginsWord_render (h : o.isLegible = true) (hliteral : o.isLiteral = false) :
    beginsWord o.render.toList = true := by
  cases o with
  | literal text => cases hliteral
  | frame offset =>
    rw [render, toList_frameSlot]
    rfl
  | global name =>
    simp only [isLegible, isIdentifier, Bool.and_eq_true] at h
    exact h.1.1
  | accumulator => rfl

/-- A legible operand is told by its word. -/
theorem ofWord_render (h : o.isLegible = true) : ofWord o.render = o := by
  cases o with
  | literal text =>
    have hbegins : beginsWord text.toList = false := beginsWord_of_isSignedDecimal h
    have hne : (text == "_AX") = false := by
      rw [beq_eq_false_iff_ne]
      rintro rfl
      cases hbegins
    simp [ofWord, render, hne, hbegins, slotOf?_eq_none (.inl hbegins)]
  | frame offset =>
    have hne : (frameSlot offset == "_AX") = false := by
      rw [beq_eq_false_iff_ne]
      intro heq
      have hchars := toList_frameSlot offset
      rw [heq] at hchars
      simp at hchars
    simp [ofWord, render, hne, slotOf?_frameSlot]
  | global name =>
    simp only [isLegible, isIdentifier, Bool.and_eq_true, bne_iff_ne] at h
    obtain ⟨⟨hbegins, hword⟩, hne⟩ := h
    simp [ofWord, render, hne, hbegins, slotOf?_eq_none (.inr hword)]
  | accumulator => rfl

end Operand

/-! ## Words of a line -/

/-- What stands between the words of a line and between lines. -/
def isSeparator (c : Char) : Bool := c == ' ' || c == '\n'

theorem of_isSeparator {c : Char} (h : isSeparator c = true) :
    isWhiteSpace c = true ∧ continuesWord c = false ∧ Head.inNumber c = false ∧
      c.isDigit = false ∧ c ≠ '-' := by
  simp only [isSeparator, Bool.or_eq_true, beq_iff_eq] at h
  rcases h with rfl | rfl <;> decide +kernel

/-- The text is one word of one line. -/
def Unbroken (text : List Char) : Prop := ∀ c ∈ text, isSeparator c = false

theorem unbroken_of_all {text : List Char} (h : text.all (fun c => !isSeparator c) = true) :
    Unbroken text :=
  fun c hc => by simpa using List.all_eq_true.mp h c hc

theorem unbroken_of_isSolid {name : String} (h : isSolid name = true) : Unbroken name.toList := by
  refine fun c hc => Bool.eq_false_iff.mpr fun hseparator => ?_
  have hsolid := List.all_eq_true.mp h c hc
  simp [(of_isSeparator hseparator).1] at hsolid

theorem unbroken_of_isSignedDecimal {text : List Char} (h : isSignedDecimal text = true) :
    Unbroken text := by
  refine fun c hc => Bool.eq_false_iff.mpr fun hseparator => ?_
  obtain ⟨-, -, hnumber, -, hsign⟩ := of_isSeparator hseparator
  simp only [isSignedDecimal, Bool.and_eq_true] at h
  split at h
  · cases text with
    | nil => cases hc
    | cons first text =>
      rename_i hfirst
      cases eq_of_beq hfirst
      rcases List.mem_cons.mp hc with rfl | hc
      · exact hsign rfl
      · rw [List.all_eq_true.mp h.1.2 c hc] at hnumber
        cases hnumber
  · rw [List.all_eq_true.mp h.1.2 c hc] at hnumber
    cases hnumber

theorem unbroken_frameSlot (offset : Int) : Unbroken (frameSlot offset).toList := by
  intro c hc
  rw [toList_frameSlot] at hc
  simp only [List.mem_cons] at hc
  rcases hc with rfl | rfl | rfl | rfl | hc
  · rfl
  · rfl
  · rfl
  · split <;> rfl
  · refine Bool.eq_false_iff.mpr fun hseparator => ?_
    have hdigit := Nat.isDigit_of_mem_toDigits (by decide) (by decide) hc
    rw [(of_isSeparator hseparator).2.2.2.1] at hdigit
    cases hdigit

theorem Operand.unbroken_render {o : Operand} (h : o.isLegible = true) :
    Unbroken o.render.toList := by
  cases o with
  | literal text => exact unbroken_of_isSignedDecimal h
  | frame offset => exact unbroken_frameSlot offset
  | global name =>
    simp only [isLegible, isIdentifier, Bool.and_eq_true] at h
    refine fun c hc => Bool.eq_false_iff.mpr fun hseparator => ?_
    have hword := List.all_eq_true.mp h.1.2 c hc
    rw [(of_isSeparator hseparator).2.1] at hword
    cases hword
  | accumulator => exact unbroken_of_all rfl

/-- The text is a name or a slot with a sign in front. -/
def isNegated (text : List Char) : Bool := text.head? == some '-' && beginsWord text.tail

theorem Operand.isNegated_render {o : Operand} (h : o.isLegible = true) :
    isNegated o.render.toList = false := by
  cases hliteral : o.isLiteral with
  | true =>
    cases o with
    | literal text =>
      refine Bool.eq_false_iff.mpr fun hnegated => ?_
      simp only [isNegated, Bool.and_eq_true, beq_iff_eq, render] at hnegated
      obtain ⟨hsign, hbegins⟩ := hnegated
      obtain ⟨rest, hrest⟩ := List.head?_eq_some_iff.mp hsign
      rw [isLegible, hrest] at h
      rw [hrest, List.tail_cons, beginsWord_of_sign h] at hbegins
      cases hbegins
    | _ => cases hliteral
  | false =>
    refine Bool.eq_false_iff.mpr fun hnegated => ?_
    simp only [isNegated, Bool.and_eq_true, beq_iff_eq] at hnegated
    have hbegins := beginsWord_render h hliteral
    rw [beginsWord, hnegated.1] at hbegins
    exact absurd hbegins (by decide +kernel)

/-- The operation that a sign tells. -/
def BinOp.ofText? (text : String) : Option BinOp :=
  [add, sub, mul, div, or, and].find? fun op => op.render == text

namespace Instr

/-- The words of a line. Indentation makes two empty ones. -/
def words : Instr → List String
  | proc name => ["PROC", name]
  | endp name => ["ENDP", name]
  | push source => ["", "", "PUSH", source.render]
  | call name => ["", "", "CALL", name]
  | binary dest left op right =>
    ["", "", dest.render, "=", left.render, op.render, right.render]
  | assign dest source => ["", "", dest.render, "=", source.render]
  | negate dest source => ["", "", dest.render, "=", "-" ++ source.render]
  | readInt dest => ["", "", "RDI", dest.render]
  | writeInt source => ["", "", "WRI", source.render]
  | writeStr label => ["", "", "WRS", label]
  | writeLn => ["", "", "WRLN"]
  | start name => ["START", name]

theorem toList_render (i : Instr) :
    i.render.toList = [' '].intercalate (i.words.map String.toList) := by
  cases i <;> simp [render, words, List.intercalate_cons_cons]

/-- Every word of a legible line is one piece. -/
theorem unbroken_words {i : Instr} (h : i.isLegible = true) :
    ∀ word ∈ i.words, Unbroken word.toList := by
  have hindented : ∀ words : List String, (∀ word ∈ words, Unbroken word.toList) →
      ∀ word ∈ "" :: "" :: words, Unbroken word.toList := by
    simp only [List.forall_mem_cons]
    exact fun words hwords => ⟨unbroken_of_all rfl, unbroken_of_all rfl, hwords⟩
  have hpair : ∀ keyword word : String, keyword.toList.all (fun c => !isSeparator c) = true →
      Unbroken word.toList → ∀ w ∈ [keyword, word], Unbroken w.toList := by
    simp only [List.forall_mem_cons, List.not_mem_nil]
    exact fun keyword word hkeyword hword => ⟨unbroken_of_all hkeyword, hword, nofun⟩
  cases i with
  | proc name => exact hpair _ _ rfl (unbroken_of_isSolid h)
  | endp name => exact hpair _ _ rfl (unbroken_of_isSolid h)
  | start name => exact hpair _ _ rfl (unbroken_of_isSolid h)
  | push source => exact hindented _ (hpair _ _ rfl (Operand.unbroken_render h))
  | call name => exact hindented _ (hpair _ _ rfl (unbroken_of_isSolid h))
  | readInt dest => exact hindented _ (hpair _ _ rfl (Operand.unbroken_render h))
  | writeInt source => exact hindented _ (hpair _ _ rfl (Operand.unbroken_render h))
  | writeStr label => exact hindented _ (hpair _ _ rfl (unbroken_of_isSolid h))
  | writeLn => exact hindented _ (List.forall_mem_singleton.mpr (unbroken_of_all rfl))
  | binary dest left op right =>
    simp only [isLegible, Bool.and_eq_true] at h
    obtain ⟨⟨hdest, hleft⟩, hright⟩ := h
    have hop : Unbroken op.render.toList := by cases op <;> exact unbroken_of_all rfl
    refine hindented _ ?_
    simp only [List.forall_mem_cons, List.not_mem_nil]
    exact ⟨Operand.unbroken_render hdest, unbroken_of_all rfl, Operand.unbroken_render hleft, hop,
      Operand.unbroken_render hright, nofun⟩
  | assign dest source =>
    simp only [isLegible, Bool.and_eq_true] at h
    exact hindented _ (List.forall_mem_cons.mpr
      ⟨Operand.unbroken_render h.1, hpair _ _ rfl (Operand.unbroken_render h.2)⟩)
  | negate dest source =>
    simp only [isLegible, Bool.and_eq_true] at h
    obtain ⟨⟨hdest, hsource⟩, -⟩ := h
    have hsigned : Unbroken ("-" ++ source.render).toList := by
      rw [String.toList_append]
      exact List.forall_mem_cons.mpr ⟨rfl, Operand.unbroken_render hsource⟩
    exact hindented _ (List.forall_mem_cons.mpr
      ⟨Operand.unbroken_render hdest, hpair _ _ rfl hsigned⟩)

/-- The instruction that a keyword and the word behind it tell. -/
def ofKeyword? (keyword word : String) : Option Instr :=
  match keyword with
  | "PROC" => some (.proc word)
  | "ENDP" => some (.endp word)
  | "START" => some (.start word)
  | "PUSH" => some (.push (.ofWord word))
  | "CALL" => some (.call word)
  | "RDI" => some (.readInt (.ofWord word))
  | "WRI" => some (.writeInt (.ofWord word))
  | "WRS" => some (.writeStr word)
  | _ => none

/-- The instruction that the words of a line tell, by their number. -/
def ofWords? : List String → Option Instr
  | [keyword, word] => ofKeyword? keyword word
  | [_, _, keyword, word] => ofKeyword? keyword word
  | [_, _, _] => some .writeLn
  | [_, _, dest, _, source] =>
    if isNegated source.toList then
      some (.negate (.ofWord dest) (.ofWord (String.ofList source.toList.tail)))
    else some (.assign (.ofWord dest) (.ofWord source))
  | [_, _, dest, _, left, op, right] =>
    (BinOp.ofText? op).map fun op => .binary (.ofWord dest) (.ofWord left) op (.ofWord right)
  | _ => none

theorem ofWords?_words {i : Instr} (h : i.isLegible = true) : ofWords? i.words = some i := by
  cases i with
  | proc name => rfl
  | endp name => rfl
  | start name => rfl
  | writeLn => rfl
  | call name => rfl
  | writeStr label => rfl
  | push source => exact congrArg (fun o => some (push o)) (Operand.ofWord_render h)
  | readInt dest => exact congrArg (fun o => some (readInt o)) (Operand.ofWord_render h)
  | writeInt source => exact congrArg (fun o => some (writeInt o)) (Operand.ofWord_render h)
  | binary dest left op right =>
    simp only [isLegible, Bool.and_eq_true] at h
    obtain ⟨⟨hdest, hleft⟩, hright⟩ := h
    have hop : BinOp.ofText? op.render = some op := by cases op <;> rfl
    rw [words, ofWords?, hop, Operand.ofWord_render hdest, Operand.ofWord_render hleft,
      Operand.ofWord_render hright]
    rfl
  | assign dest source =>
    simp only [isLegible, Bool.and_eq_true] at h
    rw [words, ofWords?, Operand.isNegated_render h.2, Operand.ofWord_render h.1,
      Operand.ofWord_render h.2]
    rfl
  | negate dest source =>
    simp only [isLegible, Bool.and_eq_true] at h
    obtain ⟨⟨hdest, hsource⟩, hvariable⟩ := h
    have hliteral : source.isLiteral = false := by simpa using hvariable
    have hsigned : ("-" ++ source.render).toList = '-' :: source.render.toList := by
      rw [String.toList_append]
      rfl
    have hnegated : isNegated ('-' :: source.render.toList) = true := by
      simp [isNegated, Operand.beginsWord_render hsource hliteral]
    rw [words, ofWords?, hsigned, hnegated, List.tail_cons, String.ofList_toList,
      Operand.ofWord_render hdest, Operand.ofWord_render hsource]
    rfl

end Instr

/-! ## Lines of a text -/

theorem mem_of_mem_intercalate {c : Char} {words : List (List Char)}
    (h : c ∈ [' '].intercalate words) : c = ' ' ∨ ∃ word ∈ words, c ∈ word := by
  induction words with
  | nil => cases h
  | cons word words ih =>
    cases words with
    | nil => exact .inr ⟨word, List.mem_singleton_self word, by simpa using h⟩
    | cons next words =>
      rw [List.intercalate_cons_cons, List.mem_append, List.mem_append, List.mem_singleton] at h
      rcases h with (h | h) | h
      · exact .inr ⟨word, List.mem_cons_self, h⟩
      · exact .inl h
      · rcases ih h with hblank | ⟨word', hmem, hc⟩
        · exact .inl hblank
        · exact .inr ⟨word', List.mem_cons_of_mem word hmem, hc⟩

/-- An instruction takes one line. -/
theorem Instr.newline_not_mem_render {i : Instr} (h : i.isLegible = true) :
    '\n' ∉ i.render.toList := by
  intro hmem
  rw [toList_render] at hmem
  rcases mem_of_mem_intercalate hmem with heq | ⟨chars, hchars, hmem⟩
  · exact absurd heq (by decide)
  · obtain ⟨word, hword, rfl⟩ := List.mem_map.mp hchars
    exact absurd (unbroken_words h word hword '\n' hmem) (by decide)

/-- The instruction that a line tells. -/
def Instr.ofLine? (line : List Char) : Option Instr :=
  ofWords? ((line.splitOn ' ').map String.ofList)

theorem Instr.ofLine?_render {i : Instr} (h : i.isLegible = true) :
    ofLine? i.render.toList = some i := by
  have hwords : i.words.map String.toList ≠ [] := by cases i <;> simp [words]
  have hsplit : (i.render.toList).splitOn ' ' = i.words.map String.toList := by
    rw [toList_render]
    refine List.splitOn_intercalate ' ' (fun chars hchars hmem => ?_) hwords
    obtain ⟨word, hword, rfl⟩ := List.mem_map.mp hchars
    exact absurd (unbroken_words h word hword ' ' hmem) (by decide)
  rw [ofLine?, hsplit, List.map_map]
  simpa using ofWords?_words h

namespace Code

/-- Every instruction ends a line, so that nothing is left on the last one. -/
theorem toList_render (code : Code) :
    code.render.toList = ['\n'].intercalate (code.map (fun i => i.render.toList) ++ [[]]) := by
  rw [render, String.toList_join]
  induction code with
  | nil => rfl
  | cons i code ih =>
    rw [List.map_cons, List.flatMap_cons, ih, List.map_cons, List.cons_append,
      List.intercalate_cons_of_ne_nil (by simp), String.toList_append]
    rfl

/-- The instructions that the lines of a text tell. -/
def ofText (text : List Char) : Code := (text.splitOn '\n').filterMap Instr.ofLine?

theorem ofText_render {code : Code} (h : ∀ i ∈ code, i.isLegible = true) :
    ofText code.render.toList = code := by
  have hsplit : code.render.toList.splitOn '\n' = code.map (fun i => i.render.toList) ++ [[]] := by
    rw [toList_render]
    refine List.splitOn_intercalate '\n' ?_ (by simp)
    simp only [List.forall_mem_append, List.forall_mem_map, List.forall_mem_singleton]
    exact ⟨fun i hi => Instr.newline_not_mem_render (h i hi), List.not_mem_nil⟩
  have hlines : code.filterMap (fun i => Instr.ofLine? i.render.toList) = code.filterMap some :=
    List.filterMap_congr fun i hi => Instr.ofLine?_render (h i hi)
  rw [ofText, hsplit, List.filterMap_append, List.filterMap_map]
  change code.filterMap (fun i => Instr.ofLine? i.render.toList) ++ [] = code
  rw [hlines, List.filterMap_some, List.append_nil]

/-- Two lists of instructions with the same text are the same, if their names and labels have no
white space, their variables are called like words other than the accumulator, and their numbers
are signed decimals that no instruction negates. -/
theorem eq_of_render {code code' : Code} (h : ∀ i ∈ code, i.isLegible = true)
    (h' : ∀ i ∈ code', i.isLegible = true) (htext : code.render = code'.render) :
    code = code' := by
  rw [← ofText_render h, ← ofText_render h', htext]

end Code

namespace Sample

/-- A name with a sign and a number with one, and a name that is written like a keyword. -/
def signedCode : Code :=
  [.proc "A.F", .negate (.frame (-2)) (.global "PUSH"), .assign (.global "PUSH") (.literal "-3.5"),
   .push (.global "PUSH"), .binary .accumulator (.frame 4) .sub (.literal "-1"), .endp "A.F"]

def signedText : String :=
  "PROC A.F\n  _BP-2 = -PUSH\n  PUSH = -3.5\n  PUSH PUSH\n  _AX = _BP+4 - -1\nENDP A.F\n"

end Sample

open Sample in
theorem Code.eq_of_render_signed :
    signedCode.render = signedText ∧ (ofText signedText.toList).render = signedText ∧
      signedCode = ofText signedText.toList := by
  have htext : signedCode.render = signedText := by decide +kernel
  have htext' : (ofText signedText.toList).render = signedText := by decide +kernel
  have hlegible : signedCode.all Instr.isLegible = true := by decide +kernel
  have hlegible' : (ofText signedText.toList).all Instr.isLegible = true := by decide +kernel
  exact ⟨htext, htext', eq_of_render (List.all_eq_true.mp hlegible)
    (List.all_eq_true.mp hlegible') (htext.trans htext'.symm)⟩

end Triad
