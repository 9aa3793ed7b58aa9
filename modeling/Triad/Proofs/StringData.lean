import Triad.Asm.Lowering

/-!
Strings in the data segment. A line gives a string by quoted segments, by the code of the double
quote between them, and by the mark of its end. Main statements: read back operand by operand, the
line of a literal gives its body and the mark (`exists_operands_stringLine`); a body without double
quotes is one segment, and leaves an empty one only if it is empty
(`hasEmptySegment_stringLine_iff`).
-/

namespace Triad

/-- The literal has the body between two quotes of one kind. -/
def IsQuoted (text : String) (body : List Char) : Prop :=
  ∃ quote, (quote = '"' ∨ quote = '\'') ∧ text.toList = quote :: body ++ [quote]

/-! ## Pieces of a text -/

/-- Lists are joined by an element in one way, if it does not come before. -/
theorem append_cons_inj {α : Type} {xs ys as bs : List α} {a : α} (hxs : a ∉ xs) (hys : a ∉ ys)
    (h : xs ++ a :: as = ys ++ a :: bs) : xs = ys ∧ as = bs := by
  rcases List.append_eq_append_iff.mp h with ⟨mid, rfl, hrest⟩ | ⟨mid, rfl, hrest⟩
  · cases mid with
    | nil => exact ⟨(List.append_nil xs).symm, (List.cons.inj hrest).2⟩
    | cons b mid =>
      cases (List.cons.inj hrest).1
      simp at hys
  · cases mid with
    | nil => exact ⟨List.append_nil ys, (List.cons.inj hrest).2.symm⟩
    | cons b mid =>
      cases (List.cons.inj hrest).1
      simp at hxs

namespace Text

theorem split_ne_nil (mark : Char) (text : List Char) : split mark text ≠ [] := by
  cases text with
  | nil => simp [split]
  | cons c rest =>
    rw [split]
    split
    · simp
    · split <;> simp

/-- The pieces with the mark between them are the text. -/
theorem intercalate_split (mark : Char) (text : List Char) :
    [mark].intercalate (split mark text) = text := by
  induction text with
  | nil => rfl
  | cons c rest ih =>
    obtain ⟨piece, more, hpieces⟩ := List.exists_cons_of_ne_nil (split_ne_nil mark rest)
    rw [hpieces] at ih
    rw [split, hpieces]
    by_cases hc : c = mark
    · subst hc
      rw [if_pos (beq_self_eq_true c), List.intercalate_cons_cons, ih]
      rfl
    · rw [if_neg (by simpa using hc)]
      cases more with
      | nil =>
        simp only [List.intercalate_singleton] at ih ⊢
        rw [ih]
      | cons next more =>
        simp only [List.intercalate_cons_cons, List.cons_append] at ih ⊢
        rw [ih]

theorem mark_not_mem_split (mark : Char) (text : List Char) :
    ∀ piece ∈ split mark text, mark ∉ piece := by
  induction text with
  | nil => simp [split]
  | cons c rest ih =>
    obtain ⟨piece, more, hpieces⟩ := List.exists_cons_of_ne_nil (split_ne_nil mark rest)
    rw [hpieces] at ih
    rw [split, hpieces]
    by_cases hc : c = mark
    · rw [if_pos (by simpa using hc)]
      exact List.forall_mem_cons.mpr ⟨List.not_mem_nil, ih⟩
    · rw [if_neg (by simpa using hc)]
      obtain ⟨hpiece, hmore⟩ := List.forall_mem_cons.mp ih
      refine List.forall_mem_cons.mpr ⟨?_, hmore⟩
      simpa [hpiece] using Ne.symm hc

theorem split_of_not_mem {mark : Char} {text : List Char} (h : mark ∉ text) :
    split mark text = [text] := by
  induction text with
  | nil => rfl
  | cons c rest ih =>
    obtain ⟨hc, hrest⟩ := List.ne_and_not_mem_of_not_mem_cons h
    rw [split, if_neg (by simpa using Ne.symm hc), ih hrest]

end Text

namespace Asm

/-! ## Operands of a line -/

/-- One operand of a line that defines a string. -/
inductive Datum
  /-- What stands between double quotes. -/
  | segment (chars : List Char)
  /-- The number 34. -/
  | quoteCode
  /-- The quoted dollar sign at the end. -/
  | ending
  deriving DecidableEq, Repr

def Datum.chars : Datum → List Char
  | segment chars => chars
  | quoteCode => ['"']
  | ending => ['$']

/-- The operands from a place in a line on, with a comma and a blank between any two and the mark of
the end as the last one. The place may lie in a segment of which `seen` has been read. -/
def operandsFrom : Option (List Char) → List Char → Option (List Datum)
  | none, '"' :: rest => operandsFrom (some []) rest
  | none, '3' :: '4' :: ',' :: ' ' :: rest => (operandsFrom none rest).map (.quoteCode :: ·)
  | none, ['\'', '$', '\''] => some [.ending]
  | some seen, '"' :: ',' :: ' ' :: rest => (operandsFrom none rest).map (.segment seen :: ·)
  | some seen, c :: rest => if c = '"' then none else operandsFrom (some (seen ++ [c])) rest
  | _, _ => none

theorem operandsFrom_segment {chars : List Char} (h : '"' ∉ chars) (seen rest : List Char) :
    operandsFrom (some seen) (chars ++ '"' :: ',' :: ' ' :: rest) =
      (operandsFrom none rest).map (.segment (seen ++ chars) :: ·) := by
  induction chars generalizing seen with
  | nil => simp [operandsFrom]
  | cons c chars ih =>
    obtain ⟨hc, hchars⟩ := List.ne_and_not_mem_of_not_mem_cons h
    have hstep : operandsFrom (some seen) (c :: (chars ++ '"' :: ',' :: ' ' :: rest)) =
        operandsFrom (some (seen ++ [c])) (chars ++ '"' :: ',' :: ' ' :: rest) := by
      rw [operandsFrom]
      · rw [if_neg (Ne.symm hc)]
      · rintro rest' rfl
        exact absurd rfl hc
    rw [List.cons_append, hstep, ih hchars, List.append_assoc]
    rfl

/-- The operands that the pieces of a body are given by. -/
def dataOf : List (List Char) → List Datum
  | [] => [.ending]
  | [piece] => [.segment piece, .ending]
  | piece :: more => .segment piece :: .quoteCode :: dataOf more

theorem flatMap_dataOf {pieces : List (List Char)} :
    (dataOf pieces).flatMap Datum.chars = ['"'].intercalate pieces ++ ['$'] := by
  fun_induction dataOf pieces with
  | case1 => rfl
  | case2 piece => simp [Datum.chars]
  | case3 piece more hmore ih =>
    obtain ⟨next, more, rfl⟩ := List.exists_cons_of_ne_nil fun heq => hmore heq
    rw [List.flatMap_cons, List.flatMap_cons, ih, List.intercalate_cons_cons]
    simp [Datum.chars]

/-- The characters of the operands, with a comma and a blank before the mark of the end. -/
def operandChars (pieces : List (List Char)) : List Char :=
  ", 34, ".toList.intercalate (pieces.map fun piece => '"' :: piece ++ ['"']) ++ ", '$'".toList

theorem operandsFrom_operandChars {pieces : List (List Char)} (hne : pieces ≠ [])
    (h : ∀ piece ∈ pieces, '"' ∉ piece) :
    operandsFrom none (operandChars pieces) = some (dataOf pieces) := by
  induction pieces with
  | nil => exact absurd rfl hne
  | cons piece more ih =>
    obtain ⟨hpiece, hmore⟩ := List.forall_mem_cons.mp h
    cases more with
    | nil =>
      have htext : operandChars [piece] = '"' :: (piece ++ '"' :: ',' :: ' ' :: "'$'".toList) := by
        simp [operandChars]
      rw [htext, operandsFrom, operandsFrom_segment hpiece]
      rfl
    | cons next more =>
      have htext : operandChars (piece :: next :: more) =
          '"' :: (piece ++ '"' :: ',' :: ' ' ::
            ('3' :: '4' :: ',' :: ' ' :: operandChars (next :: more))) := by
        simp [operandChars, List.intercalate_cons_cons]
      rw [htext, operandsFrom, operandsFrom_segment hpiece, operandsFrom,
        ih (List.cons_ne_nil next more) hmore]
      rfl

/-! ## The line of a literal -/

theorem bodyOf_of_isQuoted {text : String} {body : List Char} (h : IsQuoted text body) :
    bodyOf text = body := by
  obtain ⟨quote, hquote, htext⟩ := h
  have hsize : quote.utf8Size = 1 := by rcases hquote with rfl | rfl <;> rfl
  simp [bodyOf, htext, hsize]

/-- The line of a string is its label and the operands that its pieces are given by. -/
theorem render_stringLine {e : PoolEntry} {body : List Char} (h : IsQuoted e.text body) :
    (stringLine e).render =
      e.label ++ " DB " ++ String.ofList (operandChars (Text.split '"' body)) := by
  have hquoted : ∀ piece : List Char,
      (Line.quoted (String.ofList piece)).toList = '"' :: piece ++ ['"'] := by
    intro piece
    simp [Line.quoted]
  rw [stringLine, bodyOf_of_isQuoted h, Line.render, ← String.toList_inj]
  simp only [operandChars, String.toList_append, String.toList_intercalate, String.toList_ofList,
    List.map_map, List.append_assoc]
  congr 3
  refine congrArg _ (List.map_congr_left fun piece _ => ?_)
  exact hquoted piece

/-- The line of a literal, read operand by operand, gives the body of the literal and the mark of
its end. -/
theorem exists_operands_stringLine {e : PoolEntry} {body : List Char} (h : IsQuoted e.text body) :
    ∃ operands data, (stringLine e).render = e.label ++ " DB " ++ String.ofList operands ∧
      operandsFrom none operands = some data ∧ data.flatMap Datum.chars = body ++ ['$'] := by
  refine ⟨_, _, render_stringLine h, operandsFrom_operandChars (Text.split_ne_nil _ _)
    (Text.mark_not_mem_split _ _), ?_⟩
  rw [flatMap_dataOf, Text.intercalate_split]

/-- A quote that stands inside quotes: the operands of the escape itself. -/
example : operandsFrom none "\"\", 34, \", 34, \", 34, \"\", '$'".toList =
    some [.segment [], .quoteCode, .segment ", 34, ".toList, .quoteCode, .segment [], .ending] := by
  decide

/-! ## Empty segments -/

/-- Whether a line of the data segment has an empty quoted segment on it. -/
def Line.HasEmptySegment (l : Line) : Prop := ['"', '"'] <:+: l.render.toList

/-- Two marks stand side by side only where nothing stands between them. -/
theorem pair_infix_iff {mark : Char} {before body after : List Char} (hbefore : mark ∉ before)
    (hbody : mark ∉ body) (hafter : mark ∉ after) :
    [mark, mark] <:+: before ++ mark :: body ++ mark :: after ↔ body = [] := by
  constructor
  · rintro ⟨first, last, heq⟩
    have hcount := congrArg (List.count mark) heq
    simp only [List.count_append, List.count_cons_self, List.count_nil,
      List.count_eq_zero.mpr hbefore, List.count_eq_zero.mpr hbody,
      List.count_eq_zero.mpr hafter] at hcount
    have hfirst : mark ∉ first := List.count_eq_zero.mp (by omega)
    have hsplit : first ++ mark :: (mark :: last) = before ++ mark :: (body ++ mark :: after) := by
      simpa using heq
    obtain ⟨-, hrest⟩ := append_cons_inj hfirst hbefore hsplit
    cases body with
    | nil => rfl
    | cons c body =>
      cases (List.cons.inj hrest).1
      simp at hbody
  · rintro rfl
    exact ⟨before, after, by simp⟩

/-- The line of a body without double quotes has an empty segment just if the body is empty. -/
theorem hasEmptySegment_stringLine_iff {e : PoolEntry} {body : List Char}
    (h : IsQuoted e.text body) (hlabel : '"' ∉ e.label.toList) (hbody : '"' ∉ body) :
    (stringLine e).HasEmptySegment ↔ body = [] := by
  have hafter : '"' ∉ ", '$'".toList := by decide
  have hbefore : '"' ∉ e.label.toList ++ " DB ".toList := by
    simpa using hlabel
  rw [← pair_infix_iff hbefore hbody hafter, Line.HasEmptySegment, render_stringLine h,
    Text.split_of_not_mem hbody]
  simp [operandChars]

end Asm

end Triad
