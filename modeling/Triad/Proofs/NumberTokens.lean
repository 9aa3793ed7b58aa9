import Mathlib.Data.List.Induction
import Mathlib.Data.Nat.Digits.Defs
import Triad.Proofs.TrailingSpace
import Triad.Proofs.WholeNumbers

/-!
Numbers at the head of a text. The longest run of digits and points is taken whole, whatever comes
of it: a number without a point has the value that its digits spell in base ten, a decimal the value
of its digits on both sides of the point, and any other run is a fault. Main statement:
`next_number`.
-/

namespace Triad

open Triad.Text

theorem decimalValue_eq_ofDigits (digits : List Char) :
    decimalValue digits = Nat.ofDigits 10 (digits.map digitValue).reverse := by
  induction digits using List.reverseRecOn with
  | nil => rfl
  | append_singleton digits c ih =>
    have hsnoc : decimalValue (digits ++ [c]) = 10 * decimalValue digits + digitValue c := by
      simp [decimalValue]
    rw [hsnoc, List.map_append, List.reverse_append, ih, Nat.add_comm]
    exact Nat.ofDigits_cons.symm

theorem isWhiteSpace_of_isDigit {c : Char} (h : isDigit c = true) : isWhiteSpace c = false := by
  rw [← Bool.not_eq_true]
  intro hwhite
  have hout := Head.inNumber_of_isWhiteSpace hwhite
  simp [Head.inNumber, h] at hout

theorem isDigit_point : isDigit '.' = false := by decide

/-! ## What a run stands for -/

namespace Binary64

/-- Digits with a point behind the first of them are read as one number. -/
theorem ofChars?_of_point {whole fraction : List Char} {c : Char} (hfirst : whole.head? = some c)
    (hwhole : ∀ d ∈ whole, isDigit d = true) (hfraction : ∀ d ∈ fraction, isDigit d = true) :
    ofChars? (whole ++ '.' :: fraction) =
      some (ofDecimal false (whole ++ fraction) (-(fraction.length : Int))) := by
  have hne : whole ≠ [] := by
    rintro rfl
    cases hfirst
  have hsign : splitSign (whole ++ '.' :: fraction) = (false, whole ++ '.' :: fraction) := by
    obtain ⟨more, rfl⟩ := List.head?_eq_some_iff.mp hfirst
    have hc := hwhole c (List.mem_cons_self ..)
    unfold splitSign
    split
    · rename_i heq
      cases heq
      exact absurd hc (by decide)
    · rename_i heq
      cases heq
      exact absurd hc (by decide)
    · rfl
  have htake : (whole ++ '.' :: fraction).takeWhile isDigit = whole := by
    rw [List.takeWhile_append_of_pos hwhole, List.takeWhile_cons_of_neg (by simp [isDigit_point]),
      List.append_nil]
  have hdrop : (whole ++ '.' :: fraction).dropWhile isDigit = '.' :: fraction := by
    rw [List.dropWhile_append_of_pos hwhole, List.dropWhile_cons_of_neg (by simp [isDigit_point])]
  have hbehind : readFraction ('.' :: fraction) = (fraction, []) := by
    rw [readFraction, List.takeWhile_eq_self_iff.mpr hfraction,
      List.dropWhile_eq_nil_iff.mpr hfraction]
  simp [ofChars?, hsign, readDecimal, htake, hdrop, hbehind, hne, readPower]

end Binary64

/-- A run with one point comes apart there into digits. -/
theorem exists_point {run : List Char} (hrun : ∀ c ∈ run, isDigit c = true ∨ c = '.')
    (hcount : run.count '.' = 1) :
    ∃ whole fraction, run = whole ++ '.' :: fraction ∧
      (∀ c ∈ whole, isDigit c = true) ∧ ∀ c ∈ fraction, isDigit c = true := by
  have hmem : '.' ∈ run := List.count_pos_iff.mp (by omega)
  obtain ⟨whole, fraction, rfl⟩ := List.append_of_mem hmem
  rw [List.count_append, List.count_cons_self] at hcount
  -- No other point is left, on either side.
  have hwhole : '.' ∉ whole := List.count_eq_zero.mp (by omega)
  have hfraction : '.' ∉ fraction := List.count_eq_zero.mp (by omega)
  refine ⟨whole, fraction, rfl, fun c hc => ?_, fun c hc => ?_⟩
  · rcases hrun c (by simp [hc]) with h | rfl
    · exact h
    · exact absurd hc hwhole
  · rcases hrun c (by simp [hc]) with h | rfl
    · exact h
    · exact absurd hc hfraction

namespace Head

variable {run : List Char}

theorem numberKind_of_bounded (hcount : run.count '.' = 0)
    (hvalue : decimalValue run ≤ 2147483647) :
    numberKind run = some (.number (decimalValue run)) := by
  rw [numberKind, hcount]
  exact if_pos hvalue

theorem numberKind_of_point {whole fraction : List Char} {c : Char} (hfirst : whole.head? = some c)
    (hwhole : ∀ d ∈ whole, isDigit d = true) (hfraction : ∀ d ∈ fraction, isDigit d = true)
    (hcount : (whole ++ '.' :: fraction).count '.' = 1) :
    numberKind (whole ++ '.' :: fraction) =
      some (.decimal (.ofDecimal false (whole ++ fraction) (-(fraction.length : Int)))) := by
  rw [numberKind, hcount]
  simp only [Binary64.ofChars?_of_point hfirst hwhole hfraction, Option.map_some]

theorem numberKind_of_large (hcount : run.count '.' = 0)
    (hvalue : 2147483647 < decimalValue run) : numberKind run = none := by
  rw [numberKind, hcount]
  exact if_neg (Nat.not_le.mpr hvalue)

theorem numberKind_of_points (hcount : 2 ≤ run.count '.') : numberKind run = none := by
  obtain ⟨n, hn⟩ := Nat.exists_eq_add_of_le' hcount
  simp [numberKind, hn]

theorem read_of_isDigit {c : Char} (hc : isDigit c = true) (rest : List Char) :
    read c rest = number (c :: rest) := by
  have hslash : c ≠ '/' := by
    rintro rfl
    exact absurd hc (by decide)
  rw [read, if_neg (by simp [hslash]), if_pos hc]

end Head

/-! ## One call -/

namespace Scanner

/-- What comes before a number, the longest run of digits and points, and what follows it. -/
structure AtNumber (s : Scanner) (blank run rest : List Char) : Prop where
  text : s.rest = blank ++ (run ++ rest)
  white : ∀ c ∈ blank, isWhiteSpace c = true
  first : ∃ c, run.head? = some c ∧ isDigit c = true
  inRun : ∀ c ∈ run, isDigit c = true ∨ c = '.'
  stops : ∀ c ∈ rest.head?, isDigit c = false ∧ c ≠ '.'

variable {s : Scanner} {blank run rest : List Char}

theorem exists_atNumber {c : Char} (hfirst : (s.rest.dropWhile isWhiteSpace).head? = some c)
    (hdigit : isDigit c = true) : ∃ blank run rest, s.AtNumber blank run rest := by
  obtain ⟨more, hmore⟩ := List.head?_eq_some_iff.mp hfirst
  refine ⟨s.rest.takeWhile isWhiteSpace, (c :: more).takeWhile Head.inNumber,
    (c :: more).dropWhile Head.inNumber, ?_, fun d hd => List.mem_takeWhile_imp hd, ⟨c, ?_, hdigit⟩,
    fun d hd => ?_, fun d hd => ?_⟩
  · rw [List.takeWhile_append_dropWhile, ← hmore, List.takeWhile_append_dropWhile]
  · rw [List.takeWhile_cons_of_pos (by simp [Head.inNumber, hdigit])]
    rfl
  · simpa [Head.inNumber] using List.mem_takeWhile_imp hd
  · have hout := List.head?_dropWhile_not Head.inNumber (c :: more)
    rw [Option.mem_def.mp hd] at hout
    simpa [Head.inNumber] using hout

namespace AtNumber

/-- The call reads the run, and stands behind it afterwards. -/
theorem read_eq (h : s.AtNumber blank run rest) :
    ∃ c more, skip s.rest s.line = ⟨c :: more, s.line + blank.count '\n'⟩ ∧
      Head.read c more = ⟨Head.numberKind run, run, none, rest⟩ := by
  obtain ⟨c, hc, hdigit⟩ := h.first
  obtain ⟨more, rfl⟩ := List.head?_eq_some_iff.mp hc
  have hin : ∀ d ∈ c :: more, Head.inNumber d = true := by
    intro d hd
    simpa [Head.inNumber] using h.inRun d hd
  have hout : ∀ d ∈ rest.head?, Head.inNumber d = false := by
    intro d hd
    simpa [Head.inNumber] using h.stops d hd
  have htake : (c :: more ++ rest).takeWhile Head.inNumber = c :: more := by
    rw [List.takeWhile_append_of_pos hin]
    cases rest with
    | nil => simp
    | cons d rest => simp [hout d rfl]
  have hdrop : (c :: more ++ rest).dropWhile Head.inNumber = rest := by
    rw [List.dropWhile_append_of_pos hin]
    cases rest with
    | nil => rfl
    | cons d rest => exact List.dropWhile_cons_of_neg (by simp [hout d rfl])
  refine ⟨c, more ++ rest, ?_, ?_⟩
  · rw [h.text]
    exact skip_blank_cons h.white (isWhiteSpace_of_isDigit hdigit) (more ++ rest) s.line
  · rw [Head.read_of_isDigit hdigit, Head.number, ← List.cons_append, htake, hdrop]

theorem next_of_some (h : s.AtNumber blank run rest) {kind : Kind}
    (hkind : Head.numberKind run = some kind) :
    s.next = (.ok ⟨⟨kind, String.ofList run, s.line + blank.count '\n'⟩, none⟩,
      ⟨rest, s.line + blank.count '\n'⟩) := by
  obtain ⟨c, more, hskip, hread⟩ := h.read_eq
  have hhead : (Head.read c more).kind = some kind := by rw [hread, hkind]
  rw [next_of_kind hskip hhead, hread]

theorem next_of_none (h : s.AtNumber blank run rest) (hkind : Head.numberKind run = none) :
    s.next = (.error (.malformedNumber (s.line + blank.count '\n') (String.ofList run)),
      ⟨rest, s.line + blank.count '\n'⟩) := by
  obtain ⟨c, more, hskip, hread⟩ := h.read_eq
  have hhead : (Head.read c more).kind = none := by rw [hread, hkind]
  rw [next_of_malformed hskip hhead, hread]

/-- The call ends behind the run also where the run is a fault. -/
theorem next_snd (h : s.AtNumber blank run rest) :
    s.next.2 = ⟨rest, s.line + blank.count '\n'⟩ := by
  cases hkind : Head.numberKind run with
  | some kind => rw [h.next_of_some hkind]
  | none => rw [h.next_of_none hkind]

theorem numberKind_point (h : s.AtNumber blank run rest) (hcount : run.count '.' = 1) :
    ∃ whole fraction, run = whole ++ '.' :: fraction ∧ Head.numberKind run =
      some (.decimal (.ofDecimal false (whole ++ fraction) (-(fraction.length : Int)))) := by
  obtain ⟨whole, fraction, rfl, hwhole, hfraction⟩ := exists_point h.inRun hcount
  obtain ⟨c, hc, hdigit⟩ := h.first
  have hfirst : whole.head? = some c := by
    cases whole with
    | nil =>
      obtain rfl : '.' = c := Option.some.inj hc
      exact absurd hdigit (by decide)
    | cons d whole => exact hc
  exact ⟨whole, fraction, rfl, Head.numberKind_of_point hfirst hwhole hfraction hcount⟩

end AtNumber

end Scanner

/-- Before a digit, a call takes exactly the longest run of digits and points. Without a point it is
a number of the value that the digits spell, up to a bound; with one point it is a decimal; all else
is a fault that names the run and the line. The text goes on right behind the run in every case. -/
theorem next_number (s : Scanner) {c : Char}
    (hfirst : (s.rest.dropWhile isWhiteSpace).head? = some c) (hdigit : isDigit c = true) :
    (∃ blank run rest, s.AtNumber blank run rest) ∧ ∀ blank run rest, s.AtNumber blank run rest →
      let line := s.line + blank.count '\n'
      let value := Nat.ofDigits 10 (run.map digitValue).reverse
      s.next.2 = ⟨rest, line⟩ ∧
      (run.count '.' = 0 → value ≤ 2147483647 →
        s.next.1 = .ok ⟨⟨.number value, String.ofList run, line⟩, none⟩) ∧
      (run.count '.' = 1 → ∃ whole fraction, run = whole ++ '.' :: fraction ∧
        s.next.1 = .ok ⟨⟨.decimal (.ofDecimal false (whole ++ fraction) (-(fraction.length : Int))),
          String.ofList run, line⟩, none⟩) ∧
      (run.count '.' = 0 ∧ 2147483647 < value ∨ 2 ≤ run.count '.' →
        s.next.1 = .error (.malformedNumber line (String.ofList run))) := by
  refine ⟨s.exists_atNumber hfirst hdigit, fun blank run rest h => ?_⟩
  refine ⟨h.next_snd, fun hcount hvalue => ?_, fun hcount => ?_, ?_⟩
  · rw [← decimalValue_eq_ofDigits] at hvalue ⊢
    rw [h.next_of_some (Head.numberKind_of_bounded hcount hvalue)]
  · obtain ⟨whole, fraction, hrun, hkind⟩ := h.numberKind_point hcount
    exact ⟨whole, fraction, hrun, by rw [h.next_of_some hkind]⟩
  · rw [← decimalValue_eq_ofDigits]
    rintro (⟨hcount, hvalue⟩ | hcount)
    · rw [h.next_of_none (Head.numberKind_of_large hcount hvalue)]
    · rw [h.next_of_none (Head.numberKind_of_points hcount)]

/-- Leading zeros do not count, and one more than the bound is a fault. -/
theorem next_number_bound :
    (⟨" \n0002147483647;".toList, 4⟩ : Scanner).next =
        (.ok ⟨⟨.number 2147483647, "0002147483647", 5⟩, none⟩, ⟨[';'], 5⟩) ∧
      (⟨"2147483648x".toList, 1⟩ : Scanner).next =
        (.error (.malformedNumber 1 "2147483648"), ⟨['x'], 1⟩) := by
  have hbelow := (next_number (c := '0') ⟨" \n0002147483647;".toList, 4⟩ (by decide +kernel)
    (by decide)).2 [' ', '\n'] "0002147483647".toList [';']
    ⟨by decide +kernel, by simp; decide, ⟨'0', by decide +kernel, by decide⟩, by simp; decide,
      by simp; decide⟩
  have habove := (next_number (c := '2') ⟨"2147483648x".toList, 1⟩ (by decide +kernel)
    (by decide)).2 [] "2147483648".toList ['x']
    ⟨by decide +kernel, by simp, ⟨'2', by decide +kernel, by decide⟩, by simp; decide,
      by simp; decide⟩
  exact ⟨Prod.ext (hbelow.2.1 (by decide +kernel) (by decide +kernel)) hbelow.1,
    Prod.ext (habove.2.2.2 (.inl ⟨by decide +kernel, by decide +kernel⟩)) habove.1⟩

end Triad
