import Mathlib.Data.List.TakeWhile
import Triad.State

/-!
Whole numbers spelt in code. A literal of digits, with a sign or without, is told to be zero or one
by its value as a floating-point number; rounding never makes another whole number look like either
(`isZero_literal`, `isOne_literal`). Constants and turned signs keep to such spellings.
-/

namespace Triad

open Triad.Text

/-- The number that a run of digits spells, if it is one. -/
def digitsValue? (digits : List Char) : Option Nat :=
  if !digits.isEmpty && digits.all isDigit then some (decimalValue digits) else none

/-- The whole number that a literal spells, if it spells one. -/
def wholeNumber? (text : String) : Option Int :=
  match text.toList with
  | '-' :: digits => (digitsValue? digits).map fun (n : Nat) => -(n : Int)
  | '+' :: digits => (digitsValue? digits).map fun (n : Nat) => (n : Int)
  | digits => (digitsValue? digits).map fun (n : Nat) => (n : Int)

theorem digitsValue?_eq_some_iff (digits : List Char) (n : Nat) :
    digitsValue? digits = some n ↔
      digits ≠ [] ∧ (∀ c ∈ digits, isDigit c = true) ∧ decimalValue digits = n := by
  have htest : (!digits.isEmpty && digits.all isDigit) = true ↔
      digits ≠ [] ∧ ∀ c ∈ digits, isDigit c = true := by
    simp [List.all_eq_true]
  unfold digitsValue?
  split
  · rename_i h
    obtain ⟨hne, hall⟩ := htest.mp h
    exact ⟨fun heq => ⟨hne, hall, Option.some.inj heq⟩, fun heq => congrArg some heq.2.2⟩
  · rename_i h
    simp only [reduceCtorEq, false_iff]
    exact fun h' => h (htest.mpr ⟨h'.1, h'.2.1⟩)

/-- A spelling comes apart into a sign and digits, as the reading of numbers takes it apart. -/
theorem splitSign_of_wholeNumber {text : String} {v : Int} (h : wholeNumber? text = some v) :
    ∃ negative digits, Binary64.splitSign text.toList = (negative, digits) ∧
      digits ≠ [] ∧ (∀ c ∈ digits, isDigit c = true) ∧
      v = if negative then -(decimalValue digits : Int) else decimalValue digits := by
  unfold wholeNumber? at h
  split at h
  · rename_i digits htext
    obtain ⟨n, hn, rfl⟩ := Option.map_eq_some_iff.mp h
    obtain ⟨hne, hall, rfl⟩ := (digitsValue?_eq_some_iff digits n).mp hn
    exact ⟨true, digits, by rw [htext]; rfl, hne, hall, rfl⟩
  · rename_i digits htext
    obtain ⟨n, hn, rfl⟩ := Option.map_eq_some_iff.mp h
    obtain ⟨hne, hall, rfl⟩ := (digitsValue?_eq_some_iff digits n).mp hn
    exact ⟨false, digits, by rw [htext]; rfl, hne, hall, rfl⟩
  · rename_i hminus hplus
    obtain ⟨n, hn, rfl⟩ := Option.map_eq_some_iff.mp h
    obtain ⟨hne, hall, rfl⟩ := (digitsValue?_eq_some_iff _ n).mp hn
    refine ⟨false, text.toList, ?_, hne, hall, rfl⟩
    unfold Binary64.splitSign
    split
    · rename_i rest heq
      exact absurd heq (hminus rest)
    · rename_i rest heq
      exact absurd heq (hplus rest)
    · rfl

/-! ## The values of digits -/

theorem decimalValue_append (xs ys : List Char) :
    decimalValue (xs ++ ys) = decimalValue xs * Nat.pow 10 ys.length + decimalValue ys := by
  have hfold : ∀ (zs : List Char) (v : Nat),
      zs.foldl (fun value c => 10 * value + digitValue c) v =
        v * Nat.pow 10 zs.length + decimalValue zs := by
    intro zs
    induction zs with
    | nil => simp [decimalValue]
    | cons c zs ih =>
      intro v
      rw [decimalValue, List.foldl_cons, List.foldl_cons, ih, ih, List.length_cons, Nat.pow_eq,
        Nat.pow_eq, Nat.pow_succ, Nat.add_mul, Nat.add_mul]
      simp only [Nat.mul_zero, Nat.zero_mul, Nat.zero_add]
      rw [← Nat.add_assoc, Nat.mul_comm 10 v, Nat.mul_assoc, Nat.mul_comm 10]
  unfold decimalValue
  rw [List.foldl_append, hfold]
  rfl

theorem decimalValue_cons (c : Char) (ys : List Char) :
    decimalValue (c :: ys) = digitValue c * Nat.pow 10 ys.length + decimalValue ys := by
  have h := decimalValue_append [c] ys
  simpa [decimalValue] using h

theorem decimalValue_dropWhile_zero (digits : List Char) :
    decimalValue (digits.dropWhile (· == '0')) = decimalValue digits := by
  induction digits with
  | nil => rfl
  | cons c digits ih =>
    rw [List.dropWhile_cons]
    split
    · rename_i h
      have hc : c = '0' := by simpa using h
      rw [ih, decimalValue_cons, hc, show digitValue '0' = 0 from rfl, Nat.zero_mul, Nat.zero_add]
    · rfl

theorem digitValue_pos {c : Char} (hd : isDigit c = true) (hc : c ≠ '0') : 0 < digitValue c := by
  simp only [isDigit, Bool.and_eq_true, decide_eq_true_eq, Char.le_def] at hd
  have hne : c.toNat ≠ '0'.toNat := fun h => hc (Char.toNat_inj.mp h)
  have hle : '0'.toNat ≤ c.toNat := UInt32.le_iff_toNat_le.mp hd.1
  unfold digitValue
  omega

/-- A number of many places is not one. -/
theorem decimalValue_ne_one {digits : List Char} (hall : ∀ c ∈ digits, isDigit c = true)
    (hlen : 2 ≤ (digits.dropWhile (· == '0')).length) : decimalValue digits ≠ 1 := by
  rw [← decimalValue_dropWhile_zero]
  cases hd : digits.dropWhile (· == '0') with
  | nil => simp [hd] at hlen
  | cons c rest =>
    have hmem : c ∈ digits := (List.dropWhile_sublist _).subset (hd ▸ List.mem_cons_self ..)
    have hc : c ≠ '0' := by
      intro heq
      have hhead := List.head?_dropWhile_not (· == '0') digits
      rw [hd] at hhead
      simp [heq] at hhead
    have hpos := digitValue_pos (hall c hmem) hc
    rw [hd] at hlen
    have hpow : 10 ≤ Nat.pow 10 rest.length :=
      Nat.le_self_pow (by rintro hrest; simp [hrest] at hlen) 10
    have hle := Nat.mul_le_mul hpos hpow
    rw [decimalValue_cons]
    omega

/-! ## Rounding -/

namespace Binary64

theorem le_nearestEven (n d : Nat) : n / d ≤ nearestEven n d := by
  unfold nearestEven
  dsimp only
  split
  · exact Nat.le_refl _
  split
  · exact Nat.le_succ _
  · exact Nat.le_add_right _ _

theorem floorLog_one {n : Nat} (h : n ≠ 0) : floorLog n 1 = n.log2 := by
  have hle := Nat.log2_self_le h
  have h0 : (0 : Int) ≤ (n.log2 : Int) - (Nat.log2 1 : Int) := by
    simp [show Nat.log2 1 = 0 from rfl]
  unfold floorLog
  simp only [scale, h0, ↓reduceIte]
  rw [if_neg]
  · simp [show Nat.log2 1 = 0 from rfl]
  · simpa [show Nat.log2 1 = 0 from rfl] using hle

/-- A whole number other than zero has a mantissa of 53 bits. -/
theorem mantissa_ge {n : Nat} (h : n ≠ 0) :
    Nat.pow 2 52 ≤
      nearestEven (scale n 1 ((n.log2 : Int) - 52)).1 (scale n 1 ((n.log2 : Int) - 52)).2 := by
  have hlog := Nat.log2_self_le h
  rw [Nat.pow_eq]
  refine Nat.le_trans ?_ (le_nearestEven _ _)
  unfold scale
  split
  · rename_i h0
    have hexp : ((n.log2 : Int) - 52).toNat + 52 = n.log2 := by omega
    dsimp only
    rw [Nat.one_mul, Nat.pow_eq, Nat.le_div_iff_mul_le (Nat.two_pow_pos _), ← Nat.pow_add,
      Nat.add_comm, hexp]
    exact hlog
  · rename_i h0
    have hexp : n.log2 + (-((n.log2 : Int) - 52)).toNat = 52 := by omega
    dsimp only
    rw [Nat.div_one, Nat.pow_eq]
    calc 2 ^ 52 = 2 ^ n.log2 * 2 ^ (-((n.log2 : Int) - 52)).toNat := by rw [← Nat.pow_add, hexp]
      _ ≤ n * 2 ^ (-((n.log2 : Int) - 52)).toNat := Nat.mul_le_mul_right _ hlog

/-- What a whole number other than zero is rounded to. -/
theorem ofRatio_one {n : Nat} (negative : Bool) (h : n ≠ 0) :
    ∃ m e, m ≠ 0 ∧ (n.log2 : Int) - 52 ≤ e ∧
      ofRatio negative n 1 =
        if maxExponent < e then .infinite negative else .finite negative m e := by
  have hmax : max (floorLog n 1 - 52) minExponent = (n.log2 : Int) - 52 := by
    rw [floorLog_one h]
    exact Int.max_eq_left (by unfold minExponent; omega)
  have hm := Nat.lt_of_lt_of_le (by decide : 0 < Nat.pow 2 52) (mantissa_ge h)
  unfold ofRatio
  rw [if_neg h]
  dsimp only
  rw [hmax]
  split
  · exact ⟨Nat.pow 2 52, _, by decide, by omega, rfl⟩
  · exact ⟨_, _, by omega, Int.le_refl _, rfl⟩

theorem isZero_ofRatio_one (negative : Bool) (n : Nat) :
    (ofRatio negative n 1).isZero = decide (n = 0) := by
  by_cases h : n = 0
  · subst h
    rfl
  · obtain ⟨m, e, hm, _, heq⟩ := ofRatio_one negative h
    rw [heq]
    split <;> simp [isZero, h, hm]

theorem isOne_ofRatio_one (negative : Bool) (n : Nat) :
    (ofRatio negative n 1).isOne = (!negative && decide (n = 1)) := by
  by_cases h1 : n = 1
  · subst h1
    cases negative <;> decide
  by_cases h : n = 0
  · subst h
    cases negative <;> decide
  · obtain ⟨m, e, _, he, heq⟩ := ofRatio_one negative h
    have hlog : n.log2 ≠ 0 := by
      intro hlog
      have := (Nat.log2_eq_iff h).mp hlog
      omega
    have hne : e ≠ -52 := by omega
    rw [heq]
    split <;> simp [isOne, one, h1, hne]

theorem ofDecimal_zero {digits : List Char} (negative : Bool)
    (hall : ∀ c ∈ digits, isDigit c = true) :
    (ofDecimal negative digits 0).isZero = decide (decimalValue digits = 0) ∧
      (ofDecimal negative digits 0).isOne = (!negative && decide (decimalValue digits = 1)) := by
  unfold ofDecimal
  dsimp only
  rw [decimalValue_dropWhile_zero]
  by_cases h0 : decimalValue digits = 0
  · rw [if_pos h0, h0]
    cases negative <;> decide
  rw [if_neg h0]
  by_cases hlong : 400 < 0 + ((digits.dropWhile (· == '0')).length : Int)
  · have h1 := decimalValue_ne_one hall (by omega)
    rw [if_pos hlong]
    simp [isZero, isOne, one, h0, h1]
  · have hshort : ¬0 + ((digits.dropWhile (· == '0')).length : Int) < -400 := by omega
    rw [if_neg hlong, if_neg hshort, if_pos (Int.le_refl 0)]
    simp only [Int.toNat_zero, Nat.pow_eq, Nat.pow_zero, Nat.mul_one]
    exact ⟨isZero_ofRatio_one _ _, isOne_ofRatio_one _ _⟩

theorem ofChars?_of_digits {text digits : List Char} {negative : Bool}
    (hsplit : splitSign text = (negative, digits)) (hne : digits ≠ [])
    (hall : ∀ c ∈ digits, isDigit c = true) :
    ofChars? text = some (ofDecimal negative digits 0) := by
  have htake : digits.takeWhile isDigit = digits := List.takeWhile_eq_self_iff.mpr hall
  have hdrop : digits.dropWhile isDigit = [] := List.dropWhile_eq_nil_iff.mpr hall
  simp [ofChars?, hsplit, readDecimal, htake, hdrop, readFraction, hne, readPower]

end Binary64

/-! ## Literals -/

theorem isZero_literal {text : String} {v : Int} (h : wholeNumber? text = some v) :
    (Operand.literal text).isZero = decide (v = 0) := by
  obtain ⟨negative, digits, hsplit, hne, hall, rfl⟩ := splitSign_of_wholeNumber h
  simp only [Operand.isZero, Operand.value?, Binary64.ofString?,
    Binary64.ofChars?_of_digits hsplit hne hall, Option.any_some,
    (Binary64.ofDecimal_zero negative hall).1]
  cases negative <;> simp

theorem isOne_literal {text : String} {v : Int} (h : wholeNumber? text = some v) :
    (Operand.literal text).isOne = decide (v = 1) := by
  obtain ⟨negative, digits, hsplit, hne, hall, rfl⟩ := splitSign_of_wholeNumber h
  simp only [Operand.isOne, Operand.value?, Binary64.ofString?,
    Binary64.ofChars?_of_digits hsplit hne hall, Option.any_some,
    (Binary64.ofDecimal_zero negative hall).2]
  cases negative with
  | false => simp only [Bool.not_false, Bool.true_and, Bool.false_eq_true, ↓reduceIte]; norm_cast
  | true =>
    have hne : -(decimalValue digits : Int) ≠ 1 := by omega
    simp [hne]

/-! ## Spellings without a plus sign -/

/-- Digits that spell a number, behind a minus sign if it is negative or zero. -/
def Numeral (text : String) (v : Int) : Prop :=
  ∃ n : Nat, (digitsValue? text.toList = some n ∧ v = n) ∨
    ∃ digits, text.toList = '-' :: digits ∧ digitsValue? digits = some n ∧ v = -n

theorem wholeNumber?_of_numeral {text : String} {v : Int} (h : Numeral text v) :
    wholeNumber? text = some v := by
  unfold wholeNumber?
  obtain ⟨n, ⟨hn, rfl⟩ | ⟨digits, htext, hn, rfl⟩⟩ := h
  · -- The first character is a digit, so it is no sign.
    obtain ⟨_, hall, _⟩ := (digitsValue?_eq_some_iff _ n).mp hn
    split
    · rename_i heq
      have := hall '-' (by simp [heq])
      simp [isDigit] at this
    · rename_i heq
      have := hall '+' (by simp [heq])
      simp [isDigit] at this
    · rw [hn]
      rfl
  · simp [htext, hn]

theorem numeral_negateText {text : String} {v : Int} (h : Numeral text v) :
    Numeral (State.negateText text) (-v) := by
  obtain ⟨n, ⟨hn, rfl⟩ | ⟨digits, htext, hn, rfl⟩⟩ := h
  · obtain ⟨_, hall, _⟩ := (digitsValue?_eq_some_iff _ n).mp hn
    refine ⟨n, .inr ⟨text.toList, ?_, hn, rfl⟩⟩
    unfold State.negateText
    split
    · rename_i heq
      have := hall '-' (by simp [heq])
      simp [isDigit] at this
    · simp
  · refine ⟨n, .inl ⟨?_, by simp⟩⟩
    simpa [State.negateText, htext] using hn

theorem numeral_toString_nat (n : Nat) : Numeral (toString n) n := by
  have htext : (toString n).toList = Nat.toDigits 10 n := Nat.toList_repr
  refine ⟨n, .inl ⟨?_, rfl⟩⟩
  rw [htext, digitsValue?_eq_some_iff]
  refine ⟨Nat.toDigits_ne_nil, fun c hc => ?_, ?_⟩
  · have h := Nat.isDigit_of_mem_toDigits (by decide) (by decide) hc
    simpa [Char.isDigit, isDigit, Char.le_def] using h
  · have h := Nat.ofDigitChars_ten_toDigits (n := n)
    rw [Nat.ofDigitChars_eq_foldl] at h
    exact h

theorem numeral_toString_int (v : Int) : Numeral (toString v) v := by
  cases v with
  | ofNat n => exact numeral_toString_nat n
  | negSucc n =>
    obtain ⟨k, ⟨hk, hv⟩ | ⟨digits, _, _, hv⟩⟩ := numeral_toString_nat (n + 1)
    · refine ⟨n + 1, .inr ⟨(toString (n + 1)).toList, ?_, ?_, rfl⟩⟩
      · change ("-" ++ toString (n + 1)).toList = _
        simp
      · rw [hk]
        exact congrArg some (by omega)
    · omega

end Triad
