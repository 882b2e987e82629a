import Gengo.Lexing.Digits

/-!
# Numbers with a fraction or an exponent

Which texts are read as floats, and how near a float is to the number that its text denotes. The
digits before the dot, behind it and of the exponent are each read as integers, which are put
together by a division, an addition and a scaling by a power of ten.
-/

namespace Gengo.Lexing

open List
open Bytecode (Bytes)
open Floats (roundTo Near)

/-- The digits of a number with a fraction or an exponent, and whether the exponent is negative. -/
structure Decimal where
  whole : Bytes
  fraction : Bytes
  negative : Bool
  exponent : Bytes

/-- How many of some digits are no underscores. -/
def places (digits : Bytes) : ℕ :=
  digits.countP (· ≠ ascii '_')

namespace Decimal

/-- The number before it is scaled. -/
def unscaled (decimal : Decimal) : ℚ :=
  value 10 decimal.whole + value 10 decimal.fraction / 10 ^ places decimal.fraction

/-- The number that is denoted. -/
def number (decimal : Decimal) : ℚ :=
  if decimal.negative then decimal.unscaled / 10 ^ value 10 decimal.exponent
  else decimal.unscaled * 10 ^ value 10 decimal.exponent

/-- At most 53 bits before the dot, 15 digits behind it, and a power of ten up to 10^22. -/
structure Short (decimal : Decimal) : Prop where
  whole : value 10 decimal.whole ≤ 2 ^ 53
  fraction : places decimal.fraction ≤ 15
  exponent : value 10 decimal.exponent ≤ 22

end Decimal

/-- A float denotes the number up to the last bits, and exactly if there is no fraction and no
exponent. -/
structure Decimal.IsNear (decimal : Decimal) (v : ℚ) : Prop where
  close : |v - decimal.number| ≤ decimal.number / 2 ^ 50
  whole : value 10 decimal.fraction = 0 → value 10 decimal.exponent = 0 →
    v = value 10 decimal.whole

/-- A dot with digits behind it, or nothing. -/
inductive FractionText : Bytes → Bytes → Prop
  | absent : FractionText [] []
  | digits {digits : Bytes} (areDigits : AreDigitsOf 10 digits) :
      FractionText (ascii '.' :: digits) digits

inductive SignText : Bytes → Bool → Prop
  | absent : SignText [] false
  | plus : SignText [ascii '+'] false
  | minus : SignText [ascii '-'] true

/-- An exponent, or nothing. It has a digit, and no underscores. -/
inductive ExponentText : Bytes → Bool → Bytes → Prop
  | absent : ExponentText [] false []
  | digits {marker : UInt8} {sign digits : Bytes} {negative : Bool}
      (isMarker : marker = ascii 'e' ∨ marker = ascii 'E') (isSign : SignText sign negative)
      (nonempty : digits ≠ []) (areDigits : ∀ ch ∈ digits, (digitBelow 10 ch).isSome) :
      ExponentText (marker :: (sign ++ digits)) negative digits

/-- Digits with a fraction and an exponent, either of which may be missing. -/
inductive DecimalText : Bytes → Decimal → Prop
  | mk {whole fraction exponent digits exponentDigits : Bytes} {negative : Bool}
      (areDigits : AreDigitsOf 10 whole) (isFraction : FractionText fraction digits)
      (isExponent : ExponentText exponent negative exponentDigits) :
      DecimalText (whole ++ (fraction ++ exponent)) ⟨whole, digits, negative, exponentDigits⟩

/-- A byte that the loops over digits go over. -/
def isPlaced (ch : UInt8) : Bool :=
  ch = ascii '_' || isDigit ch

theorem digitBelow_eq : digitBelow 10 = fun ch =>
    if isDigit ch then some (ch - 48).toNat else none := by
  funext ch
  revert ch
  apply forall_byte
  decide +kernel

theorem isSome_digitBelow (ch : UInt8) : (digitBelow 10 ch).isSome = isDigit ch := by
  rw [digitBelow_eq]
  dsimp only
  cases isDigit ch with
  | true | false => rfl

theorem areDigitsOf_iff {digits : Bytes} :
    AreDigitsOf 10 digits ↔ ∀ ch ∈ digits, isPlaced ch = true := by
  refine forall₂_congr fun ch _ => ?_
  rw [isSome_digitBelow, isPlaced, Bool.or_eq_true, decide_eq_true_eq]

/-- Text does not go on with a byte of some kind. -/
def Stops (holds : UInt8 → Bool) (text : Bytes) : Prop :=
  ∀ ch, text.head? = some ch → holds ch = false

section Runs

variable {holds : UInt8 → Bool} {front back : Bytes}

theorem takeWhile_of_stops (all : ∀ ch ∈ front, holds ch = true) (stops : Stops holds back) :
    (front ++ back).takeWhile holds = front ∧ (front ++ back).dropWhile holds = back := by
  rw [takeWhile_append_of_pos all, dropWhile_append_of_pos all]
  cases back with
  | nil => exact ⟨append_nil _, rfl⟩
  | cons ch back =>
    have stop := stops ch rfl
    rw [takeWhile_cons_of_neg (by simp [stop]), dropWhile_cons_of_neg (by simp [stop])]
    exact ⟨append_nil _, rfl⟩

end Runs

section

variable {F : Type} {arith : FloatArithmetic F}

/-- The three loops over digits are one, but for the bytes where they stop. -/
theorem wholeDigits_eq (s : Bytes) (ip : F) :
    wholeDigits arith s ip =
      ((wholeDigits arith (s.takeWhile isPlaced) ip).1, s.dropWhile isPlaced) := by
  induction s generalizing ip with
  | nil => rfl
  | cons ch s ih =>
    rw [wholeDigits]
    by_cases isUnderscore : ch = ascii '_'
    · rw [if_pos isUnderscore, takeWhile_cons_of_pos (by simp [isPlaced, isUnderscore]),
        dropWhile_cons_of_pos (by simp [isPlaced, isUnderscore]), wholeDigits,
        if_pos isUnderscore]
      exact ih ip
    · rw [if_neg isUnderscore]
      cases digit : isDigit ch with
      | true =>
        rw [takeWhile_cons_of_pos (by simp [isPlaced, digit]),
          dropWhile_cons_of_pos (by simp [isPlaced, digit]), wholeDigits, if_neg isUnderscore,
          digit]
        exact ih _
      | false =>
        rw [takeWhile_cons_of_neg (by simp [isPlaced, digit, isUnderscore]),
          dropWhile_cons_of_neg (by simp [isPlaced, digit, isUnderscore])]
        rfl

/-- A float divided by as many tens. -/
def tens (arith : FloatArithmetic F) : ℕ → F → F
  | 0, fd => fd
  | n + 1, fd => tens arith n (arith.mul fd (arith.ofNat 10))

theorem fractionDigits_eq (s : Bytes) (fp fd : F) :
    fractionDigits arith s fp fd =
      ((wholeDigits arith (s.takeWhile isPlaced) fp).1,
        tens arith (places (s.takeWhile isPlaced)) fd, s.dropWhile isPlaced) := by
  induction s generalizing fp fd with
  | nil => rfl
  | cons ch s ih =>
    rw [fractionDigits]
    by_cases isUnderscore : ch = ascii '_'
    · rw [if_pos isUnderscore, takeWhile_cons_of_pos (by simp [isPlaced, isUnderscore]),
        dropWhile_cons_of_pos (by simp [isPlaced, isUnderscore]), wholeDigits,
        if_pos isUnderscore, places, countP_cons_of_neg (by simp [isUnderscore])]
      exact ih fp fd
    · rw [if_neg isUnderscore]
      cases digit : isDigit ch with
      | true =>
        rw [takeWhile_cons_of_pos (by simp [isPlaced, digit]),
          dropWhile_cons_of_pos (by simp [isPlaced, digit]), wholeDigits, if_neg isUnderscore,
          digit, places, countP_cons_of_pos (by simp [isUnderscore])]
        exact ih _ _
      | false =>
        rw [takeWhile_cons_of_neg (by simp [isPlaced, digit, isUnderscore]),
          dropWhile_cons_of_neg (by simp [isPlaced, digit, isUnderscore])]
        rfl

theorem exponentDigits_eq (s : Bytes) (exp : F) :
    exponentDigits arith s exp =
      ((wholeDigits arith (s.takeWhile isDigit) exp).1, s.dropWhile isDigit) := by
  induction s generalizing exp with
  | nil => rfl
  | cons ch s ih =>
    rw [exponentDigits]
    cases digit : isDigit ch with
    | true =>
      have notUnderscore : ch ≠ ascii '_' := by
        rintro rfl
        cases digit
      rw [takeWhile_cons_of_pos digit, dropWhile_cons_of_pos digit, wholeDigits,
        if_neg notUnderscore, digit]
      exact ih _
    | false =>
      rw [takeWhile_cons_of_neg (by simp [digit]), dropWhile_cons_of_neg (by simp [digit])]
      rfl

theorem wholeDigits_append {front back : Bytes} (areDigits : AreDigitsOf 10 front)
    (stops : Stops isPlaced back) (ip : F) :
    wholeDigits arith (front ++ back) ip = ((wholeDigits arith front ip).1, back) := by
  have runs := takeWhile_of_stops (areDigitsOf_iff.mp areDigits) stops
  rw [wholeDigits_eq, runs.1, runs.2]

theorem fractionDigits_append {front back : Bytes} (areDigits : AreDigitsOf 10 front)
    (stops : Stops isPlaced back) (fp fd : F) :
    fractionDigits arith (front ++ back) fp fd =
      ((wholeDigits arith front fp).1, tens arith (places front) fd, back) := by
  have runs := takeWhile_of_stops (areDigitsOf_iff.mp areDigits) stops
  rw [fractionDigits_eq, runs.1, runs.2]

/-- The float that a loop over digits gives. -/
def integerOf (arith : FloatArithmetic F) (digits : Bytes) : F :=
  (wholeDigits arith digits (arith.ofNat 0)).1

namespace Decimal

/-- The float of the whole digits and the fraction. -/
def sum (arith : FloatArithmetic F) (decimal : Decimal) : F :=
  arith.add (integerOf arith decimal.whole) (arith.div (integerOf arith decimal.fraction)
    (tens arith (places decimal.fraction) (arith.ofNat 1)))

/-- The float that is computed from the digits. -/
def assembled (arith : FloatArithmetic F) (decimal : Decimal) : F :=
  let exp := integerOf arith decimal.exponent
  if arith.isZero exp then decimal.sum arith
  else if decimal.negative then
    arith.div (decimal.sum arith) (arith.pow (arith.ofNat 10) exp)
  else arith.mul (decimal.sum arith) (arith.pow (arith.ofNat 10) exp)

end Decimal

theorem fractionPart_of_text {text digits back : Bytes} (isFraction : FractionText text digits)
    (stops : Stops isPlaced back) (notDot : back.head? ≠ some (ascii '.')) :
    fractionPart arith (text ++ back) =
      ((wholeDigits arith digits (arith.ofNat 0)).1,
        tens arith (places digits) (arith.ofNat 1), back) := by
  cases isFraction with
  | absent => exact if_neg notDot
  | digits areDigits =>
    rw [fractionPart, cons_append, head?_cons, if_pos rfl]
    exact fractionDigits_append areDigits stops _ _

theorem exponentDigits_all {digits : Bytes}
    (areDigits : ∀ ch ∈ digits, (digitBelow 10 ch).isSome) (exp : F) :
    exponentDigits arith digits exp = ((wholeDigits arith digits exp).1, []) := by
  have all : ∀ ch ∈ digits, isDigit ch = true := fun ch mem =>
    isSome_digitBelow ch ▸ areDigits ch mem
  have stops : Stops isDigit [] := by
    intro ch isHead
    cases isHead
  have runs := takeWhile_of_stops all stops
  rw [append_nil] at runs
  rw [exponentDigits_eq, runs.1, runs.2]

theorem head_ne_of_digit {digits : Bytes} {c : UInt8}
    (areDigits : ∀ ch ∈ digits, (digitBelow 10 ch).isSome) (noDigit : (digitBelow 10 c).isNone) :
    digits.head? ≠ some c := by
  intro isHead
  have digit := areDigits c (mem_of_head? isHead)
  rw [← Option.not_isSome, digit] at noDigit
  cases noDigit

theorem exponentPart_of_text {text digits : Bytes} {negative : Bool}
    (isExponent : ExponentText text negative digits) :
    exponentPart arith text =
      some (negative, (wholeDigits arith digits (arith.ofNat 0)).1, []) := by
  cases isExponent with
  | absent => rfl
  | @digits marker sign _ _ isMarker isSign nonempty areDigits =>
    have first : (digits.head?.bind decimalDigit).isNone = false := by
      cases digits with
      | nil => contradiction
      | cons ch digits =>
        have digit := areDigits ch mem_cons_self
        rw [head?_cons, Option.bind_some, digitBelow_decimal, ← Option.not_isSome, digit]
        rfl
    have read : exponentDigits arith digits (arith.ofNat 0) =
        ((wholeDigits arith digits (arith.ofNat 0)).1, []) := exponentDigits_all areDigits _
    have notMinus := head_ne_of_digit areDigits (c := ascii '-') (by decide)
    have notPlus := head_ne_of_digit areDigits (c := ascii '+') (by decide)
    unfold exponentPart
    rw [head?_cons, if_pos (by simpa using isMarker), tail_cons]
    cases isSign with
    | absent =>
      rw [nil_append]
      simp only [notMinus, notPlus, or_self, if_false, first, read, decide_false,
        Bool.false_eq_true]
    | plus =>
      have notMinus' : ascii '+' ≠ ascii '-' := by decide
      simp [notMinus', first, read]
    | minus => simp [first, read]

theorem stops_of_exponent {text digits : Bytes} {negative : Bool}
    (isExponent : ExponentText text negative digits) :
    Stops isPlaced text ∧ text.head? ≠ some (ascii '.') := by
  cases isExponent with
  | absent =>
    constructor
    · intro ch isHead
      cases isHead
    · intro isHead
      cases isHead
  | digits isMarker _ _ _ =>
    constructor
    · intro ch isHead
      cases isHead
      rcases isMarker with rfl | rfl
      · decide
      · decide
    · intro isHead
      cases isHead
      rcases isMarker with isE | isE
      · exact absurd isE (by decide)
      · exact absurd isE (by decide)

/-- A text with these digits is read as the float that is computed from them. -/
theorem decimalFloat_of_text {src : Bytes} {decimal : Decimal} (text : DecimalText src decimal) :
    decimalFloat arith false src = some (decimal.assembled arith) := by
  cases text with
  | @mk whole fraction exponent digits exponentDigits negative areDigits isFraction isExponent =>
    have stops := stops_of_exponent isExponent
    have stops' : Stops isPlaced (fraction ++ exponent) := by
      cases isFraction with
      | absent => exact stops.1
      | digits _ =>
        intro ch isHead
        cases isHead
        decide
    unfold decimalFloat
    rw [wholeDigits_append areDigits stops']
    dsimp only
    rw [fractionPart_of_text isFraction stops.1 stops.2]
    dsimp only
    rw [exponentPart_of_text isExponent]
    rfl

theorem exists_fractionText (s : Bytes) :
    ∃ text digits, s = text ++ (fractionPart arith s).2.2 ∧ FractionText text digits := by
  unfold fractionPart
  split
  · rename_i isDot
    cases s with
    | nil => cases isDot
    | cons ch s =>
      rw [head?_cons, Option.some.injEq] at isDot
      have split_ := takeWhile_append_dropWhile (p := isPlaced) (l := s)
      refine ⟨_, s.takeWhile isPlaced, ?_, .digits ?_⟩
      · rw [tail_cons, fractionDigits_eq, isDot, cons_append, split_]
      · exact areDigitsOf_iff.mpr fun ch mem => (mem_takeWhile_imp mem)
  · exact ⟨[], [], rfl, .absent⟩

theorem exponentText_of_digits {marker : UInt8} {sign digits : Bytes} {negative : Bool}
    (isMarker : marker = ascii 'e' ∨ marker = ascii 'E') (isSign : SignText sign negative)
    (first : (digits.head?.bind decimalDigit).isNone ≠ true)
    (all : (exponentDigits arith digits (arith.ofNat 0)).2 = []) :
    ∃ negative digits', ExponentText (marker :: (sign ++ digits)) negative digits' := by
  rw [exponentDigits_eq] at all
  refine ⟨negative, digits, .digits isMarker isSign ?_ fun ch mem => ?_⟩
  · rintro rfl
    exact first rfl
  · rw [isSome_digitBelow]
    exact dropWhile_eq_nil_iff.mp all ch mem

theorem exists_exponentText {s : Bytes} {expNeg : Bool} {exp : F}
    (read : exponentPart arith s = some (expNeg, exp, [])) :
    ∃ negative digits, ExponentText s negative digits := by
  unfold exponentPart at read
  split at read
  · rename_i isMarker
    cases s with
    | nil => simp at isMarker
    | cons marker s =>
      rw [head?_cons, Option.some.injEq, Option.some.injEq] at isMarker
      rw [tail_cons] at read
      by_cases isMinus : s.head? = some (ascii '-')
      · simp only [isMinus, true_or, if_true, Option.ite_none_left_eq_some, Option.some.injEq,
          Prod.mk.injEq] at read
        rw [← cons_head?_tail isMinus]
        exact exponentText_of_digits isMarker .minus read.1 read.2.2.2
      · by_cases isPlus : s.head? = some (ascii '+')
        · simp only [isPlus, or_true, if_true, Option.ite_none_left_eq_some, Option.some.injEq,
            Prod.mk.injEq] at read
          rw [← cons_head?_tail isPlus]
          exact exponentText_of_digits isMarker .plus read.1 read.2.2.2
        · simp only [isMinus, isPlus, or_self, if_false, Option.ite_none_left_eq_some,
            Option.some.injEq, Prod.mk.injEq] at read
          exact exponentText_of_digits isMarker .absent read.1 read.2.2.2
  · cases read
    exact ⟨false, [], .absent⟩

/-- What is read as a float is the text of some digits. -/
theorem exists_decimalText {src : Bytes} {x : F} (read : decimalFloat arith false src = some x) :
    ∃ decimal, DecimalText src decimal := by
  have split_ := takeWhile_append_dropWhile (p := isPlaced) (l := src)
  have areDigits : AreDigitsOf 10 (src.takeWhile isPlaced) :=
    areDigitsOf_iff.mpr fun ch mem => mem_takeWhile_imp mem
  unfold decimalFloat at read
  rw [wholeDigits_eq] at read
  dsimp only at read
  have isText : ∃ text digits, src.dropWhile isPlaced =
      text ++ (fractionPart arith (src.dropWhile isPlaced)).2.2 ∧ FractionText text digits :=
    exists_fractionText _
  rcases isText with ⟨text, digits, same, isFraction⟩
  generalize fractionPart arith (src.dropWhile isPlaced) = part at read same
  rcases part with ⟨fp, fd, rest⟩
  dsimp only at read same
  cases exponent : exponentPart arith rest with
  | none =>
    rw [exponent] at read
    cases read
  | some found =>
    rcases found with ⟨expNeg, exp, behind⟩
    rw [exponent] at read
    dsimp only at read
    by_cases ends : behind = []
    · rw [ends] at exponent
      rcases exists_exponentText exponent with ⟨negative, exponentDigits, isExponent⟩
      rw [← split_, same]
      exact ⟨_, .mk areDigits isFraction isExponent⟩
    · rw [if_pos ends] at read
      cases read

theorem pushDigit_ofNat {v : ℕ} {ch : UInt8} (small : v * 10 + (ch - 48).toNat ≤ 2 ^ 53) :
    pushDigit arith (arith.ofNat v) ch = arith.ofNat (v * 10 + (ch - 48).toNat) := by
  rw [pushDigit, arith.mul_ofNat (by omega) (by decide) (by omega), arith.add_ofNat small]

/-- Integers of 53 bits are read exactly. -/
theorem wholeDigits_ofNat {digits : Bytes} (areDigits : AreDigitsOf 10 digits) {v : ℕ}
    (small : valueFrom 10 v digits ≤ 2 ^ 53) :
    wholeDigits arith digits (arith.ofNat v) = (arith.ofNat (valueFrom 10 v digits), []) := by
  induction digits generalizing v with
  | nil => rfl
  | cons ch digits ih =>
    rcases areDigitsOf_cons.mp areDigits with ⟨first, later⟩
    rw [wholeDigits, valueFrom]
    rw [valueFrom] at small
    split
    · rename_i isUnderscore
      rw [if_pos isUnderscore] at small
      exact ih later small
    · rename_i notUnderscore
      rw [if_neg notUnderscore] at small
      have digit := first.resolve_left notUnderscore
      rw [digitBelow_eq] at digit small ⊢
      dsimp only at digit small ⊢
      split at digit
      · rename_i isDigit
        rw [if_pos isDigit] at small ⊢
        have grows := @le_valueFrom 10 (by decide) (v * 10 + (ch - 48).toNat) digits
        change valueFrom 10 (v * 10 + (ch - 48).toNat) digits ≤ 2 ^ 53 at small
        rw [if_pos isDigit, pushDigit_ofNat (grows.trans small)]
        exact ih later small
      · cases digit

theorem tens_ofNat {n v : ℕ} (small : v * 10 ^ n ≤ 2 ^ 53) :
    tens arith n (arith.ofNat v) = arith.ofNat (v * 10 ^ n) := by
  induction n generalizing v with
  | zero => rw [tens, pow_zero, mul_one]
  | succ n ih =>
    have grows : v * 10 ≤ v * 10 ^ (n + 1) :=
      Nat.mul_le_mul_left v (Nat.le_self_pow (by omega) 10)
    rw [tens, arith.mul_ofNat (by omega) (by decide) (by omega), ih
      (by rwa [mul_assoc, ← pow_succ']),
      mul_assoc, ← pow_succ']

end

theorem valueFrom_lt (v : ℕ) (digits : Bytes) :
    valueFrom 10 v digits < (v + 1) * 10 ^ places digits := by
  induction digits generalizing v with
  | nil => exact (Nat.lt_succ_self v).trans_eq (mul_one _).symm
  | cons ch digits ih =>
    rw [valueFrom]
    split
    · rename_i isUnderscore
      rw [places, countP_cons_of_neg (by simp [isUnderscore])]
      exact ih v
    · rename_i notUnderscore
      rw [places, countP_cons_of_pos (by simp [notUnderscore]), pow_succ']
      have small : (digitBelow 10 ch).getD 0 < 10 := by
        cases digit : digitBelow 10 ch with
        | none => decide
        | some d => exact digitBelow_lt digit
      calc valueFrom 10 (v * 10 + (digitBelow 10 ch).getD 0) digits
          < (v * 10 + (digitBelow 10 ch).getD 0 + 1) * 10 ^ places digits := ih _
        _ ≤ ((v + 1) * 10) * 10 ^ places digits := Nat.mul_le_mul_right _ (by omega)
        _ = (v + 1) * (10 * 10 ^ places digits) := mul_assoc _ _ _

/-- What is near to a number that is far from the bounds is moderate. -/
theorem moderate_of_near {steps : ℕ} {v q : ℚ} (near : Near 53 steps v q)
    (few : 2 * steps ≤ 2 ^ 53) (lower : q = 0 ∨ 1 / 2 ^ 199 ≤ q) (upper : q ≤ 2 ^ 199) :
    Moderate v := by
  rcases lower with rfl | lower
  · rw [Near, sub_zero, zero_mul] at near
    exact .inl (abs_nonpos_iff.mp near)
  · have nonneg : 0 ≤ q := le_trans (by positivity) lower
    have half := near.half_le nonneg few
    have double := (le_abs_self v).trans (near.le_two_mul nonneg (by omega))
    refine .inr ⟨le_trans ?_ half, double.trans ?_⟩
    · rw [le_div_iff₀ (by norm_num)]
      exact le_trans (by norm_num) lower
    · calc 2 * q ≤ 2 * 2 ^ 199 := by gcongr
        _ = 2 ^ 200 := by norm_num

theorem DecimalText.areDigits {src : Bytes} {decimal : Decimal} (text : DecimalText src decimal) :
    AreDigitsOf 10 decimal.whole ∧ AreDigitsOf 10 decimal.fraction ∧
      AreDigitsOf 10 decimal.exponent := by
  have noDigits : AreDigitsOf 10 [] := fun ch mem => absurd mem not_mem_nil
  cases text with
  | mk areDigits isFraction isExponent =>
    refine ⟨areDigits, ?_, ?_⟩
    · cases isFraction with
      | absent => exact noDigits
      | digits areDigits => exact areDigits
    · cases isExponent with
      | absent => exact noDigits
      | digits _ _ _ areDigits => exact fun ch mem => .inr (areDigits ch mem)

theorem close_of_near {steps : ℕ} {v q : ℚ} (near : Near 53 steps v q) (few : steps ≤ 8)
    (nonneg : 0 ≤ q) : |v - q| ≤ q / 2 ^ 50 := by
  have few' : (steps : ℚ) ≤ 8 := by exact_mod_cast few
  calc |v - q| ≤ q * (steps / 2 ^ 53) := near
    _ ≤ q * (8 / 2 ^ 53) := by gcongr
    _ = q / 2 ^ 50 := by ring

namespace Decimal

variable {decimal : Decimal}

theorem unscaled_nonneg : 0 ≤ decimal.unscaled := by
  rw [unscaled]
  positivity

theorem number_of_exponent_zero (noExponent : value 10 decimal.exponent = 0) :
    decimal.number = decimal.unscaled := by
  rw [number, noExponent, pow_zero, div_one, mul_one, ite_self]

section Bounds

variable (short : decimal.Short)

include short

theorem Short.fraction_lt : value 10 decimal.fraction < 10 ^ 15 := by
  have below := valueFrom_lt 0 decimal.fraction
  rw [zero_add, one_mul] at below
  exact below.trans_le (Nat.pow_le_pow_right (by decide) short.fraction)

theorem Short.scale_le : 10 ^ places decimal.fraction ≤ 10 ^ 15 :=
  Nat.pow_le_pow_right (by decide) short.fraction

theorem Short.fraction_bounds :
    ((value 10 decimal.fraction : ℚ) / 10 ^ places decimal.fraction = 0 ∨
      1 / 10 ^ 15 ≤ (value 10 decimal.fraction : ℚ) / 10 ^ places decimal.fraction) ∧
    (value 10 decimal.fraction : ℚ) / 10 ^ places decimal.fraction ≤ 10 ^ 15 := by
  have few : (value 10 decimal.fraction : ℚ) ≤ 10 ^ 15 := by exact_mod_cast short.fraction_lt.le
  have scale : (1 : ℚ) ≤ 10 ^ places decimal.fraction := one_le_pow₀ (by norm_num)
  have scale' : (10 : ℚ) ^ places decimal.fraction ≤ 10 ^ 15 := by
    exact_mod_cast short.scale_le
  refine ⟨?_, (div_le_self (by positivity) scale).trans few⟩
  rcases Nat.eq_zero_or_pos (value 10 decimal.fraction) with none_ | some_
  · left
    rw [none_, Nat.cast_zero, zero_div]
  · right
    have one : (1 : ℚ) ≤ value 10 decimal.fraction := by exact_mod_cast some_
    exact div_le_div₀ (by positivity) one (by positivity) scale'

/-- Short numbers are zero or at least 10^-15. -/
theorem Short.unscaled_bounds :
    (decimal.unscaled = 0 ∨ 1 / 10 ^ 15 ≤ decimal.unscaled) ∧ decimal.unscaled ≤ 2 ^ 54 := by
  have isWhole : (value 10 decimal.whole : ℚ) ≤ 2 ^ 53 := by exact_mod_cast short.whole
  have part := short.fraction_bounds
  have nonneg : (0 : ℚ) ≤ value 10 decimal.fraction / 10 ^ places decimal.fraction := by
    positivity
  rw [unscaled]
  refine ⟨?_, by linarith [(by norm_num : (2 : ℚ) ^ 53 + 10 ^ 15 ≤ 2 ^ 54)]⟩
  rcases Nat.eq_zero_or_pos (value 10 decimal.whole) with none_ | some_
  · rw [none_, Nat.cast_zero, zero_add]
    exact part.1
  · right
    have one : (1 : ℚ) ≤ value 10 decimal.whole := by exact_mod_cast some_
    linarith [(by norm_num : (1 : ℚ) / 10 ^ 15 ≤ 1)]

theorem Short.number_bounds :
    (decimal.number = 0 ∨ 1 / 2 ^ 199 ≤ decimal.number) ∧ decimal.number ≤ 2 ^ 199 := by
  have bounds := short.unscaled_bounds
  have nonneg : 0 ≤ decimal.unscaled := unscaled_nonneg
  have power : (1 : ℚ) ≤ 10 ^ value 10 decimal.exponent := one_le_pow₀ (by norm_num)
  have power' : (10 : ℚ) ^ value 10 decimal.exponent ≤ 10 ^ 22 :=
    pow_le_pow_right₀ (by norm_num) short.exponent
  rw [number]
  split
  · constructor
    · refine bounds.1.imp (fun none_ => by rw [none_, zero_div]) fun lower => ?_
      calc (1 : ℚ) / 2 ^ 199 ≤ 1 / 10 ^ 15 / 10 ^ 22 := by norm_num
        _ ≤ decimal.unscaled / 10 ^ value 10 decimal.exponent :=
          div_le_div₀ nonneg lower (by positivity) power'
    · exact (div_le_self nonneg power).trans (bounds.2.trans (by norm_num))
  · constructor
    · refine bounds.1.imp (fun none_ => by rw [none_, zero_mul]) fun lower => ?_
      exact le_trans (by norm_num) (lower.trans (le_mul_of_one_le_right nonneg power))
    · calc decimal.unscaled * 10 ^ value 10 decimal.exponent
          ≤ 2 ^ 54 * 10 ^ 22 := mul_le_mul bounds.2 power' (by positivity) (by positivity)
        _ ≤ 2 ^ 199 := by norm_num

end Bounds

variable {F : Type} (arith : FloatArithmetic F)

theorem integerOf_eq {digits : Bytes} (areDigits : AreDigitsOf 10 digits)
    (small : value 10 digits ≤ 2 ^ 53) : integerOf arith digits = arith.ofNat (value 10 digits) :=
  congrArg Prod.fst (wholeDigits_ofNat areDigits small)

variable {src : Bytes} (short : decimal.Short) (text : DecimalText src decimal)

include short text

/-- Before it is scaled, a number has been rounded twice. -/
theorem exists_sum : ∃ v, arith.value (decimal.sum arith) = some v ∧
    Near 53 4 v decimal.unscaled ∧
    (value 10 decimal.fraction = 0 → v = value 10 decimal.whole) := by
  have bounds := short.unscaled_bounds
  have partBounds := short.fraction_bounds
  have small : value 10 decimal.fraction ≤ 2 ^ 53 := short.fraction_lt.le.trans (by norm_num)
  have scaleSmall : 1 * 10 ^ places decimal.fraction ≤ 2 ^ 53 := by
    rw [one_mul]
    exact short.scale_le.trans (by norm_num)
  have isScale := arith.value_ofNat scaleSmall
  rw [one_mul, Nat.cast_pow, Nat.cast_ofNat] at isScale
  have part : Near 53 0 ((value 10 decimal.fraction : ℚ) / 10 ^ places decimal.fraction)
      (value 10 decimal.fraction / 10 ^ places decimal.fraction) := .self _
  have divided := part.rounded (by positivity) (by norm_num)
  have added : Near 53 2 _ decimal.unscaled :=
    divided.add_left (Nat.cast_nonneg (value 10 decimal.whole))
  have isPart : arith.value _ = some _ :=
    arith.value_div (arith.value_ofNat small) isScale (by positivity)
      (moderate_of_near part (by norm_num)
        (partBounds.1.imp_right fun lower => le_trans (by norm_num) lower)
        (partBounds.2.trans (by norm_num)))
  have isSum : arith.value _ = some _ := arith.value_add (arith.value_ofNat short.whole) isPart
    (moderate_of_near added (by norm_num)
      (bounds.1.imp_right fun lower => le_trans (by norm_num) lower)
      (bounds.2.trans (by norm_num)))
  rw [sum, integerOf_eq arith text.areDigits.1 short.whole,
    integerOf_eq arith text.areDigits.2.1 small, tens_ofNat scaleSmall, one_mul]
  refine ⟨_, isSum, added.rounded unscaled_nonneg (by norm_num), fun noFraction => ?_⟩
  rw [noFraction, Nat.cast_zero, zero_div, Floats.roundTo_zero, add_zero]
  exact roundTo_natCast short.whole

/-- The float of a short number denotes it. -/
theorem exists_assembled :
    ∃ v, arith.value (decimal.assembled arith) = some v ∧ decimal.IsNear v := by
  rcases exists_sum arith short text with ⟨v, isValue, near, whole⟩
  have small : value 10 decimal.exponent ≤ 2 ^ 53 := short.exponent.trans (by norm_num)
  have isZero := arith.isZero_iff (arith.value_ofNat small)
  rw [assembled, integerOf_eq arith text.areDigits.2.2 small]
  by_cases noExponent : value 10 decimal.exponent = 0
  · rw [if_pos (isZero.mpr (by exact_mod_cast noExponent))]
    refine ⟨v, isValue, ?_, fun noFraction _ => whole noFraction⟩
    rw [number_of_exponent_zero noExponent]
    exact close_of_near near (by norm_num) unscaled_nonneg
  · rw [if_neg fun zero_ => noExponent (by exact_mod_cast isZero.mp zero_)]
    cases sign : decimal.negative with
    | true =>
      have scaled := near.mul_right (c := (10 ^ value 10 decimal.exponent)⁻¹) (by positivity)
      have same : decimal.number = decimal.unscaled * (10 ^ value 10 decimal.exponent)⁻¹ := by
        rw [number, sign, if_pos rfl, div_eq_mul_inv]
      have nonneg : 0 ≤ decimal.number := same ▸ mul_nonneg unscaled_nonneg (by positivity)
      rw [← same, ← div_eq_mul_inv] at scaled
      have isScaled := arith.value_div isValue (arith.value_pow short.exponent) (by positivity)
        (moderate_of_near scaled (by norm_num) short.number_bounds.1 short.number_bounds.2)
      exact ⟨_, isScaled, close_of_near (scaled.rounded nonneg (by norm_num)) (by norm_num) nonneg,
        fun _ none_ => absurd none_ noExponent⟩
    | false =>
      have scaled := near.mul_right (c := 10 ^ value 10 decimal.exponent) (by positivity)
      have same : decimal.number = decimal.unscaled * 10 ^ value 10 decimal.exponent := by
        rw [number, sign, if_neg Bool.false_ne_true]
      have nonneg : 0 ≤ decimal.number := same ▸ mul_nonneg unscaled_nonneg (by positivity)
      rw [← same] at scaled
      have isScaled := arith.value_mul isValue (arith.value_pow short.exponent)
        (moderate_of_near scaled (by norm_num) short.number_bounds.1 short.number_bounds.2)
      exact ⟨_, isScaled, close_of_near (scaled.rounded nonneg (by norm_num)) (by norm_num) nonneg,
        fun _ none_ => absurd none_ noExponent⟩

end Decimal

end Gengo.Lexing
