import Mathlib

/-!
# Rounding to floats

The floats with a number of significant bits are the products of an integer with so many bits and
a power of two. Exponents are not bounded. A number is rounded to the nearest float, and to the
even one of two that are equally near.
-/

namespace Gengo.Floats

open Nat

/-- The nearest integer; of two that are equally near, the even one. -/
def nearestEven (q : ℚ) : ℤ :=
  if Int.fract q < 1 / 2 then ⌊q⌋
  else if 1 / 2 < Int.fract q then ⌊q⌋ + 1
  else if Even ⌊q⌋ then ⌊q⌋
  else ⌊q⌋ + 1

/-- An integer is the nearest one. -/
def Nearest (q : ℚ) (m : ℤ) : Prop :=
  |q - m| < 1 / 2 ∨ (|q - m| = 1 / 2 ∧ Even m)

theorem nearest_nearestEven (q : ℚ) : Nearest q (nearestEven q) := by
  have split : q - ⌊q⌋ = Int.fract q := rfl
  have nonneg := Int.fract_nonneg q
  have below := Int.fract_lt_one q
  unfold nearestEven Nearest
  split
  · rename_i less
    rw [split, abs_of_nonneg nonneg]
    exact .inl less
  · split
    · rename_i more
      have behind : q - ((⌊q⌋ + 1 : ℤ) : ℚ) = Int.fract q - 1 := by
        push_cast
        rw [← split]
        ring
      rw [behind, abs_of_neg (by linarith)]
      exact .inl (by linarith)
    · rename_i notLess notMore
      have middle : Int.fract q = 1 / 2 := by
        linarith
      split
      · rename_i isEven
        rw [split, middle, abs_of_pos (by norm_num)]
        exact .inr ⟨rfl, isEven⟩
      · rename_i isOdd
        have behind : q - ((⌊q⌋ + 1 : ℤ) : ℚ) = -(1 / 2) := by
          push_cast
          linarith
        rw [behind, abs_neg, abs_of_pos (by norm_num)]
        exact .inr ⟨rfl, (Int.not_even_iff_odd.1 isOdd).add_one⟩

theorem Nearest.abs_le {q : ℚ} {m : ℤ} (nearest : Nearest q m) : |q - m| ≤ 1 / 2 :=
  nearest.elim le_of_lt fun tie => tie.1.le

theorem Nearest.mono {p q : ℚ} {m k : ℤ} (first : Nearest p m) (second : Nearest q k)
    (less : p ≤ q) : m ≤ k := by
  by_contra above
  have next : k + 1 ≤ m := Int.add_one_le_iff.2 (not_le.1 above)
  have next' : (k : ℚ) + 1 ≤ m := by exact_mod_cast next
  have near := abs_sub_le_iff.1 first.abs_le
  have near' := abs_sub_le_iff.1 second.abs_le
  have same : (m : ℚ) = k + 1 := by linarith
  have isNext : m = k + 1 := by exact_mod_cast same
  have tie : |p - m| = 1 / 2 := by
    rw [abs_of_nonpos (by linarith)]
    linarith
  have tie' : |q - k| = 1 / 2 := by
    rw [abs_of_nonneg (by linarith)]
    linarith
  rcases first with strict | ⟨_, isEven⟩
  · linarith
  rcases second with strict | ⟨_, isEven'⟩
  · linarith
  rw [isNext] at isEven
  exact Int.not_even_iff_odd.2 isEven'.add_one isEven

theorem Nearest.unique {q : ℚ} {m k : ℤ} (first : Nearest q m) (second : Nearest q k) : m = k :=
  le_antisymm (first.mono second le_rfl) (second.mono first le_rfl)

theorem Nearest.nearestEven {q : ℚ} {m : ℤ} (nearest : Nearest q m) : nearestEven q = m :=
  (nearest_nearestEven q).unique nearest

theorem nearestEven_mono {p q : ℚ} (less : p ≤ q) : nearestEven p ≤ nearestEven q :=
  (nearest_nearestEven p).mono (nearest_nearestEven q) less

@[simp]
theorem nearestEven_intCast (m : ℤ) : nearestEven m = m := by
  apply Nearest.nearestEven
  left
  rw [sub_self, abs_zero]
  norm_num

theorem nearestEven_neg (q : ℚ) : nearestEven (-q) = -nearestEven q := by
  apply Nearest.nearestEven
  have mirrored : |-q - ((-nearestEven q : ℤ) : ℚ)| = |q - nearestEven q| := by
    rw [Int.cast_neg, neg_sub_neg, abs_sub_comm]
  unfold Nearest
  rw [mirrored, even_neg]
  exact nearest_nearestEven q

/-- The distance of the floats with a number of significant bits next to a number. -/
def ulp (precision : ℕ) (q : ℚ) : ℚ :=
  2 ^ (Int.log 2 |q| + 1 - precision)

def roundTo (precision : ℕ) (q : ℚ) : ℚ :=
  nearestEven (q / ulp precision q) * ulp precision q

/-- A float with a number of significant bits. -/
def Representable (precision : ℕ) (q : ℚ) : Prop :=
  ∃ m e : ℤ, |m| < 2 ^ precision ∧ q = m * 2 ^ e

section

variable {precision : ℕ} {q x y : ℚ}

theorem ulp_pos : 0 < ulp precision q :=
  zpow_pos (by norm_num) _

theorem ulp_neg : ulp precision (-q) = ulp precision q := by
  rw [ulp, ulp, abs_neg]

theorem roundTo_neg : roundTo precision (-q) = -roundTo precision q := by
  rw [roundTo, roundTo, ulp_neg, neg_div, nearestEven_neg, Int.cast_neg, neg_mul]

@[simp]
theorem roundTo_zero : roundTo precision 0 = 0 := by
  have zero : nearestEven 0 = 0 := by
    exact_mod_cast nearestEven_intCast 0
  rw [roundTo, zero_div, zero, Int.cast_zero, zero_mul]

variable (precision q) in
/-- What is `2 ^ precision` times the distance of the floats. -/
theorem two_pow_mul_ulp : 2 ^ precision * ulp precision q = 2 ^ (Int.log 2 |q| + 1) := by
  rw [ulp, ← zpow_natCast, ← zpow_add₀ (by norm_num)]
  congr 1
  ring

theorem two_pow_pred_mul_ulp (positive : 0 < precision) :
    2 ^ (precision - 1) * ulp precision q = 2 ^ Int.log 2 |q| := by
  rw [ulp, ← zpow_natCast, ← zpow_add₀ (by norm_num), cast_pred positive]
  congr 1
  ring

theorem abs_lt_zpow : |q| < 2 ^ (Int.log 2 |q| + 1) := by
  exact_mod_cast Int.lt_zpow_succ_log_self (R := ℚ) one_lt_two |q|

theorem zpow_le_abs (nonzero : q ≠ 0) : 2 ^ Int.log 2 |q| ≤ |q| := by
  exact_mod_cast Int.zpow_log_le_self (R := ℚ) one_lt_two (abs_pos.2 nonzero)

theorem log_eq {e : ℤ} (lower : 2 ^ e ≤ |q|) (upper : |q| < 2 ^ (e + 1)) : Int.log 2 |q| = e := by
  have positive : 0 < |q| := lt_of_lt_of_le (zpow_pos (by norm_num) _) lower
  apply le_antisymm
  · apply Int.lt_add_one_iff.1
    apply (Int.lt_zpow_iff_log_lt one_lt_two positive).1
    exact_mod_cast upper
  · apply (Int.zpow_le_iff_le_log one_lt_two positive).1
    exact_mod_cast lower

variable (precision q) in
theorem abs_div_ulp_lt : |q / ulp precision q| < 2 ^ precision := by
  rw [abs_div, abs_of_pos ulp_pos, div_lt_iff₀ ulp_pos, two_pow_mul_ulp]
  exact abs_lt_zpow

variable (precision q) in
theorem abs_nearestEven_le : |nearestEven (q / ulp precision q)| ≤ 2 ^ precision := by
  have bounds := abs_lt.1 (abs_div_ulp_lt precision q)
  rw [abs_le]
  constructor
  · rw [← nearestEven_intCast (-2 ^ precision)]
    apply nearestEven_mono
    push_cast
    exact bounds.1.le
  · rw [← nearestEven_intCast (2 ^ precision)]
    apply nearestEven_mono
    push_cast
    exact bounds.2.le

theorem representable_roundTo (positive : 0 < precision) :
    Representable precision (roundTo precision q) := by
  rcases lt_or_eq_of_le (abs_nearestEven_le precision q) with less | full
  · exact ⟨_, _, less, rfl⟩
  · -- The significand has been rounded up to the next power of two.
    have half : (2 : ℤ) ^ precision = 2 ^ (precision - 1) * 2 := by
      rw [← pow_succ, Nat.sub_add_cancel positive]
    have smaller : (2 : ℤ) ^ (precision - 1) < 2 ^ precision := by
      have := pow_pos (two_pos : (0 : ℤ) < 2) (precision - 1)
      omega
    have next : (2 : ℚ) ^ (Int.log 2 |q| + 1 - precision + 1) =
        2 ^ (Int.log 2 |q| + 1 - precision) * 2 :=
      zpow_add_one₀ (by norm_num) _
    rcases abs_choice (nearestEven (q / ulp precision q)) with isPos | isNeg
    · refine ⟨2 ^ (precision - 1), Int.log 2 |q| + 1 - precision + 1, ?_, ?_⟩
      · rwa [abs_of_pos (by positivity)]
      · have value : nearestEven (q / ulp precision q) = 2 ^ (precision - 1) * 2 := by omega
        rw [roundTo, value, next, ulp]
        push_cast
        ring
    · refine ⟨-2 ^ (precision - 1), Int.log 2 |q| + 1 - precision + 1, ?_, ?_⟩
      · rwa [abs_neg, abs_of_pos (by positivity)]
      · have value : nearestEven (q / ulp precision q) = -2 ^ (precision - 1) * 2 := by
          rw [neg_mul]
          omega
        rw [roundTo, value, next, ulp]
        push_cast
        ring

theorem Representable.neg (representable : Representable precision q) :
    Representable precision (-q) := by
  rcases representable with ⟨m, e, few, rfl⟩
  exact ⟨-m, e, by rwa [abs_neg], by rw [Int.cast_neg, neg_mul]⟩

theorem Representable.roundTo_eq (representable : Representable precision q) :
    roundTo precision q = q := by
  rcases representable with ⟨m, e, few, rfl⟩
  rcases eq_or_ne m 0 with rfl | nonzero
  · rw [Int.cast_zero, zero_mul, roundTo_zero]
  have nonzero' : (m : ℚ) * 2 ^ e ≠ 0 :=
    mul_ne_zero (Int.cast_ne_zero.2 nonzero) (zpow_ne_zero _ (by norm_num))
  have lower := zpow_le_abs nonzero'
  have upper : |(m : ℚ) * 2 ^ e| < 2 ^ ((precision : ℤ) + e) := by
    rw [abs_mul, abs_of_pos (zpow_pos (by norm_num : (0 : ℚ) < 2) e),
      zpow_add₀ (by norm_num : (2 : ℚ) ≠ 0), zpow_natCast]
    apply mul_lt_mul_of_pos_right _ (zpow_pos (by norm_num) _)
    exact_mod_cast few
  have exponent : Int.log 2 |(m : ℚ) * 2 ^ e| < precision + e :=
    (zpow_lt_zpow_iff_right₀ (by norm_num : (1 : ℚ) < 2)).1 (lower.trans_lt upper)
  rcases Int.le.dest (show Int.log 2 |(m : ℚ) * 2 ^ e| + 1 - precision ≤ e by omega) with
    ⟨shift, isShift⟩
  have whole : (m : ℚ) * 2 ^ e / ulp precision (m * 2 ^ e) = ((m * 2 ^ shift : ℤ) : ℚ) := by
    rw [div_eq_iff ulp_pos.ne', ulp, Int.cast_mul, Int.cast_pow, Int.cast_ofNat, mul_assoc,
      ← zpow_natCast, ← zpow_add₀ (by norm_num : (2 : ℚ) ≠ 0)]
    congr 2
    omega
  rw [roundTo, whole, nearestEven_intCast, ← whole, div_mul_cancel₀ _ ulp_pos.ne']

theorem roundTo_nonneg (nonneg : 0 ≤ q) : 0 ≤ roundTo precision q := by
  have zero : 0 ≤ nearestEven (q / ulp precision q) := by
    rw [← nearestEven_intCast 0]
    apply nearestEven_mono
    rw [Int.cast_zero]
    exact div_nonneg nonneg ulp_pos.le
  exact mul_nonneg (Int.cast_nonneg zero) ulp_pos.le

theorem roundTo_mono_of_pos (positive : 0 < precision) (isPos : 0 < x) (less : x ≤ y) :
    roundTo precision x ≤ roundTo precision y := by
  have isPos' := isPos.trans_le less
  have logs : Int.log 2 |x| ≤ Int.log 2 |y| := by
    rw [abs_of_pos isPos, abs_of_pos isPos']
    exact Int.log_mono_right isPos less
  rcases logs.lt_or_eq with before | same
  · have below : roundTo precision x ≤ 2 ^ (Int.log 2 |x| + 1) := by
      rw [← two_pow_mul_ulp precision, roundTo]
      apply mul_le_mul_of_nonneg_right _ ulp_pos.le
      exact_mod_cast (abs_le.1 (abs_nearestEven_le precision x)).2
    have above : 2 ^ Int.log 2 |y| ≤ roundTo precision y := by
      rw [← two_pow_pred_mul_ulp positive, roundTo]
      apply mul_le_mul_of_nonneg_right _ ulp_pos.le
      have least : (2 : ℤ) ^ (precision - 1) ≤ nearestEven (y / ulp precision y) := by
        rw [← nearestEven_intCast (2 ^ (precision - 1))]
        apply nearestEven_mono
        push_cast
        rw [le_div_iff₀ ulp_pos, two_pow_pred_mul_ulp positive]
        have lower := zpow_le_abs isPos'.ne'
        rwa [abs_of_pos isPos'] at lower ⊢
      exact_mod_cast least
    have between : (2 : ℚ) ^ (Int.log 2 |x| + 1) ≤ 2 ^ Int.log 2 |y| :=
      zpow_le_zpow_right₀ (by norm_num) (Int.add_one_le_iff.2 before)
    exact below.trans (between.trans above)
  · have units : ulp precision x = ulp precision y := by
      rw [ulp, ulp, same]
    rw [roundTo, roundTo, units]
    apply mul_le_mul_of_nonneg_right _ ulp_pos.le
    exact_mod_cast nearestEven_mono (div_le_div_of_nonneg_right less ulp_pos.le)

theorem roundTo_mono (positive : 0 < precision) (less : x ≤ y) :
    roundTo precision x ≤ roundTo precision y := by
  rcases lt_or_ge 0 x with isPos | isNeg
  · exact roundTo_mono_of_pos positive isPos less
  rcases lt_or_ge y 0 with isNeg' | isPos'
  · have mirrored := roundTo_mono_of_pos positive (neg_pos.2 isNeg') (neg_le_neg less)
    rwa [roundTo_neg, roundTo_neg, neg_le_neg_iff] at mirrored
  · have nonneg : 0 ≤ roundTo precision (-x) := roundTo_nonneg (neg_nonneg.2 isNeg)
    rw [roundTo_neg] at nonneg
    exact (neg_nonneg.1 nonneg).trans (roundTo_nonneg isPos')

variable (precision q) in
/-- Rounding changes a number by half of the distance of the floats at most. -/
theorem abs_roundTo_sub_le : |roundTo precision q - q| ≤ |q| / 2 ^ precision := by
  rcases eq_or_ne q 0 with rfl | nonzero
  · rw [roundTo_zero, sub_self, abs_zero, zero_div]
  have positive : 0 < ulp precision q := ulp_pos
  have split : roundTo precision q - q =
      -((q / ulp precision q - nearestEven (q / ulp precision q)) * ulp precision q) := by
    rw [roundTo, sub_mul, div_mul_cancel₀ _ positive.ne', neg_sub]
  have half := (nearest_nearestEven (q / ulp precision q)).abs_le
  have size : 2 ^ precision * ulp precision q ≤ 2 * |q| := by
    rw [two_pow_mul_ulp, zpow_add_one₀ (by norm_num), mul_comm]
    exact mul_le_mul_of_nonneg_left (zpow_le_abs nonzero) (by norm_num)
  rw [split, abs_neg, abs_mul, abs_of_pos positive, le_div_iff₀ (by positivity)]
  calc |q / ulp precision q - nearestEven (q / ulp precision q)| * ulp precision q * 2 ^ precision
      ≤ 1 / 2 * ulp precision q * 2 ^ precision := by gcongr
    _ = 1 / 2 * (2 ^ precision * ulp precision q) := by ring
    _ ≤ 1 / 2 * (2 * |q|) := by gcongr
    _ = |q| := by ring

theorem representable_of_le (positive : 0 < precision) {n : ℤ} (few : |n| ≤ 2 ^ precision) :
    Representable precision n := by
  rcases few.lt_or_eq with less | full
  · exact ⟨n, 0, less, by rw [zpow_zero, mul_one]⟩
  · have one : (1 : ℤ) < 2 ^ precision := one_lt_pow₀ (by norm_num) positive.ne'
    rcases abs_choice n with isPos | isNeg
    · refine ⟨1, precision, by rwa [abs_one], ?_⟩
      have value : n = 2 ^ precision := by omega
      rw [value, zpow_natCast]
      push_cast
      ring
    · refine ⟨-1, precision, by rwa [abs_neg, abs_one], ?_⟩
      have value : n = -2 ^ precision := by omega
      rw [value, zpow_natCast]
      push_cast
      ring

theorem Representable.two_mul {m : ℤ} (representable : Representable precision m) :
    Representable precision ((2 * m : ℤ) : ℚ) := by
  rcases representable with ⟨significand, e, few, value⟩
  refine ⟨significand, e + 1, few, ?_⟩
  rw [Int.cast_mul, value, zpow_add_one₀ (by norm_num)]
  ring

theorem not_representable_of_odd {n : ℤ} (isOdd : Odd n) (many : 2 ^ precision ≤ |n|) :
    ¬Representable precision n := by
  rintro ⟨m, e, few, value⟩
  rcases Int.le_total e 0 with small | large
  · have bound : |(n : ℚ)| ≤ |(m : ℚ)| := by
      rw [value, abs_mul, abs_of_pos (zpow_pos (by norm_num : (0 : ℚ) < 2) e)]
      apply mul_le_of_le_one_right (abs_nonneg _)
      exact zpow_le_one_of_nonpos₀ (by norm_num) small
    have bound' : |n| ≤ |m| := by exact_mod_cast bound
    exact absurd (many.trans bound') (not_le.2 few)
  · rcases Int.eq_ofNat_of_zero_le large with ⟨k, rfl⟩
    have whole : n = m * 2 ^ k := by
      rw [zpow_natCast] at value
      exact_mod_cast value
    cases k with
    | zero =>
      rw [pow_zero, mul_one] at whole
      exact absurd many (not_le.2 (whole ▸ few))
    | succ k =>
      rw [whole, pow_succ, ← mul_assoc] at isOdd
      exact absurd (Int.even_mul.2 (.inr even_two)) (Int.not_even_iff_odd.2 isOdd)

theorem exists_roundTo_intCast (positive : 0 < precision) (n : ℤ) :
    ∃ m : ℤ, roundTo precision n = m := by
  rcases lt_or_ge |n| (2 ^ precision) with few | many
  · exact ⟨n, (representable_of_le positive few.le).roundTo_eq⟩
  · have lower : (2 : ℚ) ^ (precision : ℤ) ≤ |(n : ℚ)| := by
      rw [zpow_natCast]
      exact_mod_cast many
    have nonzero : 0 < |(n : ℚ)| := lt_of_lt_of_le (zpow_pos (by norm_num) _) lower
    have logs : (precision : ℤ) ≤ Int.log 2 |(n : ℚ)| := by
      apply (Int.zpow_le_iff_le_log one_lt_two nonzero).1
      exact_mod_cast lower
    rcases Int.eq_ofNat_of_zero_le (show 0 ≤ Int.log 2 |(n : ℚ)| + 1 - precision by omega) with
      ⟨k, isK⟩
    refine ⟨nearestEven (n / ulp precision n) * 2 ^ k, ?_⟩
    rw [roundTo, ulp, isK, zpow_natCast]
    push_cast
    rfl

theorem ulp_of_log {k : ℤ} (lower : (2 : ℤ) ^ precision ≤ k) (upper : k < 2 ^ (precision + 1)) :
    ulp precision (k : ℚ) = 2 := by
  have isPos : 0 < k := lt_of_lt_of_le (by positivity) lower
  have logs : Int.log 2 |(k : ℚ)| = precision := by
    have isPos' : (0 : ℚ) < k := by exact_mod_cast isPos
    apply log_eq
    · rw [abs_of_pos isPos', zpow_natCast]
      exact_mod_cast lower
    · rw [abs_of_pos isPos', ← cast_succ, zpow_natCast]
      exact_mod_cast upper
  rw [ulp, logs, add_sub_cancel_left, zpow_one]

/-- Of the floats next to an odd integer, the multiple of four is taken. -/
theorem roundTo_odd {k : ℤ} (lower : (2 : ℤ) ^ precision ≤ 2 * k + 1)
    (upper : 2 * k + 1 < 2 ^ (precision + 1)) :
    roundTo precision ((2 * k + 1 : ℤ) : ℚ) = if Even k then ((2 * k : ℤ) : ℚ) else
      ((2 * k + 2 : ℤ) : ℚ) := by
  rw [roundTo, ulp_of_log lower upper]
  have middle : ((2 * k + 1 : ℤ) : ℚ) / 2 - k = 1 / 2 := by
    push_cast
    ring
  split
  · rename_i isEven
    have nearest : Nearest (((2 * k + 1 : ℤ) : ℚ) / 2) k := by
      refine .inr ⟨?_, isEven⟩
      rw [middle, abs_of_pos (by norm_num)]
    rw [nearest.nearestEven]
    push_cast
    ring
  · rename_i isOdd
    have nearest : Nearest (((2 * k + 1 : ℤ) : ℚ) / 2) (k + 1) := by
      refine .inr ⟨?_, (Int.not_even_iff_odd.1 isOdd).add_one⟩
      have behind : ((2 * k + 1 : ℤ) : ℚ) / 2 - ((k + 1 : ℤ) : ℚ) = -(1 / 2) := by
        push_cast
        linarith
      rw [behind, abs_neg, abs_of_pos (by norm_num)]
    rw [nearest.nearestEven]
    push_cast
    ring

theorem Representable.roundTo_add_one {n : ℤ} (representable : Representable precision n)
    (large : 2 ^ (precision + 1) ≤ n) : roundTo precision ((n + 1 : ℤ) : ℚ) = n := by
  have isPos : (0 : ℚ) < n := by
    have : 0 < n := lt_of_lt_of_le (by positivity) large
    exact_mod_cast this
  have nonzero := isPos.ne'
  have least : (precision : ℤ) + 1 ≤ Int.log 2 |(n : ℚ)| := by
    apply (Int.zpow_le_iff_le_log one_lt_two (abs_pos.2 nonzero)).1
    rw [abs_of_pos isPos, ← cast_succ, zpow_natCast]
    exact_mod_cast large
  have unit : 4 ≤ ulp precision (n : ℚ) := by
    have four : (2 : ℚ) ^ (2 : ℤ) = 4 := by norm_num
    rw [ulp, ← four]
    exact zpow_le_zpow_right₀ (by norm_num) (by omega)
  have value : (nearestEven (n / ulp precision n) : ℚ) * ulp precision (n : ℚ) = n :=
    representable.roundTo_eq
  have few : nearestEven (n / ulp precision n) + 1 ≤ 2 ^ precision := by
    have bound := (abs_lt.1 (abs_div_ulp_lt precision (n : ℚ))).2
    rw [div_lt_iff₀ ulp_pos] at bound
    nth_rewrite 1 [← value] at bound
    have less := lt_of_mul_lt_mul_right bound ulp_pos.le
    exact Int.add_one_le_iff.2 (by exact_mod_cast less)
  have room : (n : ℚ) + 4 ≤ 2 ^ (Int.log 2 |(n : ℚ)| + 1) := by
    rw [← two_pow_mul_ulp precision]
    have few' : (nearestEven (n / ulp precision n) : ℚ) + 1 ≤ 2 ^ precision := by
      exact_mod_cast few
    have scaled := mul_le_mul_of_nonneg_right few' (zero_le_four.trans unit)
    rw [add_mul, one_mul, value] at scaled
    linarith
  have isPos' : (0 : ℚ) < ((n + 1 : ℤ) : ℚ) := by
    push_cast
    linarith
  have logs : Int.log 2 |((n + 1 : ℤ) : ℚ)| = Int.log 2 |(n : ℚ)| := by
    have lower := zpow_le_abs nonzero
    apply log_eq
    · rw [abs_of_pos isPos']
      rw [abs_of_pos isPos] at lower
      rw [abs_of_pos isPos]
      push_cast
      linarith
    · rw [abs_of_pos isPos']
      push_cast
      linarith
  have units : ulp precision ((n + 1 : ℤ) : ℚ) = ulp precision (n : ℚ) := by
    rw [ulp, ulp, logs]
  have nearest : Nearest (((n + 1 : ℤ) : ℚ) / ulp precision (n : ℚ))
      (nearestEven (n / ulp precision n)) := by
    have quotient : ((n + 1 : ℤ) : ℚ) / ulp precision (n : ℚ) -
        nearestEven (n / ulp precision n) = 1 / ulp precision (n : ℚ) := by
      rw [← eq_div_iff ulp_pos.ne'] at value
      rw [value]
      push_cast
      ring
    left
    rw [quotient, abs_of_pos (div_pos one_pos ulp_pos), div_lt_div_iff₀ ulp_pos (by norm_num)]
    linarith
  rw [roundTo, units, nearest.nearestEven, value]

end

/-- A number is near to another that is not negative, as far as some roundings lead away. -/
def Near (precision steps : ℕ) (v q : ℚ) : Prop :=
  |v - q| ≤ q * (steps / 2 ^ precision)

namespace Near

variable {precision steps : ℕ} {v q : ℚ}

theorem self (q : ℚ) : Near precision 0 q q := by
  simp [Near]

variable (near : Near precision steps v q) (nonneg : 0 ≤ q)

include near nonneg

theorem le_two_mul (few : steps ≤ 2 ^ precision) : |v| ≤ 2 * q := by
  have least : (steps : ℚ) / 2 ^ precision ≤ 1 := by
    rw [div_le_one (by positivity)]
    exact_mod_cast few
  have bounds := abs_le.1 (near.trans (mul_le_of_le_one_right nonneg least))
  rw [abs_le]
  constructor
  · linarith
  · linarith

theorem rounded (few : steps ≤ 2 ^ precision) :
    Near precision (steps + 2) (roundTo precision v) q := by
  have moved := abs_roundTo_sub_le precision v
  have size : |v| / 2 ^ precision ≤ 2 * q / 2 ^ precision := by
    have bound := near.le_two_mul nonneg few
    gcongr
  calc |roundTo precision v - q|
      ≤ |roundTo precision v - v| + |v - q| := abs_sub_le _ _ _
    _ ≤ 2 * q / 2 ^ precision + q * (steps / 2 ^ precision) := add_le_add (moved.trans size) near
    _ = q * ((steps + 2 : ℕ) / 2 ^ precision) := by
      push_cast
      ring

omit nonneg in
theorem add_left {w : ℚ} (nonneg' : 0 ≤ w) : Near precision steps (w + v) (w + q) := by
  rw [Near, add_sub_add_left_eq_sub]
  refine near.trans (mul_le_mul_of_nonneg_right ?_ (by positivity))
  linarith

omit nonneg in
theorem mul_right {c : ℚ} (nonneg' : 0 ≤ c) : Near precision steps (v * c) (q * c) := by
  rw [Near, ← sub_mul, abs_mul, abs_of_nonneg nonneg', mul_right_comm]
  exact mul_le_mul_of_nonneg_right near nonneg'

/-- At most half of the number is lost. -/
theorem half_le (few : 2 * steps ≤ 2 ^ precision) : q / 2 ≤ v := by
  have least : (steps : ℚ) / 2 ^ precision ≤ 1 / 2 := by
    rw [div_le_div_iff₀ (by positivity) (by norm_num)]
    have few' : (2 * steps : ℚ) ≤ 2 ^ precision := by exact_mod_cast few
    linarith
  have bounds := abs_le.1 (near.trans (mul_le_mul_of_nonneg_left least nonneg))
  linarith

end Near

end Gengo.Floats
