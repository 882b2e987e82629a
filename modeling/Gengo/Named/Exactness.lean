import Gengo.Named.Domain

/-!
# Where integer types are exact

Up to `2 ^ 53` integers are floats, and above every odd one is rounded to a neighbour, so that two
integers are told apart no longer. A range or a clamp keeps its promise for all integers exactly
if its bounds are below that; a cycle only if it has one value, since integers that are far away
are wrapped like their neighbours. One value alone may also be a larger float with floats on both
sides that are not taken for it.
-/

namespace Gengo.Named

open Floats Nat

variable {type : NamedInt} {n m : ℤ} {q : ℚ}

@[simp]
theorem trunc_intCast (m : ℤ) : trunc m = m := by
  unfold trunc
  split
  · rw [Int.floor_intCast]
  · rw [Int.ceil_intCast]

theorem toFloat_mono {x y : ℚ} (less : x ≤ y) : toFloat x ≤ toFloat y :=
  roundTo_mono (by norm_num) less

theorem toFloat_neg (q : ℚ) : toFloat (-q) = -toFloat q :=
  roundTo_neg

theorem toFloat_of_le (few : |n| ≤ 2 ^ 53) : toFloat n = n :=
  (representable_of_le (by norm_num) few).roundTo_eq

theorem exists_toFloat (n : ℤ) : ∃ m : ℤ, toFloat n = m :=
  exists_roundTo_intCast (by norm_num) n

/-- The integers that are floats, as far as bounds are looked at. -/
def Fine (n : ℤ) : Prop :=
  |n| ≤ 2 ^ 53 ∨ (Even n ∧ |n| ≤ 2 ^ 54)

theorem Fine.representable (fine : Fine n) : Representable 53 n := by
  rcases fine with few | ⟨⟨half, isHalf⟩, bound⟩
  · exact representable_of_le (by norm_num) few
  · have value : n = 2 * half := by omega
    have few : |half| ≤ 2 ^ 53 := by
      rw [value, abs_mul] at bound
      norm_num at bound ⊢
      omega
    rw [value]
    exact (representable_of_le (by norm_num) few).two_mul

theorem Fine.toFloat_eq (fine : Fine n) : toFloat n = n :=
  fine.representable.roundTo_eq

theorem readDecimal_eq (digits : ℕ) (fine : Fine digits) : readDecimal digits = digits := by
  induction digits using Nat.strongRecOn with
  | _ digits ih =>
    unfold readDecimal
    split
    · rfl
    · rename_i several
      have bound : (digits : ℤ) ≤ 2 ^ 54 := by
        rcases fine with few | ⟨_, few⟩
        · rw [abs_of_nonneg (Int.natCast_nonneg _)] at few
          omega
        · rwa [abs_of_nonneg (Int.natCast_nonneg _)] at few
      have front : Fine (digits / 10 : ℕ) := by
        left
        rw [abs_of_nonneg (Int.natCast_nonneg _)]
        omega
      have scaled : Fine ((digits / 10 * 10 : ℕ) : ℤ) := by
        right
        rw [abs_of_nonneg (Int.natCast_nonneg _)]
        exact ⟨⟨(digits / 10 * 5 : ℕ), by push_cast; ring⟩, by omega⟩
      have whole : ((digits / 10 * 10 : ℕ) : ℚ) + (digits % 10 : ℕ) = ((digits : ℕ) : ℚ) := by
        exact_mod_cast div_add_mod' digits 10
      have shifted := scaled.toFloat_eq
      have same := fine.toFloat_eq
      have product : (((digits / 10 * 10 : ℕ) : ℤ) : ℚ) = ((digits / 10 : ℕ) : ℚ) * 10 := by
        rw [Int.cast_natCast, cast_mul, cast_ofNat]
      rw [product] at shifted
      rw [Int.cast_natCast] at same
      rw [cast_mul, cast_ofNat] at whole
      rw [ih (digits / 10) (by omega) front, shifted, whole, same]

theorem Bound.compile_eq (bound : Bound) (fine : Fine bound.value) :
    bound.compile = bound.value := by
  have fine' : Fine bound.value.natAbs := by
    unfold Fine at fine ⊢
    rwa [Int.natCast_natAbs, abs_abs, even_abs]
  have magnitude : (if bound.isDecimal then readDecimal bound.value.natAbs
      else toFloat bound.value.natAbs) = (bound.value.natAbs : ℚ) := by
    split
    · exact readDecimal_eq _ fine'
    · exact fine'.toFloat_eq
  have absolute : (bound.value.natAbs : ℚ) = |(bound.value : ℚ)| := by
    rw [cast_natAbs, Int.cast_abs]
  unfold Bound.compile
  rw [magnitude, absolute]
  split
  · rename_i negative
    have negative' : (bound.value : ℚ) < 0 := by exact_mod_cast negative
    rw [abs_of_neg negative', neg_neg]
  · rename_i nonneg
    have nonneg' : (0 : ℚ) ≤ bound.value := by exact_mod_cast not_lt.1 nonneg
    rw [abs_of_nonneg nonneg']

theorem safeI64FromFloat_intCast (representable : Representable 53 m) (fits : InInt64 m) :
    safeI64FromFloat m = .ok m := by
  have inside : ¬((m : ℚ) < -2 ^ 63 ∨ (2 ^ 63 : ℚ) ≤ m) := by
    rw [not_or, not_lt, not_le]
    exact ⟨by exact_mod_cast fits.1, by exact_mod_cast fits.2⟩
  rw [safeI64FromFloat, if_neg inside, trunc_intCast, Int.floor_intCast, toFloat,
    representable.roundTo_eq, if_pos rfl]

theorem floor_trunc (q : ℚ) : ((⌊trunc q⌋ : ℤ) : ℚ) = trunc q := by
  unfold trunc
  split
  · rw [Int.floor_intCast]
  · rw [Int.floor_intCast]

theorem representable_of_safeI64FromFloat (gives : safeI64FromFloat q = .ok m) :
    Representable 53 m := by
  unfold safeI64FromFloat at gives
  split at gives
  · exact absurd gives (by simp)
  · split at gives
    · rename_i exact_
      have rounded : Representable 53 (toFloat ⌊trunc q⌋) := representable_roundTo (by norm_num)
      rwa [exact_, ← floor_trunc, Except.ok.inj gives] at rounded
    · exact absurd gives (by simp)

/-- The integers beside a float that is no multiple of four are rounded away from it. -/
theorem toFloat_beside (twice : n % 4 = 2) (large : 2 ^ 53 < |n|) (small : |n| < 2 ^ 54) :
    toFloat ((n + 1 : ℤ) : ℚ) = ((n + 2 : ℤ) : ℚ) ∧
      toFloat ((n - 1 : ℤ) : ℚ) = ((n - 2 : ℤ) : ℚ) := by
  have away : ∀ k : ℤ, 2 ^ 53 < 2 * k → 2 * k < 2 ^ 54 → k % 2 = 1 →
      toFloat ((2 * k + 1 : ℤ) : ℚ) = ((2 * k + 2 : ℤ) : ℚ) ∧
        toFloat ((2 * k - 1 : ℤ) : ℚ) = ((2 * k - 2 : ℤ) : ℚ) := by
    intro k large small isOdd
    constructor
    · have notEven : ¬Even k := by
        rw [Int.even_iff]
        omega
      rw [toFloat, roundTo_odd (by omega) (by omega), if_neg notEven]
    · have isEven : Even (k - 1) := by
        rw [Int.even_iff]
        omega
      have before : 2 * k - 1 = 2 * (k - 1) + 1 := by ring
      rw [toFloat, before, roundTo_odd (by omega) (by omega), if_pos isEven]
      congr 1
      ring
  rcases lt_or_ge n 0 with negative | positive
  · rw [abs_of_neg negative] at large small
    have both := away (-n / 2) (by omega) (by omega) (by omega)
    have half : 2 * (-n / 2) = -n := by omega
    rw [half] at both
    have above : n + 1 = -(-n - 1) := by ring
    have below : n - 1 = -(-n + 1) := by ring
    rw [above, below, Int.cast_neg, Int.cast_neg, toFloat_neg, toFloat_neg, both.1, both.2]
    push_cast
    constructor
    · ring
    · ring
  · rw [abs_of_nonneg positive] at large small
    have both := away (n / 2) (by omega) (by omega) (by omega)
    have half : 2 * (n / 2) = n := by omega
    rwa [half] at both

/-- The integer beside a large float, away from zero, is taken for it unless the float is such a
one. -/
theorem toFloat_away (representable : Representable 53 n) (isEven : Even n)
    (large : 2 ^ 53 ≤ n) (other : n % 4 = 2 → 2 ^ 54 ≤ n) :
    toFloat ((n + 1 : ℤ) : ℚ) = n := by
  rcases lt_or_ge n (2 ^ 54) with small | huge
  · have isHalf : n = 2 * (n / 2) := by
      rw [Int.even_iff] at isEven
      omega
    have halfEven : Even (n / 2) := by
      rw [Int.even_iff] at isEven ⊢
      have notTwice : n % 4 ≠ 2 := fun twice => absurd (other twice) (not_le.2 small)
      omega
    have rounded : toFloat ((2 * (n / 2) + 1 : ℤ) : ℚ) = _ :=
      roundTo_odd (by omega) (by omega)
    rwa [if_pos halfEven, ← isHalf] at rounded
  · exact representable.roundTo_add_one huge

theorem toFloat_away_neg (representable : Representable 53 n) (isEven : Even n)
    (large : n ≤ -2 ^ 53) (other : n % 4 = 2 → n ≤ -2 ^ 54) :
    toFloat ((n - 1 : ℤ) : ℚ) = n := by
  have mirrored : Representable 53 ((-n : ℤ) : ℚ) := by
    rw [Int.cast_neg]
    exact representable.neg
  have away := toFloat_away mirrored (even_neg.2 isEven) (by omega) (by omega)
  have negated : ((n - 1 : ℤ) : ℚ) = -((-n + 1 : ℤ) : ℚ) := by
    push_cast
    ring
  rw [negated, toFloat_neg, away, Int.cast_neg, neg_neg]

theorem toFloat_maxInt : toFloat ((2 ^ 63 - 1 : ℤ) : ℚ) = ((2 ^ 63 : ℤ) : ℚ) := by
  have logs : Int.log 2 |((2 ^ 63 - 1 : ℤ) : ℚ)| = 62 := by
    apply log_eq
    · norm_num
    · norm_num
  have unit : ulp 53 ((2 ^ 63 - 1 : ℤ) : ℚ) = 1024 := by
    rw [ulp, logs]
    norm_num
  have nearest : Nearest (((2 ^ 63 - 1 : ℤ) : ℚ) / 1024) (2 ^ 53) := by
    left
    norm_num
  rw [toFloat, roundTo, unit, nearest.nearestEven]
  norm_num

theorem isExactInt_iff : IsExactInt (m : ℚ) ↔ |m| ≤ 2 ^ 53 := by
  rw [IsExactInt, trunc_intCast, abs_le]
  constructor
  · rintro ⟨_, lower, upper⟩
    exact ⟨by exact_mod_cast lower, by exact_mod_cast upper⟩
  · rintro ⟨lower, upper⟩
    exact ⟨rfl, by exact_mod_cast lower, by exact_mod_cast upper⟩

theorem wrapCycleValue_eq {lo hi : ℤ} (ordered : lo ≤ hi) (few : |lo| ≤ 2 ^ 53)
    (few' : |hi| ≤ 2 ^ 53) (few'' : |n| ≤ 2 ^ 53) :
    wrapCycleValue lo hi n false = .ok ((lo + (n - lo) % (hi - lo + 1) : ℤ) : ℚ) := by
  have exact_ : IsExactInt (lo : ℚ) ∧ IsExactInt (hi : ℚ) ∧ IsExactInt (n : ℚ) :=
    ⟨isExactInt_iff.2 few, isExactInt_iff.2 few', isExactInt_iff.2 few''⟩
  have positive : 0 < hi - lo + 1 := by omega
  have nonneg := Int.emod_nonneg (n - lo) positive.ne'
  have below := Int.emod_lt_of_pos (n - lo) positive
  rw [abs_le] at few few'
  have fits : ¬(¬InInt64 (hi - lo) ∨ ¬InInt64 (hi - lo + 1)) := by
    rw [not_or, not_not, not_not]
    constructor
    · constructor <;> norm_num <;> omega
    · constructor <;> norm_num <;> omega
  have result : |lo + (n - lo) % (hi - lo + 1)| ≤ 2 ^ 53 := by
    rw [abs_le]
    omega
  rw [wrapCycleValue, if_pos ⟨rfl, exact_⟩]
  simp only [Int.floor_intCast]
  rw [if_neg fits, if_pos positive, toFloat_of_le result]

theorem wrapCycleValue_single {value : ℤ} (representable : Representable 53 value) :
    wrapCycleValue value value m false = .ok (value : ℚ) := by
  have same : toFloat (value : ℚ) = value := representable.roundTo_eq
  rw [wrapCycleValue]
  split
  · have fits : ¬(¬InInt64 0 ∨ ¬InInt64 (0 + 1)) := by decide
    simp only [sub_self]
    rw [if_neg fits, if_pos (by norm_num), zero_add, Int.emod_one, add_zero, Int.floor_intCast,
      same]
  · rcases exists_toFloat (m - value) with ⟨rest, isRest⟩
    have one : toFloat 1 = 1 := by
      exact_mod_cast toFloat_of_le (n := 1) (by norm_num)
    have zero : toFloat 0 = 0 := by
      exact_mod_cast toFloat_of_le (n := 0) (by norm_num)
    have again : toFloat (rest : ℚ) = rest := by
      have rounded : Representable 53 (toFloat ((m - value : ℤ) : ℚ)) :=
        representable_roundTo (by norm_num)
      rw [isRest] at rounded
      exact rounded.roundTo_eq
    have isRest' : toFloat ((m : ℚ) - value) = rest := by
      exact_mod_cast isRest
    have noRest : fmod rest 1 = 0 := by
      rw [fmod, if_neg one_ne_zero, div_one, again, trunc_intCast, mul_one, again, sub_self, zero]
    rw [wrapInexact]
    simp only [sub_self, zero, zero_add, one, isRest', noRest, Bool.false_eq_true, if_false,
      lt_irrefl, add_zero, same, ne_eq, not_true_eq_false, and_false, Bool.not_false, one_ne_zero]
    rw [if_neg (by norm_num)]

/-- The bounds are what has been declared, and an integer is on the side of them where it is before
it is rounded. -/
structure Told (type : NamedInt) : Prop where
  min : type.min = type.lo
  max : type.max = type.hi
  first : Representable 53 type.lo
  last : Representable 53 type.hi
  below : ∀ n, n < type.lo → toFloat n < type.lo
  above : ∀ n, type.hi < n → type.hi < toFloat n
  within : ∀ n, type.lo ≤ n → n ≤ type.hi → toFloat n = n

/-- Bounds that are smaller than `2 ^ 53`, and for a cycle the same one twice. -/
def Small (type : NamedInt) : Prop :=
  |type.lo| < 2 ^ 53 ∧ |type.hi| < 2 ^ 53 ∧ (type.mode = .cycle → type.lo = type.hi)

/-- One value alone, twice an odd number between `2 ^ 53` and `2 ^ 54`. -/
def Lonely (type : NamedInt) : Prop :=
  type.lo = type.hi ∧ 2 ^ 53 < |type.lo| ∧ |type.lo| < 2 ^ 54 ∧ type.lo % 4 = 2

theorem min_eq (fine : Fine type.lo) : type.min = type.lo :=
  type.first.compile_eq fine

theorem max_eq (fine : Fine type.hi) : type.max = type.hi :=
  type.last.compile_eq fine

theorem Small.told (small : Small type) : Told type := by
  have ordered := lo_le_hi type
  rcases small with ⟨few, few', _⟩
  have fine : Fine type.lo := .inl few.le
  have fine' : Fine type.hi := .inl few'.le
  rw [abs_lt] at few few'
  refine ⟨min_eq fine, max_eq fine', fine.representable, fine'.representable, ?_, ?_, ?_⟩
  · intro n less
    have before : toFloat ((type.lo - 1 : ℤ) : ℚ) = ((type.lo - 1 : ℤ) : ℚ) := by
      apply toFloat_of_le
      rw [abs_le]
      omega
    have rounded : toFloat n ≤ toFloat ((type.lo - 1 : ℤ) : ℚ) :=
      toFloat_mono (by exact_mod_cast Int.le_sub_one_of_lt less)
    rw [before] at rounded
    exact rounded.trans_lt (by exact_mod_cast Int.sub_one_lt_of_le le_rfl)
  · intro n more
    have behind : toFloat ((type.hi + 1 : ℤ) : ℚ) = ((type.hi + 1 : ℤ) : ℚ) := by
      apply toFloat_of_le
      rw [abs_le]
      omega
    have rounded : toFloat ((type.hi + 1 : ℤ) : ℚ) ≤ toFloat n :=
      toFloat_mono (by exact_mod_cast Int.add_one_le_of_lt more)
    rw [behind] at rounded
    exact lt_of_lt_of_le (by exact_mod_cast Int.lt_add_one_of_le le_rfl) rounded
  · intro n lower upper
    apply toFloat_of_le
    rw [abs_le]
    omega

theorem Lonely.fine (lonely : Lonely type) : Fine type.lo := by
  rcases lonely with ⟨_, _, few, twice⟩
  right
  rw [Int.even_iff]
  omega

theorem Lonely.told (lonely : Lonely type) : Told type := by
  have fine := lonely.fine
  rcases lonely with ⟨single, large, few, twice⟩
  have beside := toFloat_beside twice large few
  have fine' : Fine type.hi := single ▸ fine
  refine ⟨min_eq fine, max_eq fine', fine.representable, fine'.representable, ?_, ?_, ?_⟩
  · intro n less
    have rounded : toFloat n ≤ toFloat ((type.lo - 1 : ℤ) : ℚ) :=
      toFloat_mono (by exact_mod_cast Int.le_sub_one_of_lt less)
    rw [beside.2] at rounded
    exact rounded.trans_lt (by exact_mod_cast Int.sub_lt_self _ two_pos)
  · intro n more
    rw [← single] at more ⊢
    have rounded : toFloat ((type.lo + 1 : ℤ) : ℚ) ≤ toFloat n :=
      toFloat_mono (by exact_mod_cast Int.add_one_le_of_lt more)
    rw [beside.1] at rounded
    exact lt_of_lt_of_le (by exact_mod_cast Int.lt_add_of_pos_right _ two_pos) rounded
  · intro n lower upper
    have same : n = type.lo := le_antisymm (single ▸ upper) lower
    rw [same, fine.toFloat_eq]

theorem inInt64_of_within (lower : type.lo ≤ n) (upper : n ≤ type.hi) : InInt64 n :=
  ⟨type.lower.trans lower, upper.trans_lt type.upper⟩

theorem Told.construct_within (told : Told type) (lower : type.lo ≤ n) (upper : n ≤ type.hi) :
    constructNamedType type n = .ok n := by
  have same := told.within n lower upper
  have representable : Representable 53 n := by
    have rounded : Representable 53 (toFloat n) := representable_roundTo (by norm_num)
    rwa [same] at rounded
  have inside : ¬((n : ℚ) < type.min ∨ type.max < n) := by
    rw [told.min, told.max, not_or, not_lt, not_lt]
    exact ⟨by exact_mod_cast lower, by exact_mod_cast upper⟩
  simp only [constructNamedType, same, trunc_intCast, ne_eq, not_true_eq_false, if_false]
  rw [if_neg inside, safeI64FromFloat_intCast representable (inInt64_of_within lower upper)]

theorem Told.wrap (told : Told type) (single : type.lo = type.hi) :
    (wrapCycleValue type.min type.max m false).bind safeI64FromFloat = .ok type.lo := by
  rw [told.min, told.max, ← single, wrapCycleValue_single told.first]
  exact safeI64FromFloat_intCast told.first (inInt64_of_within le_rfl (lo_le_hi type))

theorem inDomain_single (single : type.lo = type.hi) (mode : type.mode = .cycle) :
    inDomain type n = .ok type.lo := by
  rw [inDomain, mode, ← single]
  rw [sub_self, zero_add, Int.emod_one, add_zero]

theorem Told.construct (told : Told type) (single : type.mode = .cycle → type.lo = type.hi) :
    constructNamedType type n = inDomain type n := by
  rcases exists_toFloat n with ⟨number, isNumber⟩
  have ordered : (type.lo : ℚ) ≤ type.hi := by exact_mod_cast lo_le_hi type
  by_cases inside : type.lo ≤ n ∧ n ≤ type.hi
  · rw [told.construct_within inside.1 inside.2, inDomain_of_within inside.1 inside.2]
  · have outside : (number : ℚ) < type.min ∨ type.max < number := by
      rw [told.min, told.max, ← isNumber]
      rw [not_and_or, not_le, not_le] at inside
      exact inside.imp (told.below n) (told.above n)
    simp only [constructNamedType, isNumber, trunc_intCast, ne_eq, not_true_eq_false, if_false]
    rw [if_pos outside]
    cases mode : type.mode with
    | range =>
      rw [inDomain, mode]
      exact (if_neg inside).symm
    | cycle =>
      rw [inDomain_single (single mode) mode]
      exact told.wrap (single mode)
    | clamp =>
      rw [inDomain, mode]
      rw [not_and_or, not_le, not_le] at inside
      rcases inside with less | more
      · have less' := told.below n less
        rw [isNumber] at less'
        have nearest : Max.max type.lo (Min.min type.hi n) = type.lo :=
          max_eq_left ((min_le_right _ _).trans less.le)
        rw [clampValue, told.min, if_pos less', nearest]
        exact safeI64FromFloat_intCast told.first (inInt64_of_within le_rfl (lo_le_hi type))
      · have more' := told.above n more
        rw [isNumber] at more'
        have nearest : Max.max type.lo (Min.min type.hi n) = type.hi := by
          rw [min_eq_left more.le, max_eq_right (lo_le_hi type)]
        rw [clampValue, told.min, told.max, if_neg (not_lt.2 (ordered.trans more'.le)),
          if_pos more', nearest]
        exact safeI64FromFloat_intCast told.last (inInt64_of_within (lo_le_hi type) le_rfl)

theorem Told.coerce (told : Told type) (single : type.mode = .cycle → type.lo = type.hi) :
    coerceNamedTypeResult type n = inDomain type n := by
  rcases exists_toFloat n with ⟨number, isNumber⟩
  rw [coerceNamedTypeResult]
  cases mode : type.mode with
  | range | clamp => exact told.construct single
  | cycle =>
    simp only [isNumber, trunc_intCast, ne_eq, not_true_eq_false, if_false]
    rw [inDomain_single (single mode) mode]
    exact told.wrap (single mode)

/-- A step from an integer that is a float to another one is the coercion of the neighbour. -/
theorem applyNamedTypeFn_eq {kind : NamedTypeFnKind} (same : toFloat n = n)
    (apart : toFloat ((n + kind.delta : ℤ) : ℚ) ≠ n) :
    applyNamedTypeFn type kind n = coerceNamedTypeResult type (n + kind.delta) := by
  rcases exists_toFloat (n + kind.delta) with ⟨result, isResult⟩
  have isResult' : toFloat ((n : ℚ) + kind.delta) = result := by
    exact_mod_cast isResult
  rw [isResult] at apart
  simp only [applyNamedTypeFn, coerceNamedTypeResult, constructNamedType, same, isResult',
    isResult, trunc_intCast, ne_eq, not_true_eq_false, if_false, if_neg apart]
  cases type.mode with
  | range => rfl
  | cycle => rfl
  | clamp =>
    dsimp only
    split
    · rfl
    · rename_i inside
      rw [not_or, not_lt, not_lt] at inside
      rw [clampValue, if_neg (not_lt.2 inside.1), if_neg (not_lt.2 inside.2)]

theorem NamedTypeFnKind.delta_ne_zero (kind : NamedTypeFnKind) : kind.delta ≠ 0 := by
  cases kind with
  | succ => decide
  | pred => decide

/-- The neighbours of the integers of the domain are not taken for them. -/
theorem Told.apart (told : Told type) (kind : NamedTypeFnKind) (lower : type.lo ≤ n)
    (upper : n ≤ type.hi) : toFloat ((n + kind.delta : ℤ) : ℚ) ≠ n := by
  have lower' : (type.lo : ℚ) ≤ n := by exact_mod_cast lower
  have upper' : (n : ℚ) ≤ type.hi := by exact_mod_cast upper
  rcases lt_or_ge (n + kind.delta) type.lo with less | notLess
  · exact ((told.below _ less).trans_le lower').ne
  rcases lt_or_ge type.hi (n + kind.delta) with more | notMore
  · exact (upper'.trans_lt (told.above _ more)).ne'
  · rw [told.within _ notLess notMore, ne_eq, Int.cast_inj, add_eq_left]
    exact kind.delta_ne_zero

theorem Told.exact (told : Told type) (single : type.mode = .cycle → type.lo = type.hi) :
    Exact type where
  construct _ _ := told.construct single
  coerce _ _ := told.coerce single
  step kind n lower upper := by
    rw [applyNamedTypeFn_eq (told.within n lower upper) (told.apart kind lower upper)]
    exact told.coerce single

theorem clampValue_intCast {lo hi : ℤ} (ordered : lo ≤ hi) :
    clampValue lo hi n = ((Max.max lo (Min.min hi n) : ℤ) : ℚ) := by
  simp only [clampValue, Int.cast_lt]
  split
  · rename_i less
    rw [max_eq_left ((min_le_right _ _).trans less.le)]
  · split
    · rename_i more
      rw [min_eq_left more.le, max_eq_right ordered]
    · rename_i notLess notMore
      rw [min_eq_right (not_lt.1 notMore), max_eq_right (not_lt.1 notLess)]

section Within

variable (fewFirst : |type.lo| ≤ 2 ^ 53) (fewLast : |type.hi| ≤ 2 ^ 53)

include fewFirst fewLast

theorem wrap_within (mode : type.mode = .cycle) (fewNumber : |n| ≤ 2 ^ 53) :
    (wrapCycleValue type.min type.max n false).bind safeI64FromFloat = inDomain type n := by
  have positive : 0 < type.hi - type.lo + 1 := by
    have := lo_le_hi type
    omega
  have nonneg := Int.emod_nonneg (n - type.lo) positive.ne'
  have below := Int.emod_lt_of_pos (n - type.lo) positive
  have result : |type.lo + (n - type.lo) % (type.hi - type.lo + 1)| ≤ 2 ^ 53 := by
    rw [abs_le] at fewFirst fewLast ⊢
    omega
  rw [min_eq (.inl fewFirst), max_eq (.inl fewLast),
    wrapCycleValue_eq (lo_le_hi type) fewFirst fewLast fewNumber, inDomain, mode]
  have lower : type.lo ≤ type.lo + (n - type.lo) % (type.hi - type.lo + 1) := by
    omega
  have upper : type.lo + (n - type.lo) % (type.hi - type.lo + 1) ≤ type.hi := by
    omega
  exact safeI64FromFloat_intCast (representable_of_le (by norm_num) result)
    (inInt64_of_within lower upper)

/-- Where the bounds and an integer are at most `2 ^ 53`, it is coerced as promised. -/
theorem coerce_within (fewNumber : |n| ≤ 2 ^ 53) :
    coerceNamedTypeResult type n = inDomain type n ∧
      constructNamedType type n = inDomain type n := by
  have same := toFloat_of_le fewNumber
  have fits : InInt64 n := by
    rw [abs_le] at fewNumber
    constructor
    · omega
    · omega
  have exact_ : safeI64FromFloat n = .ok n :=
    safeI64FromFloat_intCast (representable_of_le (by norm_num) fewNumber) fits
  have bounds : ((n : ℚ) < type.min ∨ type.max < n) ↔ ¬(type.lo ≤ n ∧ n ≤ type.hi) := by
    rw [min_eq (.inl fewFirst), max_eq (.inl fewLast), Int.cast_lt, Int.cast_lt, not_and_or, not_le,
      not_le]
  have constructs : constructNamedType type n = inDomain type n := by
    simp only [constructNamedType, same, trunc_intCast, ne_eq, not_true_eq_false, if_false]
    rw [exact_]
    by_cases inside : type.lo ≤ n ∧ n ≤ type.hi
    · rw [if_neg fun outside => bounds.1 outside inside, inDomain_of_within inside.1 inside.2]
    · rw [if_pos (bounds.2 inside)]
      cases mode : type.mode with
      | range =>
        rw [inDomain, mode]
        exact (if_neg inside).symm
      | cycle => exact wrap_within fewFirst fewLast mode fewNumber
      | clamp =>
        have nearest : InInt64 (Max.max type.lo (Min.min type.hi n)) :=
          inInt64_of_within (le_max_left _ _) (max_le (lo_le_hi type) (min_le_left _ _))
        have small : |Max.max type.lo (Min.min type.hi n)| ≤ 2 ^ 53 := by
          rw [abs_le] at fewFirst fewLast fewNumber ⊢
          omega
        rw [inDomain, mode, min_eq (.inl fewFirst), max_eq (.inl fewLast)]
        rw [clampValue_intCast (lo_le_hi type)]
        exact safeI64FromFloat_intCast (representable_of_le (by norm_num) small) nearest
  refine ⟨?_, constructs⟩
  rw [coerceNamedTypeResult]
  cases mode : type.mode with
  | range | clamp => exact constructs
  | cycle =>
    simp only [same, trunc_intCast, ne_eq, not_true_eq_false, if_false]
    exact wrap_within fewFirst fewLast mode fewNumber

theorem step_within {kind : NamedTypeFnKind} (fewNumber : |n| ≤ 2 ^ 53)
    (fewNext : |n + kind.delta| ≤ 2 ^ 53) :
    applyNamedTypeFn type kind n = inDomain type (n + kind.delta) := by
  have apart : toFloat ((n + kind.delta : ℤ) : ℚ) ≠ n := by
    rw [toFloat_of_le fewNext, ne_eq, Int.cast_inj, add_eq_left]
    exact kind.delta_ne_zero
  rw [applyNamedTypeFn_eq (toFloat_of_le fewNumber) apart]
  exact (coerce_within fewFirst fewLast fewNext).1

end Within

theorem representable_of_construct {value : ℤ} (gives : constructNamedType type n = .ok value) :
    Representable 53 value := by
  unfold constructNamedType at gives
  dsimp only at gives
  split at gives
  · exact absurd gives (by simp)
  · split at gives
    · split at gives
      · cases wrapped : wrapCycleValue type.min type.max (toFloat n) false with
        | error failure =>
          rw [wrapped] at gives
          exact absurd gives (by simp [Except.bind])
        | ok result =>
          rw [wrapped] at gives
          exact representable_of_safeI64FromFloat gives
      · exact representable_of_safeI64FromFloat gives
      · exact absurd gives (by simp)
    · exact representable_of_safeI64FromFloat gives

/-- Integers that are rounded to the same float are constructed as the same one. -/
theorem construct_congr (same : toFloat n = toFloat m) :
    constructNamedType type n = constructNamedType type m := by
  simp only [constructNamedType, same]

namespace Exact

variable (exact_ : Exact type)

include exact_

theorem representable (lower : type.lo ≤ n) (upper : n ≤ type.hi) : Representable 53 n := by
  have constructs := exact_.construct n (inInt64_of_within lower upper)
  rw [inDomain_of_within lower upper] at constructs
  exact representable_of_construct constructs

/-- No odd integer beyond `2 ^ 53` is in the domain. -/
theorem even_of_large (lower : type.lo ≤ n) (upper : n ≤ type.hi) (large : 2 ^ 53 ≤ |n|) :
    Even n := by
  by_contra isOdd
  exact not_representable_of_odd (Int.not_even_iff_odd.1 isOdd) large
    (exact_.representable lower upper)

theorem inDomain_congr (fits : InInt64 n) (fits' : InInt64 m) (same : toFloat n = toFloat m) :
    inDomain type n = inDomain type m := by
  rw [← exact_.construct n fits, construct_congr same, exact_.construct m fits']

theorem not_range (lower : type.lo ≤ n) (upper : n ≤ type.hi) (fits : InInt64 m)
    (outside : ¬(type.lo ≤ m ∧ m ≤ type.hi)) (same : toFloat m = toFloat n) :
    type.mode ≠ .range := by
  intro mode
  have both := exact_.inDomain_congr fits (inInt64_of_within lower upper) same
  rw [inDomain_of_within lower upper, inDomain_range_iff mode] at both
  exact outside both.2

/-- In a clamp or a cycle, no neighbour of an integer of the domain is rounded to it. -/
theorem range_of_stuck (kind : NamedTypeFnKind) (lower : type.lo ≤ n) (upper : n ≤ type.hi)
    (stuck : toFloat ((n + kind.delta : ℤ) : ℚ) = n) : type.mode = .range := by
  have steps := exact_.step kind n lower upper
  have same : toFloat n = n := (exact_.representable lower upper).roundTo_eq
  have stuck' : toFloat ((n : ℚ) + kind.delta) = n := by
    exact_mod_cast stuck
  simp only [applyNamedTypeFn, same, stuck', if_true] at steps
  cases mode : type.mode with
  | range => rfl
  | clamp | cycle =>
    rw [inDomain, mode] at steps
    exact absurd steps (by simp)

/-- A cycle has one value only: its integers behind `2 ^ 53` are wrapped like their neighbours. -/
theorem single_of_cycle (mode : type.mode = .cycle) : type.lo = type.hi := by
  have ordered := lo_le_hi type
  have same : toFloat ((2 ^ 53 + 1 : ℤ) : ℚ) = toFloat ((2 ^ 53 : ℤ) : ℚ) := by
    rw [toFloat_away (representable_of_le (by norm_num) (by norm_num)) (by decide) le_rfl
      (by norm_num), toFloat_of_le (by norm_num)]
  have both := exact_.inDomain_congr (by decide) (by decide) same
  rw [inDomain, inDomain, mode] at both
  have wrapped := Except.ok.inj both
  by_contra several
  have next : (2 ^ 53 + 1 - type.lo) % (type.hi - type.lo + 1) =
      (2 ^ 53 - type.lo) % (type.hi - type.lo + 1) := by
    omega
  have divides := Int.emod_eq_emod_iff_emod_sub_eq_zero.1 next
  have difference : 2 ^ 53 + 1 - type.lo - (2 ^ 53 - type.lo) = 1 := by ring
  rw [difference, Int.emod_eq_of_lt (by norm_num) (by omega)] at divides
  exact absurd divides (by norm_num)

theorem not_stuck (kind : NamedTypeFnKind) (lower : type.lo ≤ n) (upper : n ≤ type.hi)
    (fits : InInt64 (n + kind.delta))
    (outside : ¬(type.lo ≤ n + kind.delta ∧ n + kind.delta ≤ type.hi)) :
    toFloat ((n + kind.delta : ℤ) : ℚ) ≠ n := by
  intro stuck
  have same : toFloat n = n := (exact_.representable lower upper).roundTo_eq
  exact exact_.not_range lower upper fits outside (stuck.trans same.symm)
    (exact_.range_of_stuck kind lower upper stuck)

theorem hi_lt (several : type.lo < type.hi) : type.hi < 2 ^ 53 := by
  by_contra large
  rcases (not_lt.1 large).lt_or_eq with beyond | same
  · have isEven := exact_.even_of_large several.le le_rfl (le_abs.2 (.inl beyond.le))
    have isEven' := exact_.even_of_large (n := type.hi - 1) (by omega) (by omega)
      (le_abs.2 (.inl (by omega)))
    rw [Int.even_iff] at isEven isEven'
    omega
  · have representable := exact_.representable several.le le_rfl
    have isEven : Even type.hi := same ▸ by decide
    have twice : type.hi % 4 = 0 := by omega
    refine exact_.not_stuck .succ several.le le_rfl ?_ ?_ (toFloat_away representable isEven
      same.le (by omega))
    · rw [← same]
      decide
    · simp [NamedTypeFnKind.delta]

theorem lt_lo (several : type.lo < type.hi) : -2 ^ 53 < type.lo := by
  by_contra large
  rcases (not_lt.1 large).lt_or_eq with beyond | same
  · have isEven := exact_.even_of_large le_rfl several.le (le_abs.2 (.inr (by omega)))
    have isEven' := exact_.even_of_large (n := type.lo + 1) (by omega) (by omega)
      (le_abs.2 (.inr (by omega)))
    rw [Int.even_iff] at isEven isEven'
    omega
  · have representable := exact_.representable le_rfl several.le
    have isEven : Even type.lo := same ▸ by decide
    have twice : type.lo % 4 = 0 := by omega
    refine exact_.not_stuck .pred le_rfl several.le ?_ ?_ (toFloat_away_neg representable isEven
      same.le (by omega))
    · rw [same]
      decide
    · simp [NamedTypeFnKind.delta]

/-- One value that is a large float has floats on both sides that are not taken for it. -/
theorem lonely (single : type.lo = type.hi) (large : 2 ^ 53 ≤ |type.lo|) : Lonely type := by
  have ordered := lo_le_hi type
  have representable := exact_.representable le_rfl ordered
  have isEven := exact_.even_of_large le_rfl ordered large
  have fits : InInt64 type.lo := inInt64_of_within le_rfl ordered
  by_contra notLonely
  rcases lt_or_ge type.lo 0 with negative | positive
  · rw [abs_of_neg negative] at large
    have stuck : toFloat ((type.lo - 1 : ℤ) : ℚ) = type.lo := by
      apply toFloat_away_neg representable isEven (by omega)
      intro twice
      by_contra small
      apply notLonely
      rw [Lonely, abs_of_neg negative]
      exact ⟨single, by omega, by omega, twice⟩
    rcases fits.1.lt_or_eq with above | least
    · refine exact_.not_stuck .pred le_rfl ordered ?_ ?_ stuck
      · exact ⟨Int.le_sub_one_of_lt above, (Int.sub_lt_self _ one_pos).trans fits.2⟩
      · simp [NamedTypeFnKind.delta]
    · -- There is no smaller integer, but the next larger one is rounded to it.
      have isRange := exact_.range_of_stuck .pred le_rfl ordered stuck
      have same : toFloat ((type.lo + 1 : ℤ) : ℚ) = toFloat type.lo := by
        have largest := toFloat_maxInt
        have negated : ((type.lo + 1 : ℤ) : ℚ) = -((2 ^ 63 - 1 : ℤ) : ℚ) := by
          rw [← least]
          norm_num
        have rounded : toFloat type.lo = type.lo := representable.roundTo_eq
        rw [negated, toFloat_neg, largest, rounded, ← least]
        norm_num
      refine exact_.not_range le_rfl ordered ?_ ?_ same isRange
      · rw [← least]
        decide
      · rw [← single]
        omega
  · rw [abs_of_nonneg positive] at large
    have stuck : toFloat ((type.lo + 1 : ℤ) : ℚ) = type.lo := by
      apply toFloat_away representable isEven large
      intro twice
      by_contra small
      apply notLonely
      rw [Lonely, abs_of_nonneg positive]
      exact ⟨single, by omega, by omega, twice⟩
    have below : type.lo + 1 < 2 ^ 63 := by
      have upper := fits.2
      rw [Int.even_iff] at isEven
      omega
    refine exact_.not_stuck .succ le_rfl ordered ?_ ?_ stuck
    · exact ⟨fits.1.trans (Int.le_add_of_nonneg_right zero_le_one), below⟩
    · rw [← single]
      simp [NamedTypeFnKind.delta]

theorem small_or_lonely : Small type ∨ Lonely type := by
  rcases (lo_le_hi type).lt_or_eq with several | single
  · have lower := exact_.lt_lo several
    have upper := exact_.hi_lt several
    left
    refine ⟨abs_lt.2 ⟨lower, several.trans upper⟩, abs_lt.2 ⟨lower.trans several, upper⟩, ?_⟩
    exact exact_.single_of_cycle
  · rcases lt_or_ge |type.lo| (2 ^ 53) with few | large
    · exact .inl ⟨few, single ▸ few, fun _ => single⟩
    · exact .inr (exact_.lonely single large)

end Exact

/-- Which integer types keep their promise for all integers of the language, and for which integers
the other ones do where their bounds are small. -/
theorem exact_iff (type : NamedInt) :
    (Exact type ↔ Small type ∨ Lonely type) ∧
      (|type.lo| ≤ 2 ^ 53 → |type.hi| ≤ 2 ^ 53 → ∀ n, |n| ≤ 2 ^ 53 →
        constructNamedType type n = inDomain type n ∧
        coerceNamedTypeResult type n = inDomain type n ∧
        ∀ kind : NamedTypeFnKind, |n + kind.delta| ≤ 2 ^ 53 →
          applyNamedTypeFn type kind n = inDomain type (n + kind.delta)) := by
  refine ⟨⟨Exact.small_or_lonely, ?_⟩, ?_⟩
  · rintro (small | lonely)
    · exact small.told.exact small.2.2
    · exact lonely.told.exact fun _ => lonely.1
  · intro fewFirst fewLast n fewNumber
    have both := coerce_within fewFirst fewLast fewNumber
    exact ⟨both.2, both.1, fun kind => step_within fewFirst fewLast fewNumber⟩

/-- The integer `2 ^ 53 + 1` is rounded in its own range. -/
theorem not_exact : ¬Exact
    { mode := .range, first := ⟨0, true⟩, last := ⟨2 ^ 53 + 1, true⟩, ordered := by norm_num,
      lower := by norm_num, upper := by norm_num } := by
  intro exact_
  have isEven := exact_.even_of_large (n := 2 ^ 53 + 1) (by decide) (by decide) (by decide)
  exact absurd isEven (by decide)

end Gengo.Named
