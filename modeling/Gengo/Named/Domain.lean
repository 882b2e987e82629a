import Gengo.Floats.Rounding

/-!
# Integer types with a domain

A named integer type may have a range, a cycle or a clamp of integers. The bounds are kept as
64-bit floats, and every integer that is constructed, coerced or stepped is turned into one and
back. None of these floats is large enough to be infinite, so that a float is the rational number
that it stands for.
-/

namespace Gengo.Named

open Floats

/-- The 64-bit float next to a number. -/
def toFloat (q : ℚ) : ℚ :=
  roundTo 53 q

/-- `@trunc`. -/
def trunc (q : ℚ) : ℚ :=
  if 0 ≤ q then ⌊q⌋ else ⌈q⌉

inductive Failure
  | rangeError
  | typeError
  deriving DecidableEq, Repr

/-- What is a value of `i64`. -/
def InInt64 (n : ℤ) : Prop :=
  -2 ^ 63 ≤ n ∧ n < 2 ^ 63

instance (n : ℤ) : Decidable (InInt64 n) :=
  inferInstanceAs (Decidable (_ ∧ _))

/-- `parseFloat` of a numeral without a fraction: every digit is added to ten times what the
digits before it gave. -/
def readDecimal (n : ℕ) : ℚ :=
  if n < 10 then n
  else toFloat (toFloat (readDecimal (n / 10) * 10) + (n % 10 : ℕ))

/-- A bound as it is declared: an integer in decimal notation, or one with a `0x`, `0o` or `0b`
before its digits. -/
structure Bound where
  value : ℤ
  isDecimal : Bool

/-- The float that is kept of a bound. -/
def Bound.compile (bound : Bound) : ℚ :=
  let magnitude :=
    if bound.isDecimal then readDecimal bound.value.natAbs else toFloat bound.value.natAbs
  if bound.value < 0 then -magnitude else magnitude

inductive Mode
  | range
  | cycle
  | clamp
  deriving DecidableEq, Repr

/-- `NamedTypeObj` of an integer type with a domain, as far as the domain goes. -/
structure NamedInt where
  mode : Mode
  first : Bound
  last : Bound
  ordered : first.value ≤ last.value
  lower : -2 ^ 63 ≤ first.value
  upper : last.value < 2 ^ 63

namespace NamedInt

variable (type : NamedInt)

def lo : ℤ :=
  type.first.value

def hi : ℤ :=
  type.last.value

def min : ℚ :=
  type.first.compile

def max : ℚ :=
  type.last.compile

end NamedInt

/-- `safeI64FromFloat`. -/
def safeI64FromFloat (q : ℚ) : Except Failure ℤ :=
  if q < -2 ^ 63 ∨ 2 ^ 63 ≤ q then .error .rangeError
  else if toFloat ⌊trunc q⌋ = trunc q then .ok ⌊trunc q⌋
  else .error .rangeError

/-- `common.fmod`. -/
def fmod (a b : ℚ) : ℚ :=
  if b = 0 then 0 else toFloat (a - toFloat (trunc (toFloat (a / b)) * b))

/-- `@trunc(q) == q`, and a magnitude of at most `exact_int_limit`. -/
def IsExactInt (q : ℚ) : Prop :=
  trunc q = q ∧ -9007199254740992 ≤ q ∧ q ≤ 9007199254740992

instance (q : ℚ) : Decidable (IsExactInt q) :=
  inferInstanceAs (Decidable (_ ∧ _))

/-- The end of `wrapCycleValue`, in floats. -/
def wrapInexact (min max n : ℚ) (continuous : Bool) : Except Failure ℚ :=
  let width := toFloat (max - min)
  let span := if continuous then width else toFloat (width + 1)
  if span ≤ 0 then .error .rangeError
  else if !continuous ∧ span = width then .error .rangeError
  else
    let rest := fmod (toFloat (n - min)) span
    let offset := if rest < 0 then toFloat (rest + span) else rest
    let result := toFloat (min + offset)
    if result = min ∧ offset ≠ 0 then .error .rangeError else .ok result

/-- `wrapCycleValue`. -/
def wrapCycleValue (min max n : ℚ) (continuous : Bool) : Except Failure ℚ :=
  if !continuous ∧ IsExactInt min ∧ IsExactInt max ∧ IsExactInt n then
    let width := ⌊max⌋ - ⌊min⌋
    if ¬InInt64 width ∨ ¬InInt64 (width + 1) then .error .rangeError
    else if 0 < width + 1 then .ok (toFloat (⌊min⌋ + (⌊n⌋ - ⌊min⌋) % (width + 1) : ℤ))
    else wrapInexact min max n continuous
  else wrapInexact min max n continuous

/-- `clampValue`. -/
def clampValue (min max n : ℚ) : ℚ :=
  if n < min then min else if max < n then max else n

section

variable (type : NamedInt)

/-- `constructNamedType` of an integer. -/
def constructNamedType (n : ℤ) : Except Failure ℤ :=
  let number := toFloat n
  if trunc number ≠ number then .error .typeError
  else if number < type.min ∨ type.max < number then
    match type.mode with
    | .cycle => (wrapCycleValue type.min type.max number false).bind safeI64FromFloat
    | .clamp => safeI64FromFloat (clampValue type.min type.max number)
    | .range => .error .rangeError
  else safeI64FromFloat number

/-- `coerceNamedTypeResult` of an integer. -/
def coerceNamedTypeResult (n : ℤ) : Except Failure ℤ :=
  match type.mode with
  | .cycle =>
    let number := toFloat n
    if trunc number ≠ number then .error .typeError
    else (wrapCycleValue type.min type.max number false).bind safeI64FromFloat
  | _ => constructNamedType type n

inductive NamedTypeFnKind
  | succ
  | pred
  deriving DecidableEq, Repr

def NamedTypeFnKind.delta : NamedTypeFnKind → ℤ
  | .succ => 1
  | .pred => -1

/-- `applyNamedTypeFn` of an integer. -/
def applyNamedTypeFn (kind : NamedTypeFnKind) (n : ℤ) : Except Failure ℤ :=
  let number := toFloat n
  let result := toFloat (number + kind.delta)
  if result = number then .error .rangeError
  else
    match type.mode with
    | .cycle => (wrapCycleValue type.min type.max result false).bind safeI64FromFloat
    | .clamp => safeI64FromFloat (clampValue type.min type.max result)
    | .range =>
      if result < type.min ∨ type.max < result then .error .rangeError
      else safeI64FromFloat result

/-- An integer in the domain: the integer itself, or the nearest bound, or the one that is the same
up to multiples of the number of integers in the domain. -/
def inDomain (n : ℤ) : Except Failure ℤ :=
  match type.mode with
  | .range => if type.lo ≤ n ∧ n ≤ type.hi then .ok n else .error .rangeError
  | .clamp => .ok (Max.max type.lo (Min.min type.hi n))
  | .cycle => .ok (type.lo + (n - type.lo) % (type.hi - type.lo + 1))

/-- Every integer is constructed and coerced as promised, and the steps from the integers of the
domain are. -/
structure Exact : Prop where
  construct : ∀ n, InInt64 n → constructNamedType type n = inDomain type n
  coerce : ∀ n, InInt64 n → coerceNamedTypeResult type n = inDomain type n
  step : ∀ kind n, type.lo ≤ n → n ≤ type.hi →
    applyNamedTypeFn type kind n = inDomain type (n + kind.delta)

end

section

variable {type : NamedInt}

theorem lo_le_hi (type : NamedInt) : type.lo ≤ type.hi :=
  type.ordered

theorem inDomain_of_within {n : ℤ} (lower : type.lo ≤ n) (upper : n ≤ type.hi) :
    inDomain type n = .ok n := by
  unfold inDomain
  cases type.mode with
  | range => exact if_pos ⟨lower, upper⟩
  | clamp => rw [min_eq_right upper, max_eq_right lower]
  | cycle =>
    have small : (n - type.lo) % (type.hi - type.lo + 1) = n - type.lo :=
      Int.emod_eq_of_lt (by omega) (by omega)
    rw [small, add_sub_cancel]

/-- In a range, an integer is accepted exactly if it is between the bounds. -/
theorem inDomain_range_iff {n value : ℤ} (mode : type.mode = .range) :
    inDomain type n = .ok value ↔ value = n ∧ type.lo ≤ n ∧ n ≤ type.hi := by
  rw [inDomain, mode]
  dsimp only
  split
  · rename_i within
    exact ⟨fun same => ⟨(Except.ok.inj same).symm, within⟩, fun both => congrArg _ both.1.symm⟩
  · rename_i outside
    exact ⟨fun same => absurd same (by simp), fun both => absurd both.2 outside⟩

end

end Gengo.Named
