import Gengo.Floats.Rounding
import Gengo.Lexing.Scanning

/-!
# Numbers

How the source of a number becomes a constant: in an expression, as a default of a parameter, and in
a declaration of a type.
-/

namespace Gengo.Lexing

open Bytecode (Bytes)

/-- Zero, and the numbers that are neither too small nor too large for a float. -/
def Moderate (q : ℚ) : Prop :=
  q = 0 ∨ 1 / 2 ^ 200 ≤ q ∧ q ≤ 2 ^ 200

/-- The operations of floats that are used, with the number that a finite float is. On integers of
53 bits they are exact, and so are the powers of ten up to 10^22. Results that are moderate are
rounded to 53 bits. -/
structure FloatArithmetic (F : Type) where
  ofNat : ℕ → F
  add : F → F → F
  mul : F → F → F
  div : F → F → F
  pow : F → F → F
  neg : F → F
  isZero : F → Bool
  value : F → Option ℚ
  value_ofNat {n : ℕ} (small : n ≤ 2 ^ 53) : value (ofNat n) = some (n : ℚ)
  value_add {x y : F} {q r : ℚ} (first : value x = some q) (second : value y = some r)
    (moderate : Moderate (q + r)) : value (add x y) = some (Floats.roundTo 53 (q + r))
  value_mul {x y : F} {q r : ℚ} (first : value x = some q) (second : value y = some r)
    (moderate : Moderate (q * r)) : value (mul x y) = some (Floats.roundTo 53 (q * r))
  value_div {x y : F} {q r : ℚ} (first : value x = some q) (second : value y = some r)
    (nonzero : r ≠ 0) (moderate : Moderate (q / r)) :
    value (div x y) = some (Floats.roundTo 53 (q / r))
  value_pow {n : ℕ} (small : n ≤ 22) : value (pow (ofNat 10) (ofNat n)) = some (10 ^ n)
  isZero_iff {x : F} {q : ℚ} (isValue : value x = some q) : isZero x = true ↔ q = 0
  add_ofNat {m n : ℕ} (small : m + n ≤ 2 ^ 53) : add (ofNat m) (ofNat n) = ofNat (m + n)
  mul_ofNat {m n : ℕ} (first : m ≤ 2 ^ 53) (second : n ≤ 2 ^ 53) (small : m * n ≤ 2 ^ 53) :
    mul (ofNat m) (ofNat n) = ofNat (m * n)
  div_ofNat : div (ofNat 0) (ofNat 1) = ofNat 0

theorem roundTo_natCast {n : ℕ} (small : n ≤ 2 ^ 53) : Floats.roundTo 53 (n : ℚ) = n := by
  have few : |(n : ℤ)| ≤ 2 ^ 53 := by
    rw [Nat.abs_cast]
    exact_mod_cast small
  have representable := Floats.representable_of_le (by decide) few
  exact_mod_cast representable.roundTo_eq

theorem roundTo_pow_ten {n : ℕ} (small : n ≤ 22) : Floats.roundTo 53 ((10 : ℚ) ^ n) = 10 ^ n := by
  apply Floats.Representable.roundTo_eq
  refine ⟨5 ^ n, n, ?_, ?_⟩
  · have few : (5 : ℤ) ^ n ≤ 5 ^ 22 := pow_le_pow_right₀ (by norm_num) small
    rw [abs_of_pos (by positivity)]
    exact few.trans_lt (by norm_num)
  · rw [zpow_natCast]
    push_cast
    rw [← mul_pow]
    norm_num

/-- Rational numbers that are rounded to 53 bits. -/
def FloatArithmetic.rounded : FloatArithmetic ℚ where
  ofNat n := Floats.roundTo 53 n
  add x y := Floats.roundTo 53 (x + y)
  mul x y := Floats.roundTo 53 (x * y)
  div x y := Floats.roundTo 53 (x / y)
  pow x y := Floats.roundTo 53 (x ^ ⌊y⌋)
  neg x := -x
  isZero x := x = 0
  value := some
  value_ofNat small := by rw [roundTo_natCast small]
  value_add first second _ := by
    cases first
    cases second
    rfl
  value_mul first second _ := by
    cases first
    cases second
    rfl
  value_div first second _ _ := by
    cases first
    cases second
    rfl
  value_pow {n} small := by
    have ten : Floats.roundTo 53 ((10 : ℕ) : ℚ) = (10 : ℕ) := roundTo_natCast (by norm_num)
    rw [ten, roundTo_natCast (by omega), Int.floor_natCast, zpow_natCast]
    exact congrArg some (by exact_mod_cast roundTo_pow_ten small)
  isZero_iff isValue := by
    cases isValue
    exact decide_eq_true_iff
  add_ofNat {m n} small := by
    rw [roundTo_natCast (by omega), roundTo_natCast (by omega), ← Nat.cast_add]
  mul_ofNat {m n} first second small := by
    rw [roundTo_natCast first, roundTo_natCast second, ← Nat.cast_mul]
  div_ofNat := by
    rw [Nat.cast_zero, Floats.roundTo_zero, zero_div, Floats.roundTo_zero]

/-- What ends a compilation, or a run. -/
inductive NumberFailure
  | badNumber
  | rangeError
  | panic
  deriving DecidableEq, Repr

/-- An integer of 64 bits with a sign. -/
def FitsI64 (n : ℤ) : Prop :=
  -2 ^ 63 ≤ n ∧ n < 2 ^ 63

instance (n : ℤ) : Decidable (FitsI64 n) :=
  inferInstanceAs (Decidable (_ ∧ _))

def minI64 : ℤ :=
  -2 ^ 63

/-- The digits behind `0x`. -/
def hexDigit (ch : UInt8) : Option ℕ :=
  (hexVal ch).map UInt8.toNat

/-- The digits behind `0b`. -/
def binaryDigit (ch : UInt8) : Option ℕ :=
  if ch ≠ 48 ∧ ch ≠ 49 then none else some (ch - 48).toNat

/-- The digits behind `0o`. -/
def octalDigit (ch : UInt8) : Option ℕ :=
  if ch < 48 ∨ 55 < ch then none else some (ch - 48).toNat

/-- The digits of decimal numbers. -/
def decimalDigit (ch : UInt8) : Option ℕ :=
  if ch < 48 ∨ 57 < ch then none else some (ch - 48).toNat

/-- What the byte behind a zero says about the digits: which they are, and their base. -/
def digitsBehind (marker : UInt8) : Option ((UInt8 → Option ℕ) × ℕ) :=
  if marker = ascii 'x' ∨ marker = ascii 'X' then some (hexDigit, 16)
  else if marker = ascii 'b' ∨ marker = ascii 'B' then some (binaryDigit, 2)
  else if marker = ascii 'o' ∨ marker = ascii 'O' then some (octalDigit, 8)
  else none

/-- The digits of a number that begins with a zero. -/
def basedDigits (s : Bytes) : Option ((UInt8 → Option ℕ) × ℕ) :=
  if s.head? = some 48 then (s[1]?).bind digitsBehind else none

/-- The loops of `parseInt` behind a prefix, with the arithmetic of 64 bits that wraps. -/
def wrapDigits (digit : UInt8 → Option ℕ) (base : ℕ) : Bytes → ℕ → Option ℕ
  | [], v => some v
  | ch :: s, v =>
    if ch = ascii '_' then wrapDigits digit base s v
    else
      match digit ch with
      | none => none
      | some nib => wrapDigits digit base s ((v * base + nib) % 2 ^ 64)

/-- The loop of `parseInt` over a decimal number, with checked arithmetic of 64 bits. -/
def checkedDigits : Bytes → ℕ → Option ℕ
  | [], v => some v
  | ch :: s, v =>
    if ch = ascii '_' then checkedDigits s v
    else
      match decimalDigit ch with
      | none => none
      | some nib =>
        if v * 10 < 2 ^ 64 then
          if v * 10 + nib < 2 ^ 64 then checkedDigits s (v * 10 + nib) else none
        else none

/-- `-v` of an integer that is checked. -/
def checkedNeg (n : ℤ) : Except NumberFailure ℤ :=
  if n = minI64 then .error .panic else .ok (-n)

/-- A number that has been read, with its sign. -/
def signed (neg : Bool) (n : ℤ) : Except NumberFailure (Option ℤ) :=
  if neg then (checkedNeg n).map some else .ok (some n)

/-- `parseInt` -/
def parseInt (source : Bytes) : Except NumberFailure (Option ℤ) :=
  let neg := source.head? = some (ascii '-')
  let s := if neg then source.tail else source
  if (s.head?.bind decimalDigit).isNone then .ok none
  else
    match basedDigits s with
    | some (digit, base) =>
      if s.drop 2 = [] then .ok none
      else
        match wrapDigits digit base (s.drop 2) 0 with
        | none => .ok none
        | some v => signed neg (Int.bmod v (2 ^ 64))
    | none =>
      match checkedDigits s 0 with
      | none => .ok none
      | some v =>
        if 2 ^ 63 < v then .ok none
        else if v = 2 ^ 63 then .ok (some minI64)
        else signed neg v

/-- The loop of `std.fmt.parseInt` of 64 bits with a sign, on a decimal number. -/
def signedDigits (neg : Bool) : Bytes → ℤ → Option ℤ
  | [], acc => some acc
  | ch :: s, acc =>
    if ch = ascii '_' then signedDigits neg s acc
    else
      match decimalDigit ch with
      | none => none
      | some nib =>
        if FitsI64 (acc * 10) then
          let next := if neg then acc * 10 - nib else acc * 10 + nib
          if FitsI64 next then signedDigits neg s next else none
        else none

/-- `std.fmt.parseInt(i64, …, 10)`, where no underscore comes first or last. -/
def stdParseInt (source : Bytes) : Option ℤ :=
  let neg := source.head? = some (ascii '-')
  let s := if neg ∨ source.head? = some (ascii '+') then source.tail else source
  if s = [] ∨ s.head? = some (ascii '_') ∨ s.getLast? = some (ascii '_') then none
  else signedDigits neg s 0

/-- The loops of `parseFloat` behind a prefix, where an overflow of 64 bits is a panic. -/
def panicDigits (digit : UInt8 → Option ℕ) (base : ℕ) : Bytes → ℕ → Except NumberFailure (Option ℕ)
  | [], v => .ok (some v)
  | ch :: s, v =>
    if ch = ascii '_' then panicDigits digit base s v
    else
      match digit ch with
      | none => .ok none
      | some nib =>
        if v * base + nib < 2 ^ 64 then panicDigits digit base s (v * base + nib)
        else .error .panic

section

variable {F : Type} (arith : FloatArithmetic F)

/-- One more digit. -/
def pushDigit (x : F) (ch : UInt8) : F :=
  arith.add (arith.mul x (arith.ofNat 10)) (arith.ofNat (ch - 48).toNat)

/-- The digits before the dot, and what comes behind them. -/
def wholeDigits : Bytes → F → F × Bytes
  | [], ip => (ip, [])
  | ch :: s, ip =>
    if ch = ascii '_' then wholeDigits s ip
    else if isDigit ch then wholeDigits s (pushDigit arith ip ch)
    else (ip, ch :: s)

/-- The digits behind the dot, and by how much they are to be divided. -/
def fractionDigits : Bytes → F → F → F × F × Bytes
  | [], fp, fd => (fp, fd, [])
  | ch :: s, fp, fd =>
    if ch = ascii '_' then fractionDigits s fp fd
    else if isDigit ch then
      fractionDigits s (pushDigit arith fp ch) (arith.mul fd (arith.ofNat 10))
    else (fp, fd, ch :: s)

/-- The digits of an exponent. -/
def exponentDigits : Bytes → F → F × Bytes
  | [], exp => (exp, [])
  | ch :: s, exp =>
    if isDigit ch then exponentDigits s (pushDigit arith exp ch) else (exp, ch :: s)

/-- The dot and what comes behind it. -/
def fractionPart (s : Bytes) : F × F × Bytes :=
  if s.head? = some (ascii '.') then fractionDigits arith s.tail (arith.ofNat 0) (arith.ofNat 1)
  else (arith.ofNat 0, arith.ofNat 1, s)

/-- An exponent with its sign, if there is one. It has a digit. -/
def exponentPart (s : Bytes) : Option (Bool × F × Bytes) :=
  if s.head? = some (ascii 'e') ∨ s.head? = some (ascii 'E') then
    let expNeg := s.tail.head? = some (ascii '-')
    let digits := if expNeg ∨ s.tail.head? = some (ascii '+') then s.tail.tail else s.tail
    if (digits.head?.bind decimalDigit).isNone then none
    else
      let (exp, s) := exponentDigits arith digits (arith.ofNat 0)
      some (expNeg, exp, s)
  else some (false, arith.ofNat 0, s)

/-- A float that has been read, with its sign. -/
def signedFloat (neg : Bool) (x : F) : F :=
  if neg then arith.neg x else x

/-- A number without a prefix. -/
def decimalFloat (neg : Bool) (s : Bytes) : Option F :=
  let (ip, s) := wholeDigits arith s (arith.ofNat 0)
  let (fp, fd, s) := fractionPart arith s
  match exponentPart arith s with
  | none => none
  | some (expNeg, exp, s) =>
    if s ≠ [] then none
    else
      let r := arith.add ip (arith.div fp fd)
      let scale := arith.pow (arith.ofNat 10) exp
      let r :=
        if arith.isZero exp then r
        else if expNeg then arith.div r scale
        else arith.mul r scale
      some (signedFloat arith neg r)

/-- `parseFloat` -/
def parseFloat (source : Bytes) : Except NumberFailure (Option F) :=
  let neg := source.head? = some (ascii '-')
  let s := if neg then source.tail else source
  if (s.head?.bind decimalDigit).isNone then .ok none
  else
    match basedDigits s with
    | some (digit, base) =>
      if s.drop 2 = [] then .ok none
      else
        match panicDigits digit base (s.drop 2) 0 with
        | .error failure => .error failure
        | .ok none => .ok none
        | .ok (some v) => .ok (some (signedFloat arith neg (arith.ofNat v)))
    | none => .ok (decimalFloat arith neg s)

/-- A constant of a number. -/
inductive Constant (F : Type)
  | int (n : ℤ)
  | float (x : F)
  deriving DecidableEq, Repr

/-- `is_based` -/
def isBased (src : Bytes) : Bool :=
  (basedDigits src).isSome

/-- `std.mem.indexOfAny(u8, src, ".eE") != null` -/
def hasMark (src : Bytes) : Bool :=
  src.any fun c => c = ascii '.' || c = ascii 'e' || c = ascii 'E'

/-- `orelse return error.BadNumber` -/
def orBadNumber {α : Type} : Except NumberFailure (Option α) → Except NumberFailure α
  | .error failure => .error failure
  | .ok none => .error .badNumber
  | .ok (some x) => .ok x

/-- `numLit` of the compiler: the constant of a number in an expression. -/
def constant (src : Bytes) : Except NumberFailure (Constant F) :=
  if !isBased src && hasMark src then (orBadNumber (parseFloat arith src)).map .float
  else (orBadNumber (parseInt src)).map .int

/-- The operation `neg` of the machine, on a number. -/
def negate : Constant F → Except NumberFailure (Constant F)
  | .int n => if n = minI64 then .error .rangeError else .ok (.int (-n))
  | .float x => .ok (.float (arith.neg x))

/-- What a number in an expression evaluates to, with a minus before it or without one. -/
def expression (neg : Bool) (src : Bytes) : Except NumberFailure (Constant F) :=
  match constant arith src with
  | .error failure => .error failure
  | .ok value => if neg then negate arith value else .ok value

/-- The numbers of `parseLiteralDefault`. -/
def parseLiteralDefault (neg : Bool) (src : Bytes) : Except NumberFailure (Constant F) :=
  if hasMark src then
    (orBadNumber (parseFloat arith src)).map fun n => .float (signedFloat arith neg n)
  else
    match stdParseInt src with
    | none => .error .badNumber
    | some i => if neg then (checkedNeg i).map .int else .ok (.int i)

/-- The numbers of a constant of a declaration of a type: `parseConstUnary` on one minus at most. -/
def parseConstUnary (neg : Bool) (src : Bytes) : Except NumberFailure (Option F) :=
  (parseFloat arith src).map fun number => number.map (signedFloat arith neg)

end

end Gengo.Lexing
