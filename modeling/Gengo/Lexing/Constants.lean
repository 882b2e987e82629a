import Gengo.Fallible.Sequencing
import Gengo.Lexing.Fractions
import Gengo.Lexing.Literals

/-!
# What numbers denote

A decimal integer denotes its value, and behind a prefix the digits of a number denote a pattern of
64 bits. Defaults of parameters are the same numbers as expressions.
-/

namespace Gengo.Lexing

open List
open Bytecode (Bytes)

/-- The source of a number begins with a digit. -/
def BeginsWithDigit (src : Bytes) : Prop :=
  (src.head?.bind decimalDigit).isSome

/-- The integers that numbers denote. Behind a prefix the digits are a pattern of 64 bits, and so
is the number 2^63. -/
inductive Denotes : Bytes → ℤ → Prop
  | decimal {src : Bytes} (areDigits : AreDigitsOf 10 src) (few : value 10 src < 2 ^ 63) :
      Denotes src (value 10 src)
  | largest {src : Bytes} (areDigits : AreDigitsOf 10 src) (full : value 10 src = 2 ^ 63) :
      Denotes src minI64
  | based {marker : UInt8} {base : ℕ} {digits : Bytes} (marks : Marks marker base)
      (nonempty : digits ≠ []) (areDigits : AreDigitsOf base digits) :
      Denotes (48 :: marker :: digits) (Int.bmod (value base digits) (2 ^ 64))

variable {src : Bytes}

theorem head_ne_minus (begins : BeginsWithDigit src) : src.head? ≠ some (ascii '-') := by
  intro isMinus
  rw [BeginsWithDigit, isMinus] at begins
  exact absurd begins (by decide)

theorem head_ne_plus (begins : BeginsWithDigit src) : src.head? ≠ some (ascii '+') := by
  intro isPlus
  rw [BeginsWithDigit, isPlus] at begins
  exact absurd begins (by decide)

theorem not_areDigitsOf_of_marks {marker : UInt8} {base : ℕ} {digits : Bytes}
    (marks : Marks marker base) : ¬AreDigitsOf 10 (48 :: marker :: digits) := by
  intro areDigits
  have isDigit := areDigits marker (mem_cons_of_mem _ mem_cons_self)
  cases marks with
  | hex isMarker | binary isMarker | octal isMarker =>
    rcases isMarker with rfl | rfl
    · exact absurd isDigit (by decide)
    · exact absurd isDigit (by decide)

theorem parseInt_eq (begins : BeginsWithDigit src) :
    parseInt src =
      match basedDigits src with
      | some (digit, base) =>
        if src.drop 2 = [] then .ok none
        else
          match wrapDigits digit base (src.drop 2) 0 with
          | none => .ok none
          | some v => .ok (some (Int.bmod v (2 ^ 64)))
      | none =>
        match checkedDigits src 0 with
        | none => .ok none
        | some v =>
          if 2 ^ 63 < v then .ok none
          else if v = 2 ^ 63 then .ok (some minI64)
          else .ok (some v) := by
  have digit : (src.head?.bind decimalDigit).isNone = false := by
    rw [← Option.not_isSome, begins]
    rfl
  unfold parseInt
  simp only [head_ne_minus begins, digit, if_false, decide_false, Bool.false_eq_true]
  rfl

theorem basedDigits_of_marks {marker : UInt8} {base : ℕ} (marks : Marks marker base)
    (digits : Bytes) : basedDigits (48 :: marker :: digits) = some (digitBelow base, base) :=
  basedDigits_eq_some_iff.mpr ⟨marker, digits, rfl, marks, rfl⟩

theorem not_areDigitsOf_of_based {entry : (UInt8 → Option ℕ) × ℕ}
    (found : basedDigits src = some entry) : ¬AreDigitsOf 10 src := by
  rcases basedDigits_eq_some_iff.mp found with ⟨marker, digits, rfl, marks, _⟩
  exact not_areDigitsOf_of_marks marks

theorem bmod_value (base : ℕ) (digits : Bytes) :
    Int.bmod ((valueFrom base 0 digits % 2 ^ 64 : ℕ) : ℤ) (2 ^ 64) =
      Int.bmod (value base digits) (2 ^ 64) := by
  rw [Int.natCast_mod]
  exact Int.emod_bmod _ _

theorem unbased_of_areDigitsOf (areDigits : AreDigitsOf 10 src) : basedDigits src = none := by
  cases found : basedDigits src with
  | none => rfl
  | some entry => exact absurd areDigits (not_areDigitsOf_of_based found)

section

variable (begins : BeginsWithDigit src)
include begins

/-- What is read as an integer is what the number denotes. -/
theorem parseInt_eq_some_iff {n : ℤ} : parseInt src = .ok (some n) ↔ Denotes src n := by
  rw [parseInt_eq begins]
  constructor
  · intro read
    cases found : basedDigits src with
    | some entry =>
      rcases entry with ⟨digit, base⟩
      rcases basedDigits_eq_some_iff.mp found with ⟨marker, digits, rfl, marks, rfl⟩
      rw [found] at read
      dsimp only at read
      split at read
      · cases read
      · rename_i nonempty
        split at read
        · cases read
        · rename_i v wrapped
          rcases (wrapDigits_eq_some_iff (Nat.two_pow_pos 64)).mp wrapped with ⟨areDigits, rfl⟩
          have same := Option.some.inj (Except.ok.inj read)
          rw [← same, bmod_value]
          exact .based marks nonempty areDigits
    | none =>
      rw [found] at read
      dsimp only at read
      split at read
      · cases read
      · rename_i v checked
        rcases (checkedDigits_eq_some_iff (Nat.two_pow_pos 64)).mp checked with
          ⟨areDigits, rfl, _⟩
        split at read
        · cases read
        · split at read
          · rename_i full
            cases read
            exact .largest areDigits full
          · cases read
            exact .decimal areDigits (by change valueFrom 10 0 src < _; omega)
  · intro denotes
    cases denotes with
    | decimal areDigits few =>
      have checked : checkedDigits src 0 = some (value 10 src) :=
        (checkedDigits_eq_some_iff (Nat.two_pow_pos 64)).mpr ⟨areDigits, rfl, few.trans (by decide)⟩
      rw [unbased_of_areDigitsOf areDigits]
      rw [checked]
      dsimp only
      rw [if_neg (Nat.lt_asymm few), if_neg (Nat.ne_of_lt few)]
    | largest areDigits full =>
      have checked : checkedDigits src 0 = some (value 10 src) :=
        (checkedDigits_eq_some_iff (Nat.two_pow_pos 64)).mpr
          ⟨areDigits, rfl, full.trans_lt (by decide)⟩
      rw [unbased_of_areDigitsOf areDigits]
      rw [checked, full]
      rfl
    | @based marker base digits marks nonempty areDigits =>
      have wrapped : wrapDigits (digitBelow base) base digits 0 =
          some (valueFrom base 0 digits % 2 ^ 64) :=
        (wrapDigits_eq_some_iff (Nat.two_pow_pos 64)).mpr ⟨areDigits, rfl⟩
      rw [basedDigits_of_marks marks]
      change (if digits = [] then _ else
        match wrapDigits (digitBelow base) base digits 0 with
        | none => _
        | some v => _) = _
      rw [if_neg nonempty, wrapped, ← bmod_value]

theorem parseInt_ok : ∃ result, parseInt src = .ok result := by
  rw [parseInt_eq begins]
  split
  · split
    · exact ⟨_, rfl⟩
    · split
      · exact ⟨_, rfl⟩
      · exact ⟨_, rfl⟩
  · split
    · exact ⟨_, rfl⟩
    · split
      · exact ⟨_, rfl⟩
      · split
        · exact ⟨_, rfl⟩
        · exact ⟨_, rfl⟩

theorem value_of_stdParseInt {i : ℤ} (read : stdParseInt src = some i) :
    AreDigitsOf 10 src ∧ i = value 10 src ∧ i < 2 ^ 63 := by
  unfold stdParseInt at read
  simp only [head_ne_minus begins, head_ne_plus begins, or_self, if_false, decide_false] at read
  split at read
  · cases read
  · exact (signedDigits_eq_some_iff (Nat.two_pow_pos 63)).mp read

end

section

variable {F : Type} {arith : FloatArithmetic F}

theorem parseFloat_eq (begins : BeginsWithDigit src) (unbased : basedDigits src = none) :
    parseFloat arith src = .ok (decimalFloat arith false src) := by
  have digit : (src.head?.bind decimalDigit).isNone = false := by
    rw [← Option.not_isSome, begins]
    rfl
  unfold parseFloat
  simp only [head_ne_minus begins, digit, if_false, decide_false, Bool.false_eq_true]
  rw [unbased]

theorem decimalFloat_ofNat (areDigits : AreDigitsOf 10 src) (small : value 10 src ≤ 2 ^ 53) :
    decimalFloat arith false src = some (arith.ofNat (value 10 src)) := by
  unfold decimalFloat
  rw [wholeDigits_ofNat areDigits small]
  change some (if arith.isZero (arith.ofNat 0) = true then
    arith.add (arith.ofNat (value 10 src)) (arith.div (arith.ofNat 0) (arith.ofNat 1))
    else _) = _
  have isZero := arith.isZero_iff (arith.value_ofNat (Nat.zero_le (2 ^ 53)))
  rw [if_pos (isZero.mpr Nat.cast_zero), arith.div_ofNat, arith.add_ofNat (by rwa [Nat.add_zero])]
  rfl

theorem hasMark_of_areDigitsOf (areDigits : AreDigitsOf 10 src) : hasMark src = false := by
  apply any_eq_false.mpr
  intro ch isByte isMark
  have digit := areDigits ch isByte
  simp only [Bool.or_eq_true, decide_eq_true_eq] at isMark
  rcases isMark with (rfl | rfl) | rfl
  · exact absurd digit (by decide)
  · exact absurd digit (by decide)
  · exact absurd digit (by decide)

theorem DecimalText.isPlaced_or_mem {decimal : Decimal} (text : DecimalText src decimal) :
    ∀ ch ∈ src,
      isPlaced ch = true ∨ ch ∈ [ascii '.', ascii 'e', ascii 'E', ascii '+', ascii '-'] := by
  intro ch mem
  cases text with
  | mk areDigits isFraction isExponent =>
    rcases mem_append.mp mem with inWhole | behind
    · exact .inl (areDigitsOf_iff.mp areDigits ch inWhole)
    · rcases mem_append.mp behind with inFraction | inExponent
      · cases isFraction with
        | absent => cases inFraction
        | digits areDigits =>
          rcases mem_cons.mp inFraction with rfl | isDigit
          · exact .inr (by decide)
          · exact .inl (areDigitsOf_iff.mp areDigits ch isDigit)
      · cases isExponent with
        | absent => cases inExponent
        | digits isMarker isSign _ areDigits =>
          rcases mem_cons.mp inExponent with rfl | behindMarker
          · rcases isMarker with rfl | rfl
            · exact .inr (by decide)
            · exact .inr (by decide)
          · rcases mem_append.mp behindMarker with inSign | isDigit
            · cases isSign with
              | absent => cases inSign
              | plus | minus =>
                rw [mem_singleton.mp inSign]
                exact .inr (by decide)
            · have digit := areDigits ch isDigit
              rw [isSome_digitBelow] at digit
              exact .inl (by rw [isPlaced, digit, Bool.or_true])

theorem DecimalText.basedDigits_eq_none {decimal : Decimal} (text : DecimalText src decimal) :
    basedDigits src = none := by
  cases found : basedDigits src with
  | none => rfl
  | some entry =>
    rcases entry with ⟨digit, base⟩
    rcases basedDigits_eq_some_iff.mp found with ⟨marker, digits, rfl, marks, -⟩
    have isByte := text.isPlaced_or_mem marker (mem_cons_of_mem _ mem_cons_self)
    cases marks with
    | hex isMarker | binary isMarker | octal isMarker =>
      rcases isMarker with rfl | rfl
      · exact absurd isByte (by decide)
      · exact absurd isByte (by decide)

theorem DecimalText.hasMark {decimal : Decimal} (text : DecimalText src decimal)
    (notDigits : ¬AreDigitsOf 10 src) : hasMark src = true := by
  cases text with
  | mk areDigits isFraction isExponent =>
    cases isFraction with
    | digits _ => exact any_eq_true.mpr ⟨ascii '.', by simp, by decide⟩
    | absent =>
      cases isExponent with
      | absent => exact absurd (by rwa [append_nil, append_nil]) notDigits
      | @digits marker _ _ _ isMarker _ _ _ =>
        refine any_eq_true.mpr ⟨marker, by simp, ?_⟩
        rcases isMarker with rfl | rfl
        · decide
        · decide

/-- Digits with a fraction or an exponent. -/
def FloatText (src : Bytes) (decimal : Decimal) : Prop :=
  DecimalText src decimal ∧ ¬AreDigitsOf 10 src

/-- The constant of a number is the integer that it denotes, or a float, which denotes the number
if that is short. Without a prefix a default of a parameter is the number that the expression
evaluates to, and in declarations of types integers of 53 bits and the digits behind a prefix are
the same number, if they do not wrap. A number in an expression does not panic. -/
structure Faithful (arith : FloatArithmetic F) (src : Bytes) : Prop where
  int (n : ℤ) : constant arith src = .ok (.int n) ↔ Denotes src n
  float : (∃ x, constant arith src = .ok (.float x)) ↔ ∃ decimal, FloatText src decimal
  near (x : F) (decimal : Decimal) : constant arith src = .ok (.float x) →
    FloatText src decimal → decimal.Short → ∃ v, arith.value x = some v ∧ decimal.IsNear v
  rejected (failure : NumberFailure) : constant arith src = .error failure → failure = .badNumber
  minus (n : ℤ) : expression arith true src = .ok (.int n) ↔ Denotes src (-n) ∧ -n ≠ minI64
  minusFloat (x : F) : constant arith src = .ok (.float x) →
    expression arith true src = .ok (.float (arith.neg x))
  default (neg : Bool) (result : Constant F) : isBased src = false →
    parseLiteralDefault arith neg src = .ok result → expression arith neg src = .ok result
  defaultRejected (neg : Bool) (failure : NumberFailure) : isBased src = false →
    parseLiteralDefault arith neg src = .error failure → failure = .badNumber
  typed (neg : Bool) : AreDigitsOf 10 src → value 10 src ≤ 2 ^ 53 →
    parseConstUnary arith neg src = .ok (some (signedFloat arith neg (arith.ofNat (value 10 src))))
  typedBased (neg : Bool) (marker : UInt8) (base : ℕ) (digits : Bytes) :
    src = 48 :: marker :: digits → Marks marker base → digits ≠ [] → AreDigitsOf base digits →
    value base digits < 2 ^ 63 → parseConstUnary arith neg src =
      .ok (some (signedFloat arith neg (arith.ofNat (value base digits))))

theorem orBadNumber_eq_ok_iff {α : Type} {read : Except NumberFailure (Option α)} {x : α} :
    orBadNumber read = .ok x ↔ read = .ok (some x) := by
  match read with
  | .error failure => exact ⟨nofun, nofun⟩
  | .ok none => exact ⟨nofun, nofun⟩
  | .ok (some y) =>
    constructor
    · rintro ⟨⟩
      rfl
    · rintro ⟨⟩
      rfl

theorem map_eq_ok_iff {α β : Type} {f : α → β} {read : Except NumberFailure α} {y : β} :
    read.map f = .ok y ↔ ∃ x, read = .ok x ∧ f x = y :=
  Fallible.map_eq_ok

theorem constant_of_float (unbased : isBased src = false) (mark : hasMark src = true) :
    constant arith src = (orBadNumber (parseFloat arith src)).map .float := by
  rw [constant, unbased, mark]
  rfl

theorem constant_of_int (notFloat : ¬(isBased src = false ∧ hasMark src = true)) :
    constant arith src = (orBadNumber (parseInt src)).map .int := by
  rw [constant, if_neg]
  rw [Bool.and_eq_true, Bool.not_eq_true']
  exact notFloat

theorem isBased_eq_false_iff : isBased src = false ↔ basedDigits src = none := by
  rw [isBased, ← Option.isNone_iff_eq_none, ← Option.not_isSome, Bool.not_eq_true']

theorem parseFloat_ok (begins : BeginsWithDigit src) (unbased : isBased src = false) :
    ∃ result, parseFloat arith src = .ok result :=
  ⟨_, parseFloat_eq begins (isBased_eq_false_iff.mp unbased)⟩

theorem orBadNumber_map {α β : Type} {f : α → β} {read : Except NumberFailure (Option α)}
    (isOk : ∃ result, read = .ok result) {failure : NumberFailure}
    (failed : (orBadNumber read).map f = .error failure) : failure = .badNumber := by
  rcases isOk with ⟨result, rfl⟩
  cases result with
  | none =>
    cases failed
    rfl
  | some x => cases failed

theorem not_denotes_of_mark (unbased : isBased src = false) (mark : hasMark src = true) (n : ℤ) :
    ¬Denotes src n := by
  intro denotes
  cases denotes with
  | decimal areDigits few | largest areDigits full =>
    rw [hasMark_of_areDigitsOf areDigits] at mark
    cases mark
  | based marks nonempty areDigits =>
    rw [isBased, basedDigits_of_marks marks] at unbased
    cases unbased

theorem constant_eq_int_iff (begins : BeginsWithDigit src) (n : ℤ) :
    constant arith src = .ok (.int n) ↔ Denotes src n := by
  by_cases isFloat : isBased src = false ∧ hasMark src = true
  · rw [constant_of_float isFloat.1 isFloat.2, map_eq_ok_iff]
    constructor
    · rintro ⟨x, _, ⟨⟩⟩
    · exact fun denotes => absurd denotes (not_denotes_of_mark isFloat.1 isFloat.2 n)
  · rw [constant_of_int isFloat, map_eq_ok_iff, ← parseInt_eq_some_iff begins]
    constructor
    · rintro ⟨m, read, ⟨⟩⟩
      exact orBadNumber_eq_ok_iff.mp read
    · intro read
      exact ⟨n, orBadNumber_eq_ok_iff.mpr read, rfl⟩

theorem constant_eq_float_iff (x : F) :
    constant arith src = .ok (.float x) ↔
      isBased src = false ∧ hasMark src = true ∧ parseFloat arith src = .ok (some x) := by
  by_cases isFloat : isBased src = false ∧ hasMark src = true
  · rw [constant_of_float isFloat.1 isFloat.2, map_eq_ok_iff]
    constructor
    · rintro ⟨y, read, ⟨⟩⟩
      exact ⟨isFloat.1, isFloat.2, orBadNumber_eq_ok_iff.mp read⟩
    · rintro ⟨_, _, read⟩
      exact ⟨x, orBadNumber_eq_ok_iff.mpr read, rfl⟩
  · rw [constant_of_int isFloat, map_eq_ok_iff]
    constructor
    · rintro ⟨n, _, ⟨⟩⟩
    · exact fun read => absurd ⟨read.1, read.2.1⟩ isFloat

/-- With a fraction or an exponent, the constant is the float that is computed from the digits. -/
theorem constant_of_text (begins : BeginsWithDigit src) {decimal : Decimal}
    (text : FloatText src decimal) :
    constant arith src = .ok (.float (decimal.assembled arith)) := by
  have unbased := text.1.basedDigits_eq_none
  refine (constant_eq_float_iff _).mpr
    ⟨isBased_eq_false_iff.mpr unbased, text.1.hasMark text.2, ?_⟩
  rw [parseFloat_eq begins unbased, decimalFloat_of_text text.1]

theorem exists_constant_float_iff (begins : BeginsWithDigit src) :
    (∃ x, constant arith src = .ok (.float x)) ↔ ∃ decimal, FloatText src decimal := by
  constructor
  · rintro ⟨x, isConstant⟩
    rcases (constant_eq_float_iff x).mp isConstant with ⟨unbased, mark, read⟩
    rw [parseFloat_eq begins (isBased_eq_false_iff.mp unbased), Except.ok.injEq] at read
    rcases exists_decimalText read with ⟨decimal, text⟩
    refine ⟨decimal, text, fun areDigits => ?_⟩
    rw [hasMark_of_areDigitsOf areDigits] at mark
    cases mark
  · rintro ⟨decimal, text⟩
    exact ⟨_, constant_of_text begins text⟩

theorem panicDigits_of_lt {base : ℕ} (positive : 0 < base) {digits : Bytes}
    (areDigits : AreDigitsOf base digits) {v : ℕ} (small : valueFrom base v digits < 2 ^ 64) :
    panicDigits (digitBelow base) base digits v = .ok (some (valueFrom base v digits)) := by
  induction digits generalizing v with
  | nil => rfl
  | cons ch digits ih =>
    rcases areDigitsOf_cons.mp areDigits with ⟨first, later⟩
    rw [panicDigits, valueFrom]
    rw [valueFrom] at small
    split
    · rename_i isUnderscore
      rw [if_pos isUnderscore] at small
      exact ih later small
    · rename_i notUnderscore
      rw [if_neg notUnderscore] at small
      cases digit : digitBelow base ch with
      | none =>
        rw [digit] at first
        exact absurd (first.resolve_left notUnderscore) (by decide)
      | some nib =>
        rw [digit, Option.getD_some] at small
        rw [Option.getD_some]
        dsimp only
        rw [if_pos ((le_valueFrom positive _ digits).trans_lt small)]
        exact ih later small

theorem parseConstUnary_of_marks {marker : UInt8} {base : ℕ} {digits : Bytes} (neg : Bool)
    (begins : BeginsWithDigit (48 :: marker :: digits)) (marks : Marks marker base)
    (nonempty : digits ≠ []) (areDigits : AreDigitsOf base digits)
    (small : value base digits < 2 ^ 63) : parseConstUnary arith neg (48 :: marker :: digits) =
      .ok (some (signedFloat arith neg (arith.ofNat (value base digits)))) := by
  have positive : 0 < base := by
    cases marks with
    | hex _ | binary _ | octal _ => decide
  have read := panicDigits_of_lt positive areDigits (v := 0) (small.trans (by norm_num))
  have digit : ((48 :: marker :: digits).head?.bind decimalDigit).isNone = false := by
    rw [← Option.not_isSome, begins]
    rfl
  unfold parseConstUnary parseFloat
  simp only [head_ne_minus begins, digit, if_false, decide_false, Bool.false_eq_true,
    basedDigits_of_marks marks, drop_succ_cons, drop_zero, nonempty, read]
  rfl

theorem expression_of_constant {neg : Bool} {value : Constant F}
    (isConstant : constant arith src = .ok value) :
    expression arith neg src = if neg then negate arith value else .ok value := by
  rw [expression, isConstant]

section

variable (begins : BeginsWithDigit src)
include begins

theorem expression_minus_iff (n : ℤ) :
    expression arith true src = .ok (.int n) ↔ Denotes src (-n) ∧ -n ≠ minI64 := by
  have asConstant : constant arith src = .ok (.int (-n)) ↔ _ := constant_eq_int_iff begins (-n)
  rw [← asConstant]
  cases isConstant : constant arith src with
  | error failure =>
    rw [expression, isConstant]
    exact ⟨nofun, fun ⟨isOk, _⟩ => nomatch isOk⟩
  | ok value =>
    rw [expression_of_constant isConstant, if_pos rfl]
    cases value with
    | float x => exact ⟨nofun, fun ⟨isOk, _⟩ => nomatch isOk⟩
    | int m =>
      rw [negate]
      constructor
      · intro negated
        split at negated
        · cases negated
        · rename_i notLeast
          cases negated
          rw [neg_neg]
          exact ⟨rfl, notLeast⟩
      · rintro ⟨⟨⟩, notLeast⟩
        rw [if_neg notLeast, neg_neg]

theorem expression_of_default (unbased : isBased src = false) {neg : Bool} {result : Constant F}
    (accepted : parseLiteralDefault arith neg src = .ok result) :
    expression arith neg src = .ok result := by
  unfold parseLiteralDefault at accepted
  split at accepted
  · rename_i mark
    rcases map_eq_ok_iff.mp accepted with ⟨x, read, rfl⟩
    have isConstant := (constant_eq_float_iff x).mpr ⟨unbased, mark, orBadNumber_eq_ok_iff.mp read⟩
    rw [expression_of_constant isConstant]
    cases neg with
    | false => rfl
    | true => rfl
  · cases read : stdParseInt src with
    | none =>
      rw [read] at accepted
      cases accepted
    | some i =>
      rcases value_of_stdParseInt begins read with ⟨areDigits, rfl, few⟩
      rw [read] at accepted
      dsimp only at accepted
      have denotes : Denotes src (value 10 src) := .decimal areDigits (by exact_mod_cast few)
      have isConstant : constant arith src = .ok (.int _) :=
        (constant_eq_int_iff begins _).mpr denotes
      have notLeast : ((value 10 src : ℕ) : ℤ) ≠ minI64 := by
        unfold minI64
        omega
      rw [expression_of_constant isConstant]
      cases neg with
      | false => exact accepted
      | true =>
        rw [if_pos rfl, checkedNeg, if_neg notLeast] at accepted
        rw [if_pos rfl, negate, if_neg notLeast]
        exact accepted

theorem faithful_of_begins : Faithful arith src where
  int := constant_eq_int_iff begins
  float := exists_constant_float_iff begins
  near x decimal isConstant text short := by
    rw [constant_of_text begins text, Except.ok.injEq, Constant.float.injEq] at isConstant
    rw [← isConstant]
    exact decimal.exists_assembled arith short text.1
  rejected failure failed := by
    by_cases isFloat : isBased src = false ∧ hasMark src = true
    · rw [constant_of_float isFloat.1 isFloat.2] at failed
      exact orBadNumber_map (parseFloat_ok begins isFloat.1) failed
    · rw [constant_of_int isFloat] at failed
      exact orBadNumber_map (parseInt_ok begins) failed
  minus := expression_minus_iff begins
  minusFloat x isConstant := by
    rw [expression_of_constant isConstant]
    rfl
  default neg result unbased := expression_of_default begins unbased
  defaultRejected neg failure unbased failed := by
    unfold parseLiteralDefault at failed
    split at failed
    · exact orBadNumber_map (parseFloat_ok begins unbased) failed
    · cases read : stdParseInt src with
      | none =>
        rw [read] at failed
        cases failed
        rfl
      | some i =>
        rcases value_of_stdParseInt begins read with ⟨_, rfl, _⟩
        have notLeast : ((value 10 src : ℕ) : ℤ) ≠ minI64 := by
          unfold minI64
          omega
        rw [read] at failed
        dsimp only at failed
        rw [checkedNeg, if_neg notLeast] at failed
        cases neg with
        | false | true => cases failed
  typed neg areDigits small := by
    rw [parseConstUnary, parseFloat_eq begins (unbased_of_areDigitsOf areDigits),
      decimalFloat_ofNat areDigits small]
    rfl
  typedBased neg marker base digits same marks nonempty areDigits small := by
    subst same
    exact parseConstUnary_of_marks neg begins marks nonempty areDigits small

end

end

theorem wordType_ne_number (text : Bytes) : wordType text ≠ .number := by
  have words : ∀ entry ∈ keywordMap, entry.2 ≠ .number := by decide
  unfold wordType
  split
  · rename_i entry found
    exact words entry (mem_of_find?_eq_some found)
  · exact nofun

variable (c : UInt8)

theorem operator_ne_number (rest : Bytes) : (operator c rest).1 ≠ .number := by
  have forms : ∀ entry ∈ operators, ∀ form ∈ entry.2, form.2 ≠ .number := by decide
  unfold operator
  split
  · exact nofun
  · rename_i entry found
    split
    · exact nofun
    · rename_i form fits
      exact forms entry (mem_of_find?_eq_some found) form (mem_of_find?_eq_some fits)

theorem TT.IsError.ne_number {typ : TT} (isError : typ.IsError) : typ ≠ .number := by
  rcases isError with rfl | rfl | rfl
  · exact nofun
  · exact nofun
  · exact nofun

theorem not_isAlpha_of_isDigit : isDigit c = true → ¬isAlpha c = true := by
  revert c
  apply forall_byte
  decide +kernel

theorem isSome_of_isDigit : isDigit c = true → (decimalDigit c).isSome := by
  revert c
  apply forall_byte
  decide +kernel

theorem runeLit_ne_number (rest : Bytes) : (runeLit rest).1 ≠ .number := by
  unfold runeLit
  dsimp only
  intro isNumber
  split at isNumber
  · cases isNumber
  · split at isNumber <;> cases isNumber

theorem scanToken_ne_number {unicode : Unicode} {c : UInt8} {rest pool : Bytes}
    (begins : BeginsLiteral (c :: rest)) (fits : pool.length ≤ strPoolSize) :
    (scanToken unicode c rest pool).typ ≠ .number := by
  have exact := exact_low21 unicode begins fits
  by_cases accepted : ∃ len whole, (scanToken unicode c rest pool).Accepts pool len whole
  · rcases accepted with ⟨len, whole, accepts⟩
    rw [accepts.typ]
    exact nofun
  · exact (exact.rejects accepted).ne_number

theorem isDigit_of_scanToken {unicode : Unicode} {c : UInt8} {rest pool : Bytes}
    (fits : pool.length ≤ strPoolSize) (isNumber : (scanToken unicode c rest pool).typ = .number) :
    isDigit c = true := by
  by_contra noDigit
  have noLiteral : ¬BeginsLiteral (c :: rest) := fun begins =>
    scanToken_ne_number begins fits isNumber
  unfold scanToken at isNumber
  split at isNumber
  · exact wordType_ne_number _ isNumber
  · split at isNumber
    · dsimp only at isNumber
      split at isNumber
      · exact wordType_ne_number _ isNumber
      · cases isNumber
    · split at isNumber
      · rename_i isQuote
        exact noLiteral (.quoted isQuote rest)
      · split at isNumber
        · exact runeLit_ne_number rest isNumber
        · split at isNumber
          · rename_i isBackslash
            split at isNumber
            · rename_i another
              cases rest with
              | nil => cases another
              | cons second rest =>
                cases another
                rw [isBackslash] at noLiteral
                exact noLiteral (.lines rest)
            · cases isNumber
          · exact operator_ne_number c rest isNumber

namespace Lexer

variable {unicode : Unicode} {lexer : Lexer}

theorem begins_of_number (fits : lexer.strPool.length ≤ strPoolSize)
    (isNumber : (lexer.next unicode).1.typ = .number) :
    BeginsWithDigit (lexer.next unicode).1.src := by
  cases isRest : lexer.begin.rest with
  | nil =>
    rw [next, isRest] at isNumber
    cases isNumber
  | cons c rest =>
    have same : lexer.next unicode =
        lexer.begin.finish (scanToken unicode c rest lexer.strPool) := scanned_next isRest
    rw [same] at isNumber ⊢
    have scanned : (scanToken unicode c rest lexer.strPool).typ = .number := by
      unfold finish at isNumber
      split at isNumber
      · cases isNumber
      · exact isNumber
    have digit := isDigit_of_scanToken fits scanned
    have token : scanToken unicode c rest lexer.strPool =
        plain .number (1 + numLit rest) lexer.strPool := by
      rw [scanToken, if_neg (not_isAlpha_of_isDigit c digit), if_pos digit]
    rw [token]
    change BeginsWithDigit ((lexer.begin.src.take (lexer.begin.pos + (1 + numLit rest))).drop
      lexer.begin.pos)
    rw [drop_take, Nat.add_sub_cancel_left]
    change BeginsWithDigit (lexer.begin.rest.take _)
    rw [isRest, Nat.add_comm, take_succ_cons]
    exact isSome_of_isDigit c digit

/-- All numbers of a source are what they denote, in all places. -/
def FaithfulNumbers {F : Type} (arith : FloatArithmetic F) (unicode : Unicode) (src : Bytes) :
    Prop :=
  ∀ call, (token unicode src call).typ = .number → Faithful arith (token unicode src call).src

theorem faithfulNumbers {F : Type} (arith : FloatArithmetic F) (unicode : Unicode) (src : Bytes) :
    FaithfulNumbers arith unicode src := fun call isNumber =>
  faithful_of_begins (begins_of_number (fits_before unicode src call) isNumber)

/-- Sixteen digits behind the prefix, all of them 15. -/
def allOnes : Bytes :=
  [48, 120] ++ List.replicate 16 102

theorem not_value : ¬∀ (unicode : Unicode) (src : Bytes) (call : ℕ) (base : ℕ) (marker : UInt8)
    (digits : Bytes) (n : ℤ), (token unicode src call).typ = .number →
      (token unicode src call).src = 48 :: marker :: digits → Marks marker base →
        AreDigitsOf base digits →
          constant FloatArithmetic.rounded (token unicode src call).src = .ok (.int n) →
            n = value base digits := by
  intro always
  have denoted := always asciiOnly allOnes 0 16 120 (List.replicate 16 102) (-1) rfl rfl
    (.hex (.inl rfl))
  have areDigits : AreDigitsOf 16 (List.replicate 16 102) := by
    intro ch isDigit
    rw [eq_of_mem_replicate isDigit]
    decide
  have pattern : Int.bmod (value 16 (List.replicate 16 102)) (2 ^ 64) = -1 := by
    decide
  have denotes : Denotes (token asciiOnly allOnes 0).src (-1) :=
    pattern ▸ .based (.hex (.inl rfl)) (cons_ne_nil _ _) areDigits
  have begins : BeginsWithDigit (token asciiOnly allOnes 0).src :=
    isSome_of_isDigit 48 (by decide)
  exact absurd (denoted areDigits ((constant_eq_int_iff begins (-1)).mpr denotes)) (by decide)

end Lexer

end Gengo.Lexing
