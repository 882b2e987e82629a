import Gengo.Lexing.Numbers
import Gengo.Lexing.Strings

/-!
# The digits of numbers

The loops over digits with wrapping and with checked arithmetic, and the values that the digits
denote.
-/

namespace Gengo.Lexing

open List
open Bytecode (Bytes)

/-- Digits of a base, and underscores. -/
def AreDigitsOf (base : ℕ) (digits : Bytes) : Prop :=
  ∀ ch ∈ digits, ch = ascii '_' ∨ (digitBelow base ch).isSome

/-- The value of digits that come behind others. -/
def valueFrom (base : ℕ) : ℕ → Bytes → ℕ
  | v, [] => v
  | v, ch :: digits =>
    if ch = ascii '_' then valueFrom base v digits
    else valueFrom base (v * base + (digitBelow base ch).getD 0) digits

def value (base : ℕ) (digits : Bytes) : ℕ :=
  valueFrom base 0 digits

theorem digitBelow_hex : hexDigit = digitBelow 16 :=
  funext hexVal_eq

theorem digitBelow_binary : binaryDigit = digitBelow 2 := by
  funext ch
  revert ch
  apply forall_byte
  decide +kernel

theorem digitBelow_octal : octalDigit = digitBelow 8 := by
  funext ch
  revert ch
  apply forall_byte
  decide +kernel

theorem digitBelow_decimal : decimalDigit = digitBelow 10 := by
  funext ch
  revert ch
  apply forall_byte
  decide +kernel

/-- A byte behind a zero that says in which base the digits are. -/
inductive Marks : UInt8 → ℕ → Prop
  | hex {marker : UInt8} (isMarker : marker = ascii 'x' ∨ marker = ascii 'X') : Marks marker 16
  | binary {marker : UInt8} (isMarker : marker = ascii 'b' ∨ marker = ascii 'B') : Marks marker 2
  | octal {marker : UInt8} (isMarker : marker = ascii 'o' ∨ marker = ascii 'O') : Marks marker 8

theorem digitsBehind_eq_some_iff {marker : UInt8} {digit : UInt8 → Option ℕ} {base : ℕ} :
    digitsBehind marker = some (digit, base) ↔ Marks marker base ∧ digit = digitBelow base := by
  constructor
  · intro found
    unfold digitsBehind at found
    split at found
    · rename_i isMarker
      cases found
      exact ⟨.hex isMarker, digitBelow_hex⟩
    · split at found
      · rename_i isMarker
        cases found
        exact ⟨.binary isMarker, digitBelow_binary⟩
      · split at found
        · rename_i isMarker
          cases found
          exact ⟨.octal isMarker, digitBelow_octal⟩
        · cases found
  · rintro ⟨marks, rfl⟩
    cases marks with
    | hex isMarker =>
      rw [← digitBelow_hex]
      rcases isMarker with rfl | rfl
      · rfl
      · rfl
    | binary isMarker =>
      rw [← digitBelow_binary]
      rcases isMarker with rfl | rfl
      · rfl
      · rfl
    | octal isMarker =>
      rw [← digitBelow_octal]
      rcases isMarker with rfl | rfl
      · rfl
      · rfl

theorem basedDigits_eq_some_iff {s : Bytes} {digit : UInt8 → Option ℕ} {base : ℕ} :
    basedDigits s = some (digit, base) ↔
      ∃ marker digits, s = 48 :: marker :: digits ∧ Marks marker base ∧
        digit = digitBelow base := by
  constructor
  · intro found
    match s with
    | [] => cases found
    | [zero] =>
      unfold basedDigits at found
      split at found
      · cases found
      · cases found
    | zero :: marker :: digits =>
      unfold basedDigits at found
      split at found
      · rename_i isZero
        cases isZero
        exact ⟨marker, digits, rfl, digitsBehind_eq_some_iff.mp found⟩
      · cases found
  · rintro ⟨marker, digits, rfl, isMarker⟩
    exact digitsBehind_eq_some_iff.mpr isMarker

section

variable {base : ℕ} {digits : Bytes} {v : ℕ}

theorem areDigitsOf_cons {ch : UInt8} :
    AreDigitsOf base (ch :: digits) ↔
      (ch = ascii '_' ∨ (digitBelow base ch).isSome) ∧ AreDigitsOf base digits :=
  forall_mem_cons

theorem areDigitsOf_cons_of {ch : UInt8} (counts : ch = ascii '_' ∨ (digitBelow base ch).isSome) :
    AreDigitsOf base (ch :: digits) ↔ AreDigitsOf base digits :=
  areDigitsOf_cons.trans (and_iff_right counts)

theorem not_areDigitsOf_cons {ch : UInt8} (notUnderscore : ch ≠ ascii '_')
    (noDigit : digitBelow base ch = none) : ¬AreDigitsOf base (ch :: digits) := by
  rw [areDigitsOf_cons, noDigit]
  rintro ⟨isUnderscore | isDigit, -⟩
  · exact notUnderscore isUnderscore
  · cases isDigit

theorem le_valueFrom (positive : 0 < base) (v : ℕ) (digits : Bytes) :
    v ≤ valueFrom base v digits := by
  induction digits generalizing v with
  | nil => exact Nat.le_refl v
  | cons ch digits ih =>
    rw [valueFrom]
    split
    · exact ih v
    · have more : v ≤ v * base := Nat.le_mul_of_pos_right v positive
      exact (more.trans (Nat.le_add_right _ _)).trans (ih _)

theorem valueFrom_mod (modulus : ℕ) (v : ℕ) (digits : Bytes) :
    valueFrom base (v % modulus) digits % modulus = valueFrom base v digits % modulus := by
  induction digits generalizing v with
  | nil => exact Nat.mod_mod _ _
  | cons ch digits ih =>
    rw [valueFrom, valueFrom]
    split
    · exact ih v
    · rw [← ih, ← ih (v * base + _), Nat.add_mod, Nat.mod_mul_mod, ← Nat.add_mod]

/-- The loops that wrap: they go through exactly if all bytes are digits. -/
theorem wrapDigits_eq_some_iff {w : ℕ} (small : v < 2 ^ 64) :
    wrapDigits (digitBelow base) base digits v = some w ↔
      AreDigitsOf base digits ∧ w = valueFrom base v digits % 2 ^ 64 := by
  induction digits generalizing v with
  | nil =>
    constructor
    · rintro ⟨⟩
      exact ⟨fun ch none => absurd none not_mem_nil, (Nat.mod_eq_of_lt small).symm⟩
    · rintro ⟨_, rfl⟩
      exact congrArg some (Nat.mod_eq_of_lt small).symm
  | cons ch digits ih =>
    rw [wrapDigits, valueFrom]
    split
    · rename_i isUnderscore
      rw [ih small, areDigitsOf_cons_of (.inl isUnderscore)]
    · rename_i notUnderscore
      cases digit : digitBelow base ch with
      | none =>
        constructor
        · rintro ⟨⟩
        · exact fun found => absurd found.1 (not_areDigitsOf_cons notUnderscore digit)
      | some nib =>
        rw [ih (Nat.mod_lt _ (Nat.two_pow_pos 64)), valueFrom_mod, areDigitsOf_cons_of]
        · rfl
        · exact .inr (Option.isSome_of_eq_some digit)

theorem checkedDigits_eq_some_iff {w : ℕ} (small : v < 2 ^ 64) :
    checkedDigits digits v = some w ↔
      AreDigitsOf 10 digits ∧ w = valueFrom 10 v digits ∧ w < 2 ^ 64 := by
  induction digits generalizing v with
  | nil =>
    constructor
    · rintro ⟨⟩
      exact ⟨fun ch none => absurd none not_mem_nil, rfl, small⟩
    · rintro ⟨_, rfl, _⟩
      rfl
  | cons ch digits ih =>
    rw [checkedDigits, valueFrom, digitBelow_decimal]
    split
    · rename_i isUnderscore
      rw [ih small, areDigitsOf_cons_of (.inl isUnderscore)]
    · rename_i notUnderscore
      cases digit : digitBelow 10 ch with
      | none =>
        constructor
        · rintro ⟨⟩
        · exact fun found => absurd found.1 (not_areDigitsOf_cons notUnderscore digit)
      | some nib =>
        dsimp only
        have grows := @le_valueFrom 10 (by decide) (v * 10 + nib) digits
        by_cases fits : v * 10 + nib < 2 ^ 64
        · rw [if_pos (by omega), if_pos fits, ih fits, areDigitsOf_cons_of]
          · rfl
          · exact .inr (Option.isSome_of_eq_some digit)
        · have stops : (if v * 10 < 2 ^ 64 then
              if v * 10 + nib < 2 ^ 64 then checkedDigits digits (v * 10 + nib) else none
            else none) = none := by
            rw [if_neg fits]
            exact ite_self _
          rw [stops]
          constructor
          · rintro ⟨⟩
          · rintro ⟨_, same, few⟩
            change w = valueFrom 10 (v * 10 + nib) digits at same
            omega

theorem signedDigits_eq_some_iff {i : ℤ} (small : v < 2 ^ 63) :
    signedDigits false digits v = some i ↔
      AreDigitsOf 10 digits ∧ i = valueFrom 10 v digits ∧ i < 2 ^ 63 := by
  induction digits generalizing v with
  | nil =>
    constructor
    · rintro ⟨⟩
      exact ⟨fun ch none => absurd none not_mem_nil, rfl, by exact_mod_cast small⟩
    · rintro ⟨_, rfl, _⟩
      rfl
  | cons ch digits ih =>
    rw [signedDigits, valueFrom, digitBelow_decimal]
    split
    · rename_i isUnderscore
      rw [ih small, areDigitsOf_cons_of (.inl isUnderscore)]
    · rename_i notUnderscore
      cases digit : digitBelow 10 ch with
      | none =>
        constructor
        · rintro ⟨⟩
        · exact fun found => absurd found.1 (not_areDigitsOf_cons notUnderscore digit)
      | some nib =>
        dsimp only
        have grows := @le_valueFrom 10 (by decide) (v * 10 + nib) digits
        have next : (v : ℤ) * 10 + nib = ((v * 10 + nib : ℕ) : ℤ) := by
          rfl
        rw [if_neg Bool.false_ne_true, next]
        by_cases fits : v * 10 + nib < 2 ^ 63
        · have first : FitsI64 ((v : ℤ) * 10) := by
            unfold FitsI64
            omega
          have second : FitsI64 ((v * 10 + nib : ℕ) : ℤ) := by
            unfold FitsI64
            omega
          rw [if_pos first, if_pos second, ih fits, areDigitsOf_cons_of]
          · rfl
          · exact .inr (Option.isSome_of_eq_some digit)
        · have full : ¬FitsI64 ((v * 10 + nib : ℕ) : ℤ) := by
            unfold FitsI64
            omega
          rw [if_neg full, ite_self]
          constructor
          · rintro ⟨⟩
          · rintro ⟨_, same, few⟩
            change i = (valueFrom 10 (v * 10 + nib) digits : ℤ) at same
            omega

end

end Gengo.Lexing
