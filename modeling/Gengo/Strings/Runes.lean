import Gengo.Bytecode.Value

/-!
# Runes of a string

Strings are bytes, and their lengths and indices count runes of UTF-8. Every loop over the runes
goes through the positions at which runes begin, up to the end of the bytes or to the first one
that begins no rune.
-/

namespace Gengo.Strings

open Nat
open Bytecode (Bytes)

inductive Failure
  | indexOutOfBounds
  | typeError
  deriving DecidableEq, Repr

/-- `utf8ByteSequenceLength`. -/
def sequenceLength (first : UInt8) : Option ℕ :=
  if first < 0x80 then some 1
  else if first < 0xC0 then none
  else if first < 0xE0 then some 2
  else if first < 0xF0 then some 3
  else if first < 0xF8 then some 4
  else none

/-- The six bits that a continuation byte has. -/
def continuation (byte : UInt8) : Option ℕ :=
  if byte &&& 0xC0 = 0x80 then some (byte &&& 0x3F).toNat else none

/-- `utf8Decode` of as many bytes as the first one announces. No rune has an encoding that is
longer than needed, and the surrogates are none. -/
def utf8Decode : Bytes → Option ℕ
  | [first] => some first.toNat
  | [first, second] => do
    let value := (first &&& 0x1F).toNat * 64 + (← continuation second)
    if value < 0x80 then none else some value
  | [first, second, third] => do
    let value := ((first &&& 0x0F).toNat * 64 + (← continuation second)) * 64 +
      (← continuation third)
    if value < 0x800 ∨ (0xD800 ≤ value ∧ value ≤ 0xDFFF) then none else some value
  | [first, second, third, fourth] => do
    let value := (((first &&& 0x07).toNat * 64 + (← continuation second)) * 64 +
      (← continuation third)) * 64 + (← continuation fourth)
    if value < 0x10000 ∨ 0x10FFFF < value then none else some value
  | _ => none

/-- `utf8NextRuneByteLen`. -/
def utf8NextRuneByteLen (bytes : Bytes) (index : ℕ) : Except Failure ℕ :=
  match bytes[index]? with
  | none => .error .indexOutOfBounds
  | some first =>
    match sequenceLength first with
    | none => .error .typeError
    | some width =>
      if bytes.length < index + width then .error .typeError
      else if (utf8Decode ((bytes.drop index).take width)).isSome then .ok width
      else .error .typeError

/-- The loop of `utf8RuneCount`, for so many rounds at most. -/
def countFrom (bytes : Bytes) : ℕ → ℕ → ℕ → Except Failure ℕ
  | 0, _, count => .ok count
  | rounds + 1, index, count =>
    if index < bytes.length then
      match utf8NextRuneByteLen bytes index with
      | .error failure => .error failure
      | .ok width => countFrom bytes rounds (index + width) (count + 1)
    else .ok count

/-- `utf8RuneCount`. -/
def utf8RuneCount (bytes : Bytes) : Except Failure ℕ :=
  countFrom bytes (bytes.length + 1) 0 0

/-- The loop of `utf8ByteOffsetForRuneIndex`, for so many rounds at most. -/
def offsetFrom (bytes : Bytes) (runeIndex : ℕ) : ℕ → ℕ → ℕ → Except Failure (ℕ × ℕ)
  | 0, index, rune => .ok (index, rune)
  | rounds + 1, index, rune =>
    if index < bytes.length ∧ rune < runeIndex then
      match utf8NextRuneByteLen bytes index with
      | .error failure => .error failure
      | .ok width => offsetFrom bytes runeIndex rounds (index + width) (rune + 1)
    else .ok (index, rune)

/-- `utf8ByteOffsetForRuneIndex`. -/
def utf8ByteOffsetForRuneIndex (bytes : Bytes) (runeIndex : ℕ) : Except Failure ℕ :=
  match offsetFrom bytes runeIndex (bytes.length + 1) 0 0 with
  | .error failure => .error failure
  | .ok (index, rune) => if rune ≠ runeIndex then .error .indexOutOfBounds else .ok index

theorem width_pos {bytes : Bytes} {index width : ℕ}
    (isRune : utf8NextRuneByteLen bytes index = .ok width) :
    0 < width ∧ index + width ≤ bytes.length := by
  unfold utf8NextRuneByteLen at isRune
  split at isRune
  · exact absurd isRune (by simp)
  rename_i first _
  split at isRune
  · exact absurd isRune (by simp)
  rename_i announced sequence
  split at isRune
  · exact absurd isRune (by simp)
  split at isRune
  · have same : announced = width := Except.ok.inj isRune
    subst same
    have positive : 0 < announced := by
      unfold sequenceLength at sequence
      grind
    exact ⟨positive, by omega⟩
  · exact absurd isRune (by simp)

/-- A walk over the runes of a string from a position to its end: where each of them begins. -/
inductive Walk (bytes : Bytes) : ℕ → List ℕ → Prop
  | done : Walk bytes bytes.length []
  | rune {index width : ℕ} {starts : List ℕ} (inside : index < bytes.length)
      (isRune : utf8NextRuneByteLen bytes index = .ok width)
      (rest : Walk bytes (index + width) starts) : Walk bytes index (index :: starts)

/-- A walk that comes to bytes that are no rune. -/
inductive Stumble (bytes : Bytes) : ℕ → Failure → Prop
  | here {index : ℕ} {failure : Failure} (inside : index < bytes.length)
      (noRune : utf8NextRuneByteLen bytes index = .error failure) : Stumble bytes index failure
  | later {index width : ℕ} {failure : Failure} (inside : index < bytes.length)
      (isRune : utf8NextRuneByteLen bytes index = .ok width)
      (rest : Stumble bytes (index + width) failure) : Stumble bytes index failure

theorem walk_or_stumble (bytes : Bytes) {index : ℕ} (inRange : index ≤ bytes.length) :
    (∃ starts, Walk bytes index starts) ∨ ∃ failure, Stumble bytes index failure := by
  induction remaining : bytes.length - index using Nat.strongRecOn generalizing index with
  | ind remaining ih =>
    rcases eq_or_lt_of_le inRange with atEnd | inside
    · exact .inl ⟨[], atEnd ▸ .done⟩
    · cases isRune : utf8NextRuneByteLen bytes index with
      | error failure => exact .inr ⟨failure, .here inside isRune⟩
      | ok width =>
        have forward := width_pos isRune
        rcases ih (bytes.length - (index + width)) (by omega)
          forward.2 rfl with ⟨starts, walk⟩ | ⟨failure, stumble⟩
        · exact .inl ⟨_, .rune inside isRune walk⟩
        · exact .inr ⟨failure, .later inside isRune stumble⟩

variable {bytes : Bytes} {index : ℕ} {starts : List ℕ} {failure : Failure}

section

variable (walk : Walk bytes index starts)
include walk

theorem Walk.length_le : starts.length + index ≤ bytes.length := by
  induction walk with
  | done => simp
  | rune inside isRune rest ih =>
    have forward := width_pos isRune
    rw [List.length_cons]
    omega

theorem Walk.unique {others : List ℕ} (walk' : Walk bytes index others) : starts = others := by
  induction walk generalizing others with
  | done =>
    cases walk' with
    | done => rfl
    | rune inside _ _ => exact absurd inside (lt_irrefl _)
  | rune inside isRune rest ih =>
    cases walk' with
    | done => exact absurd inside (lt_irrefl _)
    | rune _ isRune' rest' =>
      rw [Except.ok.inj (isRune'.symm.trans isRune)] at rest'
      rw [ih rest']

theorem Walk.countFrom {rounds : ℕ} (enough : starts.length < rounds) (count : ℕ) :
    countFrom bytes rounds index count = .ok (count + starts.length) := by
  induction walk generalizing rounds count with
  | done =>
    cases rounds with
    | zero => rfl
    | succ rounds => simp [Strings.countFrom]
  | rune inside isRune rest ih =>
    cases rounds with
    | zero => exact absurd enough (not_lt_zero _)
    | succ rounds =>
      rw [Strings.countFrom, if_pos inside, isRune]
      dsimp only
      rw [ih (lt_of_succ_lt_succ enough), List.length_cons, add_assoc, add_comm 1]

end

theorem Stumble.countFrom (stumble : Stumble bytes index failure) {rounds : ℕ}
    (enough : bytes.length < index + rounds) (count : ℕ) :
    countFrom bytes rounds index count = .error failure := by
  induction stumble generalizing rounds count with
  | here inside noRune =>
    cases rounds with
    | zero => omega
    | succ rounds => rw [Strings.countFrom, if_pos inside, noRune]
  | later inside isRune rest ih =>
    have forward := width_pos isRune
    cases rounds with
    | zero => omega
    | succ rounds =>
      rw [Strings.countFrom, if_pos inside, isRune]
      exact ih (by omega) _

theorem Walk.utf8RuneCount (walk : Walk bytes 0 starts) :
    utf8RuneCount bytes = .ok starts.length := by
  have enough : starts.length < bytes.length + 1 := by
    have length := walk.length_le
    omega
  rw [Strings.utf8RuneCount, walk.countFrom enough, zero_add]

theorem Stumble.utf8RuneCount (stumble : Stumble bytes 0 failure) :
    utf8RuneCount bytes = .error failure :=
  stumble.countFrom (by omega) 0

/-- The loop finds where a rune of the walk begins, or the end behind the last one. -/
theorem Walk.offsetFrom (walk : Walk bytes index starts) {rounds steps position : ℕ}
    (enough : starts.length < rounds) (found : (starts ++ [bytes.length])[steps]? = some position)
    (rune : ℕ) :
    offsetFrom bytes (rune + steps) rounds index rune = .ok (position, rune + steps) := by
  induction walk generalizing rounds steps rune with
  | done =>
    cases rounds with
    | zero => exact absurd enough (not_lt_zero _)
    | succ rounds =>
      cases steps with
      | zero => simpa [Strings.offsetFrom] using found
      | succ steps => exact absurd found (by simp)
  | rune inside isRune rest ih =>
    cases rounds with
    | zero => exact absurd enough (not_lt_zero _)
    | succ rounds =>
      rw [Strings.offsetFrom]
      cases steps with
      | zero =>
        rw [if_neg (by omega)]
        rw [List.cons_append, List.getElem?_cons_zero] at found
        rw [Option.some.inj found, add_zero]
      | succ steps =>
        rw [List.cons_append, List.getElem?_cons_succ] at found
        rw [if_pos ⟨inside, by omega⟩, isRune]
        have later := ih (lt_of_succ_lt_succ enough) found (rune + 1)
        rw [Nat.add_right_comm, add_assoc] at later
        exact later

/-- The loop ends at the end of the string if there are not so many runes. -/
theorem Walk.offsetFrom_of_lt (walk : Walk bytes index starts) {rounds steps : ℕ}
    (enough : starts.length < rounds) (beyond : starts.length < steps) (rune : ℕ) :
    Strings.offsetFrom bytes (rune + steps) rounds index rune =
      .ok (bytes.length, rune + starts.length) := by
  induction walk generalizing rounds steps rune with
  | done =>
    cases rounds with
    | zero => exact absurd enough (not_lt_zero _)
    | succ rounds => simp [Strings.offsetFrom]
  | rune inside isRune rest ih =>
    cases rounds with
    | zero => exact absurd enough (not_lt_zero _)
    | succ rounds =>
      cases steps with
      | zero => exact absurd beyond (not_lt_zero _)
      | succ steps =>
        rw [Strings.offsetFrom, if_pos ⟨inside, by omega⟩, isRune]
        have later := ih (lt_of_succ_lt_succ enough) (lt_of_succ_lt_succ beyond) (rune + 1)
        rw [Nat.add_right_comm, add_assoc, Nat.add_right_comm, add_assoc] at later
        exact later

theorem Walk.utf8ByteOffset (walk : Walk bytes 0 starts) {runeIndex position : ℕ}
    (found : (starts ++ [bytes.length])[runeIndex]? = some position) :
    utf8ByteOffsetForRuneIndex bytes runeIndex = .ok position := by
  have length := walk.length_le
  have reached := walk.offsetFrom (lt_succ_of_le length) found 0
  rw [zero_add] at reached
  simp [utf8ByteOffsetForRuneIndex, reached]

theorem Walk.utf8ByteOffset_of_lt (walk : Walk bytes 0 starts) {runeIndex : ℕ}
    (beyond : starts.length < runeIndex) :
    utf8ByteOffsetForRuneIndex bytes runeIndex = .error .indexOutOfBounds := by
  have length := walk.length_le
  have reached := walk.offsetFrom_of_lt (lt_succ_of_le length) beyond 0
  rw [zero_add, zero_add] at reached
  simp [utf8ByteOffsetForRuneIndex, reached, Nat.ne_of_lt beyond]

end Gengo.Strings
