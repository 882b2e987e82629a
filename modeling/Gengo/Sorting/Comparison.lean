import Gengo.Json.Parse
import Gengo.Orders.Insertion

/-!
# Comparing values

The operator `<` of the language compares numbers, and raises an error for everything else. The
sorting functions have a comparison of their own: it knows pairs of integers, of floats, of
booleans and of strings, and all other pairs are ordered by the tags of their representation only.
-/

namespace Gengo.Sorting

open Json (isFinite)
open Maps (Value floatFromInt isNaN stringBytes?)
open Orders Option

/-- The place of a float among the floats: the zeros have the same one. -/
def floatPlace (bits : UInt64) : ℤ :=
  let magnitude : ℤ := (bits &&& 0x7FFFFFFFFFFFFFFF).toNat
  if bits < 0x8000000000000000 then magnitude else -magnitude

/-- `<` of floats. -/
def floatLess (first second : UInt64) : Bool :=
  !isNaN first && !isNaN second && floatPlace first < floatPlace second

/-- `unwrapNamed`. -/
def unwrapNamed : Value → Value
  | .namedValue _ _ value => unwrapNamed value
  | value => value

/-- `valueAsNumber`. -/
def valueAsNumber (value : Value) : Option UInt64 :=
  match unwrapNamed value with
  | .int value => some (floatFromInt value)
  | .float bits => some bits
  | .rune value => some (floatFromInt (Int64.ofNat value.toNat))
  | _ => none

/-- What is known of types at run time: which named types may be mixed, which are anonymous arrays
or maps, and what the `__compare__` of their type gives for two structs, where there is one. -/
structure Language where
  related : UInt64 → UInt64 → Bool
  isAnonymousCollection : UInt64 → Bool
  compareMethod : UInt64 → UInt64 → Option Int64

section

variable (language : Language)

/-- `checkNamedValueCompatibility`. -/
def namedValuesCompatible : Value → Value → Bool
  | .namedValue _ typ _, .namedValue _ typ' _ => typ == typ' || language.related typ typ'
  | .namedValue _ typ _, _ => language.isAnonymousCollection typ
  | _, .namedValue _ typ _ => language.isAnonymousCollection typ
  | _, _ => true

/-- `compareNumericPair`. -/
def compareNumericPair (first second : Value) : Option (UInt64 × UInt64) :=
  match first, second with
  | .int value, .int value' => some (floatFromInt value, floatFromInt value')
  | .float bits, .float bits' =>
    if isFinite bits && isFinite bits' then some (bits, bits') else none
  | _, _ =>
    if namedValuesCompatible language first second then do
      let number ← valueAsNumber first
      let number' ← valueAsNumber second
      if isFinite number && isFinite number' then some (number, number') else none
    else none

/-- The instruction `lt`, unless it raises an error. -/
def lessThan : Value → Value → Option Bool
  | .int value, .int value' => some (value < value')
  | .bigint _ value, .bigint _ value' => some (value < value')
  | .bigint _ value, .int value' => some (value < value'.toInt)
  | .int value, .bigint _ value' => some (value.toInt < value')
  | .bigint _ _, _ => none
  | _, .bigint _ _ => none
  | .otherObject address, .otherObject address' =>
    (language.compareMethod address address').map (· < 0)
  | first, second => (compareNumericPair language first second).map fun pair =>
    floatLess pair.1 pair.2

/-- The operator holds. -/
def Less (first second : Value) : Prop :=
  lessThan language first second = some true

instance (first second : Value) : Decidable (Less language first second) :=
  inferInstanceAs (Decidable (_ = _))

/-- Two values can be compared, whichever is on the left. -/
def Comparable (first second : Value) : Prop :=
  (lessThan language first second).isSome ∧ (lessThan language second first).isSome

instance (first second : Value) : Decidable (Comparable language first second) :=
  inferInstanceAs (Decidable (_ ∧ _))

end

/-- `@intFromEnum` of the tag. -/
def tag : Value → ℕ
  | .int _ => 0
  | .float _ => 1
  | .decimal _ => 2
  | .rune _ => 3
  | .boolean _ => 4
  | .string _ => 5
  | .errorValue _ => 6
  | .null => 8
  | .inlineVariant _ => 9
  | .actorRef _ _ => 10
  | _ => 7

/-- Which comparison `valueCompare` is for. -/
inductive Op
  | lt
  | gt
  deriving DecidableEq, Repr

def Op.pick : Op → Bool → Bool → Bool
  | .lt, less, _ => less
  | .gt, _, greater => greater

def valueCompare (op : Op) (first second : Value) : Bool :=
  match first, second with
  | .int value, .int value' => op.pick (value < value') (value' < value)
  | .float bits, .float bits' => op.pick (floatLess bits bits') (floatLess bits' bits)
  | .boolean value, .boolean value' => op.pick (!value && value') (value && !value')
  | _, _ =>
    match stringBytes? first, stringBytes? second with
    | some bytes, some others => op.pick (bytes < others) (others < bytes)
    | _, _ => op.pick (tag first < tag second) (tag second < tag first)

def valueLessThan (first second : Value) : Bool :=
  valueCompare .lt first second

def valueGreaterThan (first second : Value) : Bool :=
  valueCompare .gt first second

/-- Two integers, or two floats. -/
def sameNumbers : Value → Value → Bool
  | .int _, .int _ => true
  | .float _, .float _ => true
  | _, _ => false

/-- A value that the operator may compare: no string and no boolean, and a number if it is a
float. -/
structure Orderable (value : Value) : Prop where
  noString : stringBytes? value = none
  noBoolean : ∀ truth, value ≠ .boolean truth
  number : ∀ bits, value = .float bits → isNaN bits = false

/-- The place of a value in the order that the sorting functions know. -/
def place : Value → ℤ
  | .int value => value.toInt
  | .float bits => floatPlace bits
  | _ => 0

def rank (value : Value) : ℕ ×ₗ ℤ :=
  toLex (tag value, place value)

section

variable {language : Language} {first second : Value}

theorem rank_lt_iff :
    rank first < rank second ↔ tag first < tag second ∨
      (tag first = tag second ∧ place first < place second) :=
  Prod.Lex.toLex_lt_toLex

theorem tag_eq_zero_iff : tag first = 0 ↔ ∃ value, first = .int value := by
  cases first <;> simp [tag]

theorem tag_eq_one_iff : tag first = 1 ↔ ∃ bits, first = .float bits := by
  cases first <;> simp [tag]

/-- Values of different kinds, and values of a kind that the sorting functions do not know, are
ordered by their tags. -/
theorem rank_lt_iff_of_not (differ : sameNumbers first second = false) :
    rank first < rank second ↔ tag first < tag second := by
  rw [rank_lt_iff]
  constructor
  · rintro (before | ⟨same, before⟩)
    · exact before
    · exfalso
      cases first with
      | int value =>
        rcases tag_eq_zero_iff.1 same.symm with ⟨value', rfl⟩
        exact absurd differ (by simp [sameNumbers])
      | float bits =>
        rcases tag_eq_one_iff.1 same.symm with ⟨bits', rfl⟩
        exact absurd differ (by simp [sameNumbers])
      | _ =>
        cases second with
        | int _ | float _ => exact absurd same (by simp [tag])
        | _ => exact absurd before (by simp [place])
  · exact .inl

theorem sameNumbers_comm : sameNumbers first second = sameNumbers second first := by
  cases first <;> cases second <;> rfl

theorem valueCompare_of_not (differ : sameNumbers first second = false)
    (orderable : Orderable first) (op : Op) :
    valueCompare op first second = op.pick (tag first < tag second) (tag second < tag first) := by
  unfold valueCompare
  split
  · exact absurd differ (by simp [sameNumbers])
  · exact absurd differ (by simp [sameNumbers])
  · exact absurd rfl (orderable.noBoolean _)
  · rw [orderable.noString]

theorem floatLess_iff {bits bits' : UInt64} (number : isNaN bits = false)
    (number' : isNaN bits' = false) :
    floatLess bits bits' ↔ floatPlace bits < floatPlace bits' := by
  simp [floatLess, number, number']

theorem rank_int {value value' : Int64} :
    rank (.int value) < rank (.int value') ↔ value < value' := by
  rw [rank_lt_iff, Int64.lt_iff_toInt_lt]
  simp [tag, place]

theorem rank_float {bits bits' : UInt64} :
    rank (.float bits) < rank (.float bits') ↔ floatPlace bits < floatPlace bits' := by
  rw [rank_lt_iff]
  simp [tag, place]

section

variable (orderable : Orderable first) (orderable' : Orderable second)
include orderable orderable'

theorem valueCompare_eq (op : Op) :
    valueCompare op first second =
      op.pick (rank first < rank second) (rank second < rank first) := by
  cases differ : sameNumbers first second with
  | false =>
    have differ' : sameNumbers second first = false := sameNumbers_comm ▸ differ
    rw [valueCompare_of_not differ orderable]
    simp only [rank_lt_iff_of_not differ, rank_lt_iff_of_not differ']
  | true =>
    unfold sameNumbers at differ
    split at differ
    · simp only [valueCompare, rank_int]
    · have number := orderable.number _ rfl
      have number' := orderable'.number _ rfl
      simp only [valueCompare, rank_float, ← floatLess_iff number number',
        ← floatLess_iff number' number, Bool.decide_eq_true]
    · exact absurd differ (by simp)

theorem valueLessThan_iff : valueLessThan first second ↔ rank first < rank second := by
  rw [valueLessThan, valueCompare_eq orderable orderable']
  exact decide_eq_true_iff

theorem valueGreaterThan_iff : valueGreaterThan first second ↔ rank second < rank first := by
  rw [valueGreaterThan, valueCompare_eq orderable orderable']
  exact decide_eq_true_iff

end

theorem isNaN_of_isFinite {bits : UInt64} (finite : isFinite bits) : isNaN bits = false := by
  simp only [isFinite, decide_eq_true_eq] at finite
  simp only [isNaN, decide_eq_false_iff_not]
  exact fun infinite => absurd (UInt64.lt_trans infinite finite) (UInt64.lt_irrefl _)

theorem orderable_of_valueAsNumber {value : Value} {bits : UInt64}
    (number : valueAsNumber value = some bits) (finite : isFinite bits) : Orderable value := by
  constructor
  · cases value with
    | string bytes => exact absurd number (by simp [valueAsNumber, unwrapNamed])
    | dynString address bytes => exact absurd number (by simp [valueAsNumber, unwrapNamed])
    | stringView address bytes => exact absurd number (by simp [valueAsNumber, unwrapNamed])
    | _ => rfl
  · rintro truth rfl
    exact absurd number (by simp [valueAsNumber, unwrapNamed])
  · rintro bits' rfl
    have same : bits' = bits := some.inj number
    exact same ▸ isNaN_of_isFinite finite

theorem orderable_of_compareNumericPair {pair : UInt64 × UInt64}
    (compares : compareNumericPair language first second = some pair) :
    Orderable first ∧ Orderable second := by
  unfold compareNumericPair at compares
  split at compares
  · exact ⟨⟨rfl, by simp, by simp⟩, ⟨rfl, by simp, by simp⟩⟩
  · split at compares
    · rename_i finite
      rw [Bool.and_eq_true] at finite
      exact ⟨orderable_of_valueAsNumber rfl finite.1, orderable_of_valueAsNumber rfl finite.2⟩
    · exact absurd compares (by simp)
  · split at compares
    · rcases bind_eq_some_iff.1 compares with ⟨number, isNumber, rest⟩
      rcases bind_eq_some_iff.1 rest with ⟨number', isNumber', finite⟩
      split at finite
      · rename_i both
        rw [Bool.and_eq_true] at both
        exact ⟨orderable_of_valueAsNumber isNumber both.1,
          orderable_of_valueAsNumber isNumber' both.2⟩
      · exact absurd finite (by simp)
    · exact absurd compares (by simp)

theorem orderable_of_lessThan (compares : (lessThan language first second).isSome) :
    Orderable first ∧ Orderable second := by
  unfold lessThan at compares
  split at compares
  · exact ⟨⟨rfl, by simp, by simp⟩, ⟨rfl, by simp, by simp⟩⟩
  · exact ⟨⟨rfl, by simp, by simp⟩, ⟨rfl, by simp, by simp⟩⟩
  · exact ⟨⟨rfl, by simp, by simp⟩, ⟨rfl, by simp, by simp⟩⟩
  · exact ⟨⟨rfl, by simp, by simp⟩, ⟨rfl, by simp, by simp⟩⟩
  · exact absurd compares (by simp)
  · exact absurd compares (by simp)
  · exact ⟨⟨rfl, by simp, by simp⟩, ⟨rfl, by simp, by simp⟩⟩
  · rw [isSome_map] at compares
    rcases isSome_iff_exists.1 compares with ⟨pair, isPair⟩
    exact orderable_of_compareNumericPair isPair

/-- On two integers and on two floats, the operator is the order of the sorting functions. -/
theorem less_iff_of_sameNumbers (same : sameNumbers first second)
    (compares : (lessThan language first second).isSome) :
    Less language first second ↔ rank first < rank second := by
  have orderable := orderable_of_lessThan compares
  unfold sameNumbers at same
  split at same
  · simp [Less, lessThan, rank_int]
  · rename_i bits bits'
    have number := orderable.1.number bits rfl
    have number' := orderable.2.number bits' rfl
    rw [rank_float, ← floatLess_iff number number']
    simp only [lessThan, isSome_map, compareNumericPair] at compares
    split at compares
    · rename_i finite
      simp only [Less, lessThan, compareNumericPair, if_pos finite, map_some, some.injEq]
    · exact absurd compares (by simp)
  · exact absurd same (by simp)

end

section

variable {language : Language} {items : List Value}

theorem pairwise_of_length_le_one {relation : Value → Value → Prop}
    (single : items.length ≤ 1) : items.Pairwise relation := by
  rcases items with _ | ⟨item, _ | ⟨other, rest⟩⟩
  · exact .nil
  · exact List.pairwise_singleton _ _
  · simp at single

/-- If there is another item to compare it with, an item can be ordered. -/
theorem orderable_of_pairwise (comparable : items.Pairwise (Comparable language))
    (several : 1 < items.length) : ∀ value ∈ items, Orderable value := by
  intro value isItem
  rcases List.getElem_of_mem isItem with ⟨position, inRange, rfl⟩
  rw [List.pairwise_iff_getElem] at comparable
  rcases Nat.eq_zero_or_pos position with rfl | behind
  · exact (orderable_of_lessThan (comparable 0 1 inRange several Nat.one_pos).1).1
  · exact (orderable_of_lessThan (comparable 0 position (by omega) inRange behind).1).2

/-- No two items are less than each other, and of those that are not both integers or both floats
the later one is less exactly if its tag comes first. -/
def TagsAscend (language : Language) (items : List Value) : Prop :=
  items.Pairwise fun x y => ¬(Less language x y ∧ Less language y x) ∧
    (sameNumbers x y = false → (Less language y x ↔ tag y < tag x))

/-- No two items are less than each other, and of those that are not both integers or both floats
the earlier one is less exactly if its tag comes first. -/
def TagsDescend (language : Language) (items : List Value) : Prop :=
  items.Pairwise fun x y => ¬(Less language x y ∧ Less language y x) ∧
    (sameNumbers x y = false → (Less language x y ↔ tag x < tag y))

/-- Where an item is moved past another one that it is less than, if the tags are as the
operator. -/
theorem rank_agrees_iff {x y : Value} (comparable : Comparable language x y) :
    (rank x < rank y ↔ Less language x y) ↔
      (sameNumbers x y = false → (Less language x y ↔ tag x < tag y)) := by
  cases differ : sameNumbers x y with
  | false =>
    rw [rank_lt_iff_of_not differ]
    exact ⟨fun agree _ => agree.symm, fun agree => (agree rfl).symm⟩
  | true =>
    constructor
    · exact fun _ same => absurd same (by simp)
    · exact fun _ => (less_iff_of_sameNumbers differ comparable.1).symm

section

variable (comparable : items.Pairwise (Comparable language))
include comparable

/-- What is the same of two items that can be compared is the same of all pairs of items. -/
theorem pairwise_congr {relation relation' : Value → Value → Prop}
    (agree : ∀ x ∈ items, ∀ y ∈ items, Comparable language x y →
      (relation x y ↔ relation' x y)) : items.Pairwise relation ↔ items.Pairwise relation' := by
  constructor
  · intro pairwise
    refine (pairwise.and comparable).imp_of_mem ?_
    intro x y isX isY both
    exact (agree x isX y isY both.2).1 both.1
  · intro pairwise
    refine (pairwise.and comparable).imp_of_mem ?_
    intro x y isX isY both
    exact (agree x isX y isY both.2).2 both.1

/-- Insertion by the order of a key, against the operator. -/
theorem stablyOrdered_iff_pairwise {β : Type} [LinearOrder β] {shift : Value → Value → Bool}
    {key : Value → β} {before relation : Value → Value → Prop}
    (shift_iff : ∀ u v, Orderable u → Orderable v → (shift u v ↔ key v < key u))
    (agree : ∀ x y, Orderable x → Orderable y → Comparable language x y →
      (¬(before x y ∧ before y x) ∧ (shift x y ↔ before y x) ↔ relation x y)) :
    StablyOrdered before items (insertAll shift items) ↔ items.Pairwise relation := by
  rcases Nat.lt_or_ge 1 items.length with several | single
  · have orderable := orderable_of_pairwise comparable several
    have ranked : ∀ u ∈ items, ∀ v ∈ items, (shift u v ↔ key v < key u) :=
      fun u isU v isV => shift_iff u v (orderable u isU) (orderable v isV)
    have oneWay : ∀ u ∈ items, ∀ v ∈ items, shift u v → ¬shift v u := by
      intro u isU v isV
      rw [ranked u isU v isV, ranked v isV u isU]
      exact lt_asymm
    rw [stablyOrdered_iff (.of_rank key ranked) oneWay]
    exact pairwise_congr comparable fun x isX y isY =>
      agree x y (orderable x isX) (orderable y isY)
  · refine ⟨fun _ => ?_, fun _ => stablyOrdered_of_length_le_one single⟩
    exact pairwise_of_length_le_one single

theorem stablyOrdered_greater_iff :
    StablyOrdered (Less language) items (insertAll valueGreaterThan items) ↔
      TagsAscend language items := by
  apply stablyOrdered_iff_pairwise comparable fun _ _ => valueGreaterThan_iff
  intro x y isX isY both
  rw [valueGreaterThan_iff isX isY, rank_agrees_iff both.symm, sameNumbers_comm]

theorem stablyOrdered_less_iff :
    StablyOrdered (fun x y => Less language y x) items (insertAll valueLessThan items) ↔
      TagsDescend language items := by
  have ranked : ∀ u v, Orderable u → Orderable v →
      (valueLessThan u v ↔ OrderDual.toDual (rank v) < OrderDual.toDual (rank u)) :=
    fun _ _ isU isV => (valueLessThan_iff isU isV).trans OrderDual.toDual_lt_toDual.symm
  apply stablyOrdered_iff_pairwise comparable ranked
  intro x y isX isY both
  rw [valueLessThan_iff isX isY, rank_agrees_iff both]
  exact and_congr (not_congr and_comm) .rfl

end

end

end Gengo.Sorting
