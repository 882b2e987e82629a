import Gengo.Heap.Compaction

/-!
# Relocated blocks

A memory of blocks that are read and written as a whole. A compaction moves the blocks in use,
each to a place of its own with what it holds, and leaves anything at all elsewhere. A block that
is asked for gets a place that no block in use has, perhaps after a compaction, or there is none.
-/

namespace Gengo.Blocks

open List Function
open Heap (Slice)

variable {β : Type}

/-- Where a compaction moves the blocks, and what it leaves where no block is. -/
structure Compaction (β : Type) where
  moves : ℕ → ℕ
  left : ℕ → β
  injective : Function.Injective moves

namespace Compaction

/-- The memory after the blocks in use have been moved. -/
def apply (compaction : Compaction β) (used : List ℕ) (memory : ℕ → β) (address : ℕ) : β :=
  match used.find? fun block => compaction.moves block = address with
  | some block => memory block
  | none => compaction.left address

variable (compaction : Compaction β) {used : List ℕ} (memory : ℕ → β) {address : ℕ}

theorem apply_moves (inUse : address ∈ used) :
    compaction.apply used memory (compaction.moves address) = memory address := by
  have found : used.find? (fun block => compaction.moves block = compaction.moves address) =
      some address := by
    cases result : used.find? fun block => compaction.moves block = compaction.moves address with
    | none =>
      have moved := List.find?_eq_none.1 result address inUse
      simp at moved
    | some block =>
      have moved := List.find?_some result
      have same : block = address := compaction.injective (by simpa using moved)
      rw [same]
  rw [apply, found]

theorem apply_elsewhere (free : ∀ block ∈ used, compaction.moves block ≠ address) :
    compaction.apply used memory address = compaction.left address := by
  have found : used.find? (fun block => compaction.moves block = address) = none := by
    apply List.find?_eq_none.2
    intro block inUse
    simpa using free block inUse
  rw [apply, found]

/-- A slice follows its block. One without elements has none. -/
def slice (compaction : Compaction β) (slice : Slice) : Slice :=
  if 0 < slice.len then { slice with ptr := compaction.moves slice.ptr } else slice

@[simp]
theorem len_slice (slice : Slice) : (compaction.slice slice).len = slice.len := by
  unfold Compaction.slice
  split
  · rfl
  · rfl

theorem ptr_slice {slice : Slice} (nonempty : 0 < slice.len) :
    (compaction.slice slice).ptr = compaction.moves slice.ptr := by
  rw [Compaction.slice, if_pos nonempty]

end Compaction

section Elements

variable {α : Type} (content : ℕ → α)

/-- The first so many elements of a block. -/
def elements (len : ℕ) : List α :=
  (List.range len).map content

/-- `@memcpy` to the beginning of a block. -/
def overwrite (written : List α) (index : ℕ) : α :=
  written[index]?.getD (content index)

@[simp]
theorem length_elements (len : ℕ) : (elements content len).length = len := by
  rw [elements, length_map, length_range]

theorem getElem?_elements {len index : ℕ} (inRange : index < len) :
    (elements content len)[index]? = some (content index) := by
  rw [elements, List.getElem?_map, List.getElem?_range inRange, Option.map_some]

theorem elements_update (len index : ℕ) (element : α) :
    elements (Function.update content index element) len =
      (elements content len).set index element := by
  apply ext_getElem?
  intro position
  rw [List.getElem?_set]
  by_cases inRange : position < len
  · rw [getElem?_elements _ inRange, getElem?_elements _ inRange, length_elements]
    by_cases same : index = position
    · rw [if_pos same, if_pos (same ▸ inRange), same, update_self]
    · rw [if_neg same, update_of_ne (Ne.symm same)]
  · have outside : len ≤ position := Nat.le_of_not_lt inRange
    rw [List.getElem?_eq_none (by rwa [length_elements]),
      List.getElem?_eq_none (by rwa [length_elements]), length_elements]
    by_cases same : index = position
    · rw [if_pos same, if_neg (same ▸ inRange)]
    · rw [if_neg same]

theorem elements_update_len (len : ℕ) (element : α) :
    elements (Function.update content len element) (len + 1) =
      elements content len ++ [element] := by
  have before : ∀ index ∈ List.range len, Function.update content len element index =
      content index := by
    intro index inRange
    rw [update_of_ne (Nat.ne_of_lt (mem_range.1 inRange))]
  rw [elements, range_succ, map_append, map_congr_left before, elements, map_singleton, update_self]

theorem elements_overwrite (written : List α) :
    elements (overwrite content written) written.length = written := by
  apply ext_getElem?
  intro position
  by_cases inRange : position < written.length
  · rw [getElem?_elements _ inRange, overwrite, List.getElem?_eq_getElem inRange, Option.getD_some]
  · have outside : written.length ≤ position := Nat.le_of_not_lt inRange
    rw [List.getElem?_eq_none outside, List.getElem?_eq_none (by rwa [length_elements])]

end Elements

/-- How the place of a new block is chosen. -/
structure Placement where
  place : List ℕ → ℕ
  fresh : ∀ used, place used ∉ used

/-- The place behind all blocks in use. -/
def Placement.behind : Placement where
  place used := used.sum + 1
  fresh used inUse := by
    have le := List.single_le_sum (fun _ _ => Nat.zero_le _) _ inUse
    exact Nat.not_succ_le_self _ le

/-- What comes of asking for a block. -/
inductive Allocation (β : Type)
  | refused
  | served (compaction : Option (Compaction β)) (placement : Placement)

/-- No blocks are moved. -/
def Allocation.calm : Allocation β → Prop
  | .refused => True
  | .served compaction _ => compaction = none

end Gengo.Blocks
