import Mathlib.Data.Nat.Notation
import Mathlib.Tactic.Common

/-!
# Filling a block from the front

A block is taken with the length that its content will have, and the elements are then written one
after the other. A read or a write outside of a slice fails. `Fills` says what a loop makes of the
rest of a block, and has one rule for each thing that such a loop does.
-/

namespace Gengo.Blocks

open List

variable {α β ε ρ : Type}

/-- Blocks have the length that is asked for, and anything in them. A request may be refused, for a
reason. -/
structure Supply (α ρ : Type) where
  take : ℕ → Except ρ (List α)
  length_take : ∀ {len block}, take len = .ok block → block.length = len

/-- Every block is served, with the same element everywhere. -/
def Supply.constant (element : α) : Supply α ρ where
  take len := .ok (replicate len element)
  length_take := by
    rintro len _ ⟨⟩
    exact length_replicate

/-- What is not there fails. -/
def orFail (failure : ε) : Option β → Except ε β
  | some result => .ok result
  | none => .error failure

/-- `slice[index]` -/
def load (outside : ε) (slice : List α) (index : ℕ) : Except ε α :=
  orFail outside slice[index]?

/-- `slice[index] = element` -/
def store (outside : ε) (slice : List α) (index : ℕ) (element : α) : Except ε (List α) :=
  if index < slice.length then .ok (slice.set index element) else .error outside

/-- Elements are stored one after the other, from an index on. -/
def storeAll (outside : ε) (slice : List α) (index : ℕ) : List α → Except ε (List α)
  | [] => .ok slice
  | element :: rest => do
    storeAll outside (← store outside slice index element) (index + 1) rest

/-- A block is taken, and filled from its beginning. -/
def Supply.fill (supply : Supply α ρ) (refused : ρ → ε) (len : ℕ)
    (loop : List α → Except ε (List α)) : Except ε (List α) := do
  loop (← (supply.take len).mapError refused)

/-- The next places of a block that has been filled up to there. -/
theorem storeAll_append {outside : ε} {filled left elements : List α}
    (fits : elements.length ≤ left.length) :
    storeAll outside (filled ++ left) filled.length elements =
      .ok (filled ++ elements ++ left.drop elements.length) := by
  induction elements generalizing filled left with
  | nil => simp [storeAll]
  | cons element elements ih =>
    rcases left with _ | ⟨old, left⟩
    · cases fits
    · have next := @ih (filled ++ [element]) left (Nat.le_of_succ_le_succ fits)
      rw [length_append, length_singleton] at next
      simpa [storeAll, store, bind, Except.bind] using next

/-- Behind what is filled, a loop fills so many places with what is written, or fails. -/
def Fills (failure : ε) (filled : List α) (len : ℕ) (loop : List α → Except ε (List α))
    (written : Option (List α)) : Prop :=
  ∀ left : List α, left.length = len →
    loop (filled ++ left) = orFail failure (written.map (filled ++ ·))

namespace Fills

variable {failure : ε} {filled : List α} {len : ℕ} {loop : List α → Except ε (List α)}
  {written : Option (List α)}

theorem done : Fills failure filled 0 (fun block => .ok block) (some []) := by
  intro left none
  rw [length_eq_zero_iff.mp none]
  rfl

theorem storeAll {outside : ε} (elements : List α) {index count : ℕ}
    (position : index = filled.length) (size : elements.length = count)
    (rest : Fills failure (filled ++ elements) len loop written) :
    Fills failure filled (count + len)
      (fun block => Blocks.storeAll outside block index elements >>= loop)
      (written.map (elements ++ ·)) := by
  intro left enough
  subst size
  dsimp only
  rw [position, storeAll_append (enough ▸ Nat.le_add_right _ _)]
  refine (rest _ (by rw [length_drop, enough, Nat.add_sub_cancel_left])).trans ?_
  cases written with
  | none => rfl
  | some elements' => exact congrArg Except.ok (append_assoc filled elements elements')

/-- The last elements of a block. -/
theorem stored {outside : ε} (elements : List α) {index count : ℕ}
    (position : index = filled.length) (size : elements.length = count) :
    Fills failure filled count (Blocks.storeAll outside · index elements) (some elements) := by
  intro left enough
  subst size
  dsimp only
  rw [position, storeAll_append (Nat.le_of_eq enough.symm),
    drop_of_length_le (Nat.le_of_eq enough), append_nil]
  rfl

/-- What is computed before a loop goes on. -/
theorem check (value : Option β) {next : β → List α → Except ε (List α)}
    {afterwards : β → Option (List α)}
    (rest : ∀ result, Fills failure filled len (next result) (afterwards result)) :
    Fills failure filled len (fun block => orFail failure value >>= fun result => next result block)
      (value >>= afterwards) := by
  intro left enough
  cases value with
  | none => rfl
  | some result => exact rest result left enough

end Fills

section Fill

variable {supply : Supply α ρ} {refused : ρ → ε} {len : ℕ} {loop : List α → Except ε (List α)}

end Fill

end Gengo.Blocks
