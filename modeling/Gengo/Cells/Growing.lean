import Mathlib.Data.List.Basic
import Mathlib.Order.Basic

/-!
# Cells that are added and filled

A walk over a structure adds a block of cells, fills it from left to right, and adds the cells
of the parts behind it. What a part needs lies above the block, so filling the block does not
change it. A partial lookup that is restricted to what lies above an address says so.
-/

namespace Gengo.Cells

universe u v

variable {α : Type u} {β : Type v}

/-- A lookup that answers wherever another one does, and the same. -/
def Within (small large : β → Option α) : Prop :=
  ∀ ⦃key cell⦄, small key = some cell → large key = some cell

theorem Within.refl (lookup : β → Option α) : Within lookup lookup :=
  fun _ _ found => found

theorem Within.trans {small middle large : β → Option α} (first : Within small middle)
    (second : Within middle large) : Within small large :=
  fun _ _ found => second (first found)

/-- What lies above an address. -/
def above (low : ℕ) (cells : List α) (address : ℕ) : Option α :=
  if low ≤ address then cells[address]? else none

section Above

variable {cells grown : List α} {low high address : ℕ} {cell : α}

theorem above_of_le (le : low ≤ address) : above low cells address = cells[address]? := by
  simp [above, le]

theorem above_within_of_le (le : low ≤ high) : Within (above high cells) (above low cells) := by
  intro address cell found
  by_cases reached : high ≤ address
  · rwa [above_of_le (Nat.le_trans le reached), ← above_of_le reached]
  · simp [above, reached] at found

theorem above_within_of_extends (extends_cells : cells <+: grown) :
    Within (above low cells) (above low grown) := by
  intro address cell found
  by_cases reached : low ≤ address
  · rw [above_of_le reached] at found ⊢
    rcases extends_cells with ⟨rest, rfl⟩
    rwa [List.getElem?_append_left (List.getElem?_eq_some_iff.mp found).1]
  · simp [above, reached] at found

theorem above_set (below : address < low) :
    above low (cells.set address cell) = above low cells := by
  funext other
  by_cases reached : low ≤ other
  · have distinct : address ≠ other := by omega
    simp [above, reached, distinct]
  · simp [above, reached]

theorem prefix_set (extends_cells : cells <+: grown) (behind : cells.length ≤ address) :
    cells <+: grown.set address cell := by
  rcases extends_cells with ⟨rest, rfl⟩
  rw [List.set_append_right _ _ behind]
  exact List.prefix_append _ _

end Above

end Gengo.Cells
