import Mathlib.Data.List.Infix

/-!
# Finding a separator

A list is looked for in another one from the left.
-/

namespace Gengo.Cuts

open List Nat

variable {α : Type} [DecidableEq α]

/-- Where a list occurs first in another. -/
def find (sep : List α) : List α → Option ℕ
  | [] => if sep = [] then some 0 else none
  | x :: s => if sep.isPrefixOf (x :: s) then some 0 else (find sep s).map (· + 1)

variable {sep s : List α} {pos : ℕ}

theorem find_eq_some_iff :
    find sep s = some pos ↔
      pos ≤ s.length ∧ sep <+: s.drop pos ∧ ∀ before < pos, ¬sep <+: s.drop before := by
  induction s generalizing pos with
  | nil =>
    rw [find]
    by_cases empty : sep = []
    · simp only [empty, if_true, Option.some.injEq, length_nil, le_zero, drop_nil,
        nil_prefix, not_true_eq_false, imp_false, not_lt, true_and]
      constructor
      · rintro rfl
        exact ⟨rfl, fun _ => zero_le _⟩
      · rintro ⟨rfl, _⟩
        rfl
    · simp [empty]
  | cons x s ih =>
    rw [find]
    by_cases here : sep.isPrefixOf (x :: s) = true
    · rw [if_pos here]
      have isPrefix := isPrefixOf_iff_prefix.mp here
      constructor
      · rintro ⟨⟩
        exact ⟨zero_le _, isPrefix, fun before none => absurd none (not_lt_zero _)⟩
      · rintro ⟨_, _, first⟩
        cases pos with
        | zero => rfl
        | succ pos => exact absurd isPrefix (first 0 (succ_pos _))
    · rw [if_neg here]
      have notPrefix : ¬sep <+: x :: s := fun isPrefix =>
        here ( isPrefixOf_iff_prefix.mpr isPrefix)
      cases pos with
      | zero =>
        constructor
        · intro found
          simp at found
        · rintro ⟨_, isPrefix, _⟩
          exact absurd isPrefix notPrefix
      | succ pos =>
        simp only [Option.map_eq_some_iff, Nat.add_right_cancel_iff, exists_eq_right,
          ih, length_cons, drop_succ_cons, Nat.add_le_add_iff_right]
        refine and_congr_right fun _ => and_congr_right fun _ => ?_
        constructor
        · intro first before earlier
          cases before with
          | zero => exact notPrefix
          | succ before => exact first before (lt_of_succ_lt_succ earlier)
        · intro first before earlier
          exact first (before + 1) (succ_lt_succ earlier)

end Gengo.Cuts
