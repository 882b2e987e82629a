import Gengo.Bytecode.Chunk

/-!
# The table of interned strings

A short string is in the table once, a long one each time it is interned.
-/

namespace Gengo.Bytecode

open List

/-- The size of the table of interned strings. -/
def MaxStrSlices : ℕ := MaxConst * 4

/-- The table of interned strings after `internStr`. -/
def internInto (slices : List Bytes) (s : Bytes) : List Bytes :=
  if s.length ≤ 32 ∧ s ∈ slices then slices else slices ++ [s]

/-- The table has room for these strings, one after another. -/
def HasSlices (slices : List Bytes) : List Bytes → Prop
  | [] => True
  | s :: rest =>
    (s.length ≤ 32 ∧ s ∈ slices ∨ slices.length < MaxStrSlices) ∧
      HasSlices (internInto slices s) rest

instance decidableHasSlices : ∀ slices strings : List Bytes, Decidable (HasSlices slices strings)
  | _, [] => .isTrue trivial
  | slices, s :: rest =>
    haveI := decidableHasSlices (internInto slices s) rest
    inferInstanceAs (Decidable (_ ∧ _))

theorem hasSlices_append {slices first second : List Bytes} :
    HasSlices slices (first ++ second) ↔
      HasSlices slices first ∧ HasSlices (first.foldl internInto slices) second := by
  induction first generalizing slices with
  | nil => exact (and_iff_right trivial).symm
  | cons s rest ih =>
    rw [List.cons_append, HasSlices, HasSlices, ih, List.foldl_cons, and_assoc]

theorem length_le_internInto (slices : List Bytes) (s : Bytes) :
    slices.length ≤ (internInto slices s).length := by
  rw [internInto]
  split
  · exact le_rfl
  · rw [length_append]
    exact Nat.le_add_right _ _

theorem length_le_foldl_internInto (slices strings : List Bytes) :
    slices.length ≤ (strings.foldl internInto slices).length := by
  induction strings generalizing slices with
  | nil => exact le_rfl
  | cons s rest ih => exact (length_le_internInto slices s).trans (ih _)

/-- There is room exactly when the table does not grow too large. -/
theorem hasSlices_iff {slices strings : List Bytes} (fits : slices.length ≤ MaxStrSlices) :
    HasSlices slices strings ↔ (strings.foldl internInto slices).length ≤ MaxStrSlices := by
  induction strings generalizing slices with
  | nil => exact iff_of_true trivial fits
  | cons s rest ih =>
    rw [HasSlices, List.foldl_cons]
    by_cases small : (internInto slices s).length ≤ MaxStrSlices
    · rw [ih small]
      refine and_iff_right ?_
      rw [internInto] at small
      split at small
      case isTrue listed => exact .inl listed
      case isFalse =>
        rw [length_append] at small
        exact .inr small
    · refine iff_of_false ?_ fun le => small ((length_le_foldl_internInto _ rest).trans le)
      rintro ⟨listed | room, -⟩
      · exact small (by rwa [internInto, if_pos listed])
      · refine small ?_
        rw [internInto]
        split
        · exact fits
        · rw [length_append]
          exact room

end Gengo.Bytecode
