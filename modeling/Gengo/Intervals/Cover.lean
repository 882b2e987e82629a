import Mathlib.Algebra.BigOperators.Ring.Finset
import Mathlib.Algebra.Order.BigOperators.Group.Finset
import Mathlib.Order.Interval.Finset.Nat

/-!
# Counting the ranges that cover a point

A collection of half-open ranges of natural numbers is described by the number
of its members that cover each point. Cutting a range in two, or moving it from
one list to another, leaves these numbers as they are, so that conservation and
disjointness of a partition are preserved together.
-/

namespace Gengo.Intervals

open List Nat
open scoped BigOperators

/-- The points from `offset` on, `size` of them. -/
structure Block where
  offset : ℕ
  size : ℕ
  deriving DecidableEq, Repr

namespace Block

/-- The first point behind the block. -/
def stop (block : Block) : ℕ :=
  block.offset + block.size

@[simp]
theorem stop_mk (offset size : ℕ) : (⟨offset, size⟩ : Block).stop = offset + size :=
  rfl

instance : Membership ℕ Block where
  mem block point := block.offset ≤ point ∧ point < block.stop

theorem mem_def {block : Block} {point : ℕ} :
    point ∈ block ↔ block.offset ≤ point ∧ point < block.stop :=
  .rfl

instance (point : ℕ) (block : Block) : Decidable (point ∈ block) :=
  inferInstanceAs (Decidable (_ ∧ _))

/-- No point is in both. -/
def Disjoint (left right : Block) : Prop :=
  ∀ point, point ∈ left → point ∉ right

end Block

/-- One for the points from `lower` on and before `upper`. -/
def between (lower upper point : ℕ) : ℕ :=
  if lower ≤ point ∧ point < upper then 1 else 0

variable {lower upper : ℕ}

theorem between_split {middle : ℕ} (left : lower ≤ middle) (right : middle ≤ upper) (point : ℕ) :
    between lower upper point = between lower middle point + between middle upper point := by
  unfold between
  split_ifs <;> omega

theorem between_self (bound point : ℕ) : between bound bound point = 0 := by
  unfold between
  split_ifs <;> omega

theorem between_pos {point : ℕ} :
    0 < between lower upper point ↔ lower ≤ point ∧ point < upper := by
  unfold between
  split_ifs <;> simp_all

theorem between_le_one (lower upper point : ℕ) : between lower upper point ≤ 1 := by
  unfold between
  split_ifs <;> omega

variable {bound : ℕ}

theorem sum_between (inside : upper ≤ bound) :
    ∑ point ∈ Finset.range bound, between lower upper point = upper - lower := by
  unfold between
  rw [← Finset.card_filter]
  have same : (Finset.range bound).filter (fun point => lower ≤ point ∧ point < upper) =
      Finset.Ico lower upper := by
    ext point
    simp only [Finset.mem_filter, Finset.mem_range, Finset.mem_Ico]
    omega
  rw [same, card_Ico]

/-- How many of the blocks cover a point. -/
def cover (blocks : List Block) (point : ℕ) : ℕ :=
  (blocks.map fun block => between block.offset block.stop point).sum

@[simp]
theorem cover_nil (point : ℕ) : cover [] point = 0 :=
  rfl

@[simp]
theorem cover_cons (block : Block) (blocks : List Block) (point : ℕ) :
    cover (block :: blocks) point = between block.offset block.stop point + cover blocks point :=
  rfl

theorem cover_cons_mk (offset size : ℕ) (blocks : List Block) (point : ℕ) :
    cover (⟨offset, size⟩ :: blocks) point =
      between offset (offset + size) point + cover blocks point :=
  rfl

@[simp]
theorem cover_append (left right : List Block) (point : ℕ) :
    cover (left ++ right) point = cover left point + cover right point := by
  simp [cover]

theorem cover_perm {left right : List Block} (perm : left.Perm right) (point : ℕ) :
    cover left point = cover right point :=
  (perm.map _).sum_eq

theorem cover_flatMap {ι : Type*} (indices : List ι) (blocks : ι → List Block) (point : ℕ) :
    cover (indices.flatMap blocks) point =
      (indices.map fun index => cover (blocks index) point).sum := by
  induction indices with
  | nil => rfl
  | cons index rest ih =>
    rw [flatMap_cons, cover_append, ih, map_cons, sum_cons]

variable {blocks : List Block}

theorem cover_erase {block : Block} (present : block ∈ blocks) (point : ℕ) :
    between block.offset block.stop point + cover (blocks.erase block) point =
      cover blocks point := by
  rw [← cover_cons, cover_perm (perm_cons_erase present)]

theorem cover_pos {point : ℕ} : 0 < cover blocks point ↔ ∃ block ∈ blocks, point ∈ block := by
  induction blocks with
  | nil => simp
  | cons head rest ih =>
    rw [cover_cons, add_pos_iff_pos_or_pos, ih, between_pos]
    simp only [mem_cons, exists_eq_or_imp, Block.mem_def]

theorem pairwise_disjoint_of_cover (once : ∀ point, cover blocks point ≤ 1) :
    blocks.Pairwise Block.Disjoint := by
  induction blocks with
  | nil => exact .nil
  | cons head rest ih =>
    refine .cons (fun other present point inHead inOther => ?_)
      (ih fun point => le_trans (le_add_left _ _) (once point))
    have twice := once point
    have headPos := between_pos.mpr (Block.mem_def.mp inHead)
    have restPos := cover_pos.mpr ⟨other, present, inOther⟩
    rw [cover_cons] at twice
    omega

theorem cover_le_one (disjoint : blocks.Pairwise Block.Disjoint) (point : ℕ) :
    cover blocks point ≤ 1 := by
  induction blocks with
  | nil => exact zero_le 1
  | cons head rest ih =>
    rw [pairwise_cons] at disjoint
    have restOnce := ih disjoint.2
    have headOnce := between_le_one head.offset head.stop point
    rw [cover_cons]
    by_cases inHead : point ∈ head
    · have restNone : ¬0 < cover rest point := by
        rw [cover_pos]
        rintro ⟨other, present, inOther⟩
        exact disjoint.1 other present point inHead inOther
      omega
    · have headNone : ¬0 < between head.offset head.stop point := by
        rw [between_pos]
        exact inHead
      omega

/-- The sum of the sizes. -/
def totalSize (blocks : List Block) : ℕ :=
  (blocks.map Block.size).sum

@[simp]
theorem totalSize_nil : totalSize [] = 0 :=
  rfl

@[simp]
theorem totalSize_cons (block : Block) (blocks : List Block) :
    totalSize (block :: blocks) = block.size + totalSize blocks :=
  rfl

theorem totalSize_perm {left right : List Block} (perm : left.Perm right) :
    totalSize left = totalSize right :=
  (perm.map _).sum_eq

theorem sum_cover (inside : ∀ block ∈ blocks, block.stop ≤ bound) :
    ∑ point ∈ Finset.range bound, cover blocks point = totalSize blocks := by
  induction blocks with
  | nil => simp
  | cons head rest ih =>
    simp only [cover_cons, Finset.sum_add_distrib]
    rw [ih fun block present => inside block (.tail _ present),
      sum_between (inside head (.head _)), totalSize_cons, Block.stop]
    omega

/-- Blocks that cover no point twice have no more points than the space they lie in. -/
theorem totalSize_le (inside : ∀ block ∈ blocks, block.stop ≤ bound)
    (once : ∀ point, cover blocks point ≤ 1) : totalSize blocks ≤ bound := by
  rw [← sum_cover inside]
  calc ∑ point ∈ Finset.range bound, cover blocks point
      ≤ ∑ _ ∈ Finset.range bound, 1 := Finset.sum_le_sum fun point _ => once point
    _ = bound := by simp

/-- The blocks one behind the other, from `start` on. -/
def pack (start : ℕ) : List Block → List Block
  | [] => []
  | block :: rest => ⟨start, block.size⟩ :: pack (start + block.size) rest

theorem cover_pack (start : ℕ) (blocks : List Block) (point : ℕ) :
    cover (pack start blocks) point = between start (start + totalSize blocks) point := by
  induction blocks generalizing start with
  | nil => exact (between_self start point).symm
  | cons head rest ih =>
    rw [pack, cover_cons, ih, totalSize_cons, Block.stop_mk, ← add_assoc,
      ← between_split (le_add_right _ _) (le_add_right _ _)]

end Gengo.Intervals
