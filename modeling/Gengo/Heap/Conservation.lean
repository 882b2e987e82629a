import Gengo.Heap.Allocator

/-!
# The account of the heap's bytes

How often each byte is covered by the permanent region, the live blocks, the free
lists and the space not handed out yet. The operations of the heap, other than
compaction and a reset, leave this number as it is for every byte.
-/

namespace Gengo.Heap

open Intervals List Function Nat
open scoped BigOperators

theorem sum_range_replace {n index : ℕ} (inside : index < n) {f g : ℕ → ℕ}
    (same : ∀ other, other ≠ index → f other = g other) :
    ((List.range n).map f).sum + g index = ((List.range n).map g).sum + f index := by
  have left := Finset.add_sum_erase (Finset.range n) f (Finset.mem_range.mpr inside)
  have right := Finset.add_sum_erase (Finset.range n) g (Finset.mem_range.mpr inside)
  have others : ∑ i ∈ (Finset.range n).erase index, f i = ∑ i ∈ (Finset.range n).erase index, g i :=
    Finset.sum_congr rfl fun other present => same other (Finset.ne_of_mem_erase present)
  change (∑ i ∈ Finset.range n, f i) + g index = (∑ i ∈ Finset.range n, g i) + f index
  omega

namespace State

/-- The managed space not handed out yet. -/
def unbumped (state : State) : List Block :=
  ⟨state.overflowBump, state.permanentBump - state.overflowBump⟩ ::
    (List.range state.classCount).map fun ci =>
      ⟨state.classBump ci, state.classEnd ci - state.classBump ci⟩

/-- The permanent region. -/
def permanent (state : State) : Block :=
  ⟨state.permanentBump, state.heapLen - state.permanentBump⟩

/-- All the ranges of the heap, given the live blocks. -/
def ranges (state : State) (live : List Block) : List Block :=
  state.permanent :: (live ++ state.freeList ++ state.unbumped)

/-- How often a byte is covered. -/
def account (state : State) (live : List Block) (point : ℕ) : ℕ :=
  cover (state.ranges live) point

/-- The order of the offsets. -/
structure Tidy (state : State) : Prop where
  classBump_le : ∀ ci < state.classCount, state.classBump ci ≤ state.classEnd ci
  classEnd_le : ∀ ci, ci + 1 < state.classCount → state.classEnd ci ≤ state.classEnd (ci + 1)
  classEnd_last : state.classEnd (state.classCount - 1) = state.overflowBase
  overflowBase_le : state.overflowBase ≤ state.overflowBump
  overflowBump_le : state.overflowBump ≤ state.permanentBump
  permanentBump_le : state.permanentBump ≤ state.heapLen
  overflowBase_dvd : managedAlign ∣ state.overflowBase
  overflowBump_dvd : managedAlign ∣ state.overflowBump

end State

/-- Only the free lists differ. -/
def Refreed (before after : State) : Prop :=
  after = { before with freeBlocks := after.freeBlocks }

namespace Refreed

theorem refl (state : State) : Refreed state state :=
  rfl

theorem trans {first second third : State} (left : Refreed first second)
    (right : Refreed second third) : Refreed first third := by
  rw [Refreed] at left right ⊢
  rw [right, left]

variable {before after : State}

section

variable (same : Refreed before after)
include same

theorem classCount_eq : after.classCount = before.classCount := by
  rw [same]

theorem heapLen_eq : after.heapLen = before.heapLen := by
  rw [same]

theorem account_eq (live : List Block) (point : ℕ) :
    after.account live point + cover before.freeList point =
      before.account live point + cover after.freeList point := by
  have permanent : after.permanent = before.permanent := by rw [same]; rfl
  have unbumped : after.unbumped = before.unbumped := by rw [same]; rfl
  simp only [State.account, State.ranges, cover_cons, cover_append, permanent, unbumped]
  omega

theorem tidy (tidy : before.Tidy) : after.Tidy := by
  rw [same]
  exact ⟨tidy.classBump_le, tidy.classEnd_le, tidy.classEnd_last, tidy.overflowBase_le,
    tidy.overflowBump_le, tidy.permanentBump_le, tidy.overflowBase_dvd, tidy.overflowBump_dvd⟩

end

end Refreed

variable (state : State)

theorem refreed_setFree (ci : ℕ) (offsets : List ℕ) : Refreed state (state.setFree ci offsets) :=
  rfl

/-- The blocks of a free list. -/
def blocksOf (ci : ℕ) (offsets : List ℕ) : List Block :=
  offsets.map fun offset => ⟨offset, classSize ci⟩

@[simp]
theorem cover_blocksOf_cons (ci offset : ℕ) (offsets : List ℕ) (point : ℕ) :
    cover (blocksOf ci (offset :: offsets)) point =
      between offset (offset + classSize ci) point + cover (blocksOf ci offsets) point :=
  rfl

variable {offset : ℕ}

theorem cover_blocksOf_erase (ci : ℕ) {offsets : List ℕ} (present : offset ∈ offsets) (point : ℕ) :
    between offset (offset + classSize ci) point + cover
      (blocksOf ci (offsets.erase offset)) point =
      cover (blocksOf ci offsets) point := by
  rw [← cover_blocksOf_cons]
  exact cover_perm ((perm_cons_erase present).symm.map _) point

theorem cover_freeList (point : ℕ) :
    cover state.freeList point = ((List.range state.classCount).map fun ci =>
        cover (blocksOf ci (state.freeBlocks ci)) point).sum :=
  cover_flatMap _ _ _

variable {ci : ℕ}

section

variable {state : State} (inside : ci < state.classCount)
include inside

theorem cover_freeList_setFree (offsets : List ℕ) (point : ℕ) :
    cover (state.setFree ci offsets).freeList point +
        cover (blocksOf ci (state.freeBlocks ci)) point =
      cover state.freeList point + cover (blocksOf ci offsets) point := by
  rw [cover_freeList, cover_freeList]
  have replaced := sum_range_replace inside
    (f := fun i => cover (blocksOf i ((state.setFree ci offsets).freeBlocks i)) point)
    (g := fun i => cover (blocksOf i (state.freeBlocks i)) point)
    (fun other ne => by simp [State.setFree, update_of_ne ne])
  simpa [State.setFree] using replaced

theorem cover_freeList_pushFree (offset point : ℕ) :
    cover (state.pushFree ci offset).freeList point =
      cover state.freeList point + between offset (offset + classSize ci) point := by
  have changed := cover_freeList_setFree inside (offset :: state.freeBlocks ci) point
  rw [cover_blocksOf_cons] at changed
  rw [State.pushFree]
  omega

theorem cover_freeList_erase (present : offset ∈ state.freeBlocks ci) (point : ℕ) :
    cover (state.setFree ci ((state.freeBlocks ci).erase offset)).freeList point +
        between offset (offset + classSize ci) point =
      cover state.freeList point := by
  have changed := cover_freeList_setFree inside ((state.freeBlocks ci).erase offset) point
  have erased := cover_blocksOf_erase ci present point
  omega

end

/-- What an operation on the free lists does: it takes a range from them. -/
structure Takes (before after : State) (offset size : ℕ) : Prop where
  refreed : Refreed before after
  cover_eq : ∀ point, cover after.freeList point + between offset (offset + size) point =
    cover before.freeList point

/-- What an operation on the free lists does: it adds a range to them. -/
structure Gives (before after : State) (offset size : ℕ) : Prop where
  refreed : Refreed before after
  cover_eq : ∀ point, cover after.freeList point =
    cover before.freeList point + between offset (offset + size) point

theorem gives_pushFree (inside : ci < state.classCount) (offset : ℕ) :
    Gives state (state.pushFree ci offset) offset (classSize ci) :=
  ⟨refreed_setFree .., cover_freeList_pushFree inside offset⟩

variable {after : State}

theorem takes_takeFreeBlock {state : State} (inside : ci < state.classCount)
    (taken : state.takeFreeBlock ci = some (offset, after)) :
    Takes state after offset (classSize ci) := by
  rw [State.takeFreeBlock] at taken
  split at taken
  · cases taken
  · rename_i head rest listEq
    obtain ⟨rfl, rfl⟩ := Prod.mk.inj (Option.some.inj taken)
    refine ⟨refreed_setFree .., fun point => ?_⟩
    have changed := cover_freeList_setFree inside rest point
    rw [listEq, cover_blocksOf_cons] at changed
    omega

/-- Splitting puts the upper halves on the free lists and keeps the lowest part. -/
theorem splitDown_spec (offset ci : ℕ) {steps : ℕ}
    (inside : ci + steps < state.classCount) :
    Refreed state (State.splitDown offset ci steps state) ∧ ∀ point,
      cover (State.splitDown offset ci steps state).freeList point +
          between offset (offset + classSize ci) point =
        cover state.freeList point + between offset (offset + classSize (ci + steps)) point := by
  induction steps generalizing state with
  | zero => exact ⟨.refl state, fun point => rfl⟩
  | succ steps ih =>
    have insideHalf : ci + steps < state.classCount := by omega
    have pushed := gives_pushFree state insideHalf (offset + classSize (ci + steps))
    obtain ⟨refreed, covers⟩ := ih _ (by rw [pushed.refreed.classCount_eq]; exact insideHalf)
    refine ⟨pushed.refreed.trans refreed, fun point => ?_⟩
    have halves : classSize (ci + (steps + 1)) = classSize (ci + steps) + classSize (ci + steps) :=
      classSize_succ (lt_of_lt_of_le inside state.classCount_le)
    have lower := covers point
    have upper := pushed.cover_eq point
    have cut := between_split (le_add_right offset (classSize (ci + steps)))
      (le_add_right _ (classSize (ci + steps))) point
    rw [State.splitDown, halves, ← add_assoc]
    omega

theorem takes_splitLargerFreeBlock {state : State}
    (split : state.splitLargerFreeBlock ci = some (offset, after)) :
    Takes state after offset (classSize ci) := by
  obtain ⟨splitCi, found, rest⟩ := Option.bind_eq_some_iff.mp split
  obtain ⟨⟨head, taken⟩, takenEq, pairEq⟩ := Option.map_eq_some_iff.mp rest
  obtain ⟨rfl, rfl⟩ := Prod.mk.inj pairEq
  have larger := mem_range'_1.mp (mem_of_find?_eq_some found)
  have took := takes_takeFreeBlock (by omega) takenEq
  have reached : ci + (splitCi - ci) = splitCi := by omega
  obtain ⟨refreed, covers⟩ := splitDown_spec taken head ci
    (by rw [took.refreed.classCount_eq, reached]; omega)
  refine ⟨took.refreed.trans refreed, fun point => ?_⟩
  rw [covers point, reached]
  exact took.cover_eq point

theorem takes_takeOrSplit {state : State} (inside : ci < state.classCount)
    (taken : state.takeOrSplit ci = some (offset, after)) :
    Takes state after offset (classSize ci) := by
  rw [State.takeOrSplit] at taken
  split at taken
  · rename_i found
    rw [taken] at found
    exact takes_takeFreeBlock inside found
  · exact takes_splitLargerFreeBlock taken

/-- Coalescing takes the neighbours off their lists and gives the whole back. -/
theorem gives_coalesce (offset ci : ℕ) {above : ℕ}
    (inside : ci + above < state.classCount) :
    Gives state (State.coalesce above state offset ci) offset (classSize ci) := by
  induction above generalizing state offset ci with
  | zero => exact gives_pushFree state inside offset
  | succ above ih =>
    have halves : classSize (ci + 1) = classSize ci + classSize ci :=
      classSize_succ (lt_of_lt_of_le (by omega) state.classCount_le)
    have insideNext : ci + 1 + above < state.classCount := by omega
    have insideHere : ci < state.classCount := by omega
    rw [State.coalesce]
    split
    · rename_i upper
      obtain ⟨refreed, covers⟩ := ih
        (state.setFree ci ((state.freeBlocks ci).erase (offset + classSize ci))) offset (ci + 1)
        insideNext
      refine ⟨(refreed_setFree ..).trans refreed, fun point => ?_⟩
      have merged := covers point
      have erased := cover_freeList_erase insideHere upper point
      have cut := between_split (le_add_right offset (classSize ci))
        (le_add_right _ (classSize ci)) point
      rw [halves, ← add_assoc] at merged
      omega
    · split
      · rename_i _ lower
        obtain ⟨fits, present⟩ := lower
        obtain ⟨refreed, covers⟩ := ih
          (state.setFree ci ((state.freeBlocks ci).erase (offset - classSize ci)))
          (offset - classSize ci) (ci + 1) insideNext
        refine ⟨(refreed_setFree ..).trans refreed, fun point => ?_⟩
        have merged := covers point
        have erased := cover_freeList_erase insideHere present point
        have whole : offset - classSize ci + classSize ci = offset := Nat.sub_add_cancel fits
        have cut := between_split (le_add_right (offset - classSize ci) (classSize ci))
          (le_add_right _ (classSize ci)) point
        rw [halves, ← add_assoc, whole] at merged
        rw [whole] at cut erased
        omega
      · exact gives_pushFree state insideHere offset

theorem gives_freeBytesManaged {state : State} {len size : ℕ} (sizePos : 0 < size)
    (rounds : state.managedBlockSize len = size) :
    Gives state (state.freeBytesManaged offset len) offset size := by
  rw [State.managedBlockSize] at rounds
  rw [State.freeBytesManaged]
  split at rounds
  · omega
  · rename_i nonempty
    rw [if_neg nonempty]
    cases found : state.classIndexFor len with
    | none =>
      simp only [found] at rounds
      omega
    | some ci =>
      simp only [found] at rounds
      subst rounds
      have inside := (classIndexFor_eq_some found).1
      exact gives_coalesce state offset ci (by omega)

theorem largestFit_fits {remaining : ℕ} (smallest : classSize 0 ≤ remaining) (ci : ℕ) :
    classSize (largestFit remaining ci) ≤ remaining := by
  induction ci with
  | zero => exact smallest
  | succ ci ih =>
    rw [largestFit]
    split
    · exact ih
    · rename_i fits
      exact Nat.le_of_not_lt fits

/-- The blocks of a run cover the whole run, since its length is a multiple of the
smallest class size. -/
theorem gives_addLargestBlocksToFreeList (start : ℕ) {len : ℕ}
    (aligned : managedAlign ∣ len) :
    Gives state (state.addLargestBlocksToFreeList start len) start len := by
  induction len using Nat.strong_induction_on generalizing state start with
  | _ len ih =>
    rw [State.addLargestBlocksToFreeList]
    split
    · rename_i empty
      exact ⟨.refl state, fun point => by rw [empty, add_zero, between_self, add_zero]⟩
    · rename_i nonempty
      have smallest : classSize 0 ≤ len := le_of_dvd (pos_of_ne_zero nonempty) aligned
      have fits := largestFit_fits smallest (state.classCount - 1)
      have insideMax := state.largestFit_lt len
      have below := largestFit_le len (state.classCount - 1)
      have countPos := state.classCount_pos
      rw [if_neg (not_lt.mpr fits)]
      generalize largestFit len (state.classCount - 1) = ci at *
      have sizePos := classSize_pos insideMax
      have pushed := gives_pushFree state (by omega : ci < state.classCount) start
      obtain ⟨refreed, covers⟩ := ih (len - classSize ci) (by omega)
        (state.pushFree ci start) (start + classSize ci)
        (dvd_sub aligned (managedAlign_dvd_classSize insideMax))
      refine ⟨pushed.refreed.trans refreed, fun point => ?_⟩
      have first := pushed.cover_eq point
      have others := covers point
      have whole : start + classSize ci + (len - classSize ci) = start + len := by omega
      have cut := between_split (le_add_right start (classSize ci))
        (by omega : start + classSize ci ≤ start + len) point
      rw [whole] at others
      omega

theorem cover_mergeRuns (current : Block) (rest : List Block) (point : ℕ) :
    cover (mergeRuns current rest) point = cover (current :: rest) point := by
  induction rest generalizing current with
  | nil => rfl
  | cons block rest ih =>
    rw [mergeRuns]
    split
    · rename_i adjacent
      rw [ih, cover_cons, cover_cons, cover_cons, adjacent]
      have cut := between_split (le_add_right current.offset current.size)
        (le_add_right _ block.size) point
      simp only [Block.stop, adjacent] at cut ⊢
      rw [← add_assoc, cut]
      omega
    · simp only [cover_cons, ih]

theorem mergeRuns_dvd {divisor : ℕ} {current : Block} {rest : List Block}
    (aligned : ∀ block ∈ current :: rest, divisor ∣ block.size) :
    ∀ run ∈ mergeRuns current rest, divisor ∣ run.size := by
  induction rest generalizing current with
  | nil => exact aligned
  | cons block rest ih =>
    rw [forall_mem_cons, forall_mem_cons] at aligned
    obtain ⟨currentDvd, blockDvd, restDvd⟩ := aligned
    rw [mergeRuns]
    split
    · exact ih (forall_mem_cons.mpr ⟨dvd_add currentDvd blockDvd, restDvd⟩)
    · exact forall_mem_cons.mpr ⟨currentDvd, ih (forall_mem_cons.mpr ⟨blockDvd, restDvd⟩)⟩

theorem sortByOffset_perm (blocks : List Block) : (sortByOffset blocks).Perm blocks :=
  perm_insertionSort _ _

theorem cover_freeRuns (point : ℕ) : cover state.freeRuns point = cover state.freeList point := by
  rw [State.freeRuns, ← cover_perm (sortByOffset_perm state.freeList) point]
  split
  · rename_i sorted
    rw [sorted]
  · rename_i sorted
    rw [sorted, cover_mergeRuns]

theorem mem_freeList {state : State} {block : Block} :
    block ∈ state.freeList ↔ ∃ ci < state.classCount, ∃ offset ∈ state.freeBlocks ci,
      block = ⟨offset, classSize ci⟩ := by
  simp only [State.freeList, mem_flatMap, mem_range, mem_map, eq_comm]

theorem freeRuns_dvd : ∀ run ∈ state.freeRuns, managedAlign ∣ run.size := by
  have aligned : ∀ block ∈ sortByOffset state.freeList, managedAlign ∣ block.size := by
    intro block present
    obtain ⟨ci, inside, offset, -, rfl⟩ :=
      mem_freeList.mp ((sortByOffset_perm state.freeList).mem_iff.mp present)
    exact managedAlign_dvd_classSize (lt_of_lt_of_le inside state.classCount_le)
  rw [State.freeRuns]
  split
  · simp
  · rename_i sorted
    rw [sorted] at aligned
    exact mergeRuns_dvd aligned

theorem addRuns_spec {runs : List Block}
    (aligned : ∀ run ∈ runs, managedAlign ∣ run.size) :
    Refreed state (state.addRuns runs) ∧ ∀ point,
      cover (state.addRuns runs).freeList point = cover state.freeList point +
        cover runs point := by
  induction runs generalizing state with
  | nil => exact ⟨.refl state, fun point => rfl⟩
  | cons run rest ih =>
    rw [forall_mem_cons] at aligned
    have added := gives_addLargestBlocksToFreeList state run.offset aligned.1
    obtain ⟨refreed, covers⟩ := ih (state.addLargestBlocksToFreeList run.offset run.size) aligned.2
    refine ⟨added.refreed.trans refreed, fun point => ?_⟩
    have first := added.cover_eq point
    have others := covers point
    rw [State.addRuns, cover_cons, Block.stop]
    omega

theorem freeList_clearFree : state.clearFree.freeList = [] := by
  refine eq_nil_iff_forall_not_mem.mpr fun block present => ?_
  obtain ⟨ci, inside, offset, listed, -⟩ := mem_freeList.mp present
  have inside' : ci < state.classCount := inside
  simp [State.clearFree, inside'] at listed

theorem defragmentFreeLists_spec (host : Host) (state : State) :
    Refreed state (state.defragmentFreeLists host) ∧ ∀ point,
      cover (state.defragmentFreeLists host).freeList point = cover state.freeList point := by
  rw [State.defragmentFreeLists]
  split
  · exact ⟨.refl state, fun point => rfl⟩
  · split
    · exact ⟨.refl state, fun point => rfl⟩
    · have cleared : Refreed state state.clearFree := rfl
      obtain ⟨refreed, covers⟩ := addRuns_spec state.clearFree (freeRuns_dvd state)
      refine ⟨cleared.trans refreed, fun point => ?_⟩
      rw [covers point, freeList_clearFree, cover_nil, zero_add, cover_freeRuns]

/-!
# Conservation of the heap's bytes

Runs of heap operations, with the blocks that are live between them. Every
operation keeps the ranges of the heap disjoint. They cover the whole heap unless a
compaction packs the live blocks into less than the class regions: the space between
the packed blocks and the overflow region is then on no free list and in front of no
bump offset.
-/

/-- How often the class regions cover a byte that is not handed out yet. -/
def State.classSpace (state : State) (point : ℕ) : ℕ :=
  ((List.range state.classCount).map fun ci =>
    between (state.classBump ci) (state.classEnd ci) point).sum

theorem State.Tidy.account_eq {state : State} (tidy : state.Tidy) (live : List Block)
    (point : ℕ) :
    state.account live point =
      between state.permanentBump state.heapLen point + cover live point +
        cover state.freeList point + between state.overflowBump state.permanentBump point +
          state.classSpace point := by
  have classes : ((List.range state.classCount).map fun ci =>
      (⟨state.classBump ci, state.classEnd ci - state.classBump ci⟩ : Block)).map
        (fun block => between block.offset block.stop point) =
      (List.range state.classCount).map fun ci =>
        between (state.classBump ci) (state.classEnd ci) point := by
    rw [map_map]
    refine map_congr_left fun ci present => ?_
    rw [comp_apply, Block.stop_mk,
      Nat.add_sub_cancel' (tidy.classBump_le ci (mem_range.mp present))]
  rw [State.account, State.ranges, State.permanent, State.unbumped, cover_cons_mk, cover_append,
    cover_append, cover_cons_mk, Nat.add_sub_cancel' tidy.permanentBump_le,
    Nat.add_sub_cancel' tidy.overflowBump_le, cover, cover, cover, classes, State.classSpace]
  omega

variable {after : State} {size : ℕ}

/-- A permanent bump takes its bytes from the top of the overflow region. -/
theorem bump_spec {state : State} {alignment pos : ℕ}
    (bumped : state.bump alignment size = some (pos, after)) :
    after = { state with permanentBump := pos } ∧ state.overflowBump ≤ pos ∧
      pos + size ≤ state.permanentBump := by
  rw [State.bump] at bumped
  split at bumped
  · cases bumped
  · rename_i enough
    have rounded := div_mul_le_self (state.permanentBump - size) (2 ^ alignment)
    simp only at bumped
    split at bumped
    · cases bumped
    · rename_i above
      obtain ⟨rfl, rfl⟩ := Prod.mk.inj (Option.some.inj bumped)
      exact ⟨rfl, Nat.le_of_not_lt above, by omega⟩

theorem account_bump {state : State} {alignment pos : ℕ} (tidy : state.Tidy)
    (bumped : state.bump alignment size = some (pos, after)) :
    after.Tidy ∧ ∀ live point, after.account live point = state.account live point := by
  obtain ⟨rfl, above, enough⟩ := bump_spec bumped
  have inHeap := tidy.permanentBump_le
  have tidyAfter : State.Tidy { state with permanentBump := pos } :=
    ⟨tidy.classBump_le, tidy.classEnd_le, tidy.classEnd_last, tidy.overflowBase_le, above,
      by change pos ≤ state.heapLen; omega, tidy.overflowBase_dvd, tidy.overflowBump_dvd⟩
  refine ⟨tidyAfter, fun live point => ?_⟩
  have low := between_split above (by omega : pos ≤ state.permanentBump) point
  have high := between_split (by omega : pos ≤ state.permanentBump) inHeap point
  calc State.account { state with permanentBump := pos } live point
      = between pos state.heapLen point + cover live point + cover state.freeList point +
          between state.overflowBump pos point + state.classSpace point := tidyAfter.account_eq ..
    _ = state.account live point := by rw [tidy.account_eq]; omega

/-- What an operation that hands out a block leaves: the same account with the block
among the live ones. -/
structure Allocates (before after : State) (block : Block) : Prop where
  tidy : after.Tidy
  classCount_eq : after.classCount = before.classCount
  heapLen_eq : after.heapLen = before.heapLen
  account_eq : ∀ live point, after.account (block :: live) point = before.account live point

variable {before : State}

theorem allocates_of_takes {offset : ℕ} (tidy : before.Tidy)
    (takes : Takes before after offset size) : Allocates before after ⟨offset, size⟩ := by
  refine ⟨takes.refreed.tidy tidy, takes.refreed.classCount_eq, takes.refreed.heapLen_eq,
    fun live point => ?_⟩
  have tidyAfter := takes.refreed.tidy tidy
  have same := takes.refreed.account_eq live point
  have taken := takes.cover_eq point
  have added : after.account (⟨offset, size⟩ :: live) point =
      after.account live point + between offset (offset + size) point := by
    rw [tidyAfter.account_eq, tidyAfter.account_eq, cover_cons_mk]
    omega
  omega

variable {ci : ℕ}

theorem allocates_classBump {state : State} (tidy : state.Tidy) (inside : ci < state.classCount)
    (room : state.classBump ci + classSize ci ≤ state.classEnd ci) :
    Allocates state { state with
        classBump := Function.update state.classBump ci (state.classBump ci + classSize ci) }
      ⟨state.classBump ci, classSize ci⟩ := by
  set after : State :=
    { state with
      classBump := Function.update state.classBump ci (state.classBump ci + classSize ci) }
    with afterEq
  have bumpSame : after.classBump ci = state.classBump ci + classSize ci := update_self ..
  have bumpOther : ∀ other, other ≠ ci → after.classBump other = state.classBump other :=
    fun other ne => update_of_ne ne ..
  have tidyAfter : after.Tidy := by
    refine ⟨fun other inCount => ?_, tidy.classEnd_le, tidy.classEnd_last, tidy.overflowBase_le,
      tidy.overflowBump_le, tidy.permanentBump_le, tidy.overflowBase_dvd, tidy.overflowBump_dvd⟩
    by_cases same : other = ci
    · subst same
      rw [bumpSame]
      exact room
    · rw [bumpOther other same]
      exact tidy.classBump_le other inCount
  refine ⟨tidyAfter, rfl, rfl, fun live point => ?_⟩
  have replaced : after.classSpace point +
        between (state.classBump ci) (state.classEnd ci) point =
      state.classSpace point +
        between (state.classBump ci + classSize ci) (state.classEnd ci) point := by
    rw [← bumpSame]
    exact sum_range_replace inside
      (f := fun i => between (after.classBump i) (after.classEnd i) point)
      (fun other ne => by rw [bumpOther other ne])
  have cut := between_split (le_add_right (state.classBump ci) (classSize ci)) room point
  calc after.account (⟨state.classBump ci, classSize ci⟩ :: live) point
      = between state.permanentBump state.heapLen point +
          (between (state.classBump ci) (state.classBump ci + classSize ci) point +
            cover live point) + cover state.freeList point +
          between state.overflowBump state.permanentBump point + after.classSpace point :=
        tidyAfter.account_eq ..
    _ = state.account live point := by rw [tidy.account_eq]; omega

theorem allocates_overflow {state : State} (tidy : state.Tidy) (inside : ci < state.classCount)
    (room : state.overflowBump + classSize ci ≤ state.permanentBump) :
    Allocates state { state with overflowBump := state.overflowBump + classSize ci }
      ⟨state.overflowBump, classSize ci⟩ := by
  have base := tidy.overflowBase_le
  have tidyAfter : State.Tidy { state with overflowBump := state.overflowBump + classSize ci } :=
    ⟨tidy.classBump_le, tidy.classEnd_le, tidy.classEnd_last,
      by change state.overflowBase ≤ state.overflowBump + classSize ci; omega, room,
      tidy.permanentBump_le, tidy.overflowBase_dvd,
      dvd_add tidy.overflowBump_dvd
        (managedAlign_dvd_classSize (lt_of_lt_of_le inside state.classCount_le))⟩
  refine ⟨tidyAfter, rfl, rfl, fun live point => ?_⟩
  have cut := between_split (le_add_right state.overflowBump (classSize ci)) room point
  calc State.account { state with overflowBump := state.overflowBump + classSize ci }
        (⟨state.overflowBump, classSize ci⟩ :: live) point
      = between state.permanentBump state.heapLen point +
          (between state.overflowBump (state.overflowBump + classSize ci) point +
            cover live point) + cover state.freeList point +
          between (state.overflowBump + classSize ci) state.permanentBump point +
          state.classSpace point := tidyAfter.account_eq ..
    _ = state.account live point := by rw [tidy.account_eq]; omega

theorem State.Tidy.refreed (tidy : before.Tidy) (refreed : Refreed before after)
    (same : ∀ point, cover after.freeList point = cover before.freeList point) :
    after.Tidy ∧ ∀ live point, after.account live point = before.account live point := by
  refine ⟨refreed.tidy tidy, fun live point => ?_⟩
  have balance := refreed.account_eq live point
  rw [same point] at balance
  omega

/-- What a managed allocation returns and leaves. -/
structure Allocated (before : State) (n : ℕ) (result : Option Block × State) : Prop where
  tidy : result.2.Tidy
  classCount_eq : result.2.classCount = before.classCount
  heapLen_eq : result.2.heapLen = before.heapLen
  sized : ∀ block ∈ result.1, n ≤ block.size ∧ ∃ ci < before.classCount, block.size = classSize ci
  account_eq : ∀ live point,
    result.2.account (result.1.toList ++ live) point = before.account live point

variable {n : ℕ}

theorem Allocates.allocated {offset : ℕ}
    (allocates : Allocates before after ⟨offset, classSize ci⟩) (inside : ci < before.classCount)
    (fits : n ≤ classSize ci) : Allocated before n (some ⟨offset, classSize ci⟩, after) := by
  refine ⟨allocates.tidy, allocates.classCount_eq, allocates.heapLen_eq, fun block isBlock => ?_,
    fun live point => ?_⟩
  · obtain rfl := Option.mem_some_iff.mp isBlock
    exact ⟨fits, ci, inside, rfl⟩
  · exact allocates.account_eq live point

theorem allocated_none (tidy : after.Tidy) (classCount_eq : after.classCount = before.classCount)
    (heapLen_eq : after.heapLen = before.heapLen)
    (account_eq : ∀ live point, after.account live point = before.account live point) :
    Allocated before n (none, after) :=
  ⟨tidy, classCount_eq, heapLen_eq, fun _ isBlock => (nomatch isBlock), account_eq⟩

theorem allocBytesManaged_spec (host : Host) {state : State} (tidy : state.Tidy)
    (nonempty : n ≠ 0) : Allocated state n (state.allocBytesManaged host n) := by
  rw [State.allocBytesManaged, if_neg nonempty]
  split
  · exact allocated_none tidy rfl rfl fun _ _ => rfl
  · rename_i ci found
    obtain ⟨inside, fits⟩ := classIndexFor_eq_some found
    split
    · rename_i offset taken takenEq
      exact (allocates_of_takes tidy (takes_takeFreeBlock inside takenEq)).allocated inside fits
    · dsimp only
      split
      · rename_i room
        exact (allocates_classBump tidy inside room).allocated inside fits
      · split
        · rename_i room
          rw [alignUp_of_dvd tidy.overflowBump_dvd] at room ⊢
          exact (allocates_overflow tidy inside room).allocated inside fits
        · split
          · rename_i offset split splitEq
            exact (allocates_of_takes tidy (takes_splitLargerFreeBlock splitEq)).allocated
              inside fits
          · split
            · obtain ⟨refreed, same⟩ := defragmentFreeLists_spec host state
              obtain ⟨tidyAfter, sameAccount⟩ := tidy.refreed refreed same
              split
              · rename_i offset taken takenEq
                have insideAfter : ci < (state.defragmentFreeLists host).classCount := by
                  rw [refreed.classCount_eq]
                  exact inside
                have allocates := allocates_of_takes tidyAfter
                  (takes_takeOrSplit insideAfter takenEq)
                refine Allocates.allocated ⟨allocates.tidy,
                  allocates.classCount_eq.trans refreed.classCount_eq,
                  allocates.heapLen_eq.trans refreed.heapLen_eq, fun live point => ?_⟩
                  inside fits
                rw [allocates.account_eq, sameAccount]
              · exact allocated_none tidyAfter refreed.classCount_eq refreed.heapLen_eq sameAccount
            · exact allocated_none tidy rfl rfl fun _ _ => rfl

/-- What a free leaves, with the block no longer among the live ones. -/
structure Freed (before : State) (live : List Block) (block : Block) (after : State) : Prop where
  tidy : after.Tidy
  classCount_eq : after.classCount = before.classCount
  heapLen_eq : after.heapLen = before.heapLen
  account_eq : ∀ point, after.account (live.erase block) point = before.account live point

theorem freeBytesManaged_spec {state : State} (tidy : state.Tidy) {live : List Block}
    {block : Block} {len : ℕ} (present : block ∈ live) (sizePos : 0 < block.size)
    (rounds : state.managedBlockSize len = block.size) :
    Freed state live block (state.freeBytesManaged block.offset len) := by
  have gives : Gives state (state.freeBytesManaged block.offset len) block.offset block.size :=
    gives_freeBytesManaged sizePos rounds
  have tidyAfter := gives.refreed.tidy tidy
  refine ⟨tidyAfter, gives.refreed.classCount_eq, gives.refreed.heapLen_eq, fun point => ?_⟩
  have balance := gives.refreed.account_eq live point
  have given := gives.cover_eq point
  have erased := cover_erase present point
  have fewer : (state.freeBytesManaged block.offset len).account (live.erase block) point +
      between block.offset block.stop point =
        (state.freeBytesManaged block.offset len).account live point := by
    rw [tidyAfter.account_eq, tidyAfter.account_eq]
    omega
  rw [Block.stop] at fewer
  omega

theorem relocate_spec {dest : ℕ} {blocks : List Block} (destDvd : managedAlign ∣ dest)
    (aligned : ∀ block ∈ blocks, managedAlign ∣ block.size) :
    (relocate dest blocks).1.map CompactReloc.new = pack dest blocks ∧
      (relocate dest blocks).1.map CompactReloc.old = blocks ∧
      (relocate dest blocks).2 = dest + totalSize blocks := by
  induction blocks generalizing dest with
  | nil => exact ⟨rfl, rfl, rfl⟩
  | cons block rest ih =>
    rw [forall_mem_cons] at aligned
    obtain ⟨newEq, oldEq, endEq⟩ :=
      ih (dvd_add destDvd aligned.1) aligned.2
    rw [relocate, alignUp_of_dvd destDvd]
    refine ⟨?_, ?_, ?_⟩
    · rw [map_cons, newEq]
      rfl
    · rw [map_cons, oldEq]
      rfl
    · rw [endEq, totalSize_cons, add_assoc]

/-- The live blocks have class sizes. -/
def Sized (state : State) (live : List Block) : Prop :=
  ∀ block ∈ live, ∃ ci < state.classCount, block.size = classSize ci

theorem Sized.dvd {state : State} {live : List Block} (sized : Sized state live) :
    ∀ block ∈ live, managedAlign ∣ block.size := by
  intro block present
  obtain ⟨ci, inside, sizeEq⟩ := sized block present
  rw [sizeEq]
  exact managedAlign_dvd_classSize (lt_of_lt_of_le inside state.classCount_le)

theorem Sized.pos {state : State} {live : List Block} (sized : Sized state live) :
    ∀ block ∈ live, 0 < block.size := by
  intro block present
  obtain ⟨ci, inside, sizeEq⟩ := sized block present
  rw [sizeEq]
  exact classSize_pos (lt_of_lt_of_le inside state.classCount_le)

/-- The bytes are accounted for at most once, inside the heap. -/
def Disjoint (state : State) (live : List Block) : Prop :=
  ∀ point, state.account live point ≤ between 0 state.heapLen point

/-- Each byte of the heap is accounted for. -/
def Complete (state : State) (live : List Block) : Prop :=
  ∀ point, between 0 state.heapLen point ≤ state.account live point

section

variable {state : State} {live : List Block} (tidy : state.Tidy) (sized : Sized state live)
    (disjoint : Disjoint state live)
include tidy sized disjoint

/-- The live blocks lie below the permanent region. -/
theorem stop_le_permanentBump : ∀ block ∈ live, block.stop ≤ state.permanentBump := by
  intro block present
  have sizePos := sized.pos block present
  have last : block.stop - 1 ∈ block := by
    rw [Block.mem_def, Block.stop]
    omega
  have covered := cover_pos.mpr ⟨block, present, last⟩
  have once := disjoint (block.stop - 1)
  rw [tidy.account_eq] at once
  by_contra above
  have inHeap : 0 < between 0 state.heapLen (block.stop - 1) := by omega
  have permanent : 0 < between state.permanentBump state.heapLen (block.stop - 1) :=
    between_pos.mpr ⟨by omega, (between_pos.mp inHeap).2⟩
  have atMost := between_le_one 0 state.heapLen (block.stop - 1)
  omega

theorem totalSize_le_permanentBump : totalSize live ≤ state.permanentBump := by
  refine totalSize_le (stop_le_permanentBump tidy sized disjoint) fun point => ?_
  have once := disjoint point
  have atMost := between_le_one 0 state.heapLen point
  rw [tidy.account_eq] at once
  omega

/-- What a compaction leaves: the packed live blocks, empty free lists and class regions,
and the overflow region from the end of the packed blocks or its own start on. -/
structure Compacted (before : State) (live : List Block)
    (result : List CompactReloc × State) : Prop where
  old_eq : result.1.map CompactReloc.old = sortByOffset live
  new_eq : result.1.map CompactReloc.new = pack 0 (sortByOffset live)
  tidy : result.2.Tidy
  classCount_eq : result.2.classCount = before.classCount
  heapLen_eq : result.2.heapLen = before.heapLen
  permanentBump_eq : result.2.permanentBump = before.permanentBump
  overflowBump_eq : result.2.overflowBump = max before.overflowBase (totalSize live)
  classBump_eq : ∀ ci < before.classCount, result.2.classBump ci = result.2.classEnd ci
  freeBlocks_eq : ∀ ci < before.classCount, result.2.freeBlocks ci = []

theorem compactManagedHeap_spec {host : Host} {result : List CompactReloc × State}
    (compacted : state.compactManagedHeap host live = some result) :
    Compacted state live result := by
  have perm := sortByOffset_perm live
  obtain ⟨newEq, oldEq, endEq⟩ := relocate_spec (dvd_zero managedAlign)
    fun block present => sized.dvd block (perm.mem_iff.mp present)
  rw [zero_add, totalSize_perm perm] at endEq
  rw [State.compactManagedHeap] at compacted
  split at compacted
  · cases compacted
  · obtain rfl := Option.some.inj compacted
    have overflowEq : (if state.overflowBase < (relocate 0 (sortByOffset live)).2 then
        (relocate 0 (sortByOffset live)).2 else state.overflowBase) =
          max state.overflowBase (totalSize live) := by
      rw [endEq]
      split
      · rename_i above
        exact (max_eq_right above.le).symm
      · rename_i below
        exact (max_eq_left (Nat.le_of_not_lt below)).symm
    have packedLe := totalSize_le_permanentBump tidy sized disjoint
    have packedDvd : managedAlign ∣ totalSize live := by
      rw [totalSize]
      exact dvd_sum fun size present => by
        obtain ⟨block, inLive, rfl⟩ := mem_map.mp present
        exact sized.dvd block inLive
    have baseLe := tidy.overflowBase_le
    have bumpLe := tidy.overflowBump_le
    refine ⟨oldEq, newEq, ⟨fun ci inside => ?_, tidy.classEnd_le, tidy.classEnd_last, ?_, ?_,
      tidy.permanentBump_le, tidy.overflowBase_dvd, ?_⟩, rfl, rfl, rfl, overflowEq,
      fun ci inside => if_pos inside, fun ci inside => if_pos inside⟩
    · exact le_of_eq (if_pos inside)
    · change state.overflowBase ≤ ite _ _ _
      rw [overflowEq]
      exact le_max_left _ _
    · change ite _ _ _ ≤ state.permanentBump
      rw [overflowEq]
      exact max_le (baseLe.trans bumpLe) packedLe
    · change managedAlign ∣ ite _ _ _
      rw [overflowEq]
      rcases max_choice state.overflowBase (totalSize live) with isBase | isPacked
      · rw [isBase]
        exact tidy.overflowBase_dvd
      · rw [isPacked]
        exact packedDvd

end

namespace Compacted

variable {state : State} {live : List Block} {result : List CompactReloc × State}

section

variable (compacted : Compacted state live result)
include compacted

theorem freeList_eq : result.2.freeList = [] := by
  refine eq_nil_iff_forall_not_mem.mpr fun block present => ?_
  obtain ⟨ci, inside, offset, listed, -⟩ := mem_freeList.mp present
  rw [compacted.classCount_eq] at inside
  rw [compacted.freeBlocks_eq ci inside] at listed
  exact absurd listed not_mem_nil

theorem classSpace_eq (point : ℕ) : result.2.classSpace point = 0 := by
  refine sum_eq_zero fun space present => ?_
  obtain ⟨ci, inside, rfl⟩ := mem_map.mp present
  rw [mem_range, compacted.classCount_eq] at inside
  rw [compacted.classBump_eq ci inside, between_self]

/-- After a compaction the bytes between the packed blocks and the overflow region are
in no range. -/
theorem account_eq (point : ℕ) :
    result.2.account (result.1.map CompactReloc.new) point =
      between state.permanentBump state.heapLen point + between 0 (totalSize live) point +
        between (max state.overflowBase (totalSize live)) state.permanentBump point := by
  have packed := cover_pack 0 (sortByOffset live) point
  rw [zero_add, totalSize_perm (sortByOffset_perm live)] at packed
  rw [compacted.tidy.account_eq, compacted.freeList_eq, compacted.classSpace_eq,
    compacted.new_eq, packed, compacted.permanentBump_eq, compacted.heapLen_eq,
    compacted.overflowBump_eq, cover_nil, add_zero, add_zero]

theorem disjoint : Disjoint result.2 (result.1.map CompactReloc.new) := by
  intro point
  have tidy := compacted.tidy
  have bumpLe := tidy.overflowBump_le
  have heapLe := tidy.permanentBump_le
  rw [compacted.overflowBump_eq, compacted.permanentBump_eq] at bumpLe
  rw [compacted.permanentBump_eq, compacted.heapLen_eq] at heapLe
  rw [compacted.account_eq, compacted.heapLen_eq]
  have packedLe := le_max_right state.overflowBase (totalSize live)
  have first := between_split (zero_le (totalSize live)) packedLe point
  have second := between_split (zero_le _) bumpLe point
  have third := between_split (zero_le _) heapLe point
  omega

/-- The account stays complete exactly when the packed blocks reach the overflow region. -/
theorem complete_iff :
    Complete result.2 (result.1.map CompactReloc.new) ↔ state.overflowBase ≤ totalSize live := by
  have tidy := compacted.tidy
  have bumpLe := tidy.overflowBump_le
  have heapLe := tidy.permanentBump_le
  rw [compacted.overflowBump_eq, compacted.permanentBump_eq] at bumpLe
  rw [compacted.permanentBump_eq, compacted.heapLen_eq] at heapLe
  constructor
  · intro complete
    by_contra short
    have lost := complete (totalSize live)
    rw [compacted.account_eq, compacted.heapLen_eq, max_eq_left (by omega)] at lost
    have inHeap : 0 < between 0 state.heapLen (totalSize live) :=
      between_pos.mpr ⟨zero_le _, by omega⟩
    have apart : ¬0 < between state.permanentBump state.heapLen (totalSize live) := by
      rw [between_pos]
      omega
    have behind : ¬0 < between 0 (totalSize live) (totalSize live) := by
      rw [between_pos]
      omega
    have before : ¬0 < between state.overflowBase state.permanentBump (totalSize live) := by
      rw [between_pos]
      omega
    omega
  · intro reaches point
    rw [max_eq_right reaches] at bumpLe
    rw [compacted.account_eq, compacted.heapLen_eq, max_eq_right reaches]
    have second := between_split (zero_le _) bumpLe point
    have third := between_split (zero_le _) heapLe point
    omega

end

end Compacted

end Gengo.Heap
