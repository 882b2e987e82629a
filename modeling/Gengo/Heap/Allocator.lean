import Gengo.Intervals.Cover

/-!
# The heap

The byte regions of the runtime's heap: permanent data from the top down, and the
managed region below it, with one region for each size class and an overflow region
behind them. Offsets count from the first byte of the heap slice. The free lists are
threaded through the free blocks in the source; here they are lists of offsets. The
object pool is left out.
-/

namespace Gengo.Heap

open Intervals List

/-- `ClassSizes`: 16 B .. 2 MiB. -/
def classSizes : List ℕ :=
  [16, 32, 64, 128, 256, 512, 1024, 2048, 4096, 8192, 16384, 32768, 65536, 131072, 262144, 524288,
    1048576, 2097152]

/-- `ClassSizes[ci]`. -/
def classSize (ci : ℕ) : ℕ :=
  classSizes.getD ci 0

/-- `ClassCount`. -/
def maxClassCount : ℕ :=
  18

/-- Through 65536, always available. -/
def baseClassCount : ℕ :=
  13

def managedAlign : ℕ :=
  16

variable {ci : ℕ}

theorem classSize_pos (inside : ci < maxClassCount) : 0 < classSize ci := by
  have table : ∀ ci < maxClassCount, 0 < classSize ci := by decide
  exact table ci inside

theorem managedAlign_dvd_classSize (inside : ci < maxClassCount) : managedAlign ∣ classSize ci := by
  have table : ∀ ci < maxClassCount, managedAlign ∣ classSize ci := by decide
  exact table ci inside

/-- The class sizes are powers of two, so that a block splits into two of the class
below. -/
theorem classSize_succ (inside : ci + 1 < maxClassCount) :
    classSize (ci + 1) = classSize ci + classSize ci := by
  have table : ∀ ci < maxClassCount - 1, classSize (ci + 1) = classSize ci + classSize ci := by
    decide
  exact table ci (Nat.lt_sub_of_add_lt inside)

theorem classSize_le {low high : ℕ} (ordered : low ≤ high) (inside : high < maxClassCount) :
    classSize low ≤ classSize high := by
  induction high, ordered using Nat.le_induction with
  | base => exact le_rfl
  | succ high _ ih =>
    rw [classSize_succ inside]
    exact le_trans (ih (by omega)) (Nat.le_add_right _ _)

theorem classSize_lt {low high : ℕ} (ordered : low < high) (inside : high < maxClassCount) :
    classSize low < classSize high := by
  have doubled : classSize (low + 1) = classSize low + classSize low := classSize_succ (by omega)
  have positive : 0 < classSize low := classSize_pos (by omega)
  have above : classSize (low + 1) ≤ classSize high := classSize_le ordered inside
  omega

/-- `usableClassCount`, from a class on. -/
def usableFrom (heapSize : ℕ) : ℕ → ℕ → ℕ
  | 0, c => c
  | rest + 1, c => if classSize c * 8 ≤ heapSize then usableFrom heapSize rest (c + 1) else c

/-- `usableClassCount`. -/
def usableClassCount (heapSize : ℕ) : ℕ :=
  usableFrom heapSize (maxClassCount - baseClassCount) baseClassCount

theorem usableFrom_bounds (heapSize rest c : ℕ) :
    c ≤ usableFrom heapSize rest c ∧ usableFrom heapSize rest c ≤ c + rest := by
  induction rest generalizing c with
  | zero => exact ⟨le_rfl, le_rfl⟩
  | succ rest ih =>
    rw [usableFrom]
    split
    · have := ih (c + 1)
      omega
    · omega

/-- The byte regions of `heap.State`. -/
structure State where
  /-- `heap.len`. -/
  heapLen : ℕ
  /-- The low-water mark of the permanent region, which starts at the top of the heap. -/
  permanentBump : ℕ
  /-- How many size classes are usable. -/
  classCount : ℕ
  /-- What is handed out next, and the end, of the region of a class. -/
  classBump : ℕ → ℕ
  classEnd : ℕ → ℕ
  /-- What is handed out next, and the start, of the overflow region. -/
  overflowBump : ℕ
  overflowBase : ℕ
  /-- The offsets on the free list of each class. -/
  freeBlocks : ℕ → List ℕ
  classCount_pos : 0 < classCount
  classCount_le : classCount ≤ maxClassCount

namespace State

/-- The sum of the class sizes. -/
def classMinSum (classCount : ℕ) : ℕ :=
  ((List.range classCount).map classSize).sum

/-- Where the regions of the first classes end when the heap is partitioned. -/
def partitionEnd (heapSize : ℕ) : ℕ → ℕ
  | 0 => 0
  | ci + 1 => partitionEnd heapSize ci + min (classSize ci) (heapSize - partitionEnd heapSize ci)

/-- Whether the classes get regions of their own. A small heap is flat: every
allocation goes through the overflow region. -/
def Partitioned (heapSize : ℕ) : Prop :=
  classMinSum (usableClassCount heapSize) * 2 + heapSize / 8 ≤ heapSize

instance (heapSize : ℕ) : Decidable (Partitioned heapSize) :=
  inferInstanceAs (Decidable (_ ≤ _))

/-- `init`, when the host has the memory. -/
def init (heapSize : ℕ) : State where
  heapLen := heapSize
  permanentBump := heapSize
  classCount := usableClassCount heapSize
  classBump ci := if Partitioned heapSize then partitionEnd heapSize ci else 0
  classEnd ci := if Partitioned heapSize then partitionEnd heapSize (ci + 1) else 0
  overflowBump :=
    if Partitioned heapSize then partitionEnd heapSize (usableClassCount heapSize) else 0
  overflowBase :=
    if Partitioned heapSize then partitionEnd heapSize (usableClassCount heapSize) else 0
  freeBlocks _ := []
  classCount_pos :=
    lt_of_lt_of_le (by decide) (usableFrom_bounds heapSize _ baseClassCount).1
  classCount_le := (usableFrom_bounds heapSize _ baseClassCount).2

/-- Where the region of a class starts. -/
def classBase (state : State) : ℕ → ℕ
  | 0 => 0
  | ci + 1 => state.classEnd ci

/-- `reset`, of a heap that has been initialised. -/
def reset (state : State) : State :=
  { state with
    permanentBump := state.heapLen
    classBump := state.classBase
    overflowBump := state.overflowBase
    freeBlocks := fun _ => [] }

/-- `classIndexFor`: the first class whose blocks hold `n` bytes. -/
def classIndexFor (state : State) (n : ℕ) : Option ℕ :=
  (List.range state.classCount).find? fun i => n ≤ classSize i

/-- `managedBlockSize`: the size of the block for a byte count. -/
def managedBlockSize (state : State) (byteLen : ℕ) : ℕ :=
  if byteLen = 0 then 0
  else
    match state.classIndexFor byteLen with
    | none => 0
    | some ci => classSize ci

/-- Replace the free list of a class. -/
def setFree (state : State) (ci : ℕ) (offsets : List ℕ) : State :=
  { state with freeBlocks := Function.update state.freeBlocks ci offsets }

/-- Put a block in front of the free list of its class. -/
def pushFree (state : State) (ci offset : ℕ) : State :=
  state.setFree ci (offset :: state.freeBlocks ci)

@[simp]
theorem freeBlocks_pushFree (state : State) (ci offset : ℕ) :
    (state.pushFree ci offset).freeBlocks =
      Function.update state.freeBlocks ci (offset :: state.freeBlocks ci) :=
  rfl

end State

variable {n : ℕ}

theorem classIndexFor_eq_some {state : State} (found : state.classIndexFor n = some ci) :
    ci < state.classCount ∧ n ≤ classSize ci := by
  have fits := List.find?_some found
  have present := mem_of_find?_eq_some found
  exact ⟨mem_range.mp present, by simpa using fits⟩

/-- A smaller class does not hold the bytes. -/
theorem classIndexFor_least {state : State} (found : state.classIndexFor n = some ci)
    {smaller : ℕ} (below : smaller < ci) : classSize smaller < n := by
  have inside := (classIndexFor_eq_some found).1
  obtain ⟨before, after, rangeEq, tooSmall⟩ := (List.find?_eq_some_iff_append.mp found).2
  have present : smaller ∈ before := by
    have lengths : before.length = ci := by
      have at_ci : (List.range state.classCount)[before.length]? = some ci := by
        rw [rangeEq]
        simp
      rw [List.getElem?_range (by
        by_contra outside
        rw [List.getElem?_eq_none (by simpa using outside)] at at_ci
        cases at_ci)] at at_ci
      exact Option.some.inj at_ci
    have at_smaller : (List.range state.classCount)[smaller]? = some smaller :=
      List.getElem?_range (by omega)
    rw [rangeEq, List.getElem?_append_left (by omega)] at at_smaller
    exact mem_of_getElem? at_smaller
  simpa using tooSmall smaller present

theorem classIndexFor_isSome {state : State} :
    (state.classIndexFor n).isSome ↔ n ≤ classSize (state.classCount - 1) := by
  have pos := state.classCount_pos
  have le := state.classCount_le
  rw [State.classIndexFor, List.find?_isSome]
  constructor
  · rintro ⟨ci, inside, fits⟩
    rw [mem_range] at inside
    exact le_trans (by simpa using fits) (classSize_le (by omega) (by omega))
  · intro fits
    exact ⟨state.classCount - 1, mem_range.mpr (by omega), by simpa using fits⟩

/-!
# The operations of the heap

Permanent bumps, managed allocation with its fallbacks, frees that coalesce, the
defragmentation of the free lists, and compaction. Compaction is told which blocks
the live objects own.
-/

/-- What the operations take from the host: a build limit, and whether the host's
allocator can provide so many scratch records. -/
structure Host where
  maxObjects : ℕ
  allocates : ℕ → Bool

/-- The next multiple of `ManagedAlign`. -/
def alignUp (n : ℕ) : ℕ :=
  (n + (managedAlign - 1)) / managedAlign * managedAlign

theorem alignUp_of_dvd {n : ℕ} (aligned : managedAlign ∣ n) : alignUp n = n := by
  obtain ⟨k, rfl⟩ := aligned
  unfold alignUp managedAlign
  omega

/-- Blocks by address. -/
def sortByOffset (blocks : List Block) : List Block :=
  blocks.insertionSort fun left right => left.offset ≤ right.offset

/-- The largest class, from a class down, whose blocks fit. -/
def largestFit (remaining : ℕ) : ℕ → ℕ
  | 0 => 0
  | ci + 1 => if remaining < classSize (ci + 1) then largestFit remaining ci else ci + 1

theorem largestFit_le (remaining ci : ℕ) : largestFit remaining ci ≤ ci := by
  induction ci with
  | zero => exact le_rfl
  | succ ci ih =>
    rw [largestFit]
    split
    · exact le_trans ih (Nat.le_succ ci)
    · exact le_rfl

/-- Runs of blocks without a gap, as one block each. -/
def mergeRuns (current : Block) : List Block → List Block
  | [] => [current]
  | block :: rest =>
    if block.offset = current.stop then
      mergeRuns ⟨current.offset, current.size + block.size⟩ rest
    else current :: mergeRuns block rest

namespace State

variable (state : State)

/-- `bump`, for values of alignment `2 ^ alignment` that take `size` bytes together. -/
def bump (alignment size : ℕ) : Option (ℕ × State) :=
  if state.permanentBump < size then none
  else
    let pos := (state.permanentBump - size) / 2 ^ alignment * 2 ^ alignment
    if pos < state.overflowBump then none
    else some (pos, { state with permanentBump := pos })

/-- `takeFreeBlock`. -/
def takeFreeBlock (ci : ℕ) : Option (ℕ × State) :=
  match state.freeBlocks ci with
  | [] => none
  | head :: rest => some (head, state.setFree ci rest)

theorem largestFit_lt (remaining : ℕ) :
    largestFit remaining (state.classCount - 1) < maxClassCount := by
  have fits := largestFit_le remaining (state.classCount - 1)
  have pos := state.classCount_pos
  have le := state.classCount_le
  omega

/-- Put the upper halves of a block on the free lists, from the class `ci + steps` down
to `ci`. -/
def splitDown (offset ci : ℕ) : ℕ → State → State
  | 0, state => state
  | steps + 1, state =>
    splitDown offset ci steps (state.pushFree (ci + steps) (offset + classSize (ci + steps)))

/-- `splitLargerFreeBlock`. -/
def splitLargerFreeBlock (ci : ℕ) : Option (ℕ × State) :=
  let larger := (List.range' (ci + 1) (state.classCount - (ci + 1))).find? fun splitCi =>
    !(state.freeBlocks splitCi).isEmpty
  larger.bind fun splitCi =>
    (state.takeFreeBlock splitCi).map fun taken =>
      (taken.1, splitDown taken.1 ci (splitCi - ci) taken.2)

/-- Put a block on its free list, after merging it with the free blocks next to it;
`above` is the number of classes above its own. -/
def coalesce (above : ℕ) (state : State) (offset ci : ℕ) : State :=
  match above with
  | 0 => state.pushFree ci offset
  | above + 1 =>
    let upper := offset + classSize ci
    let lower := offset - classSize ci
    if upper ∈ state.freeBlocks ci then
      coalesce above (state.setFree ci ((state.freeBlocks ci).erase upper)) offset (ci + 1)
    else if classSize ci ≤ offset ∧ lower ∈ state.freeBlocks ci then
      coalesce above (state.setFree ci ((state.freeBlocks ci).erase lower)) lower (ci + 1)
    else state.pushFree ci offset

/-- `freeBytesManaged`. -/
def freeBytesManaged (offset len : ℕ) : State :=
  if len = 0 then state
  else
    match state.classIndexFor len with
    | none => state
    | some ci => coalesce (state.classCount - (ci + 1)) state offset ci

/-- The blocks on the free lists, class after class. -/
def freeList : List Block :=
  (List.range state.classCount).flatMap fun ci =>
    (state.freeBlocks ci).map fun offset => ⟨offset, classSize ci⟩

/-- Clear the free lists. -/
def clearFree : State :=
  { state with
    freeBlocks := fun ci => if ci < state.classCount then [] else state.freeBlocks ci }

/-- `addLargestBlocksToFreeList`. -/
def addLargestBlocksToFreeList (state : State) (start len : ℕ) : State :=
  if len = 0 then state
  else
    let ci := largestFit len (state.classCount - 1)
    if len < classSize ci then state
    else addLargestBlocksToFreeList (state.pushFree ci start) (start + classSize ci)
      (len - classSize ci)
termination_by len
decreasing_by
  have := classSize_pos (state.largestFit_lt len)
  omega

/-- Free the runs of a list of blocks sorted by address. -/
def addRuns (state : State) : List Block → State
  | [] => state
  | run :: rest => addRuns (state.addLargestBlocksToFreeList run.offset run.size) rest

/-- The blocks of the free lists by address, merged. -/
def freeRuns : List Block :=
  match sortByOffset state.freeList with
  | [] => []
  | first :: rest => mergeRuns first rest

/-- `defragmentFreeLists`. More than 512 blocks need scratch space from the host. -/
def defragmentFreeLists (host : Host) : State :=
  let total := state.freeList.length
  if total < 2 then state
  else if 512 < total ∧ ¬host.allocates total then state
  else addRuns state.clearFree state.freeRuns

/-- `fragmentationInfo().free_bytes`. -/
def freeBytes : ℕ :=
  ((List.range state.classCount).map fun ci => (state.freeBlocks ci).length * classSize ci).sum

/-- `fragmentationInfo().largest_block`. -/
def largestBlock : ℕ :=
  (List.range state.classCount).foldl (fun largest ci =>
      if 0 < (state.freeBlocks ci).length ∧ largest < classSize ci then classSize ci else largest) 0

/-- The last resort of an allocation: a free block of the class, or a part of a larger one. -/
def takeOrSplit (ci : ℕ) : Option (ℕ × State) :=
  match state.takeFreeBlock ci with
  | some taken => some taken
  | none => state.splitLargerFreeBlock ci

/-- `allocBytesManaged`: the block, unless memory is exhausted. -/
def allocBytesManaged (host : Host) (n : ℕ) : Option Block × State :=
  if n = 0 then (some ⟨0, 0⟩, state)
  else
    match state.classIndexFor n with
    | none => (none, state)
    | some ci =>
      match state.takeFreeBlock ci with
      | some (offset, taken) => (some ⟨offset, classSize ci⟩, taken)
      | none =>
        let cpos := state.classBump ci
        let opos := alignUp state.overflowBump
        if cpos + classSize ci ≤ state.classEnd ci then
          (some ⟨cpos, classSize ci⟩,
            { state with classBump := Function.update state.classBump ci (cpos + classSize ci) })
        else if opos + classSize ci ≤ state.permanentBump then
          (some ⟨opos, classSize ci⟩, { state with overflowBump := opos + classSize ci })
        else
          match state.splitLargerFreeBlock ci with
          | some (offset, split) => (some ⟨offset, classSize ci⟩, split)
          | none =>
            if classSize ci ≤ state.freeBytes ∧ state.largestBlock < classSize ci then
              match (state.defragmentFreeLists host).takeOrSplit ci with
              | some (offset, taken) => (some ⟨offset, classSize ci⟩, taken)
              | none => (none, state.defragmentFreeLists host)
            else (none, state)

end State

/-- `CompactReloc`. -/
structure CompactReloc where
  oldAddr : ℕ
  blockSize : ℕ
  newAddr : ℕ
  deriving DecidableEq, Repr

namespace CompactReloc

/-- The block before and after the move. -/
def old (reloc : CompactReloc) : Block :=
  ⟨reloc.oldAddr, reloc.blockSize⟩

def new (reloc : CompactReloc) : Block :=
  ⟨reloc.newAddr, reloc.blockSize⟩

end CompactReloc

/-- The new addresses of blocks sorted by address, packed from `dest` on, and the end of
the last. -/
def relocate (dest : ℕ) : List Block → List CompactReloc × ℕ
  | [] => ([], dest)
  | block :: rest =>
    let after := relocate (alignUp dest + block.size) rest
    (⟨block.offset, block.size, alignUp dest⟩ :: after.1, after.2)

/-- There is a live block, and the table of relocations fits the stack buffer or the host
provides it. -/
def Moves (host : Host) (blocks : List Block) : Prop :=
  blocks ≠ [] ∧ (blocks.length ≤ min (host.maxObjects * 2) 2048 ∨ host.allocates blocks.length)

instance (host : Host) (blocks : List Block) : Decidable (Moves host blocks) :=
  inferInstanceAs (Decidable (_ ∧ _))

/-- `compactManagedHeap`, for the blocks the live objects own; nothing when it returns
without a change. -/
def State.compactManagedHeap (host : Host) (state : State) (blocks : List Block) :
    Option (List CompactReloc × State) :=
  if ¬Moves host blocks then none
  else
    let moved := relocate 0 (sortByOffset blocks)
    some (moved.1, { state.clearFree with
        classBump := fun ci => if ci < state.classCount then state.classEnd ci else
          state.classBump ci
        overflowBump := if state.overflowBase < moved.2 then moved.2 else state.overflowBase })

variable {host : Host} {blocks : List Block}

theorem moves_of_compacted {state : State} {result : List CompactReloc × State}
    (compacted : state.compactManagedHeap host blocks = some result) : Moves host blocks := by
  rw [State.compactManagedHeap] at compacted
  split at compacted
  · cases compacted
  · rename_i moves
    exact not_not.mp moves

theorem exists_compacted {state : State} (moves : Moves host blocks) :
    ∃ result, state.compactManagedHeap host blocks = some result := by
  rw [State.compactManagedHeap, if_neg (not_not.mpr moves)]
  exact ⟨_, rfl⟩

theorem compactManagedHeap_of_not_moves {state : State} (stays : ¬Moves host blocks) :
    state.compactManagedHeap host blocks = none :=
  if_pos stays

end Gengo.Heap
