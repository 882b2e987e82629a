import Gengo.Heap.Conservation

/-!
# Runs of heap operations

A heap together with the blocks that are live in it, from `init` on, through any
sequence of operations. What is accounted for in every state of a run, and the
compaction that loses bytes.
-/

namespace Gengo.Heap

open Intervals List Option Nat

variable {state : State}

theorem State.Tidy.classBase_le (tidy : state.Tidy) :
    ∀ ci < state.classCount, state.classBase ci ≤ state.classEnd ci := by
  intro ci inside
  cases ci with
  | zero => exact zero_le _
  | succ ci => exact tidy.classEnd_le ci inside

variable {count : ℕ}

theorem State.Tidy.sum_classRegions (tidy : state.Tidy) (point : ℕ)
    (inside : count ≤ state.classCount) :
    ((List.range count).map fun ci =>
      between (state.classBase ci) (state.classEnd ci) point).sum =
        between 0 (state.classBase count) point := by
  induction count with
  | zero => exact (between_self 0 point).symm
  | succ count ih =>
    rw [range_succ, map_append, List.sum_append, ih (by omega)]
    have cut := between_split (zero_le (state.classBase count))
      (tidy.classBase_le count inside) point
    rw [show state.classBase (count + 1) = state.classEnd count from rfl, cut]
    simp

/-- After a reset the whole heap is space to hand out. -/
theorem reset_spec (tidy : state.Tidy) :
    state.reset.Tidy ∧ ∀ point, state.reset.account [] point = between 0 state.heapLen point := by
  have base := tidy.overflowBase_le
  have bump := tidy.overflowBump_le
  have permanent := tidy.permanentBump_le
  have baseLe : state.overflowBase ≤ state.heapLen := by omega
  have tidyReset : state.reset.Tidy :=
    ⟨tidy.classBase_le, tidy.classEnd_le, tidy.classEnd_last, le_rfl, baseLe, le_rfl,
      tidy.overflowBase_dvd, tidy.overflowBase_dvd⟩
  refine ⟨tidyReset, fun point => ?_⟩
  have noFree : state.reset.freeList = [] := by
    refine eq_nil_iff_forall_not_mem.mpr fun block present => ?_
    obtain ⟨ci, -, offset, listed, -⟩ := mem_freeList.mp present
    exact absurd listed not_mem_nil
  have last : state.classBase state.classCount = state.overflowBase := by
    have positive := state.classCount_pos
    rw [← tidy.classEnd_last]
    obtain ⟨count, countEq⟩ := exists_eq_succ_of_ne_zero positive.ne'
    rw [countEq]
    rfl
  have regions : state.reset.classSpace point = between 0 state.overflowBase point := by
    rw [← last]
    exact tidy.sum_classRegions point le_rfl
  have cut := between_split (zero_le state.overflowBase) baseLe point
  calc state.reset.account [] point
      = between state.heapLen state.heapLen point + 0 + 0 +
          between state.overflowBase state.heapLen point + between 0 state.overflowBase point := by
        rw [tidyReset.account_eq, noFree, regions]
        rfl
    _ = between 0 state.heapLen point := by rw [between_self]; omega

theorem partitionEnd_eq {heapSize : ℕ} (fits : State.classMinSum count ≤ heapSize) :
    State.partitionEnd heapSize count = State.classMinSum count := by
  induction count with
  | zero => rfl
  | succ count ih =>
    have sumEq : State.classMinSum (count + 1) = State.classMinSum count + classSize count := by
      rw [State.classMinSum, range_succ, map_append, List.sum_append]
      simp [State.classMinSum]
    rw [sumEq] at fits ⊢
    rw [State.partitionEnd, ih (by omega)]
    omega

theorem managedAlign_dvd_classMinSum (inside : count ≤ maxClassCount) :
    managedAlign ∣ State.classMinSum count := by
  rw [State.classMinSum]
  refine dvd_sum fun size present => ?_
  obtain ⟨ci, inRange, rfl⟩ := mem_map.mp present
  exact managedAlign_dvd_classSize (lt_of_lt_of_le (mem_range.mp inRange) inside)

variable (heapSize : ℕ)

theorem reset_init : (State.init heapSize).reset = State.init heapSize := by
  have bases : (State.init heapSize).classBase = (State.init heapSize).classBump := by
    funext ci
    cases ci with
    | zero => simp [State.classBase, State.init, State.partitionEnd]
    | succ ci => rfl
  rw [State.reset, bases]
  rfl

theorem tidy_init : (State.init heapSize).Tidy := by
  have count := (State.init heapSize).classCount_le
  have positive := (State.init heapSize).classCount_pos
  have last : usableClassCount heapSize - 1 + 1 = usableClassCount heapSize :=
    succ_pred_eq_of_pos positive
  have rises : ∀ ci, State.partitionEnd heapSize ci ≤ State.partitionEnd heapSize (ci + 1) :=
    fun ci => le_add_right _ _
  by_cases partitioned : State.Partitioned heapSize
  · have room : State.classMinSum (usableClassCount heapSize) ≤ heapSize := by
      rw [State.Partitioned] at partitioned
      omega
    constructor
    all_goals simp only [State.init, if_pos partitioned]
    · exact fun ci _ => rises ci
    · exact fun ci _ => rises (ci + 1)
    · rw [last]
    · exact le_rfl
    · rwa [partitionEnd_eq room]
    · exact le_rfl
    · rw [partitionEnd_eq room]
      exact managedAlign_dvd_classMinSum count
    · rw [partitionEnd_eq room]
      exact managedAlign_dvd_classMinSum count
  · constructor
    all_goals simp only [State.init, if_neg partitioned]
    · exact fun _ _ => le_rfl
    · exact fun _ _ => le_rfl
    · exact le_rfl
    · exact zero_le _
    · exact le_rfl
    · exact dvd_zero _
    · exact dvd_zero _

/-- A heap and its live blocks. -/
structure System where
  state : State
  live : List Block

/-- The operations, with their arguments and what they find at the host. -/
inductive Op
  | bump (alignment size : ℕ)
  | allocate (host : Host) (n : ℕ)
  | free (block : Block) (len : ℕ)
  | defragment (host : Host)
  | compact (host : Host)
  | reset

namespace Op

/-- Only a live block is freed, with a length that rounds to its size. -/
def Allowed (system : System) : Op → Prop
  | free block len => block ∈ system.live ∧ system.state.managedBlockSize len = block.size
  | _ => True

/-- The heap and the live blocks after an operation. -/
def apply (system : System) : Op → System
  | bump alignment size =>
    match system.state.bump alignment size with
    | none => system
    | some (_, after) => ⟨after, system.live⟩
  | allocate host n =>
    if n = 0 then system
    else
      let result := system.state.allocBytesManaged host n
      ⟨result.2, result.1.toList ++ system.live⟩
  | free block len =>
    ⟨system.state.freeBytesManaged block.offset len, system.live.erase block⟩
  | defragment host => ⟨system.state.defragmentFreeLists host, system.live⟩
  | compact host =>
    match system.state.compactManagedHeap host system.live with
    | none => system
    | some (relocs, after) => ⟨after, relocs.map CompactReloc.new⟩
  | reset => ⟨system.state.reset, []⟩

/-- A compaction that moves blocks packs enough of them to reach the overflow region. -/
def Reaches (system : System) : Op → Prop
  | compact host =>
    Moves host system.live → system.state.overflowBase ≤ totalSize system.live
  | _ => True

end Op

/-- The states of the runs from `init` whose operations meet a condition. -/
inductive Run (condition : System → Op → Prop) : System → Prop
  | init (heapSize : ℕ) : Run condition ⟨State.init heapSize, []⟩
  | step {system : System} {op : Op} : Run condition system → op.Allowed system →
      condition system op → Run condition (op.apply system)

/-- The offsets are in order, the live blocks have class sizes, and no byte is
accounted for twice. -/
structure Valid (system : System) : Prop where
  tidy : system.state.Tidy
  sized : Sized system.state system.live
  disjoint : Disjoint system.state system.live

variable {system : System}

/-- One operation keeps the offsets in order and the ranges disjoint. -/
theorem valid_apply {op : Op} (valid : Valid system) (allowed : op.Allowed system) :
    Valid (op.apply system) := by
  obtain ⟨tidy, sized, disjoint⟩ := valid
  cases op with
  | bump alignment size =>
    rw [Op.apply]
    split
    · exact ⟨tidy, sized, disjoint⟩
    · rename_i pos after bumped
      obtain ⟨tidyAfter, accountEq⟩ := account_bump tidy bumped
      obtain ⟨rfl, -, -⟩ := bump_spec bumped
      exact ⟨tidyAfter, sized, fun point => (accountEq system.live point).trans_le (disjoint point)⟩
  | allocate host n =>
    rw [Op.apply]
    split
    · exact ⟨tidy, sized, disjoint⟩
    · rename_i nonempty
      have allocated := allocBytesManaged_spec host tidy nonempty
      refine ⟨allocated.tidy, fun block present => ?_, fun point => ?_⟩
      · rw [allocated.classCount_eq]
        rcases mem_append.mp present with isNew | isOld
        · exact (allocated.sized block (mem_toList.mp isNew)).2
        · exact sized block isOld
      · rw [allocated.account_eq, allocated.heapLen_eq]
        exact disjoint point
  | free block len =>
    obtain ⟨present, rounds⟩ := allowed
    have freed := freeBytesManaged_spec tidy present (sized.pos block present) rounds
    refine ⟨freed.tidy, fun other inRest => ?_, fun point => ?_⟩
    · rw [Op.apply, freed.classCount_eq]
      exact sized other (mem_of_mem_erase inRest)
    · rw [Op.apply, freed.account_eq, freed.heapLen_eq]
      exact disjoint point
  | defragment host =>
    obtain ⟨refreed, same⟩ := defragmentFreeLists_spec host system.state
    obtain ⟨tidyAfter, accountEq⟩ := tidy.refreed refreed same
    refine ⟨tidyAfter, fun block present => ?_, fun point => ?_⟩
    · rw [Op.apply, refreed.classCount_eq]
      exact sized block present
    · rw [Op.apply, accountEq, refreed.heapLen_eq]
      exact disjoint point
  | compact host =>
    rw [Op.apply]
    split
    · exact ⟨tidy, sized, disjoint⟩
    · rename_i relocs after moved
      have compacted := compactManagedHeap_spec tidy sized disjoint moved
      refine ⟨compacted.tidy, fun block present => ?_, compacted.disjoint⟩
      obtain ⟨reloc, isReloc, rfl⟩ := mem_map.mp present
      have isOld : reloc.old ∈ relocs.map CompactReloc.old := mem_map_of_mem isReloc
      rw [compacted.old_eq, (sortByOffset_perm _).mem_iff] at isOld
      rw [compacted.classCount_eq]
      exact sized reloc.old isOld
  | reset =>
    obtain ⟨tidyReset, accountEq⟩ := reset_spec tidy
    exact ⟨tidyReset, fun _ present => absurd present not_mem_nil,
      fun point => (accountEq point).le⟩

/-- One operation keeps every byte accounted for, a compaction if it packs enough. -/
theorem complete_apply {op : Op} (valid : Valid system)
    (complete : Complete system.state system.live) (allowed : op.Allowed system)
    (reaches : op.Reaches system) : Complete (op.apply system).state (op.apply system).live := by
  obtain ⟨tidy, sized, disjoint⟩ := valid
  cases op with
  | bump alignment size =>
    rw [Op.apply]
    split
    · exact complete
    · rename_i pos after bumped
      obtain ⟨-, accountEq⟩ := account_bump tidy bumped
      obtain ⟨rfl, -, -⟩ := bump_spec bumped
      exact fun point => (complete point).trans_eq (accountEq system.live point).symm
  | allocate host n =>
    rw [Op.apply]
    split
    · exact complete
    · rename_i nonempty
      have allocated := allocBytesManaged_spec host tidy nonempty
      intro point
      rw [allocated.account_eq, allocated.heapLen_eq]
      exact complete point
  | free block len =>
    obtain ⟨present, rounds⟩ := allowed
    have freed := freeBytesManaged_spec tidy present (sized.pos block present) rounds
    intro point
    rw [Op.apply, freed.account_eq, freed.heapLen_eq]
    exact complete point
  | defragment host =>
    obtain ⟨refreed, same⟩ := defragmentFreeLists_spec host system.state
    obtain ⟨-, accountEq⟩ := tidy.refreed refreed same
    intro point
    rw [Op.apply, accountEq, refreed.heapLen_eq]
    exact complete point
  | compact host =>
    rw [Op.apply]
    split
    · exact complete
    · rename_i relocs after moved
      have compacted := compactManagedHeap_spec tidy sized disjoint moved
      exact compacted.complete_iff.mpr (reaches (moves_of_compacted moved))
  | reset =>
    obtain ⟨-, accountEq⟩ := reset_spec tidy
    exact fun point => (accountEq point).ge

theorem valid_init : Valid ⟨State.init heapSize, []⟩ := by
  obtain ⟨-, accountEq⟩ := reset_spec (tidy_init heapSize)
  rw [reset_init] at accountEq
  exact ⟨tidy_init heapSize, fun _ present => absurd present not_mem_nil,
    fun point => (accountEq point).le⟩

/-- In every run the ranges stay disjoint and inside the heap. -/
theorem valid_of_run {condition : System → Op → Prop} (run : Run condition system) :
    Valid system := by
  induction run with
  | init heapSize => exact valid_init heapSize
  | step _ allowed _ ih => exact valid_apply ih allowed

theorem complete_of_run (run : Run (fun system op => op.Reaches system) system) :
    Complete system.state system.live := by
  induction run with
  | init heapSize =>
    obtain ⟨-, accountEq⟩ := reset_spec (tidy_init heapSize)
    rw [reset_init] at accountEq
    exact fun point => (accountEq point).ge
  | step before allowed reaches ih =>
    exact complete_apply (valid_of_run before) ih allowed reaches

/-- The ranges of the heap are disjoint and lie in it, and the managed bytes are all live,
on a free list or not handed out yet; an allocation returns a block that is large enough,
and a permanent bump leaves the earlier permanent data above it. -/
structure Accounted (system : System) : Prop where
  disjoint : (system.state.ranges system.live).Pairwise Block.Disjoint
  inside : ∀ block ∈ system.state.ranges system.live, ∀ point ∈ block, point < system.state.heapLen
  conserved : ∀ point < system.state.permanentBump,
    ∃ block ∈ system.live ++ system.state.freeList ++ system.state.unbumped, point ∈ block
  enough : ∀ host n block after,
    system.state.allocBytesManaged host n = (some block, after) → n ≤ block.size
  permanent : ∀ alignment size pos after,
    system.state.bump alignment size = some (pos, after) →
      pos + size ≤ system.state.permanentBump ∧ after.permanentBump = pos

theorem accounted_of_valid (valid : Valid system) (complete : Complete system.state system.live) :
    Accounted system := by
  have tidy := valid.tidy
  refine ⟨pairwise_disjoint_of_cover fun point => ?_, fun block present point inBlock => ?_,
    fun point below => ?_, fun host n block after allocated => ?_,
    fun alignment size pos after bumped => ?_⟩
  · exact (valid.disjoint point).trans (between_le_one _ _ _)
  · have covered := cover_pos.mpr ⟨block, present, inBlock⟩
    have once := valid.disjoint point
    rw [State.account] at once
    have inHeap : 0 < between 0 system.state.heapLen point := by omega
    exact (between_pos.mp inHeap).2
  · have heapLe := tidy.permanentBump_le
    have covered := complete point
    have inHeap : 0 < between 0 system.state.heapLen point :=
      between_pos.mpr ⟨zero_le _, by omega⟩
    rw [State.account] at covered
    obtain ⟨block, present, inBlock⟩ := cover_pos.mp (lt_of_lt_of_le inHeap covered)
    rcases mem_cons.mp present with rfl | managed
    · have above := (Block.mem_def.mp inBlock).1
      change system.state.permanentBump ≤ point at above
      omega
    · exact ⟨block, managed, inBlock⟩
  · by_cases empty : n = 0
    · omega
    · have spec := allocBytesManaged_spec host tidy empty
      rw [allocated] at spec
      exact (spec.sized block rfl).1
  · obtain ⟨rfl, -, enough⟩ := bump_spec bumped
    exact ⟨enough, rfl⟩

/-- The bytes are accounted for in every state of a run whose compactions pack enough to
reach the overflow region. -/
theorem accounted_of_run {system : System}
    (run : Run (fun system op => op.Reaches system) system) : Accounted system :=
  accounted_of_valid (valid_of_run run) (complete_of_run run)

/-- In every run, whatever bytes its compactions lose, the live blocks, the free ones and those
not handed out yet lie apart, and the live ones below the permanent region. -/
theorem apart_of_run {condition : System → Op → Prop} {system : System}
    (run : Run condition system) :
    (system.live ++ system.state.freeList ++ system.state.unbumped).Pairwise Block.Disjoint ∧
      ∀ block ∈ system.live, block.stop ≤ system.state.permanentBump := by
  have valid := valid_of_run run
  have apart : (system.state.ranges system.live).Pairwise Block.Disjoint :=
    pairwise_disjoint_of_cover fun point =>
      (valid.disjoint point).trans (between_le_one _ _ _)
  rw [State.ranges, pairwise_cons] at apart
  exact ⟨apart.2, stop_le_permanentBump valid.tidy valid.sized valid.disjoint⟩

/-- A host with memory to spare. -/
def roomyHost : Host where
  maxObjects := 4096
  allocates _ := true

/-- One block in a small, flat heap, compacted. -/
def flatCompaction : System :=
  (Op.compact roomyHost).apply ((Op.allocate roomyHost 20).apply ⟨State.init 4096, []⟩)

theorem accounted_flatCompaction : Accounted flatCompaction :=
  accounted_of_run (.step (.step (.init 4096) trivial trivial) trivial fun _ => by decide)

/-- One block in a partitioned heap, compacted. -/
def partitionedCompaction : System :=
  (Op.compact roomyHost).apply ((Op.allocate roomyHost 16).apply ⟨State.init 524288, []⟩)

theorem apart_partitionedCompaction :
    (partitionedCompaction.live ++ partitionedCompaction.state.freeList ++
      partitionedCompaction.state.unbumped).Pairwise Block.Disjoint := by
  have run : Run (fun _ _ => True) partitionedCompaction :=
    .step (.step (.init 524288) trivial trivial) trivial trivial
  exact (apart_of_run run).1

/-- Every run accounts for its bytes, whatever its compactions move. -/
def HeapAccounted : Prop :=
  ∀ system, Run (fun _ _ => True) system → Accounted system

/-- The bytes from the packed block to the overflow region are lost. -/
theorem not_heapAccounted : ¬HeapAccounted := by
  intro accounted
  have run : Run (fun _ _ => True) partitionedCompaction :=
    .step (.step (.init 524288) trivial trivial) trivial trivial
  obtain ⟨block, present, inBlock⟩ :=
    (accounted partitionedCompaction run).conserved 16 (by decide)
  have lost : ∀ block ∈ partitionedCompaction.live ++ partitionedCompaction.state.freeList ++
      partitionedCompaction.state.unbumped, 16 ∉ block := by
    decide
  exact lost block present inBlock

/-!
# The permanent end of the heap

Permanent data is handed out downward from the end of the heap and is never given back: but
for a reset, which starts the heap anew, an operation leaves the border of the permanent
data where it was or lowers it.
-/

namespace State

variable (state : State)

@[simp]
theorem permanentBump_setFree (ci : ℕ) (offsets : List ℕ) :
    (state.setFree ci offsets).permanentBump = state.permanentBump :=
  rfl

@[simp]
theorem permanentBump_pushFree (ci offset : ℕ) :
    (state.pushFree ci offset).permanentBump = state.permanentBump :=
  rfl

theorem permanentBump_splitDown (offset ci steps : ℕ) (state : State) :
    (splitDown offset ci steps state).permanentBump = state.permanentBump := by
  induction steps generalizing state with
  | zero => rfl
  | succ steps ih =>
    rw [splitDown, ih, permanentBump_pushFree]

theorem permanentBump_coalesce (above : ℕ) (state : State) (offset ci : ℕ) :
    (coalesce above state offset ci).permanentBump = state.permanentBump := by
  induction above generalizing state offset ci with
  | zero => rfl
  | succ above ih =>
    simp only [coalesce]
    split_ifs <;> simp [ih]

theorem permanentBump_addLargestBlocksToFreeList (start len : ℕ) :
    (state.addLargestBlocksToFreeList start len).permanentBump = state.permanentBump := by
  induction state, start, len using addLargestBlocksToFreeList.induct with
  | case1 state start => simp [addLargestBlocksToFreeList]
  | case2 state start len nonempty ci small =>
    rw [addLargestBlocksToFreeList, if_neg nonempty, if_pos small]
  | case3 state start len nonempty ci large ih =>
    rw [addLargestBlocksToFreeList, if_neg nonempty, if_neg large, ih, permanentBump_pushFree]

theorem permanentBump_addRuns (runs : List Block) :
    (addRuns state runs).permanentBump = state.permanentBump := by
  induction runs generalizing state with
  | nil => rfl
  | cons run rest ih =>
    rw [addRuns, ih, permanentBump_addLargestBlocksToFreeList]

theorem permanentBump_defragmentFreeLists (host : Host) :
    (state.defragmentFreeLists host).permanentBump = state.permanentBump := by
  simp only [defragmentFreeLists]
  split_ifs
  · rfl
  · rfl
  · exact permanentBump_addRuns state.clearFree _

theorem permanentBump_freeBytesManaged (offset len : ℕ) :
    (state.freeBytesManaged offset len).permanentBump = state.permanentBump := by
  rw [freeBytesManaged]
  split_ifs
  · rfl
  · cases state.classIndexFor len with
    | none => rfl
    | some ci => exact permanentBump_coalesce _ state offset ci

variable {state after : State} {ci offset : ℕ}

theorem permanentBump_takeFreeBlock (taken : state.takeFreeBlock ci = some (offset, after)) :
    after.permanentBump = state.permanentBump := by
  rw [takeFreeBlock] at taken
  cases blocks : state.freeBlocks ci with
  | nil => simp [blocks] at taken
  | cons head rest =>
    simp only [blocks, some.injEq, Prod.mk.injEq] at taken
    rw [← taken.2, permanentBump_setFree]

theorem permanentBump_splitLargerFreeBlock
    (split : state.splitLargerFreeBlock ci = some (offset, after)) :
    after.permanentBump = state.permanentBump := by
  rcases bind_eq_some_iff.mp split with ⟨splitCi, _, mapped⟩
  rcases map_eq_some_iff.mp mapped with ⟨⟨from_offset, taken⟩, takes, equal⟩
  cases equal
  rw [permanentBump_splitDown, permanentBump_takeFreeBlock takes]

theorem permanentBump_takeOrSplit (taken : state.takeOrSplit ci = some (offset, after)) :
    after.permanentBump = state.permanentBump := by
  rw [takeOrSplit] at taken
  cases takes : state.takeFreeBlock ci with
  | none =>
    simp only [takes] at taken
    exact permanentBump_splitLargerFreeBlock taken
  | some first =>
    simp only [takes, some.injEq] at taken
    subst taken
    exact permanentBump_takeFreeBlock takes

theorem permanentBump_allocBytesManaged (host : Host) (n : ℕ) :
    (state.allocBytesManaged host n).2.permanentBump = state.permanentBump := by
  rw [allocBytesManaged]
  split_ifs
  · rfl
  · cases classOf : state.classIndexFor n with
    | none => rfl
    | some ci =>
      cases takes : state.takeFreeBlock ci with
      | some taken =>
        rcases taken with ⟨offset, after⟩
        simp only [takes]
        exact permanentBump_takeFreeBlock takes
      | none =>
        simp only [takes]
        split_ifs with classRoom overflowRoom scattered
        · rfl
        · rfl
        · cases splits : state.splitLargerFreeBlock ci with
          | some split => exact permanentBump_splitLargerFreeBlock splits
          | none =>
            have defragmented := state.permanentBump_defragmentFreeLists host
            cases last : (state.defragmentFreeLists host).takeOrSplit ci with
            | none => exact defragmented
            | some taken => exact (permanentBump_takeOrSplit last).trans defragmented
        · cases splits : state.splitLargerFreeBlock ci with
          | some split => exact permanentBump_splitLargerFreeBlock splits
          | none => rfl

theorem permanentBump_compactManagedHeap {host : Host} {blocks : List Block}
    {relocs : List CompactReloc}
    (compacted : state.compactManagedHeap host blocks = some (relocs, after)) :
    after.permanentBump = state.permanentBump := by
  rw [compactManagedHeap, if_neg (not_not.mpr (moves_of_compacted compacted)),
    some.injEq, Prod.mk.injEq] at compacted
  rw [← compacted.2]
  rfl

theorem permanentBump_bump {alignment size pos : ℕ}
    (bumped : state.bump alignment size = some (pos, after)) :
    after.permanentBump = pos ∧ pos + size ≤ state.permanentBump := by
  rcases bump_spec bumped with ⟨rfl, _, room⟩
  exact ⟨rfl, room⟩

end State

/-- No operation but a reset gives permanent data back. -/
theorem permanentBump_apply_le {system : System} {op : Op} (keeps : op ≠ .reset) :
    (op.apply system).state.permanentBump ≤ system.state.permanentBump := by
  cases op with
  | bump alignment size =>
    rw [Op.apply]
    cases bumped : system.state.bump alignment size with
    | none => exact le_rfl
    | some result =>
      rcases State.permanentBump_bump bumped with ⟨equal, room⟩
      simp only [equal]
      omega
  | allocate host n =>
    rw [Op.apply]
    split_ifs
    · exact le_rfl
    · exact (system.state.permanentBump_allocBytesManaged host n).le
  | free block len => exact (system.state.permanentBump_freeBytesManaged block.offset len).le
  | defragment host => exact (system.state.permanentBump_defragmentFreeLists host).le
  | compact host =>
    rw [Op.apply]
    cases compacted : system.state.compactManagedHeap host system.live with
    | none => exact le_rfl
    | some result => exact (State.permanentBump_compactManagedHeap compacted).le
  | reset => exact absurd rfl keeps

end Gengo.Heap
