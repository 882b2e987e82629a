import Gengo.Heap.Runs

/-!
# What compaction recovers

When a managed allocation succeeds, told from the free lists and the bump offsets, and
with it when a compaction leaves room for every block that would fit behind the packed
live blocks.
-/

namespace Gengo.Heap

open Intervals List Function Nat

namespace State

/-- A free block of the class or of a larger one. -/
def Offers (state : State) (ci : ℕ) : Prop :=
  ∃ larger, ci ≤ larger ∧ larger < state.classCount ∧ state.freeBlocks larger ≠ []

/-- The blocks on the free lists can be sorted: the stack buffer holds them, or the host
provides another. -/
def Sortable (host : Host) (state : State) : Prop :=
  state.freeList.length ≤ 512 ∨ host.allocates state.freeList.length

/-- There is room for a block of the class: on the free lists, in the region of the class,
in the overflow region, or in adjacent free blocks. -/
def Serves (host : Host) (state : State) (ci : ℕ) : Prop :=
  state.Offers ci ∨ state.classBump ci + classSize ci ≤ state.classEnd ci ∨
    state.overflowBump + classSize ci ≤ state.permanentBump ∨
    (state.Sortable host ∧ ∃ run ∈ state.freeRuns, classSize ci ≤ run.size)

variable {state : State} {ci : ℕ}

theorem takeFreeBlock_eq_none : state.takeFreeBlock ci = none ↔ state.freeBlocks ci = [] := by
  rw [takeFreeBlock]
  split <;> simp_all

theorem splitLargerFreeBlock_eq_none :
    state.splitLargerFreeBlock ci = none ↔
      ∀ larger, ci < larger → larger < state.classCount → state.freeBlocks larger = [] := by
  constructor
  · intro none larger above inside
    by_contra offered
    have found : ((List.range' (ci + 1) (state.classCount - (ci + 1))).find? fun splitCi =>
        !(state.freeBlocks splitCi).isEmpty).isSome := by
      rw [List.find?_isSome]
      exact ⟨larger, mem_range'_1.mpr (by omega), by simpa using offered⟩
    obtain ⟨splitCi, splitEq⟩ := Option.isSome_iff_exists.mp found
    have nonempty := List.find?_some splitEq
    rw [splitLargerFreeBlock, splitEq, Option.bind_some, Option.map_eq_none_iff,
      takeFreeBlock_eq_none] at none
    simp [none] at nonempty
  · intro empty
    have nothing : ((List.range' (ci + 1) (state.classCount - (ci + 1))).find? fun splitCi =>
        !(state.freeBlocks splitCi).isEmpty) = none := by
      refine List.find?_eq_none.mpr fun larger present => ?_
      have bounds := mem_range'_1.mp present
      simp [empty larger (by omega) (by omega)]
    rw [splitLargerFreeBlock, nothing, Option.bind_none]

theorem takeOrSplit_eq_none (inside : ci < state.classCount) :
    state.takeOrSplit ci = none ↔ ¬state.Offers ci := by
  have split : state.takeOrSplit ci = none ↔
      state.freeBlocks ci = [] ∧ state.splitLargerFreeBlock ci = none := by
    rw [← takeFreeBlock_eq_none, takeOrSplit]
    split <;> simp_all
  rw [split, splitLargerFreeBlock_eq_none]
  constructor
  · rintro ⟨here, above⟩ ⟨larger, atLeast, belowCount, offered⟩
    rcases eq_or_lt_of_le atLeast with rfl | strictly
    · exact offered here
    · exact offered (above larger strictly belowCount)
  · intro refuses
    have empty : ∀ larger, ci ≤ larger → larger < state.classCount →
        state.freeBlocks larger = [] := fun larger atLeast belowCount => by
      by_contra offered
      exact refuses ⟨larger, atLeast, belowCount, offered⟩
    exact ⟨empty ci le_rfl inside, fun larger above => empty larger above.le⟩

end State

variable {state : State}

theorem offers_pushFree {pushed : ℕ} (inside : pushed < state.classCount) (offset ci : ℕ) :
    (state.pushFree pushed offset).Offers ci ↔ state.Offers ci ∨ ci ≤ pushed := by
  constructor
  · rintro ⟨larger, atLeast, belowCount, offered⟩
    by_cases isPushed : larger = pushed
    · exact .inr (isPushed ▸ atLeast)
    · refine .inl ⟨larger, atLeast, belowCount, ?_⟩
      rwa [State.freeBlocks_pushFree, update_of_ne isPushed] at offered
  · rintro (⟨larger, atLeast, belowCount, offered⟩ | atLeast)
    · refine ⟨larger, atLeast, belowCount, ?_⟩
      by_cases isPushed : larger = pushed
      · subst isPushed
        simp
      · rwa [State.freeBlocks_pushFree, update_of_ne isPushed]
    · exact ⟨pushed, atLeast, inside, by simp⟩

variable {ci : ℕ}

theorem le_largestFit {remaining bound : ℕ} (below : ci ≤ bound) (fits : classSize ci ≤ remaining) :
    ci ≤ largestFit remaining bound := by
  induction bound with
  | zero => exact below
  | succ bound ih =>
    rw [largestFit]
    split
    · rename_i tooLarge
      refine ih (le_of_lt_succ (lt_of_le_of_ne below ?_))
      intro same
      rw [same] at fits
      exact absurd fits (not_le.mpr tooLarge)
    · exact below

theorem offers_addLargestBlocksToFreeList (state : State) (start : ℕ) {len : ℕ}
    (aligned : managedAlign ∣ len) (inside : ci < state.classCount) :
    (state.addLargestBlocksToFreeList start len).Offers ci ↔
      state.Offers ci ∨ classSize ci ≤ len := by
  have sizePos := classSize_pos (lt_of_lt_of_le inside state.classCount_le)
  induction len using Nat.strong_induction_on generalizing state start with
  | _ len ih =>
    rw [State.addLargestBlocksToFreeList]
    split
    · rename_i empty
      have tooLarge : ¬classSize ci ≤ len := by omega
      rw [or_iff_left tooLarge]
    · rename_i nonempty
      have smallest : classSize 0 ≤ len := le_of_dvd (pos_of_ne_zero nonempty) aligned
      have fits := largestFit_fits smallest (state.classCount - 1)
      have greatest : classSize ci ≤ len → ci ≤ largestFit len (state.classCount - 1) :=
        le_largestFit (by omega)
      have insideMax := state.largestFit_lt len
      have below := largestFit_le len (state.classCount - 1)
      rw [if_neg (not_lt.mpr fits)]
      generalize largestFit len (state.classCount - 1) = chosen at *
      have chosenPos := classSize_pos insideMax
      have chosenInside : chosen < state.classCount := by omega
      have shorter : len - classSize chosen < len := by omega
      have remainder : ((state.pushFree chosen start).addLargestBlocksToFreeList
          (start + classSize chosen) (len - classSize chosen)).Offers ci ↔
            (state.pushFree chosen start).Offers ci ∨ classSize ci ≤ len - classSize chosen :=
        ih _ shorter _ _ (dvd_sub aligned (managedAlign_dvd_classSize insideMax)) inside
      rw [remainder, offers_pushFree chosenInside, or_assoc]
      refine or_congr_right ⟨?_, fun enough => .inl (greatest enough)⟩
      rintro (smaller | rest)
      · exact (classSize_le smaller insideMax).trans fits
      · omega

theorem offers_addRuns (state : State) {runs : List Block}
    (aligned : ∀ run ∈ runs, managedAlign ∣ run.size) (inside : ci < state.classCount) :
    (state.addRuns runs).Offers ci ↔ state.Offers ci ∨ ∃ run ∈ runs, classSize ci ≤ run.size := by
  induction runs generalizing state with
  | nil => simp [State.addRuns]
  | cons run rest ih =>
    rw [forall_mem_cons] at aligned
    have added := gives_addLargestBlocksToFreeList state run.offset aligned.1
    rw [State.addRuns, ih _ aligned.2
        (by rw [added.refreed.classCount_eq]; exact inside),
      offers_addLargestBlocksToFreeList state run.offset aligned.1 inside, or_assoc,
      exists_mem_cons_iff]

theorem mergeRuns_size (current : Block) (rest : List Block) :
    totalSize (mergeRuns current rest) = current.size + totalSize rest := by
  induction rest generalizing current with
  | nil => rfl
  | cons block rest ih =>
    rw [mergeRuns]
    split
    · rw [ih, totalSize_cons, add_assoc]
    · rw [totalSize_cons, ih, totalSize_cons]

theorem totalSize_freeRuns (state : State) : totalSize state.freeRuns =
    totalSize state.freeList := by
  rw [State.freeRuns, ← totalSize_perm (sortByOffset_perm state.freeList)]
  split
  · rename_i sorted
    rw [sorted]
  · rename_i sorted
    rw [sorted, mergeRuns_size, totalSize_cons]

theorem size_le_totalSize {blocks : List Block} {block : Block} (present : block ∈ blocks) :
    block.size ≤ totalSize blocks :=
  le_sum_of_mem (mem_map_of_mem present)

theorem freeBytes_eq (state : State) : state.freeBytes = totalSize state.freeList := by
  rw [State.freeBytes, State.freeList, totalSize, map_flatMap, List.flatMap, sum_flatten, map_map]
  congr 1
  refine map_congr_left fun ci _ => ?_
  simp [comp_def]

section

variable (inside : ci < state.classCount) (refuses : ¬state.Offers ci)
include inside refuses

theorem size_lt_of_not_offers : ∀ block ∈ state.freeList, block.size < classSize ci := by
  intro block present
  obtain ⟨larger, belowCount, offset, listed, rfl⟩ := mem_freeList.mp present
  refine classSize_lt (Nat.lt_of_not_le fun atLeast => refuses ?_)
    (lt_of_lt_of_le inside state.classCount_le)
  exact ⟨larger, atLeast, belowCount, ne_nil_of_mem listed⟩

theorem offers_defragmentFreeLists {host : Host} :
    (state.defragmentFreeLists host).Offers ci ↔
      state.Sortable host ∧ ∃ run ∈ state.freeRuns, classSize ci ≤ run.size := by
  have sizePos := classSize_pos (lt_of_lt_of_le inside state.classCount_le)
  rw [State.defragmentFreeLists]
  split
  · rename_i few
    refine iff_of_false refuses ?_
    rintro ⟨-, run, present, enough⟩
    have runLe := size_le_totalSize present
    rw [totalSize_freeRuns] at runLe
    have smaller := size_lt_of_not_offers inside refuses
    -- There is at most one free block, and it is too small.
    rcases listEq : state.freeList with _ | ⟨block, _ | ⟨second, rest⟩⟩
    · rw [listEq, totalSize_nil] at runLe
      omega
    · have blockLt := smaller block (by rw [listEq]; exact mem_singleton_self block)
      rw [listEq, totalSize_cons, totalSize_nil] at runLe
      omega
    · rw [listEq, length_cons, length_cons] at few
      omega
  · split
    · rename_i unsortable
      refine iff_of_false refuses fun sorted => ?_
      rcases sorted.1 with small | provided
      · omega
      · exact unsortable.2 provided
    · rename_i sortable
      have cleared : ¬state.clearFree.Offers ci := by
        rintro ⟨larger, -, belowCount, offered⟩
        exact offered (if_pos belowCount)
      rw [offers_addRuns state.clearFree (freeRuns_dvd state) inside, or_iff_right cleared]
      refine (and_iff_right ?_).symm
      rw [State.Sortable]
      by_contra unsortable
      rw [not_or] at unsortable
      exact sortable ⟨by omega, unsortable.2⟩

theorem largestBlock_lt : state.largestBlock < classSize ci := by
  have step : ∀ classes : List ℕ, (∀ larger ∈ classes, larger < state.classCount) →
      ∀ largest < classSize ci, classes.foldl (fun largest larger =>
        if 0 < (state.freeBlocks larger).length ∧ largest < classSize larger then classSize larger
        else largest) largest < classSize ci := by
    intro classes
    induction classes with
    | nil => exact fun _ largest below => below
    | cons head rest ih =>
      intro inCount largest below
      rw [forall_mem_cons] at inCount
      rw [foldl_cons]
      refine ih inCount.2 _ ?_
      split
      · rename_i offered
        refine classSize_lt (Nat.lt_of_not_le fun atLeast => refuses ?_)
          (lt_of_lt_of_le inside state.classCount_le)
        exact ⟨head, atLeast, inCount.1, ne_nil_of_length_pos offered.1⟩
      · exact below
  exact step _ (fun larger present => mem_range.mp present) 0
    (classSize_pos (lt_of_lt_of_le inside state.classCount_le))

end

/-- An allocation succeeds exactly when there is room for a block of its class. -/
theorem allocBytesManaged_isSome_iff (host : Host) (tidy : state.Tidy) {n : ℕ} (nonempty : n ≠ 0)
    (found : state.classIndexFor n = some ci) :
    (state.allocBytesManaged host n).1.isSome ↔ state.Serves host ci := by
  have inside := (classIndexFor_eq_some found).1
  rw [State.allocBytesManaged, if_neg nonempty, found]
  dsimp only
  split
  · rename_i offset taken takenEq
    refine iff_of_true rfl (.inl ⟨ci, le_rfl, inside, fun empty => ?_⟩)
    rw [State.takeFreeBlock_eq_none.mpr empty] at takenEq
    cases takenEq
  · rename_i notTaken
    split
    · rename_i room
      exact iff_of_true rfl (.inr (.inl room))
    · rename_i noRegion
      rw [alignUp_of_dvd tidy.overflowBump_dvd]
      split
      · rename_i room
        exact iff_of_true rfl (.inr (.inr (.inl room)))
      · rename_i noOverflow
        have combined : state.splitLargerFreeBlock ci = none ↔ ¬state.Offers ci := by
          rw [← State.takeOrSplit_eq_none inside, State.takeOrSplit, notTaken]
        split
        · rename_i offset split splitEq
          refine iff_of_true rfl (.inl ?_)
          by_contra refuses
          rw [combined.mpr refuses] at splitEq
          cases splitEq
        · rename_i notSplit
          have refuses := combined.mp notSplit
          have onlyRuns : state.Serves host ci ↔
              state.Sortable host ∧ ∃ run ∈ state.freeRuns, classSize ci ≤ run.size := by
            rw [State.Serves, or_iff_right refuses, or_iff_right noRegion, or_iff_right noOverflow]
          rw [onlyRuns]
          split
          · have insideAfter : ci < (state.defragmentFreeLists host).classCount := by
              rw [(defragmentFreeLists_spec host state).1.classCount_eq]
              exact inside
            rw [← offers_defragmentFreeLists inside refuses]
            split
            · rename_i offset taken takenEq
              refine iff_of_true rfl ?_
              by_contra none
              rw [(State.takeOrSplit_eq_none insideAfter).mpr none] at takenEq
              cases takenEq
            · rename_i notFound
              exact iff_of_false Bool.false_ne_true
                ((State.takeOrSplit_eq_none insideAfter).mp notFound)
          · rename_i noDefrag
            refine iff_of_false Bool.false_ne_true ?_
            rintro ⟨-, run, present, enough⟩
            have runLe := size_le_totalSize present
            rw [totalSize_freeRuns, ← freeBytes_eq] at runLe
            exact noDefrag ⟨enough.trans runLe, largestBlock_lt inside refuses⟩

/-- After a compaction only the overflow region has room. -/
theorem Compacted.serves_iff {live : List Block} {result : List CompactReloc × State}
    (compacted : Compacted state live result) (host : Host) (inside : ci < state.classCount) :
    result.2.Serves host ci ↔
      max state.overflowBase (totalSize live) + classSize ci ≤ state.permanentBump := by
  have sizePos := classSize_pos (lt_of_lt_of_le inside state.classCount_le)
  have refuses : ¬result.2.Offers ci := by
    rintro ⟨larger, -, belowCount, offered⟩
    rw [compacted.classCount_eq] at belowCount
    exact offered (compacted.freeBlocks_eq larger belowCount)
  have noRegion : ¬result.2.classBump ci + classSize ci ≤ result.2.classEnd ci := by
    rw [compacted.classBump_eq ci inside]
    omega
  have noRun : ¬(result.2.Sortable host ∧ ∃ run ∈ result.2.freeRuns, classSize ci ≤ run.size) := by
    rintro ⟨-, run, present, enough⟩
    have runLe := size_le_totalSize present
    rw [totalSize_freeRuns, compacted.freeList_eq, totalSize_nil] at runLe
    omega
  rw [State.Serves, or_iff_right refuses, or_iff_right noRegion, or_iff_left noRun,
    compacted.overflowBump_eq, compacted.permanentBump_eq]

/-- After a compaction every allocation whose block fits behind the packed live blocks
succeeds. -/
def Recovers (host later : Host) (system : System) : Prop :=
  ∀ n ci, system.state.classIndexFor n = some ci →
    totalSize system.live + classSize ci ≤ system.state.permanentBump →
      (((Op.compact host).apply system).state.allocBytesManaged later n).1.isSome

/-- What there is to recover a block from: the space behind the packed blocks, from the
overflow region on; and what there was before when no block moves. -/
def Recoverable (host later : Host) (system : System) : Prop :=
  ∀ ci < system.state.classCount,
    totalSize system.live + classSize ci ≤ system.state.permanentBump →
      if Moves host system.live then
        max system.state.overflowBase (totalSize system.live) + classSize ci ≤
          system.state.permanentBump
      else system.state.Serves later ci

theorem classIndexFor_classSize (inside : ci < state.classCount) :
    state.classIndexFor (classSize ci) = some ci := by
  have reaches : classSize ci ≤ classSize (state.classCount - 1) :=
    classSize_le (by omega) (by have := state.classCount_le; omega)
  obtain ⟨found, foundEq⟩ := Option.isSome_iff_exists.mp (classIndexFor_isSome.mpr reaches)
  obtain ⟨foundInside, fits⟩ := classIndexFor_eq_some foundEq
  rw [foundEq]
  congr 1
  rcases lt_trichotomy found ci with below | same | above
  · have := classSize_lt below (lt_of_lt_of_le inside state.classCount_le)
    omega
  · exact same
  · have := classIndexFor_least foundEq above
    omega

theorem recovers_iff {system : System} (valid : Valid system) (host later : Host) :
    Recovers host later system ↔ Recoverable host later system := by
  have served : ∀ n ci, n ≠ 0 → system.state.classIndexFor n = some ci →
      ((((Op.compact host).apply system).state.allocBytesManaged later n).1.isSome ↔
        if Moves host system.live then
          max system.state.overflowBase (totalSize system.live) + classSize ci ≤
            system.state.permanentBump
        else system.state.Serves later ci) := by
    intro n ci nonempty found
    have inside := (classIndexFor_eq_some found).1
    split
    · rename_i moves
      obtain ⟨⟨relocs, after⟩, moved⟩ := exists_compacted moves
      have compacted := compactManagedHeap_spec valid.tidy valid.sized valid.disjoint moved
      have sameClass : after.classIndexFor n = some ci := by
        rw [State.classIndexFor, compacted.classCount_eq]
        exact found
      rw [Op.apply, moved]
      exact (allocBytesManaged_isSome_iff later compacted.tidy nonempty sameClass).trans
        (compacted.serves_iff later inside)
    · rename_i stays
      rw [Op.apply, compactManagedHeap_of_not_moves stays]
      exact allocBytesManaged_isSome_iff later valid.tidy nonempty found
  constructor
  · intro recovers ci inside fits
    have sizePos := classSize_pos (lt_of_lt_of_le inside system.state.classCount_le)
    have found := classIndexFor_classSize inside
    exact (served _ ci sizePos.ne' found).mp (recovers _ ci found fits)
  · intro recoverable n ci found fits
    by_cases empty : n = 0
    · rw [empty, State.allocBytesManaged, if_pos rfl]
      rfl
    · exact (served n ci empty found).mpr (recoverable ci (classIndexFor_eq_some found).1 fits)

/-- One block in a small, flat heap. -/
def flatHeap : System :=
  (Op.allocate roomyHost 20).apply ⟨State.init 4096, []⟩

theorem recovers_flatHeap : Recovers roomyHost roomyHost flatHeap := by
  have run : Run (fun _ _ => True) flatHeap := .step (.init 4096) trivial trivial
  refine (recovers_iff (valid_of_run run) roomyHost roomyHost).mpr fun ci _ fits => ?_
  have reaches : flatHeap.state.overflowBase ≤ totalSize flatHeap.live := by decide
  rw [if_pos (by decide), max_eq_right reaches]
  exact fits

/-- Compaction recovers all free space in every reachable heap. -/
def HeapRecovers : Prop :=
  ∀ system, Run (fun _ _ => True) system → ∀ host later, Recovers host later system

/-- One block in a partitioned heap whose permanent data reaches down to the overflow
region. -/
def crowdedHeap : System :=
  (Op.bump 0 393216).apply ((Op.allocate roomyHost 16).apply ⟨State.init 524288, []⟩)

/-- The class regions are 131056 bytes; only 16 bytes are left behind them. -/
theorem not_heapRecovers : ¬HeapRecovers := by
  intro recovers
  have run : Run (fun _ _ => True) crowdedHeap :=
    .step (.step (.init 524288) trivial trivial) trivial trivial
  have served := recovers crowdedHeap run roomyHost roomyHost 1024 6 (by decide) (by decide)
  exact absurd served (by decide)

end Gengo.Heap
