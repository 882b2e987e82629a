import Gengo.Heap.Compaction
import Gengo.Heap.Runs

/-!
# What compaction preserves

The blocks are copied to lower addresses in the order of their addresses, and a block is
copied before another one is copied over it. A slice keeps its bytes exactly when they all
move as the pointer fix-up of its first byte says. The blocks' sizes follow from the lengths
that their owners show, so that an iterator over a map that has shrunk or grown since can
hold bytes that no listed block holds.
-/

namespace Gengo.Heap

open Intervals List Option Function Nat

/-- A table of relocations: the blocks lie one behind the other before and after, and none
moves up. -/
structure Table (relocs : List CompactReloc) : Prop where
  old : relocs.Pairwise fun left right => left.oldAddr + left.blockSize ≤ right.oldAddr
  new : relocs.Pairwise fun left right => left.newAddr + left.blockSize ≤ right.newAddr
  lower : ∀ reloc ∈ relocs, reloc.newAddr ≤ reloc.oldAddr
  positive : ∀ reloc ∈ relocs, 0 < reloc.blockSize

theorem Table.tail {reloc : CompactReloc} {rest : List CompactReloc}
    (table : Table (reloc :: rest)) : Table rest :=
  ⟨(pairwise_cons.mp table.old).2, (pairwise_cons.mp table.new).2,
    fun other listed => table.lower other (mem_cons_of_mem _ listed),
    fun other listed => table.positive other (mem_cons_of_mem _ listed)⟩

theorem copyForwards_apply {β : Type} {dst src : ℕ} (n : ℕ) (down : dst ≤ src) (memory : ℕ → β)
    (point : ℕ) : copyForwards dst src n memory point =
      if dst ≤ point ∧ point < dst + n then memory (src + (point - dst)) else memory point := by
  induction n generalizing dst src memory with
  | zero =>
    rw [copyForwards, if_neg]
    omega
  | succ n ih =>
    rw [copyForwards, ih (succ_le_succ down)]
    by_cases first : point = dst
    · subst first
      rw [if_neg (by omega), if_pos (by omega), update_self, Nat.sub_self]
      rfl
    · by_cases inside : dst ≤ point ∧ point < dst + (n + 1)
      · rw [if_pos (by omega), if_pos inside, update_of_ne (by omega)]
        congr 1
        omega
      · rw [if_neg (by omega), if_neg inside, update_of_ne first]

/-- Where the byte of a place comes from. -/
def origin : List CompactReloc → ℕ → ℕ
  | [], point => point
  | reloc :: rest, point =>
    if point ∈ reloc.new then reloc.oldAddr + (point - reloc.newAddr) else origin rest point

variable {point : ℕ}

theorem mem_new {reloc : CompactReloc} : point ∈ reloc.new ↔
    reloc.newAddr ≤ point ∧ point < reloc.newAddr + reloc.blockSize :=
  .rfl

theorem mem_old {reloc : CompactReloc} : point ∈ reloc.old ↔
    reloc.oldAddr ≤ point ∧ point < reloc.oldAddr + reloc.blockSize :=
  .rfl

theorem origin_of_mem {relocs : List CompactReloc} (table : Table relocs) {reloc : CompactReloc}
    (listed : reloc ∈ relocs) (holds : point ∈ reloc.new) :
    origin relocs point = reloc.oldAddr + (point - reloc.newAddr) := by
  induction relocs with
  | nil => cases listed
  | cons head rest ih =>
    rw [origin]
    rcases mem_cons.mp listed with rfl | listed
    · rw [if_pos holds]
    · have behind := (pairwise_cons.mp table.new).1 reloc listed
      rw [mem_new] at holds
      rw [if_neg (by rw [mem_new]; omega)]
      exact ih table.tail listed

theorem origin_of_not_mem {relocs : List CompactReloc}
    (outside : ∀ reloc ∈ relocs, point ∉ reloc.new) : origin relocs point = point := by
  induction relocs with
  | nil => rfl
  | cons head rest ih =>
    rw [origin, if_neg (outside head mem_cons_self)]
    exact ih fun reloc listed => outside reloc (mem_cons_of_mem _ listed)

/-- After the copy each place holds the byte of its origin: what is still to be copied has
not been overwritten. -/
theorem copyBlocks_apply {β : Type} {relocs : List CompactReloc} (table : Table relocs)
    (memory : ℕ → β) (point : ℕ) :
    copyBlocks relocs memory point = memory (origin relocs point) := by
  induction relocs generalizing memory with
  | nil => rfl
  | cons head rest ih =>
    have lower := table.lower head mem_cons_self
    have first : ∀ place, (if head.newAddr = head.oldAddr then memory
        else copyForwards head.newAddr head.oldAddr head.blockSize memory) place =
          if place ∈ head.new then memory (head.oldAddr + (place - head.newAddr))
          else memory place := by
      intro place
      by_cases stays : head.newAddr = head.oldAddr
      · rw [if_pos stays]
        split
        · rename_i holds
          rw [mem_new] at holds
          congr 1
          omega
        · rfl
      · rw [if_neg stays, copyForwards_apply _ lower]
        rfl
    rw [copyBlocks, ih table.tail, first, origin]
    by_cases later : ∃ reloc ∈ rest, point ∈ reloc.new
    · obtain ⟨reloc, listed, holds⟩ := later
      have newBehind := (pairwise_cons.mp table.new).1 reloc listed
      have oldBehind := (pairwise_cons.mp table.old).1 reloc listed
      rw [origin_of_mem table.tail listed holds]
      rw [mem_new] at holds
      rw [if_neg (by rw [mem_new]; omega), if_neg (by rw [mem_new]; omega)]
    · push Not at later
      rw [origin_of_not_mem later]
      split <;> rfl

/-- The rounds of the search close in on the last block that starts at or before the address. -/
theorem searchReloc_spec (relocs : List CompactReloc) (addr rounds lo hi : ℕ)
    (enough : hi ≤ lo + 1 + rounds) (ordered : lo < hi) (inside : hi ≤ relocs.length)
    (low : lo = 0 ∨ (relocs.getD lo ⟨0, 0, 0⟩).oldAddr ≤ addr)
    (high : hi = relocs.length ∨ addr < (relocs.getD hi ⟨0, 0, 0⟩).oldAddr) :
    ∃ found, searchReloc relocs addr rounds lo hi = found ∧ found < relocs.length ∧
      (found = 0 ∨ (relocs.getD found ⟨0, 0, 0⟩).oldAddr ≤ addr) ∧
      (found + 1 = relocs.length ∨ addr < (relocs.getD (found + 1) ⟨0, 0, 0⟩).oldAddr) := by
  induction rounds generalizing lo hi with
  | zero =>
    obtain rfl : hi = lo + 1 := by omega
    exact ⟨lo, rfl, by omega, low, high⟩
  | succ rounds ih =>
    rw [searchReloc]
    by_cases apart : lo + 1 < hi
    · rw [if_pos apart]
      by_cases before : (relocs.getD (lo + (hi - lo) / 2) ⟨0, 0, 0⟩).oldAddr ≤ addr
      · rw [if_pos before]
        exact ih _ _ (by omega) (by omega) inside (.inr before) high
      · rw [if_neg before]
        exact ih _ _ (by omega) (by omega) (by omega) low (.inr (Nat.lt_of_not_le before))
    · rw [if_neg apart]
      obtain rfl : hi = lo + 1 := by omega
      exact ⟨lo, rfl, by omega, low, high⟩

variable {addr : ℕ}

theorem Table.eq_of_mem_old {relocs : List CompactReloc} (table : Table relocs)
    {left right : CompactReloc} (leftListed : left ∈ relocs) (rightListed : right ∈ relocs)
    (inLeft : addr ∈ left.old) (inRight : addr ∈ right.old) : left = right := by
  rw [mem_old] at inLeft inRight
  obtain ⟨i, iLt, rfl⟩ := getElem_of_mem leftListed
  obtain ⟨j, jLt, rfl⟩ := getElem_of_mem rightListed
  have apart := pairwise_iff_getElem.mp table.old
  rcases lt_trichotomy i j with before | rfl | behind
  · have ordered := apart i j iLt jLt before
    omega
  · rfl
  · have ordered := apart j i jLt iLt behind
    omega

theorem compactFindReloc_eq {relocs : List CompactReloc} (addr : ℕ) (nonempty : relocs ≠ []) :
    ∃ found, ∃ foundLt : found < relocs.length,
      (found = 0 ∨ relocs[found].oldAddr ≤ addr) ∧
      (∀ next : found + 1 < relocs.length, addr < relocs[found + 1].oldAddr) ∧
      compactFindReloc relocs addr =
        if addr ∈ relocs[found].old then
          some (relocs[found].newAddr + (addr - relocs[found].oldAddr))
        else none := by
  have positive := length_pos_of_ne_nil nonempty
  obtain ⟨found, foundEq, foundLt, low, high⟩ :=
    searchReloc_spec relocs addr relocs.length 0 relocs.length (by omega) positive
      (le_refl _) (.inl rfl) (.inl rfl)
  have entry : ∀ index (inside : index < relocs.length),
      relocs.getD index ⟨0, 0, 0⟩ = relocs[index] := by
    intro index inside
    rw [getD_eq_getElem?_getD, List.getElem?_eq_getElem inside, getD_some]
  refine ⟨found, foundLt, ?_, ?_, ?_⟩
  · rw [entry found foundLt] at low
    exact low
  · intro next
    rcases high with last | above
    · omega
    · rw [entry _ next] at above
      exact above
  · rw [compactFindReloc, if_neg positive.ne', foundEq, entry found foundLt]
    by_cases holds : addr ∈ relocs[found].old
    · rw [if_pos holds, if_neg]
      rw [mem_old] at holds
      omega
    · rw [if_neg holds, if_pos]
      rw [mem_old] at holds
      omega

theorem compactFindReloc_of_mem {relocs : List CompactReloc} (table : Table relocs)
    {reloc : CompactReloc} (listed : reloc ∈ relocs) (holds : addr ∈ reloc.old) :
    compactFindReloc relocs addr = some (reloc.newAddr + (addr - reloc.oldAddr)) := by
  obtain ⟨index, indexLt, rfl⟩ := getElem_of_mem listed
  obtain ⟨found, foundLt, low, high, findEq⟩ :=
    compactFindReloc_eq addr (ne_nil_of_mem listed)
  have apart := pairwise_iff_getElem.mp table.old
  have inside := mem_old.mp holds
  have same : found = index := by
    rcases lt_trichotomy found index with before | same | behind
    · have next : addr < relocs[found + 1].oldAddr := high (by omega)
      rcases Nat.eq_or_lt_of_le before with last | further
      · obtain rfl : found + 1 = index := last
        omega
      · have ordered := apart (found + 1) index (by omega) indexLt further
        omega
    · exact same
    · have ordered := apart index found indexLt foundLt behind
      omega
  subst same
  rw [findEq, if_pos holds]

theorem compactFindReloc_of_not_mem {relocs : List CompactReloc}
    (outside : ∀ reloc ∈ relocs, addr ∉ reloc.old) : compactFindReloc relocs addr = none := by
  by_cases empty : relocs = []
  · rw [empty]
    rfl
  · obtain ⟨found, foundLt, -, -, findEq⟩ := compactFindReloc_eq addr empty
    rw [findEq, if_neg (outside _ (getElem_mem foundLt))]

/-- The blocks in front of an address. -/
def before (blocks : List Block) (addr : ℕ) : List Block :=
  blocks.filter fun block => block.offset < addr

/-- How far down a block moves: the space between the blocks in front of it. -/
def displacement (blocks : List Block) (block : Block) : ℕ :=
  block.offset - totalSize (before blocks block.offset)

/-- How far down the pointer fix-up moves an address: as far as the block that holds it. -/
def shift (blocks : List Block) (addr : ℕ) : ℕ :=
  match blocks.find? fun block => addr ∈ block with
  | some block => displacement blocks block
  | none => 0

theorem relocate_table {dest : ℕ} {blocks : List Block} (destDvd : managedAlign ∣ dest)
    (aligned : ∀ block ∈ blocks, managedAlign ∣ block.size)
    (positive : ∀ block ∈ blocks, 0 < block.size)
    (ordered : blocks.Pairwise fun left right => left.stop ≤ right.offset)
    (above : ∀ block ∈ blocks, dest ≤ block.offset) :
    Table (relocate dest blocks).1 ∧
      ∀ reloc ∈ (relocate dest blocks).1, dest ≤ reloc.newAddr ∧ reloc.old ∈ blocks ∧
        reloc.newAddr = dest + totalSize (before blocks reloc.oldAddr) := by
  induction blocks generalizing dest with
  | nil => exact ⟨⟨.nil, .nil, nofun, nofun⟩, nofun⟩
  | cons head rest ih =>
    rw [forall_mem_cons] at aligned positive above
    rw [pairwise_cons] at ordered
    have restAbove : ∀ block ∈ rest, dest + head.size ≤ block.offset := by
      intro block listed
      have behind := ordered.1 block listed
      rw [Block.stop] at behind
      exact Nat.le_trans (Nat.add_le_add_right above.1 _) behind
    obtain ⟨table, entries⟩ := ih (dvd_add destDvd aligned.1) aligned.2
      positive.2 ordered.2 restAbove
    have headBefore : before (head :: rest) head.offset = [] := by
      refine filter_eq_nil_iff.mpr fun block listed => ?_
      rw [decide_eq_true_iff]
      rcases mem_cons.mp listed with rfl | listed
      · exact lt_irrefl _
      · have behind := ordered.1 block listed
        rw [Block.stop] at behind
        omega
    rw [relocate, alignUp_of_dvd destDvd]
    constructor
    · constructor
      · refine .cons (fun reloc listed => ?_) table.old
        exact ordered.1 reloc.old (entries reloc listed).2.1
      · exact .cons (fun reloc listed => (entries reloc listed).1) table.new
      · exact forall_mem_cons.mpr ⟨above.1, table.lower⟩
      · exact forall_mem_cons.mpr ⟨positive.1, table.positive⟩
    · rw [forall_mem_cons]
      constructor
      · refine ⟨le_refl _, mem_cons_self, ?_⟩
        rw [headBefore]
        rfl
      · intro reloc listed
        obtain ⟨atLeast, old, newEq⟩ := entries reloc listed
        have behind : head.offset < reloc.oldAddr := by
          have stopLe : head.stop ≤ reloc.oldAddr := ordered.1 reloc.old old
          rw [Block.stop] at stopLe
          omega
        refine ⟨by omega, mem_cons_of_mem _ old, ?_⟩
        have headIncluded : before (head :: rest) reloc.oldAddr =
            head :: before rest reloc.oldAddr :=
          filter_cons_of_pos (decide_eq_true behind)
        rw [newEq, headIncluded, totalSize_cons, add_assoc]

theorem sortByOffset_ordered {blocks : List Block} (positive : ∀ block ∈ blocks, 0 < block.size)
    (disjoint : blocks.Pairwise Block.Disjoint) :
    (sortByOffset blocks).Pairwise fun left right => left.stop ≤ right.offset := by
  have perm := sortByOffset_perm blocks
  have apart : (sortByOffset blocks).Pairwise Block.Disjoint :=
    (perm.pairwise_iff fun disjoint point left right => disjoint point right left).mpr disjoint
  let _ : Std.Total fun left right : Block => left.offset ≤ right.offset :=
    ⟨fun left right => le_total left.offset right.offset⟩
  let _ : IsTrans Block fun left right => left.offset ≤ right.offset :=
    ⟨fun _ _ _ => Nat.le_trans⟩
  have sorted : (sortByOffset blocks).Pairwise fun left right => left.offset ≤ right.offset :=
    pairwise_insertionSort _ blocks
  refine (apart.and sorted).imp_of_mem fun {left right} _ rightListed both => ?_
  have rightPositive := positive right (perm.mem_iff.mp rightListed)
  -- The first byte of the later block is not in the earlier one.
  by_contra overlaps
  refine both.1 right.offset ⟨both.2, Nat.lt_of_not_le overlaps⟩ ⟨le_refl _, ?_⟩
  rw [Block.stop]
  omega

/-- The table of a compaction: it lists the blocks, and their new places fill the space from
the first byte on. -/
structure Relocates (blocks : List Block) (relocs : List CompactReloc) : Prop
    extends Table relocs where
  listed : ∀ block, block ∈ blocks ↔ ∃ reloc ∈ relocs, reloc.old = block
  newAddr_eq : ∀ reloc ∈ relocs, reloc.newAddr = totalSize (before blocks reloc.oldAddr)
  fills : ∀ point, (∃ reloc ∈ relocs, point ∈ reloc.new) ↔ point < totalSize blocks

theorem relocates_sortByOffset {blocks : List Block}
    (aligned : ∀ block ∈ blocks, managedAlign ∣ block.size)
    (positive : ∀ block ∈ blocks, 0 < block.size) (disjoint : blocks.Pairwise Block.Disjoint) :
    Relocates blocks (relocate 0 (sortByOffset blocks)).1 := by
  have perm := sortByOffset_perm blocks
  have sortedAligned : ∀ block ∈ sortByOffset blocks, managedAlign ∣ block.size :=
    fun block listed => aligned block (perm.mem_iff.mp listed)
  obtain ⟨newEq, oldEq, -⟩ := relocate_spec (dvd_zero managedAlign) sortedAligned
  obtain ⟨table, entries⟩ := relocate_table (dvd_zero managedAlign) sortedAligned
    (fun block listed => positive block (perm.mem_iff.mp listed))
    (sortByOffset_ordered positive disjoint)
    fun block _ => zero_le _
  refine ⟨table, ?_, ?_, ?_⟩
  · intro block
    have old := (mem_map (f := CompactReloc.old)
      (l := (relocate 0 (sortByOffset blocks)).1) (b := block)).symm
    rw [oldEq, perm.mem_iff] at old
    exact old.symm
  · intro reloc listed
    rw [(entries reloc listed).2.2, zero_add]
    exact totalSize_perm (perm.filter _)
  · intro point
    have covered := @cover_pos (pack 0 (sortByOffset blocks)) point
    rw [cover_pack, between_pos, zero_add, totalSize_perm perm, ← newEq] at covered
    simpa using covered.symm

namespace Relocates

variable {blocks : List Block} {relocs : List CompactReloc}

section

variable (relocates : Relocates blocks relocs)
include relocates

theorem displacement_eq {reloc : CompactReloc} (listed : reloc ∈ relocs) :
    displacement blocks reloc.old = reloc.oldAddr - reloc.newAddr := by
  rw [relocates.newAddr_eq reloc listed]
  rfl

theorem shift_of_mem {reloc : CompactReloc} (listed : reloc ∈ relocs) (holds : addr ∈ reloc.old) :
    shift blocks addr = reloc.oldAddr - reloc.newAddr := by
  have found : (blocks.find? fun block => addr ∈ block).isSome := by
    rw [List.find?_isSome]
    exact ⟨reloc.old, (relocates.listed _).mpr ⟨reloc, listed, rfl⟩, decide_eq_true holds⟩
  obtain ⟨block, blockEq⟩ := isSome_iff_exists.mp found
  obtain ⟨other, otherListed, rfl⟩ :=
    (relocates.listed block).mp (mem_of_find?_eq_some blockEq)
  have inOther : addr ∈ other.old := by simpa using List.find?_some blockEq
  obtain rfl := relocates.toTable.eq_of_mem_old otherListed listed inOther holds
  rw [shift, blockEq]
  exact relocates.displacement_eq listed

theorem shift_of_not_mem (outside : ∀ reloc ∈ relocs, addr ∉ reloc.old) :
    shift blocks addr = 0 := by
  have nothing : (blocks.find? fun block => addr ∈ block) = none := by
    refine List.find?_eq_none.mpr fun block listed => ?_
    obtain ⟨reloc, relocListed, rfl⟩ := (relocates.listed block).mp listed
    rw [decide_eq_true_iff]
    exact outside reloc relocListed
  rw [shift, nothing]

theorem shift_le (addr : ℕ) : shift blocks addr ≤ addr := by
  by_cases inside : ∃ reloc ∈ relocs, addr ∈ reloc.old
  · obtain ⟨reloc, listed, holds⟩ := inside
    rw [relocates.shift_of_mem listed holds]
    exact Nat.le_trans (sub_le _ _) (mem_old.mp holds).1
  · push Not at inside
    rw [relocates.shift_of_not_mem inside]
    exact zero_le _

/-- The fix-up moves a pointer as far down as the block that holds it. -/
theorem updateSlice_eq (slice : Slice) :
    updateSlice relocs slice =
      if 0 < slice.len then { slice with ptr := slice.ptr - shift blocks slice.ptr } else
        slice := by
  rw [updateSlice]
  by_cases nonempty : 0 < slice.len
  · rw [if_pos nonempty, if_pos nonempty]
    by_cases inside : ∃ reloc ∈ relocs, slice.ptr ∈ reloc.old
    · obtain ⟨reloc, listed, holds⟩ := inside
      have lower := relocates.lower reloc listed
      rw [compactFindReloc_of_mem relocates.toTable listed holds,
        relocates.shift_of_mem listed holds]
      rw [mem_old] at holds
      dsimp only
      congr 1
      omega
    · push Not at inside
      rw [compactFindReloc_of_not_mem inside, relocates.shift_of_not_mem inside, Nat.sub_zero]
  · rw [if_neg nonempty, if_neg nonempty]

/-- The byte of a place is found as far down as it is looked for exactly when its own block
moves as far, or when nothing moves and no block is copied over it. -/
theorem origin_eq_iff {down : ℕ} (below : down ≤ point) :
    origin relocs (point - down) = point ↔
      (∃ block ∈ blocks, point ∈ block ∧ displacement blocks block = down) ∨
        (down = 0 ∧ totalSize blocks ≤ point) := by
  by_cases packed : point - down < totalSize blocks
  · obtain ⟨reloc, listed, holds⟩ := (relocates.fills _).mpr packed
    rw [origin_of_mem relocates.toTable listed holds]
    have bounds := mem_new.mp holds
    have lower := relocates.lower reloc listed
    constructor
    · intro same
      refine .inl ⟨reloc.old, (relocates.listed _).mpr ⟨reloc, listed, rfl⟩, ?_, ?_⟩
      · rw [mem_old]
        omega
      · rw [relocates.displacement_eq listed]
        omega
    · rintro (⟨block, blockListed, inBlock, downEq⟩ | ⟨rfl, beyond⟩)
      · obtain ⟨other, otherListed, rfl⟩ := (relocates.listed block).mp blockListed
        have otherLower := relocates.lower other otherListed
        have otherBounds := mem_old.mp inBlock
        rw [relocates.displacement_eq otherListed] at downEq
        have otherHolds : point - down ∈ other.new := by
          rw [mem_new]
          omega
        have same := origin_of_mem relocates.toTable otherListed otherHolds
        rw [origin_of_mem relocates.toTable listed holds] at same
        omega
      · omega
  · have outside : ∀ reloc ∈ relocs, point - down ∉ reloc.new := fun reloc listed holds =>
      packed ((relocates.fills _).mp ⟨reloc, listed, holds⟩)
    rw [origin_of_not_mem outside]
    constructor
    · intro stays
      exact .inr ⟨by omega, by omega⟩
    · rintro (⟨block, blockListed, inBlock, downEq⟩ | ⟨rfl, -⟩)
      · obtain ⟨reloc, listed, rfl⟩ := (relocates.listed block).mp blockListed
        have lower := relocates.lower reloc listed
        rw [relocates.displacement_eq listed] at downEq
        refine absurd ?_ (outside reloc listed)
        rw [mem_old] at inBlock
        rw [mem_new]
        omega
      · rfl

end

end Relocates

/-- An extent at its new address. -/
def Extent.moved (blocks : List Block) (extent : Extent) : Extent :=
  ⟨extent.ptr - shift blocks extent.ptr, extent.size⟩

/-- The bytes of an extent follow its first one: each lies in a block that moves as far, or,
when that does not move, behind the space that the blocks are packed into. -/
def Follows (blocks : List Block) (extent : Extent) : Prop :=
  ∀ point, extent.ptr ≤ point → point < extent.ptr + extent.size →
    (∃ block ∈ blocks, point ∈ block ∧ displacement blocks block = shift blocks extent.ptr) ∨
      (shift blocks extent.ptr = 0 ∧ totalSize blocks ≤ point)

theorem follows_empty (blocks : List Block) {extent : Extent} (empty : extent.size = 0) :
    Follows blocks extent := by
  intro point atLeast inside
  rw [empty] at inside
  exact absurd inside (not_lt.mpr atLeast)

theorem Extent.bytes_eq_iff {left right : Extent} (sameSize : left.size = right.size)
    {after memory : ℕ → UInt8} : left.bytes after = right.bytes memory ↔
      ∀ i < right.size, after (left.ptr + i) = memory (right.ptr + i) := by
  rw [Extent.bytes, Extent.bytes, sameSize, map_inj_left]
  simp only [mem_range]

/-- Whatever the memory holds, an extent shows the same afterwards exactly when its bytes
follow. -/
theorem Relocates.bytes_moved_iff {blocks : List Block} {relocs : List CompactReloc}
    (relocates : Relocates blocks relocs) (extent : Extent) :
    (∀ memory, (extent.moved blocks).bytes (copyBlocks relocs memory) = extent.bytes memory) ↔
      Follows blocks extent := by
  have low := relocates.shift_le extent.ptr
  have sources : Follows blocks extent ↔ ∀ i < extent.size,
      origin relocs (extent.ptr - shift blocks extent.ptr + i) = extent.ptr + i := by
    constructor
    · intro follows i inside
      have same := (relocates.origin_eq_iff (by omega)).mpr
        (follows (extent.ptr + i) (le_add_right _ _) (by omega))
      rwa [Nat.sub_add_comm low] at same
    · intro same point atLeast inside
      have here := same (point - extent.ptr) (by omega)
      rw [← Nat.sub_add_comm low, Nat.add_sub_cancel' atLeast] at here
      exact (relocates.origin_eq_iff (by omega)).mp here
  rw [sources]
  constructor
  · intro shows i inside
    -- A memory with a single marked byte tells the places apart.
    have marked := (Extent.bytes_eq_iff (by rfl)).mp
      (shows fun place => if place = extent.ptr + i then 1 else 0) i inside
    rw [copyBlocks_apply relocates.toTable, if_pos rfl, Extent.moved] at marked
    by_contra other
    rw [if_neg other] at marked
    exact absurd marked (by decide)
  · intro same memory
    refine (Extent.bytes_eq_iff (by rfl)).mpr fun i inside => ?_
    rw [copyBlocks_apply relocates.toTable]
    exact congrArg memory (same i inside)

/-- What is laid out soundly: the listed blocks have class sizes, share no byte and end below
the permanent region, where the elements of the arrays that do not grow are. -/
structure Laid (state : State) (objects : List Object) : Prop where
  tidy : state.Tidy
  sized : Sized state (state.blocks objects)
  disjoint : (state.blocks objects).Pairwise Block.Disjoint
  below : ∀ block ∈ state.blocks objects, block.stop ≤ state.permanentBump
  permanent : ∀ items, Object.array items ∈ objects → 0 < items.len →
    state.permanentBump ≤ items.ptr

namespace Laid

variable {state : State} {objects : List Object}

section

variable (laid : Laid state objects)
include laid

theorem relocates :
    Relocates (state.blocks objects) (relocate 0 (sortByOffset (state.blocks objects))).1 :=
  relocates_sortByOffset laid.sized.dvd laid.sized.pos laid.disjoint

theorem totalSize_le : totalSize (state.blocks objects) ≤ state.permanentBump :=
  Intervals.totalSize_le laid.below (cover_le_one laid.disjoint)

theorem shift_permanent (above : state.permanentBump ≤ addr) :
    shift (state.blocks objects) addr = 0 := by
  refine laid.relocates.shift_of_not_mem fun reloc listed holds => ?_
  have stopLe := laid.below reloc.old ((laid.relocates.listed _).mpr ⟨reloc, listed, rfl⟩)
  exact not_lt.mpr (Nat.le_trans stopLe above) holds.2

theorem follows_permanent {extent : Extent} (above : state.permanentBump ≤ extent.ptr) :
    Follows (state.blocks objects) extent :=
  fun _ atLeast _ => .inr ⟨laid.shift_permanent above,
    Nat.le_trans laid.totalSize_le (Nat.le_trans above atLeast)⟩

theorem follows_block {block : Block} (listed : block ∈ state.blocks objects) {extent : Extent}
    (starts : extent.ptr = block.offset) (fits : extent.size ≤ block.size) :
    Follows (state.blocks objects) extent := by
  obtain ⟨reloc, relocListed, rfl⟩ := (laid.relocates.listed block).mp listed
  intro point atLeast inside
  refine .inl ⟨reloc.old, listed, ?_, ?_⟩
  · exact ⟨starts ▸ atLeast, by rw [Block.stop]; omega⟩
  · have first : extent.ptr ∈ reloc.old := ⟨starts.ge, by rw [Block.stop]; omega⟩
    rw [laid.relocates.displacement_eq relocListed, laid.relocates.shift_of_mem relocListed first]

theorem follows_owned {slice : Slice} {elemSize : ℕ}
    (listed : ∀ block ∈ state.ownedBlock slice elemSize, block ∈ state.blocks objects) :
    Follows (state.blocks objects) (slice.extent elemSize) := by
  by_cases empty : slice.len = 0
  · exact follows_empty _ (by rw [Slice.extent, empty, zero_mul])
  · rw [State.ownedBlock, if_pos (pos_of_ne_zero empty), forall_mem_singleton] at listed
    refine laid.follows_block listed rfl ?_
    have positive := laid.sized.pos _ listed
    -- A listed block is of the class of its bytes.
    dsimp only [Slice.extent] at positive ⊢
    rw [State.managedBlockSize] at positive ⊢
    split at positive
    · omega
    · rename_i nonempty
      rw [if_neg nonempty]
      split at positive
      · omega
      · rename_i ci found
        exact (classIndexFor_eq_some found).2

end

end Laid

variable {obj : Object}

theorem Laid.follows_of_owned {state : State} {objects : List Object} (laid : Laid state objects)
    (live : obj ∈ objects) : ∀ extent ∈ owned obj, Follows (state.blocks objects) extent := by
  have listed : ∀ block ∈ state.compactFillBlocks obj, block ∈ state.blocks objects :=
    fun block present => mem_flatMap.mpr ⟨obj, live, present⟩
  cases obj with
  | dynString s | stringBuilder buf len | arrayManaged items | map entries | mapManaged entries
  | structInstance fields | closure upvalues | bigint limbs len =>
    exact forall_mem_singleton.mpr (laid.follows_owned listed)
  | mapHashed entries len buckets | variantValue armFields sharedValues =>
    rw [State.compactFillBlocks, forall_mem_append] at listed
    exact forall_mem_cons.mpr ⟨laid.follows_owned listed.1,
      forall_mem_singleton.mpr (laid.follows_owned listed.2)⟩
  | array items =>
    refine forall_mem_singleton.mpr ?_
    by_cases empty : items.len = 0
    · exact follows_empty _ (by rw [Slice.extent, empty, zero_mul])
    · exact laid.follows_permanent (laid.permanent items live (pos_of_ne_zero empty))
  | structType fields =>
    refine forall_mem_singleton.mpr ?_
    by_cases owns : 0 < fields.len ∧ state.isManagedAddr fields.ptr
    · rw [State.compactFillBlocks, if_pos owns, forall_mem_singleton] at listed
      exact laid.follows_block listed rfl (le_refl _)
    · by_cases empty : fields.len = 0
      · exact follows_empty _ (by rw [Slice.extent, empty, zero_mul])
      · refine laid.follows_permanent ?_
        have heapLe := laid.tidy.permanentBump_le
        rw [State.isManagedAddr, decide_eq_true_iff] at owns
        dsimp only [Slice.extent]
        omega
  | stringView bytes => exact nofun
  | arrayView items => exact nofun
  | iterator kind string array map => exact nofun
  | other => exact nofun

theorem Relocates.bytes_updateSlice {blocks : List Block} {relocs : List CompactReloc}
    (relocates : Relocates blocks relocs) (slice : Slice) (elemSize : ℕ) (memory : ℕ → UInt8) :
    ((updateSlice relocs slice).extent elemSize).bytes memory =
      ((slice.extent elemSize).moved blocks).bytes memory := by
  rw [relocates.updateSlice_eq]
  by_cases nonempty : 0 < slice.len
  · rw [if_pos nonempty]
    rfl
  · rw [if_neg nonempty, Extent.bytes, Extent.bytes, Extent.moved, Slice.extent,
      Nat.eq_zero_of_not_pos nonempty, zero_mul]
    rfl

/-- The elements of an array that does not grow stay where they are. -/
theorem Laid.bytes_permanent {state : State} {objects : List Object} (laid : Laid state objects)
    {items : Slice} (live : Object.array items ∈ objects) (memory : ℕ → UInt8) :
    (items.extent valueSize).bytes memory =
      ((items.extent valueSize).moved (state.blocks objects)).bytes memory := by
  by_cases nonempty : 0 < items.len
  · rw [Extent.moved, Slice.extent, laid.shift_permanent (laid.permanent items live nonempty),
      Nat.sub_zero]
  · rw [Extent.bytes, Extent.bytes, Extent.moved, Slice.extent,
      Nat.eq_zero_of_not_pos nonempty, zero_mul]
    rfl

/-- The extents of an object afterwards show what its extents at their new addresses show. -/
theorem Laid.contents_compactUpdateObj {state : State} {objects : List Object}
    (laid : Laid state objects) (live : obj ∈ objects) (memory : ℕ → UInt8) :
    contents memory (compactUpdateObj
      (relocate 0 (sortByOffset (state.blocks objects))).1 obj) =
      (owned obj ++ borrowed obj).map
        fun extent => (extent.moved (state.blocks objects)).bytes memory := by
  have updated := laid.relocates.bytes_updateSlice
  cases obj with
  | array items =>
    simp only [contents, compactUpdateObj, owned, borrowed, append_nil, map_cons,
      map_nil, laid.bytes_permanent live]
  | iterator kind string array map =>
    cases kind <;>
      simp only [contents, compactUpdateObj, owned, borrowed, nil_append, map_cons,
        map_nil, updated]
  | other => rfl
  | _ =>
    simp only [contents, compactUpdateObj, owned, borrowed, append_nil, nil_append,
      map_cons, map_nil, updated]

/-- A compaction preserves what the objects hold, whatever the memory: the relocated blocks
do not overlap, none moves up, and none is copied over one that is copied later. -/
def Preserves (host : Host) (state : State) (objects : List Object) : Prop :=
  ∀ relocs after, state.compactManagedHeap host (state.blocks objects) = some (relocs, after) →
    (∀ obj ∈ objects, ∀ memory,
      contents (copyBlocks relocs memory) (compactUpdateObj relocs obj) = contents memory obj) ∧
    (relocs.map CompactReloc.new).Pairwise Block.Disjoint ∧
    (∀ reloc ∈ relocs, reloc.newAddr ≤ reloc.oldAddr) ∧
    relocs.Pairwise fun copied later => copied.new.Disjoint later.old

theorem Table.new_disjoint {relocs : List CompactReloc} (table : Table relocs) :
    (relocs.map CompactReloc.new).Pairwise Block.Disjoint := by
  rw [pairwise_map]
  refine table.new.imp fun {left right} behind point inLeft inRight => ?_
  rw [mem_new] at inLeft inRight
  omega

theorem Table.copied_before {relocs : List CompactReloc} (table : Table relocs) :
    relocs.Pairwise fun copied later => copied.new.Disjoint later.old := by
  refine table.old.imp_of_mem fun {copied later} listed _ behind point inNew inOld => ?_
  have lower := table.lower copied listed
  rw [mem_new] at inNew
  rw [mem_old] at inOld
  omega

theorem Laid.contents_iff {state : State} {objects : List Object} (laid : Laid state objects)
    (live : obj ∈ objects) :
    (∀ memory, contents (copyBlocks (relocate 0 (sortByOffset (state.blocks objects))).1 memory)
        (compactUpdateObj (relocate 0 (sortByOffset (state.blocks objects))).1 obj) =
          contents memory obj) ↔
      ∀ extent ∈ borrowed obj, Follows (state.blocks objects) extent := by
  have each : (∀ memory, contents
      (copyBlocks (relocate 0 (sortByOffset (state.blocks objects))).1 memory)
        (compactUpdateObj (relocate 0 (sortByOffset (state.blocks objects))).1 obj) =
          contents memory obj) ↔
      ∀ extent ∈ owned obj ++ borrowed obj, Follows (state.blocks objects) extent := by
    constructor
    · intro same extent listed
      refine (laid.relocates.bytes_moved_iff extent).mp fun memory => ?_
      have here := same memory
      rw [laid.contents_compactUpdateObj live, contents, map_inj_left] at here
      exact here extent listed
    · intro follows memory
      rw [laid.contents_compactUpdateObj live, contents, map_inj_left]
      exact fun extent listed => (laid.relocates.bytes_moved_iff extent).mpr
        (follows extent listed) memory
  rw [each, forall_mem_append]
  exact and_iff_right (laid.follows_of_owned live)

/-- A compaction that moves blocks preserves what the objects hold exactly when the bytes
of every slice that a view or an iterator shows follow. -/
theorem preserves_iff (host : Host) {state : State} {objects : List Object}
    (laid : Laid state objects) :
    Preserves host state objects ↔
      (Moves host (state.blocks objects) →
        ∀ obj ∈ objects, ∀ extent ∈ borrowed obj, Follows (state.blocks objects) extent) := by
  constructor
  · intro preserves moves obj live
    obtain ⟨⟨relocs, after⟩, compacted⟩ := exists_compacted moves
    have kept := (preserves relocs after compacted).1 obj live
    rw [State.compactManagedHeap, if_neg (not_not.mpr moves)] at compacted
    obtain ⟨rfl, -⟩ := Prod.mk.inj (some.inj compacted)
    exact (laid.contents_iff live).mp kept
  · intro follows relocs after compacted
    have moves := moves_of_compacted compacted
    rw [State.compactManagedHeap, if_neg (not_not.mpr moves)] at compacted
    obtain ⟨rfl, -⟩ := Prod.mk.inj (some.inj compacted)
    have table := laid.relocates.toTable
    exact ⟨fun obj live => (laid.contents_iff live).mpr (follows moves obj live),
      table.new_disjoint, table.lower, table.copied_before⟩

/-- The heap after three allocations, of which the first was freed. -/
def shrunkHeap : System :=
  (Op.free ⟨0, 32⟩ 20).apply ((Op.allocate roomyHost 8).apply ((Op.allocate roomyHost 160).apply
    ((Op.allocate roomyHost 20).apply ⟨State.init 4096, []⟩)))

theorem shrunkHeap_run : Run (fun _ _ => True) shrunkHeap := by
  have start : Run (fun _ _ => True) ⟨State.init 4096, []⟩ := .init 4096
  refine .step (.step (.step (.step start trivial trivial) trivial trivial) trivial trivial)
    ⟨?_, ?_⟩ trivial
  · decide
  · decide

/-- A string and a view into it. -/
def viewObjects : List Object :=
  [.dynString ⟨288, 8⟩, .stringView ⟨290, 3⟩]

theorem viewObjects_laid : Laid shrunkHeap.state viewObjects := by
  have blocksEq : shrunkHeap.state.blocks viewObjects = [⟨288, 16⟩] := by decide
  have permanentEq : shrunkHeap.state.permanentBump = 4096 := by decide
  refine ⟨(valid_of_run shrunkHeap_run).tidy, by unfold Sized; decide, ?_, ?_, ?_⟩
  · rw [blocksEq]
    exact pairwise_singleton _ _
  · rw [blocksEq, permanentEq]
    decide
  · intro items live
    simp [viewObjects] at live

theorem preserves_viewObjects : Preserves roomyHost shrunkHeap.state viewObjects := by
  refine (preserves_iff roomyHost viewObjects_laid).mpr fun _ obj live extent shown => ?_
  have blocksEq : shrunkHeap.state.blocks viewObjects = [⟨288, 16⟩] := by decide
  rw [blocksEq]
  simp only [viewObjects, mem_cons, not_mem_nil, or_false] at live
  rcases live with rfl | rfl
  · cases shown
  · obtain rfl := mem_singleton.mp shown
    intro point atLeast inside
    refine .inl ⟨⟨288, 16⟩, mem_singleton_self _, ?_, by decide⟩
    change 288 ≤ point ∧ point < 304
    dsimp only [Slice.extent] at atLeast inside
    omega

/-- A map of five entries from which one was deleted, an iterator over it, and a string. -/
def shrunkObjects : List Object :=
  [.mapManaged ⟨32, 4⟩, .iterator .map ⟨0, 0⟩ ⟨0, 0⟩ ⟨32, 5⟩, .dynString ⟨288, 8⟩]

theorem shrunkObjects_laid : Laid shrunkHeap.state shrunkObjects := by
  have blocksEq : shrunkHeap.state.blocks shrunkObjects = [⟨32, 128⟩, ⟨288, 16⟩] := by
    decide
  have permanentEq : shrunkHeap.state.permanentBump = 4096 := by decide
  refine ⟨(valid_of_run shrunkHeap_run).tidy, by unfold Sized; decide, ?_, ?_, ?_⟩
  · rw [blocksEq, pairwise_pair]
    intro point inMap inString
    exact absurd inString.1 (not_le.mpr (lt_of_lt_of_le inMap.2 (by decide)))
  · rw [blocksEq, permanentEq]
    decide
  · intro items live
    simp [shrunkObjects] at live

/-- Every compaction of every sound heap preserves what the objects hold. -/
def CompactionPreserves : Prop :=
  ∀ host state objects, Laid state objects → Preserves host state objects

/-- The iterator's fifth entry is not in the block that is copied for the map: afterwards the
string is in its place. -/
theorem not_compactionPreserves : ¬CompactionPreserves := by
  intro preserves
  have moves : Moves roomyHost (shrunkHeap.state.blocks shrunkObjects) := by decide
  obtain ⟨⟨relocs, after⟩, compacted⟩ :=
    @exists_compacted roomyHost _ shrunkHeap.state moves
  have kept := (preserves roomyHost shrunkHeap.state shrunkObjects shrunkObjects_laid relocs after
    compacted).1
  rw [State.compactManagedHeap, if_neg (not_not.mpr moves)] at compacted
  obtain ⟨rfl, -⟩ := Prod.mk.inj (some.inj compacted)
  have live : Object.iterator .map ⟨0, 0⟩ ⟨0, 0⟩ ⟨32, 5⟩ ∈ shrunkObjects := by decide
  have follows := (shrunkObjects_laid.contents_iff live).mp (kept _ live) ⟨32, 160⟩
    (mem_singleton_self _) 160 (by decide) (by decide)
  have blocksEq : shrunkHeap.state.blocks shrunkObjects = [⟨32, 128⟩, ⟨288, 16⟩] := by decide
  rw [blocksEq] at follows
  rcases follows with ⟨block, listed, holds, -⟩ | ⟨stays, -⟩
  · simp only [mem_cons, not_mem_nil, or_false] at listed
    rcases listed with rfl | rfl
    · exact absurd holds (by change ¬(32 ≤ 160 ∧ 160 < 160); decide)
    · exact absurd holds (by change ¬(288 ≤ 160 ∧ 160 < 304); decide)
  · exact absurd stays (by decide)

end Gengo.Heap
