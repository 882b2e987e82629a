import Gengo.Heap.Allocator

/-!
# Objects and compaction

The slices that live objects hold, the blocks that a compaction lists for them, the copy of
the blocks to their new addresses, and the slices afterwards. Addresses are offsets from the
first byte of the heap; memory elsewhere lies behind its end. Objects themselves do not
move, and their fields other than slices into the heap are left out.
-/

namespace Gengo.Heap

open Intervals

/-- A pointer and a number of elements. -/
structure Slice where
  ptr : ℕ
  len : ℕ
  deriving DecidableEq, Repr

/-- `@sizeOf(Value)`. -/
def valueSize : ℕ :=
  16

/-- `@sizeOf(MapEntry)`. -/
def mapEntrySize : ℕ :=
  32

/-- `@sizeOf(*Object)`. -/
def pointerSize : ℕ :=
  8

/-- `@sizeOf(i32)`. -/
def bucketSize : ℕ :=
  4

/-- `@sizeOf(Limb)`. -/
def limbSize : ℕ :=
  8

/-- `@sizeOf(StructFieldSpec)`. -/
def structFieldSpecSize : ℕ :=
  56

inductive IterKind
  | array
  | string
  | map
  | range
  deriving DecidableEq, Repr

inductive Object
  | dynString (s : Slice)
  | stringBuilder (buf : Slice) (len : ℕ)
  /-- Elements outside of the managed region. -/
  | array (items : Slice)
  | arrayManaged (items : Slice)
  | map (entries : Slice)
  | mapManaged (entries : Slice)
  | mapHashed (entries : Slice) (len : ℕ) (buckets : Slice)
  | structInstance (fields : Slice)
  | closure (upvalues : Slice)
  | structType (fields : Slice)
  | variantValue (armFields sharedValues : Slice)
  | bigint (limbs : Slice) (len : ℕ)
  | stringView (bytes : Slice)
  | arrayView (items : Slice)
  | iterator (kind : IterKind) (string array map : Slice)
  /-- The kinds without a slice into the heap: cells, growing arrays, small structs, … -/
  | other
  deriving DecidableEq, Repr

namespace State

/-- `isManagedAddr`. -/
def isManagedAddr (state : State) (addr : ℕ) : Bool :=
  addr < state.heapLen ∧ addr < state.permanentBump

/-- The block of a slice that an object owns, none for an empty slice. -/
def ownedBlock (state : State) (slice : Slice) (elemSize : ℕ) : List Block :=
  if 0 < slice.len then [⟨slice.ptr, state.managedBlockSize (slice.len * elemSize)⟩] else []

/-- `compactFillBlocks`: the blocks that an object owns. -/
def compactFillBlocks (state : State) : Object → List Block
  | .dynString s => state.ownedBlock s 1
  | .stringBuilder buf _ => state.ownedBlock buf 1
  | .arrayManaged items => state.ownedBlock items valueSize
  | .map entries => state.ownedBlock entries mapEntrySize
  | .mapManaged entries => state.ownedBlock entries mapEntrySize
  | .mapHashed entries _ buckets =>
    state.ownedBlock entries mapEntrySize ++ state.ownedBlock buckets bucketSize
  | .structInstance fields => state.ownedBlock fields mapEntrySize
  | .closure upvalues => state.ownedBlock upvalues pointerSize
  | .structType fields =>
    if 0 < fields.len ∧ state.isManagedAddr fields.ptr then
      [⟨fields.ptr, fields.len * structFieldSpecSize⟩]
    else []
  | .variantValue armFields sharedValues =>
    state.ownedBlock armFields valueSize ++ state.ownedBlock sharedValues valueSize
  | .bigint limbs _ => state.ownedBlock limbs limbSize
  | .array _ | .stringView _ | .arrayView _ | .iterator .. | .other => []

/-- The blocks that the live objects own, in the order of the pool. -/
def blocks (state : State) (objects : List Object) : List Block :=
  objects.flatMap state.compactFillBlocks

end State

section Copy

variable {β : Type}

/-- `copyForwards`: one byte after the other, from the first on. -/
def copyForwards (dst src : ℕ) : ℕ → (ℕ → β) → ℕ → β
  | 0, memory => memory
  | n + 1, memory =>
    copyForwards (dst + 1) (src + 1) n (Function.update memory dst (memory src))

/-- The sixth phase: the blocks are copied in the order of the table. -/
def copyBlocks : List CompactReloc → (ℕ → β) → ℕ → β
  | [], memory => memory
  | reloc :: rest, memory =>
    copyBlocks rest
      (if reloc.newAddr = reloc.oldAddr then memory
      else copyForwards reloc.newAddr reloc.oldAddr reloc.blockSize memory)

end Copy

/-- The search of `compactFindReloc`, with a bound on its rounds. -/
def searchReloc (relocs : List CompactReloc) (addr : ℕ) : ℕ → ℕ → ℕ → ℕ
  | 0, lo, _ => lo
  | rounds + 1, lo, hi =>
    if lo + 1 < hi then
      let mid := lo + (hi - lo) / 2
      if (relocs.getD mid ⟨0, 0, 0⟩).oldAddr ≤ addr then searchReloc relocs addr rounds mid hi
      else searchReloc relocs addr rounds lo mid
    else lo

/-- `compactFindReloc`: where the byte of an address is afterwards, if a listed block holds it. -/
def compactFindReloc (relocs : List CompactReloc) (addr : ℕ) : Option ℕ :=
  if relocs.length = 0 then none
  else
    let r := relocs.getD (searchReloc relocs addr relocs.length 0 relocs.length) ⟨0, 0, 0⟩
    if addr < r.oldAddr ∨ r.oldAddr + r.blockSize ≤ addr then none
    else some (r.newAddr + (addr - r.oldAddr))

/-- A slice with its pointer fixed up. -/
def updateSlice (relocs : List CompactReloc) (slice : Slice) : Slice :=
  if 0 < slice.len then
    match compactFindReloc relocs slice.ptr with
    | some na => { slice with ptr := na }
    | none => slice
  else slice

/-- `compactUpdateObj`. -/
def compactUpdateObj (relocs : List CompactReloc) : Object → Object
  | .dynString s => .dynString (updateSlice relocs s)
  | .stringBuilder buf len => .stringBuilder (updateSlice relocs buf) len
  | .arrayManaged items => .arrayManaged (updateSlice relocs items)
  | .map entries => .map (updateSlice relocs entries)
  | .mapManaged entries => .mapManaged (updateSlice relocs entries)
  | .mapHashed entries len buckets =>
    .mapHashed (updateSlice relocs entries) len (updateSlice relocs buckets)
  | .structInstance fields => .structInstance (updateSlice relocs fields)
  | .closure upvalues => .closure (updateSlice relocs upvalues)
  | .structType fields => .structType (updateSlice relocs fields)
  | .variantValue armFields sharedValues =>
    .variantValue (updateSlice relocs armFields) (updateSlice relocs sharedValues)
  | .stringView bytes => .stringView (updateSlice relocs bytes)
  | .arrayView items => .arrayView (updateSlice relocs items)
  | .iterator .string string array map => .iterator .string (updateSlice relocs string) array map
  | .iterator .array string array map => .iterator .array string (updateSlice relocs array) map
  | .iterator .map string array map => .iterator .map string array (updateSlice relocs map)
  | .iterator .range string array map => .iterator .range string array map
  | .bigint limbs len => .bigint (updateSlice relocs limbs) len
  | .array items => .array items
  | .other => .other

/-- The bytes of a slice's elements. -/
structure Extent where
  ptr : ℕ
  size : ℕ

def Slice.extent (slice : Slice) (elemSize : ℕ) : Extent :=
  ⟨slice.ptr, slice.len * elemSize⟩

/-- The bytes that an object owns. -/
def owned : Object → List Extent
  | .dynString s => [s.extent 1]
  | .stringBuilder buf _ => [buf.extent 1]
  | .array items | .arrayManaged items => [items.extent valueSize]
  | .map entries | .mapManaged entries | .structInstance entries => [entries.extent mapEntrySize]
  | .mapHashed entries _ buckets => [entries.extent mapEntrySize, buckets.extent bucketSize]
  | .closure upvalues => [upvalues.extent pointerSize]
  | .structType fields => [fields.extent structFieldSpecSize]
  | .variantValue armFields sharedValues =>
    [armFields.extent valueSize, sharedValues.extent valueSize]
  | .bigint limbs _ => [limbs.extent limbSize]
  | .stringView _ | .arrayView _ | .iterator .. | .other => []

/-- The bytes that a view or an iterator shows, which belong to others. -/
def borrowed : Object → List Extent
  | .stringView bytes => [bytes.extent 1]
  | .arrayView items => [items.extent valueSize]
  | .iterator .string string _ _ => [string.extent 1]
  | .iterator .array _ array _ => [array.extent valueSize]
  | .iterator .map _ _ map => [map.extent mapEntrySize]
  | _ => []

/-- The bytes of an extent. -/
def Extent.bytes (memory : ℕ → UInt8) (extent : Extent) : List UInt8 :=
  (List.range extent.size).map fun i => memory (extent.ptr + i)

/-- What an object holds, in the bytes of its slices. Interned strings are
taken to be immortal: their bytes do not lie in the heap. -/
def contents (memory : ℕ → UInt8) (obj : Object) : List (List UInt8) :=
  (owned obj ++ borrowed obj).map (Extent.bytes memory)

end Gengo.Heap
