import Gengo.Blocks.Relocation
import Gengo.Maps.Operations

/-!
# Insertions and compaction

An insertion with its memory: the entries and the buckets lie in blocks, the map has slices of
them, and every allocation may move the blocks first. Slices in local variables do not follow
their blocks, so that they are good until the next allocation only.
-/

namespace Gengo.Maps.InMemory

open Blocks (Compaction Placement Allocation elements overwrite)
open Heap (Slice)
open Tables (search)

/-- What a block was written as last. -/
inductive Block
  | entries (content : ℕ → MapEntry)
  | buckets (content : ℕ → Option ℕ)

/-- Bytes that are not those of entries are read as some entry or other. -/
def Block.entryAt : Block → ℕ → MapEntry
  | .entries content => content
  | .buckets _ => fun _ => ⟨.null, .null⟩

def Block.bucketAt : Block → ℕ → Option ℕ
  | .entries _ => fun _ => none
  | .buckets content => content

/-- The slices of a map object. -/
inductive Held
  | map (entries : Slice)
  | mapManaged (entries : Slice)
  | mapHashed (entries : Slice) (len : ℕ) (buckets : Slice)
  deriving DecidableEq

/-- The block of a slice, which an empty slice does not have. -/
def usedBy (slice : Slice) : List ℕ :=
  if 0 < slice.len then [slice.ptr] else []

namespace Held

def used : Held → List ℕ
  | .map entries | .mapManaged entries => usedBy entries
  | .mapHashed entries _ buckets => usedBy entries ++ usedBy buckets

/-- The entries in use, as a slice. -/
def entries : Held → Slice
  | .map entries | .mapManaged entries => entries
  | .mapHashed entries len _ => { entries with len := len }

/-- The slices, each replaced. -/
def replace (follow : Slice → Slice) : Held → Held
  | .map entries => .map (follow entries)
  | .mapManaged entries => .mapManaged (follow entries)
  | .mapHashed entries len buckets => .mapHashed (follow entries) len (follow buckets)

/-- `compactUpdateObj` -/
def moved (held : Held) (compaction : Compaction Block) : Held :=
  held.replace compaction.slice

/-- The entries in use fit into their block, and the buckets have another one. -/
def Sound : Held → Prop
  | .mapHashed entries len buckets =>
    len ≤ entries.len ∧ (0 < entries.len → 0 < buckets.len → entries.ptr ≠ buckets.ptr)
  | _ => True

end Held

/-- A slice in a local variable, and how many allocations there had been when it was taken. -/
structure LocalSlice where
  slice : Slice
  taken : ℕ

/-- The map object, the memory, and the allocations so far. `stale` says that a slice from before
an allocation has been read, written or published after it. -/
structure State where
  memory : ℕ → Block
  object : Held
  allocations : ℕ
  stale : Bool

namespace State

def entriesAt (state : State) (ptr len : ℕ) : List MapEntry :=
  elements (state.memory ptr).entryAt len

def bucketsAt (state : State) (ptr len : ℕ) : List (Option ℕ) :=
  elements (state.memory ptr).bucketAt len

/-- The map as it is without its places in memory. -/
def view (state : State) : MapObject :=
  match state.object with
  | .map entries => .map (state.entriesAt entries.ptr entries.len)
  | .mapManaged entries => .mapManaged (state.entriesAt entries.ptr entries.len)
  | .mapHashed entries len buckets =>
    .mapHashed ⟨state.entriesAt entries.ptr len, entries.len,
      state.bucketsAt buckets.ptr buckets.len⟩

/-- `compactManagedHeap` -/
def compacted (state : State) (compaction : Compaction Block) : State where
  memory := compaction.apply state.object.used state.memory
  object := state.object.moved compaction
  allocations := state.allocations
  stale := state.stale

/-- A local slice is read, written or published. -/
def use (state : State) (items : LocalSlice) : State :=
  { state with stale := state.stale || items.taken != state.allocations }

/-- A block is written. -/
def write (state : State) (ptr : ℕ) (block : Block) : State :=
  { state with memory := Function.update state.memory ptr block }

theorem memory_write (state : State) (ptr : ℕ) (block : Block) :
    (state.write ptr block).memory ptr = block :=
  Function.update_self _ _ _

theorem memory_write_of_ne (state : State) {ptr other : ℕ} (block : Block) (differs : other ≠ ptr) :
    (state.write ptr block).memory other = state.memory other :=
  Function.update_of_ne differs _ _

def writeEntry (state : State) (ptr index : ℕ) (entry : MapEntry) : State :=
  state.write ptr (.entries (Function.update (state.memory ptr).entryAt index entry))

def writeEntries (state : State) (ptr : ℕ) (written : List MapEntry) : State :=
  state.write ptr (.entries (overwrite (state.memory ptr).entryAt written))

def writeBucket (state : State) (ptr index : ℕ) (bucket : Option ℕ) : State :=
  state.write ptr (.buckets (Function.update (state.memory ptr).bucketAt index bucket))

def writeBuckets (state : State) (ptr : ℕ) (written : List (Option ℕ)) : State :=
  state.write ptr (.buckets (overwrite (state.memory ptr).bucketAt written))

end State

/-- Room for temporary roots, and what comes of each allocation. -/
structure Environment where
  tempRoots : ℕ
  allocations : ℕ → Allocation Block

/-- Code that ends with a result or a failure, and leaves the state behind either way. -/
abbrev Run (α : Type) :=
  ExceptT Failure (StateM State) α

def runFrom {α : Type} (code : Run α) (state : State) : Except Failure α × State :=
  code.run.run state

section Run

variable {α γ : Type}

theorem runFrom_bind_of_ok {code : Run α} {next : α → Run γ} {state middle : State} {result : α}
    (begins : runFrom code state = (.ok result, middle)) :
    runFrom (code >>= next) state = runFrom (next result) middle := by
  unfold runFrom at begins ⊢
  rw [ExceptT.run_bind, StateT.run_bind]
  change (code.run state >>= _) = _
  change code.run state = _ at begins
  rw [begins]
  rfl

theorem runFrom_bind_eq_ok {code : Run α} {next : α → Run γ} {state after : State} {result : γ}
    (ends : runFrom (code >>= next) state = (.ok result, after)) :
    ∃ first middle, runFrom code state = (.ok first, middle) ∧
      runFrom (next first) middle = (.ok result, after) := by
  cases begins : runFrom code state with
  | mk outcome middle =>
    cases outcome with
    | ok first =>
      rw [runFrom_bind_of_ok begins] at ends
      exact ⟨first, middle, rfl, ends⟩
    | error failure =>
      unfold runFrom at begins ends
      rw [ExceptT.run_bind, StateT.run_bind] at ends
      change (code.run state >>= _) = _ at ends
      change code.run state = _ at begins
      rw [begins] at ends
      cases ends

theorem runFrom_ofExcept_eq_ok {outcome : Except Failure α} {state after : State} {result : α}
    (ends : runFrom (MonadExcept.ofExcept outcome) state = (.ok result, after)) :
    outcome = .ok result ∧ after = state := by
  cases outcome with
  | error failure => cases ends
  | ok value =>
    cases ends
    exact ⟨rfl, rfl⟩

end Run

/-- As many temporary roots are in use now. -/
def pushTempRoots (environment : Environment) (count : ℕ) : Run Unit := do
  if environment.tempRoots < count then throw .badTempRootDiscipline

def vmAllocManagedSlice (environment : Environment) (len : ℕ) : Run LocalSlice := do
  let state ← get
  match environment.allocations state.allocations with
  | .refused => throw .outOfMemory
  | .served compaction placement =>
    let compacted := match compaction with
      | some compaction => state.compacted compaction
      | none => state
    set { compacted with allocations := state.allocations + 1 }
    return ⟨⟨placement.place compacted.object.used, len⟩, state.allocations + 1⟩

/-- The entries of the object. -/
def asMapSlice : Run LocalSlice := do
  let state ← get
  return ⟨state.object.entries, state.allocations⟩

def readEntries (items : LocalSlice) : Run (List MapEntry) := do
  modify fun state => state.use items
  return (← get).entriesAt items.slice.ptr items.slice.len

def writeEntry (items : LocalSlice) (index : ℕ) (entry : MapEntry) : Run Unit :=
  modify fun state => (state.use items).writeEntry items.slice.ptr index entry

def writeEntries (items : LocalSlice) (written : List MapEntry) : Run Unit :=
  modify fun state => (state.use items).writeEntries items.slice.ptr written

def writeBucket (buckets : LocalSlice) (index : ℕ) (bucket : Option ℕ) : Run Unit :=
  modify fun state => (state.use buckets).writeBucket buckets.slice.ptr index bucket

def writeBuckets (buckets : LocalSlice) (written : List (Option ℕ)) : Run Unit :=
  modify fun state => (state.use buckets).writeBuckets buckets.slice.ptr written

/-- The object gets other slices, the given ones among them. -/
def publish (locals : List LocalSlice) (object : Held) : Run Unit :=
  modify fun state => { locals.foldl State.use state with object := object }

section

variable (types : Types)

/-- The buckets as `mapBuildHashedBuckets` leaves them. -/
def buildBuckets (entries : List MapEntry) (size : ℕ) : Run (List (Option ℕ)) :=
  MonadExcept.ofExcept (mapBuildHashedBuckets types entries size)

/-- The value of the entry at an index, where there is one. -/
def writeValue (items : LocalSlice) (index : ℕ) (value : Value) : Run Unit := do
  match (← readEntries items)[index]? with
  | some held => writeEntry items index ⟨held.key, value⟩
  | none => return ()

/-- The entries of the map and a new one go to a block that was allocated for them. -/
def extend (ext : LocalSlice) (key value : Value) : Run Unit := do
  let itemsNow ← asMapSlice
  writeEntries ext (← readEntries itemsNow)
  writeEntry ext itemsNow.slice.len ⟨key, value⟩
  publish [ext] (.mapManaged ext.slice)

/-- A list of more than eight entries gets buckets. -/
def promote (environment : Environment) (ext : LocalSlice) : Run Unit := do
  let newLen := ext.slice.len
  if 8 < newLen then
    let bcount := mapBucketsForCount newLen
    let buckets ← vmAllocManagedSlice environment bcount
    writeBuckets buckets (← buildBuckets types (← readEntries ext) bcount)
    publish [ext, buckets] (.mapHashed ext.slice newLen buckets.slice)

/-- `mapSet` of a map without buckets. -/
def mapSetLinear (environment : Environment) (key value : Value) : Run Unit := do
  let items ← asMapSlice
  match mapFindLinear types (← readEntries items) key with
  | some index => writeValue items index value
  | none =>
    pushTempRoots environment 3
    let ext ← vmAllocManagedSlice environment (items.slice.len + 1)
    extend ext key value
    promote types environment ext

/-- The entries of a table go to a block that was allocated for them, and the buckets go away. -/
def growEntries (outEntries : LocalSlice) : Run Unit := do
  let entriesNow ← asMapSlice
  writeEntries outEntries (← readEntries entriesNow)
  publish [outEntries] (.mapHashed outEntries.slice entriesNow.slice.len ⟨0, 0⟩)

/-- The buckets of the entries that are in the object now. -/
def growBuckets (environment : Environment) (outCap : ℕ) : Run Unit := do
  let bcount := mapBucketsForCount outCap
  let outBuckets ← vmAllocManagedSlice environment bcount
  let entriesNow ← asMapSlice
  writeBuckets outBuckets (← buildBuckets types (← readEntries entriesNow) bcount)
  publish [outBuckets]
    (.mapHashed { entriesNow.slice with len := outCap } entriesNow.slice.len outBuckets.slice)

/-- The entry of a key gets a value, or a new entry goes behind the others. -/
def insertHashed (key value : Value) : Run Unit := do
  let state ← get
  match state.object with
  | .mapHashed entries len buckets =>
    let hm : LocalSlice := ⟨entries, state.allocations⟩
    let slots : LocalSlice := ⟨buckets, state.allocations⟩
    let items := state.entriesAt entries.ptr len
    let hash ← MonadExcept.ofExcept (hashOrTrap types key)
    match search (state.bucketsAt buckets.ptr buckets.len) (isAt types items key) hash with
    | .vacant slot =>
      writeEntry hm len ⟨key, value⟩
      writeBucket slots slot (some len)
      publish [] (.mapHashed entries (len + 1) buckets)
    | .found index => writeValue ⟨state.object.entries, state.allocations⟩ index value
    | .exhausted => throw .noVacantBucket
  | _ => return ()

def mapInsertHashed (environment : Environment) (hashed : MapHashed) (key value : Value) :
    Run Unit := do
  if mustGrow hashed then
    pushTempRoots environment 3
    let outCap := grownCapacity hashed
    let outEntries ← vmAllocManagedSlice environment outCap
    growEntries outEntries
    growBuckets types environment outCap
  insertHashed types key value

/-- The key and the value take a temporary root each. -/
def mapSet (environment : Environment) (key value : Value) : Run Unit := do
  pushTempRoots environment 2
  match (← get).view with
  | .mapHashed hashed => mapInsertHashed types environment hashed key value
  | _ => mapSetLinear types environment key value

end

end Gengo.Maps.InMemory
