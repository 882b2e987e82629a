import Gengo.Maps.InMemory
import Gengo.Maps.Refinement

/-!
# Insertions that do not depend on compaction

What an insertion makes of a map is what it makes of it without memory, wherever its blocks are
moved, as long as it reads no slice from before an allocation. The growth of a table takes its
slices again after each allocation. A list that gets its first buckets does not: they are built
from the slice of the entries from before the allocation of the buckets, which is published, too.
-/

namespace Gengo.Maps.InMemory

open List Nat
open Blocks (Compaction Placement Allocation elements overwrite length_elements)
open Heap (Slice)
open Tables (search)

variable {state after : State}

/-! ## Views -/

theorem mem_usedBy {slice : Slice} (nonempty : 0 < slice.len) : slice.ptr ∈ usedBy slice := by
  rw [usedBy, if_pos nonempty]
  exact mem_singleton_self _

theorem entriesAt_eq {before : State} {slice slice' : Slice} {len : ℕ} (fits : len ≤ slice.len)
    (same : 0 < slice.len → after.memory slice'.ptr = before.memory slice.ptr) :
    after.entriesAt slice'.ptr len = before.entriesAt slice.ptr len := by
  cases len with
  | zero => rfl
  | succ len => rw [State.entriesAt, State.entriesAt, same (zero_lt_of_lt fits)]

theorem bucketsAt_eq {before : State} {slice slice' : Slice}
    (same : 0 < slice.len → after.memory slice'.ptr = before.memory slice.ptr) :
    after.bucketsAt slice'.ptr slice.len = before.bucketsAt slice.ptr slice.len := by
  cases nonempty : slice.len with
  | zero => rfl
  | succ len => rw [State.bucketsAt, State.bucketsAt, same (nonempty ▸ succ_pos len)]

/-- The slices follow their blocks, which hold what they held. -/
structure Follows (state after : State) (follow : Slice → Slice) : Prop where
  object : after.object = state.object.replace follow
  len : ∀ slice, (follow slice).len = slice.len
  memory : ∀ slice, 0 < slice.len → slice.ptr ∈ state.object.used →
    after.memory (follow slice).ptr = state.memory slice.ptr

theorem Follows.view_eq {follow : Slice → Slice} (follows : Follows state after follow)
    (sound : state.object.Sound) : after.view = state.view := by
  rcases follows with ⟨object, len, memory⟩
  unfold State.view
  rw [object]
  cases held : state.object with
  | map entries =>
    rw [held] at memory
    have same : after.entriesAt (follow entries).ptr entries.len =
        state.entriesAt entries.ptr entries.len :=
      entriesAt_eq le_rfl fun nonempty => memory _ nonempty (mem_usedBy nonempty)
    change MapObject.map _ = MapObject.map _
    rw [len, same]
  | mapManaged entries =>
    rw [held] at memory
    have same : after.entriesAt (follow entries).ptr entries.len =
        state.entriesAt entries.ptr entries.len :=
      entriesAt_eq le_rfl fun nonempty => memory _ nonempty (mem_usedBy nonempty)
    change MapObject.mapManaged _ = MapObject.mapManaged _
    rw [len, same]
  | mapHashed entries count buckets =>
    rw [held] at memory sound
    have sameEntries : after.entriesAt (follow entries).ptr count =
        state.entriesAt entries.ptr count :=
      entriesAt_eq sound.1 fun nonempty =>
        memory _ nonempty (mem_append_left _ (mem_usedBy nonempty))
    have sameBuckets : after.bucketsAt (follow buckets).ptr buckets.len =
        state.bucketsAt buckets.ptr buckets.len :=
      bucketsAt_eq fun nonempty =>
        memory _ nonempty (mem_append_right _ (mem_usedBy nonempty))
    change MapObject.mapHashed _ = MapObject.mapHashed _
    rw [len, len, sameEntries, sameBuckets]

theorem Held.replace_id (held : Held) : held.replace id = held := by
  cases held with
  | map _ => rfl
  | mapManaged _ => rfl
  | mapHashed _ _ _ => rfl

theorem view_eq (sound : state.object.Sound) (object : after.object = state.object)
    (memory : ∀ block ∈ state.object.used, after.memory block = state.memory block) :
    after.view = state.view := by
  have follows : Follows state after id :=
    ⟨by rw [object, Held.replace_id], fun _ => rfl, fun _ _ inUse => memory _ inUse⟩
  exact follows.view_eq sound

theorem follows_compacted (state : State) (compaction : Compaction Block) :
    Follows state (state.compacted compaction) compaction.slice where
  object := rfl
  len := compaction.len_slice
  memory slice nonempty inUse := by
    rw [compaction.ptr_slice nonempty]
    exact compaction.apply_moves _ inUse

theorem Held.Sound.moved {held : Held} (sound : held.Sound) (compaction : Compaction Block) :
    (held.moved compaction).Sound := by
  cases held with
  | map _ => trivial
  | mapManaged _ => trivial
  | mapHashed entries len buckets =>
    rcases sound with ⟨fits, apart⟩
    change len ≤ (compaction.slice entries).len ∧ (0 < (compaction.slice entries).len →
      0 < (compaction.slice buckets).len →
        (compaction.slice entries).ptr ≠ (compaction.slice buckets).ptr)
    rw [compaction.len_slice, compaction.len_slice]
    constructor
    · exact fits
    · intro hasEntries hasBuckets
      rw [compaction.ptr_slice hasEntries, compaction.ptr_slice hasBuckets]
      exact compaction.injective.ne (apart hasEntries hasBuckets)

/-- What an allocation leaves, whether it moved the blocks or not. -/
structure Served (environment : Environment) (state after : State) (new : LocalSlice) : Prop where
  view : after.view = state.view
  sound : after.object.Sound
  fresh : new.slice.ptr ∉ after.object.used
  taken : new.taken = after.allocations
  allocations : after.allocations = state.allocations + 1
  stale : after.stale = state.stale
  calm : (environment.allocations state.allocations).calm →
    after.object = state.object ∧ after.memory = state.memory

theorem served_of_ok {environment : Environment} {len : ℕ} {new : LocalSlice}
    (sound : state.object.Sound)
    (ends : runFrom (vmAllocManagedSlice environment len) state = (.ok new, after)) :
    Served environment state after new ∧ new.slice.len = len := by
  rcases runFrom_bind_eq_ok ends with ⟨_, _, begins, ends⟩
  cases begins
  cases allocation : environment.allocations state.allocations with
  | refused =>
    rw [allocation] at ends
    cases ends
  | served compaction placement =>
    rw [allocation] at ends
    cases compaction with
    | none =>
      cases ends
      exact ⟨⟨view_eq sound rfl fun _ _ => rfl, sound, placement.fresh _, rfl, rfl, rfl,
        fun _ => ⟨rfl, rfl⟩⟩, rfl⟩
    | some compaction =>
      cases ends
      refine ⟨⟨?_, sound.moved compaction, placement.fresh _, rfl, rfl, rfl, ?_⟩, rfl⟩
      · exact (follows_compacted state compaction).view_eq sound
      · intro calm
        rw [allocation] at calm
        cases calm

theorem pushTempRoots_eq_ok {environment : Environment} {count : ℕ}
    (ends : runFrom (pushTempRoots environment count) state = (.ok (), after)) :
    count ≤ environment.tempRoots ∧ after = state := by
  unfold pushTempRoots at ends
  split at ends
  next => cases ends
  next enough =>
    cases ends
    exact ⟨Nat.le_of_not_lt enough, rfl⟩

section Recent

variable {items : LocalSlice} (recent : items.taken = state.allocations)
include recent

theorem use_eq : state.use items = state := by
  rw [State.use, recent, bne_self_eq_false, Bool.or_false]

theorem runFrom_readEntries : runFrom (readEntries items) state =
    (.ok (state.entriesAt items.slice.ptr items.slice.len), state) := by
  change (_, state.use items) = _
  rw [use_eq recent]
  rfl

theorem runFrom_writeEntries (written : List MapEntry) :
    runFrom (writeEntries items written) state =
      (.ok (), state.writeEntries items.slice.ptr written) := by
  change (_, (state.use items).writeEntries _ _) = _
  rw [use_eq recent]

theorem runFrom_writeEntry (index : ℕ) (entry : MapEntry) :
    runFrom (writeEntry items index entry) state =
      (.ok (), state.writeEntry items.slice.ptr index entry) := by
  change (_, (state.use items).writeEntry _ _ _) = _
  rw [use_eq recent]

theorem runFrom_writeBuckets (written : List (Option ℕ)) :
    runFrom (writeBuckets items written) state =
      (.ok (), state.writeBuckets items.slice.ptr written) := by
  change (_, (state.use items).writeBuckets _ _) = _
  rw [use_eq recent]

theorem runFrom_writeBucket (index : ℕ) (bucket : Option ℕ) :
    runFrom (writeBucket items index bucket) state =
      (.ok (), state.writeBucket items.slice.ptr index bucket) := by
  change (_, (state.use items).writeBucket _ _ _) = _
  rw [use_eq recent]

theorem runFrom_publish (object : Held) :
    runFrom (publish [items] object) state = (.ok (), { state with object := object }) := by
  change (_, { state.use items with object := object }) = _
  rw [use_eq recent]

theorem runFrom_publish_two (other : LocalSlice) (object : Held) :
    runFrom (publish [other, items] object) state =
      (.ok (), { state.use other with object := object }) := by
  have recentThen : items.taken = (state.use other).allocations := recent
  change (_, { (state.use other).use items with object := object }) = _
  rw [use_eq recentThen]

end Recent

/-! ## Reading what was written -/

theorem entriesAt_writeEntry (state : State) (ptr len index : ℕ) (entry : MapEntry) :
    (state.writeEntry ptr index entry).entriesAt ptr len =
      (state.entriesAt ptr len).set index entry := by
  rw [State.entriesAt, State.writeEntry, State.memory_write]
  exact Blocks.elements_update _ _ _ _

theorem entriesAt_writeEntry_len (state : State) (ptr len : ℕ) (entry : MapEntry) :
    (state.writeEntry ptr len entry).entriesAt ptr (len + 1) =
      state.entriesAt ptr len ++ [entry] := by
  rw [State.entriesAt, State.writeEntry, State.memory_write]
  exact Blocks.elements_update_len _ _ _

theorem entriesAt_writeEntries (state : State) (ptr : ℕ) (written : List MapEntry) :
    (state.writeEntries ptr written).entriesAt ptr written.length = written := by
  rw [State.entriesAt, State.writeEntries, State.memory_write]
  exact Blocks.elements_overwrite _ _

theorem bucketsAt_writeBuckets (state : State) (ptr : ℕ) (written : List (Option ℕ)) :
    (state.writeBuckets ptr written).bucketsAt ptr written.length = written := by
  rw [State.bucketsAt, State.writeBuckets, State.memory_write]
  exact Blocks.elements_overwrite _ _

theorem bucketsAt_writeBucket (state : State) (ptr len index : ℕ) (bucket : Option ℕ) :
    (state.writeBucket ptr index bucket).bucketsAt ptr len =
      (state.bucketsAt ptr len).set index bucket := by
  rw [State.bucketsAt, State.writeBucket, State.memory_write]
  exact Blocks.elements_update _ _ _ _

variable {ptr : ℕ}

theorem entriesAt_congr (same : after.memory ptr = state.memory ptr) (len : ℕ) :
    after.entriesAt ptr len = state.entriesAt ptr len := by
  rw [State.entriesAt, State.entriesAt, same]

theorem State.memory_writeEntry_of_ne (state : State) {other : ℕ} (index : ℕ) (entry : MapEntry)
    (differs : other ≠ ptr) :
    (state.writeEntry ptr index entry).memory other = state.memory other :=
  state.memory_write_of_ne _ differs

theorem bucketsAt_congr (same : after.memory ptr = state.memory ptr) (len : ℕ) :
    after.bucketsAt ptr len = state.bucketsAt ptr len := by
  rw [State.bucketsAt, State.bucketsAt, same]

theorem length_entriesAt (state : State) (ptr len : ℕ) : (state.entriesAt ptr len).length = len :=
  length_elements _ _

theorem entries_view (state : State) :
    state.view.entries = state.entriesAt state.object.entries.ptr state.object.entries.len := by
  unfold State.view
  cases state.object with
  | map _ => rfl
  | mapManaged _ => rfl
  | mapHashed _ _ _ => rfl

theorem extend_ok {ext : LocalSlice} (key value : Value)
    (taken : ext.taken = state.allocations) (len : ext.slice.len = state.view.entries.length + 1) :
    ∃ after, runFrom (extend ext key value) state = (.ok (), after) ∧
      after.view = .mapManaged (state.view.entries ++ [⟨key, value⟩]) ∧
      after.object = .mapManaged ext.slice ∧ after.stale = state.stale ∧
      after.allocations = state.allocations := by
  have count : state.view.entries.length = state.object.entries.len := by
    rw [entries_view, length_entriesAt]
  let read := state.entriesAt state.object.entries.ptr state.object.entries.len
  let copied := state.writeEntries ext.slice.ptr read
  let extended := copied.writeEntry ext.slice.ptr state.object.entries.len ⟨key, value⟩
  refine ⟨{ extended with object := .mapManaged ext.slice }, ?_, ?_, rfl, rfl, rfl⟩
  · unfold extend
    rw [runFrom_bind_of_ok (rfl : runFrom asMapSlice state = (.ok _, _)),
      runFrom_bind_of_ok (runFrom_readEntries rfl),
      runFrom_bind_of_ok (runFrom_writeEntries taken _),
      runFrom_bind_of_ok (runFrom_writeEntry ?_ _ _)]
    · apply runFrom_publish
      exact taken
    · exact taken
  · change MapObject.mapManaged (extended.entriesAt ext.slice.ptr ext.slice.len) = _
    rw [len, count, entriesAt_writeEntry_len, entries_view]
    have same : copied.entriesAt ext.slice.ptr state.object.entries.len = read := by
      have written := entriesAt_writeEntries state ext.slice.ptr read
      rwa [length_entriesAt] at written
    rw [same]

variable {entries : List MapEntry}

theorem length_placeEntries {types : Types} {rest : List MapEntry} {index : ℕ}
    {buckets placed : List (Option ℕ)}
    (result : placeEntries types entries rest index buckets = .ok placed) :
    placed.length = buckets.length := by
  induction rest generalizing index buckets with
  | nil =>
    cases result
    rfl
  | cons entry rest ih =>
    rw [placeEntries] at result
    cases hashed : hashOrTrap types entry.key with
    | error failure =>
      rw [hashed] at result
      cases result
    | ok hash =>
      rw [hashed] at result
      rw [ih result, Tables.length_place]

theorem length_mapBuildHashedBuckets {types : Types} {size : ℕ} {buckets : List (Option ℕ)}
    (result : mapBuildHashedBuckets types entries size = .ok buckets) : buckets.length = size := by
  rw [mapBuildHashedBuckets] at result
  split at result
  next isZero =>
    cases result
    exact isZero.symm
  next =>
    rw [length_placeEntries result, length_replicate]

theorem exists_placeEntries {types : Types} {rest : List MapEntry}
    (hashes : ∀ entry ∈ rest, ∃ hash, hashOrTrap types entry.key = .ok hash) (index : ℕ)
    (buckets : List (Option ℕ)) :
    ∃ placed, placeEntries types entries rest index buckets = .ok placed := by
  induction rest generalizing index buckets with
  | nil => exact ⟨buckets, rfl⟩
  | cons entry rest ih =>
    rcases hashes entry (mem_cons_self ..) with ⟨hash, hashed⟩
    rw [placeEntries, hashed]
    exact ih (fun later isLater => hashes later (mem_cons_of_mem _ isLater)) _ _

theorem exists_mapBuildHashedBuckets {types : Types}
    (hashes : ∀ entry ∈ entries, ∃ hash, hashOrTrap types entry.key = .ok hash) (size : ℕ) :
    ∃ buckets, mapBuildHashedBuckets types entries size = .ok buckets := by
  rw [mapBuildHashedBuckets]
  split
  · exact ⟨[], rfl⟩
  · exact exists_placeEntries hashes _ _

/-! ## Tables -/

/-- A table in memory whose entries and buckets have different blocks. -/
structure Apart (state : State) (hashed : MapHashed) (entries : Slice) (len : ℕ) (buckets : Slice) :
    Prop where
  object : state.object = .mapHashed entries len buckets
  sameEntries : state.entriesAt entries.ptr len = hashed.entries
  capacity : entries.len = hashed.capacity
  sameBuckets : state.bucketsAt buckets.ptr buckets.len = hashed.buckets
  differs : entries.ptr ≠ buckets.ptr

variable {hashed : MapHashed} {buckets : Slice} {len : ℕ}

theorem Apart.view {entries : Slice} (apart : Apart state hashed entries len buckets) :
    state.view = .mapHashed hashed := by
  rw [State.view, apart.object]
  change MapObject.mapHashed _ = _
  rw [apart.sameEntries, apart.capacity, apart.sameBuckets]

theorem Apart.len_eq {entries : Slice} (apart : Apart state hashed entries len buckets) :
    len = hashed.entries.length := by
  rw [← apart.sameEntries, length_entriesAt]

theorem object_of_view (view : state.view = .mapHashed hashed) :
    ∃ entries len buckets, state.object = .mapHashed entries len buckets ∧
      state.entriesAt entries.ptr len = hashed.entries ∧ entries.len = hashed.capacity ∧
      state.bucketsAt buckets.ptr buckets.len = hashed.buckets := by
  unfold State.view at view
  cases held : state.object with
  | map _ | mapManaged _ =>
    rw [held] at view
    cases view
  | mapHashed entries len buckets =>
    rw [held] at view
    cases view
    exact ⟨entries, len, buckets, rfl, rfl, rfl, rfl⟩

/-- A table with room for another entry has two blocks, if it has buckets. -/
theorem apart_of_sound (view : state.view = .mapHashed hashed) (sound : state.object.Sound)
    (grown : mustGrow hashed = false) :
    hashed.entries.length < hashed.capacity ∧
      ∃ entries len buckets, Apart state hashed entries len buckets := by
  rcases object_of_view view with
    ⟨entries, len, buckets, object, sameEntries, capacity, sameBuckets⟩
  unfold mustGrow at grown
  simp only [Bool.or_eq_false_iff, decide_eq_false_iff_not, not_le] at grown
  rcases grown with ⟨⟨hasBuckets, room⟩, _⟩
  rw [object] at sound
  refine ⟨room, entries, len, buckets, object, sameEntries, capacity, sameBuckets, sound.2 ?_ ?_⟩
  · rw [capacity]
    exact zero_lt_of_lt room
  · rw [← sameBuckets, State.bucketsAt, length_elements] at hasBuckets
    exact pos_of_ne_zero hasBuckets

/-- The entries with the value of one of them changed. -/
def setValue (entries : List MapEntry) (index : ℕ) (value : Value) : List MapEntry :=
  match entries[index]? with
  | some held => entries.set index ⟨held.key, value⟩
  | none => entries

/-- What changes when a value is written through a slice. -/
structure Revalued (state after : State) (slice : Slice) (index : ℕ) (value : Value) : Prop where
  object : after.object = state.object
  stale : after.stale = state.stale
  entries : after.entriesAt slice.ptr slice.len =
    setValue (state.entriesAt slice.ptr slice.len) index value
  elsewhere : ∀ ptr, ptr ≠ slice.ptr → after.memory ptr = state.memory ptr

theorem writeValue_ok {items : LocalSlice} (recent : items.taken = state.allocations) (index : ℕ)
    (value : Value) :
    ∃ after, runFrom (writeValue items index value) state = (.ok (), after) ∧
      Revalued state after items.slice index value := by
  unfold writeValue
  rw [runFrom_bind_of_ok (runFrom_readEntries recent)]
  cases atIndex : (state.entriesAt items.slice.ptr items.slice.len)[index]? with
  | none =>
    refine ⟨state, rfl, rfl, rfl, ?_, fun _ _ => rfl⟩
    rw [setValue, atIndex]
  | some held =>
    refine ⟨_, runFrom_writeEntry recent _ _, rfl, rfl, ?_, ?_⟩
    · rw [entriesAt_writeEntry, setValue, atIndex]
    · intro ptr differs
      exact state.memory_write_of_ne _ differs

/-- An insertion that succeeds does to the view what it does without memory. -/
theorem insertHashed_eq {types : Types} {entries : Slice}
    (apart : Apart state hashed entries len buckets)
    (room : hashed.entries.length < hashed.capacity) {key value : Value}
    (ends : runFrom (insertHashed types key value) state = (.ok (), after)) :
    Maps.insertHashed types hashed key value = (.ok (), after.view) ∧
      after.stale = state.stale ∧ after.object.Sound := by
  unfold insertHashed at ends
  rw [runFrom_bind_of_ok (rfl : runFrom get state = (.ok state, state)), apart.object] at ends
  rcases runFrom_bind_eq_ok ends with ⟨hash, middle, begins, ends⟩
  rcases runFrom_ofExcept_eq_ok begins with ⟨hashed_, same⟩
  have count := apart.len_eq
  subst count
  rw [same, apart.sameEntries, apart.sameBuckets] at ends
  rw [Maps.insertHashed, hashed_]
  dsimp only
  cases result : search hashed.buckets (isAt types hashed.entries key) hash with
  | vacant slot =>
    rw [result] at ends
    rw [runFrom_bind_of_ok (runFrom_writeEntry rfl _ _),
      runFrom_bind_of_ok (runFrom_writeBucket rfl _ _)] at ends
    cases ends
    let count := hashed.entries.length
    let stored := (state.writeEntry entries.ptr count ⟨key, value⟩).writeBucket buckets.ptr slot
      (some count)
    have written : Apart { stored with object := .mapHashed entries (count + 1) buckets }
        { hashed with
          entries := hashed.entries ++ [⟨key, value⟩]
          buckets := hashed.buckets.set slot (some count) } entries (count + 1) buckets := by
      refine ⟨rfl, ?_, apart.capacity, ?_, apart.differs⟩
      · refine (entriesAt_congr (State.memory_write_of_ne _ _ apart.differs) _).trans ?_
        rw [entriesAt_writeEntry_len, apart.sameEntries]
      · refine (bucketsAt_writeBucket _ _ _ _ _).trans ?_
        have elsewhere := state.memory_writeEntry_of_ne count ⟨key, value⟩ apart.differs.symm
        rw [bucketsAt_congr elsewhere, apart.sameBuckets]
    refine ⟨congrArg (Prod.mk _) written.view.symm, rfl, ?_, fun _ _ => apart.differs⟩
    rw [apart.capacity]
    exact room
  | found index =>
    rw [result] at ends
    let items : LocalSlice := ⟨{ entries with len := hashed.entries.length }, state.allocations⟩
    have recent : items.taken = state.allocations := rfl
    rcases writeValue_ok recent index value with ⟨revalued, writes, same⟩
    change runFrom (writeValue items index value) state = _ at ends
    rw [writes] at ends
    cases ends
    have written : Apart after { hashed with entries := setValue hashed.entries index value }
        entries hashed.entries.length buckets := by
      refine ⟨same.object.trans apart.object, ?_, apart.capacity, ?_, apart.differs⟩
      · exact same.entries.trans (congrArg (setValue · index value) apart.sameEntries)
      · rw [bucketsAt_congr (same.elsewhere _ apart.differs.symm), apart.sameBuckets]
    rw [written.view]
    refine ⟨rfl, same.stale, ?_⟩
    rw [same.object, apart.object]
    refine ⟨?_, fun _ _ => apart.differs⟩
    rw [apart.capacity]
    exact room.le
  | exhausted =>
    rw [result] at ends
    cases ends

theorem growEntries_ok (view : state.view = .mapHashed hashed) {outEntries : LocalSlice}
    (taken : outEntries.taken = state.allocations)
    (fits : hashed.entries.length ≤ outEntries.slice.len) :
    ∃ after, runFrom (growEntries outEntries) state = (.ok (), after) ∧
      after.view = .mapHashed ⟨hashed.entries, outEntries.slice.len, []⟩ ∧ after.object.Sound ∧
      after.stale = state.stale := by
  have read := entries_view state
  rw [view] at read
  change hashed.entries = _ at read
  have count : state.object.entries.len = hashed.entries.length := by
    rw [read, length_entriesAt]
  let copied := state.writeEntries outEntries.slice.ptr hashed.entries
  refine ⟨{ copied with
    object := .mapHashed outEntries.slice state.object.entries.len ⟨0, 0⟩ }, ?_, ?_, ?_, rfl⟩
  · unfold growEntries
    rw [runFrom_bind_of_ok (rfl : runFrom asMapSlice state = (.ok _, _)),
      runFrom_bind_of_ok (runFrom_readEntries rfl), ← read,
      runFrom_bind_of_ok (runFrom_writeEntries taken _)]
    apply runFrom_publish
    exact taken
  · change MapObject.mapHashed ⟨copied.entriesAt outEntries.slice.ptr state.object.entries.len, _,
      []⟩ = _
    rw [count, entriesAt_writeEntries]
  · constructor
    · rwa [count]
    · intro _ impossible
      cases impossible

/-- The buckets are made for the entries where they are after the allocation. -/
theorem growBuckets_ok {types : Types} {environment : Environment}
    (view : state.view = .mapHashed hashed) (sound : state.object.Sound)
    (room : 0 < hashed.capacity)
    (ends : runFrom (growBuckets types environment hashed.capacity) state = (.ok (), after)) :
    ∃ buckets, mapBuildHashedBuckets types hashed.entries (mapBucketsForCount hashed.capacity) =
        .ok buckets ∧
      after.stale = state.stale ∧
      ∃ entries len slots, Apart after { hashed with buckets := buckets } entries len slots := by
  rcases runFrom_bind_eq_ok ends with ⟨outBuckets, allocated, allocates, ends⟩
  rcases served_of_ok sound allocates with ⟨served, len⟩
  rcases object_of_view (served.view.trans view) with
    ⟨entries, count, oldBuckets, object, sameEntries, capacity, _⟩
  rw [runFrom_bind_of_ok (rfl : runFrom asMapSlice allocated = (.ok _, _)),
    runFrom_bind_of_ok (runFrom_readEntries rfl), object] at ends
  rcases runFrom_bind_eq_ok ends with ⟨buckets, built, builds, ends⟩
  rcases runFrom_ofExcept_eq_ok builds with ⟨build, same⟩
  change mapBuildHashedBuckets types (allocated.entriesAt entries.ptr count) _ = _ at build
  rw [sameEntries] at build
  rw [same, runFrom_bind_of_ok (runFrom_writeBuckets served.taken _)] at ends
  have recent : outBuckets.taken =
      (allocated.writeBuckets outBuckets.slice.ptr buckets).allocations := served.taken
  rw [runFrom_publish recent] at ends
  cases ends
  have differs : entries.ptr ≠ outBuckets.slice.ptr := by
    intro same
    apply served.fresh
    rw [object, ← same]
    apply mem_append_left
    apply mem_usedBy
    rwa [capacity]
  refine ⟨buckets, build, served.stale, _, _, _, rfl, ?_, rfl, ?_, differs⟩
  · exact (entriesAt_congr (State.memory_write_of_ne _ _ differs) _).trans sameEntries
  · rw [len, ← length_mapBuildHashedBuckets build]
    exact bucketsAt_writeBuckets _ _ _

/-- An insertion into a table that succeeds does to the view what it does without memory. -/
theorem mapInsertHashed_eq {types : Types} {environment : Environment}
    (view : state.view = .mapHashed hashed) (sound : state.object.Sound) {key value : Value}
    (ends : runFrom (mapInsertHashed types environment hashed key value) state = (.ok (), after)) :
    Maps.mapInsertHashed types ⟨1, true, true, none⟩ hashed key value = (.ok (), after.view) ∧
      after.stale = state.stale ∧ after.object.Sound := by
  unfold mapInsertHashed at ends
  rw [Maps.mapInsertHashed]
  cases grows : mustGrow hashed with
  | false =>
    rw [grows] at ends
    rcases apart_of_sound view sound grows with ⟨room, entries, len, buckets, apart⟩
    exact insertHashed_eq apart room ends
  | true =>
    rw [grows] at ends
    rcases runFrom_bind_eq_ok ends with ⟨_, rooted, begins, ends⟩
    rcases pushTempRoots_eq_ok begins with ⟨_, same⟩
    rcases runFrom_bind_eq_ok ends with ⟨outEntries, allocated, allocates, ends⟩
    rw [same] at allocates
    rcases served_of_ok sound allocates with ⟨served, len⟩
    have fits : hashed.entries.length ≤ outEntries.slice.len := by
      rw [len]
      exact (lt_grownCapacity hashed).le
    rcases growEntries_ok (served.view.trans view) served.taken fits with
      ⟨extended, copies, extendedView, extendedSound, extendedStale⟩
    rw [runFrom_bind_of_ok copies] at ends
    rcases runFrom_bind_eq_ok ends with ⟨_, indexed, builds, ends⟩
    rw [len] at extendedView
    have room : 0 < grownCapacity hashed := zero_lt_of_lt (lt_grownCapacity hashed)
    rcases growBuckets_ok extendedView extendedSound room builds with
      ⟨buckets, build, indexedStale, entries, count, slots, apart⟩
    rcases insertHashed_eq apart (lt_grownCapacity hashed) ends with ⟨result, stale, isSound⟩
    rw [if_pos rfl, if_neg one_ne_zero, if_neg Bool.noConfusion, if_neg Bool.noConfusion]
    rw [build]
    refine ⟨result, ?_, isSound⟩
    rw [stale, indexedStale, extendedStale, served.stale]

/-! ## Promotion -/

/-- A list of eight entries or more without the key gets buckets. -/
def Promotes (types : Types) (object : MapObject) (key : Value) : Prop :=
  match object with
  | .mapHashed _ => False
  | _ => mapFindLinear types object.entries key = none ∧ 8 ≤ object.entries.length

instance (types : Types) (object : MapObject) (key : Value) :
    Decidable (Promotes types object key) := by
  unfold Promotes
  split
  · exact instDecidableFalse
  · exact instDecidableAnd

section Promotion

variable {types : Types} {environment : Environment} {ext : LocalSlice}

theorem promote_short (short : ext.slice.len ≤ 8) :
    runFrom (promote types environment ext) state = (.ok (), state) := by
  unfold promote
  rw [if_neg (not_lt.mpr short)]
  rfl

theorem promote_eq_ok (sound : state.object.Sound) (long : 8 < ext.slice.len)
    (ends : runFrom (promote types environment ext) state = (.ok (), after)) :
    ∃ allocated buckets written,
      Served environment state allocated buckets ∧
      buckets.slice.len = mapBucketsForCount ext.slice.len ∧
      mapBuildHashedBuckets types (allocated.entriesAt ext.slice.ptr ext.slice.len)
        (mapBucketsForCount ext.slice.len) = .ok written ∧
      after = { ((allocated.use ext).writeBuckets buckets.slice.ptr written).use ext with
        object := .mapHashed ext.slice ext.slice.len buckets.slice } := by
  unfold promote at ends
  rw [if_pos long] at ends
  rcases runFrom_bind_eq_ok ends with ⟨buckets, allocated, allocates, ends⟩
  rcases served_of_ok sound allocates with ⟨served, len⟩
  have reads : runFrom (readEntries ext) allocated =
      (.ok (allocated.entriesAt ext.slice.ptr ext.slice.len), allocated.use ext) := rfl
  rw [runFrom_bind_of_ok reads] at ends
  rcases runFrom_bind_eq_ok ends with ⟨written, built, builds, ends⟩
  rcases runFrom_ofExcept_eq_ok builds with ⟨build, same⟩
  have recent : buckets.taken = (allocated.use ext).allocations := served.taken
  have recentThen : buckets.taken =
      ((allocated.use ext).writeBuckets buckets.slice.ptr written).allocations := served.taken
  rw [same, runFrom_bind_of_ok (runFrom_writeBuckets recent _),
    runFrom_publish_two recentThen] at ends
  cases ends
  exact ⟨allocated, buckets, written, served, len, build, rfl⟩

/-- The slice of the entries is from before the allocation of the buckets. -/
theorem promote_stale (sound : state.object.Sound) (taken : ext.taken = state.allocations)
    (long : 8 < ext.slice.len)
    (ends : runFrom (promote types environment ext) state = (.ok (), after)) :
    after.stale = true := by
  rcases promote_eq_ok sound long ends with ⟨allocated, buckets, written, served, _, _, rfl⟩
  have old : (ext.taken != allocated.allocations) = true := by
    rw [taken, served.allocations]
    exact bne_iff_ne.mpr (Nat.ne_of_lt (lt_succ_self _))
  change (_ || (ext.taken != allocated.allocations)) = true
  rw [old, Bool.or_true]

theorem promote_calm (sound : state.object.Sound) (object : state.object = .mapManaged ext.slice)
    (long : 8 < ext.slice.len) (calm : (environment.allocations state.allocations).calm)
    (ends : runFrom (promote types environment ext) state = (.ok (), after)) :
    Maps.promote types ⟨0, true, true, none⟩ state.view.entries = (.ok (), after.view) := by
  rcases promote_eq_ok sound long ends with ⟨allocated, buckets, written, served, len, build, rfl⟩
  rcases served.calm calm with ⟨sameObject, sameMemory⟩
  have entries : allocated.entriesAt ext.slice.ptr ext.slice.len = state.view.entries := by
    rw [entries_view, object]
    exact entriesAt_congr (congrFun sameMemory _) _
  have count : state.view.entries.length = ext.slice.len := by
    rw [← entries, length_entriesAt]
  have differs : ext.slice.ptr ≠ buckets.slice.ptr := by
    intro same
    apply served.fresh
    rw [sameObject, object, ← same]
    exact mem_usedBy (zero_lt_of_lt long)
  rw [entries] at build
  rw [Maps.promote, if_neg (by rw [count]; exact not_le.mpr long), if_neg Bool.noConfusion, count]
  simp only [Supply.stale, build]
  have sameEntries := (entriesAt_congr (State.memory_write_of_ne (allocated.use ext)
    (.buckets (overwrite ((allocated.use ext).memory buckets.slice.ptr).bucketAt written)) differs)
      ext.slice.len).trans entries
  have sameBuckets := bucketsAt_writeBuckets (allocated.use ext) buckets.slice.ptr written
  rw [length_mapBuildHashedBuckets build, ← len] at sameBuckets
  change (_, MapObject.mapHashed _) = (_, MapObject.mapHashed ⟨State.entriesAt _ _ _, _,
    State.bucketsAt _ _ _⟩)
  exact congrArg (fun hashed => (_, MapObject.mapHashed hashed))
    (congrArg₂ (fun entries buckets => MapHashed.mk entries ext.slice.len buckets)
      sameEntries.symm sameBuckets.symm)

end Promotion

/-! ## Insertions into lists -/

section Linear

variable {types : Types} {environment : Environment} {key value : Value}

theorem withEntries_view {index : ℕ} (linear : ∀ hashed, state.view ≠ .mapHashed hashed)
    (revalued : Revalued state after state.object.entries index value) :
    after.view = withEntries state.view (setValue state.view.entries index value) := by
  have entries := revalued.entries
  cases held : state.object with
  | map slice =>
    have view : state.view = .map (state.entriesAt slice.ptr slice.len) := by
      rw [State.view, held]
    rw [held] at entries
    rw [view, State.view, revalued.object, held]
    exact congrArg MapObject.map entries
  | mapManaged slice =>
    have view : state.view = .mapManaged (state.entriesAt slice.ptr slice.len) := by
      rw [State.view, held]
    rw [held] at entries
    rw [view, State.view, revalued.object, held]
    exact congrArg MapObject.mapManaged entries
  | mapHashed slice len buckets =>
    exfalso
    apply linear ⟨state.entriesAt slice.ptr len, slice.len, state.bucketsAt buckets.ptr buckets.len⟩
    rw [State.view, held]

/-- An insertion of a key that is there already. -/
theorem mapSetLinear_present {index : ℕ} (linear : ∀ hashed, state.view ≠ .mapHashed hashed)
    (found : mapFindLinear types state.view.entries key = some index)
    (ends : runFrom (mapSetLinear types environment key value) state = (.ok (), after)) :
    after.view = withEntries state.view (setValue state.view.entries index value) ∧
      after.stale = state.stale ∧ after.object = state.object := by
  let items : LocalSlice := ⟨state.object.entries, state.allocations⟩
  have recent : items.taken = state.allocations := rfl
  unfold mapSetLinear at ends
  rw [entries_view] at found
  rw [runFrom_bind_of_ok (rfl : runFrom asMapSlice state = (.ok _, _)),
    runFrom_bind_of_ok (runFrom_readEntries rfl), found] at ends
  rcases writeValue_ok recent index value with ⟨revalued, writes, same⟩
  change runFrom (writeValue items index value) state = _ at ends
  rw [writes] at ends
  cases ends
  exact ⟨withEntries_view linear same, same.stale, same.object⟩

/-- The parts of an insertion of a new key into a list that succeeds. -/
theorem mapSetLinear_absent (sound : state.object.Sound)
    (absent : mapFindLinear types state.view.entries key = none)
    (ends : runFrom (mapSetLinear types environment key value) state = (.ok (), after)) :
    ∃ ext allocated extended, Served environment state allocated ext ∧
      ext.slice.len = state.view.entries.length + 1 ∧
      extended.view = .mapManaged (state.view.entries ++ [⟨key, value⟩]) ∧
      extended.object = .mapManaged ext.slice ∧ extended.stale = state.stale ∧
      extended.allocations = state.allocations + 1 ∧
      runFrom (promote types environment ext) extended = (.ok (), after) := by
  have count : state.view.entries.length = state.object.entries.len := by
    rw [entries_view, length_entriesAt]
  rw [entries_view] at absent
  unfold mapSetLinear at ends
  rw [runFrom_bind_of_ok (rfl : runFrom asMapSlice state = (.ok _, _)),
    runFrom_bind_of_ok (runFrom_readEntries rfl), absent] at ends
  rcases runFrom_bind_eq_ok ends with ⟨_, rooted, begins, ends⟩
  rcases pushTempRoots_eq_ok begins with ⟨_, same⟩
  rcases runFrom_bind_eq_ok ends with ⟨ext, allocated, allocates, ends⟩
  rw [same] at allocates
  rcases served_of_ok sound allocates with ⟨served, len⟩
  change ext.slice.len = state.object.entries.len + 1 at len
  rw [← count] at len
  rcases extend_ok key value served.taken (by rw [served.view, len]) with
    ⟨extended, extends_, view, object, stale, allocations⟩
  rw [runFrom_bind_of_ok extends_] at ends
  rw [served.view] at view
  exact ⟨ext, allocated, extended, served, len, view, object, stale.trans served.stale,
    allocations.trans served.allocations, ends⟩

/-- An insertion into a list that succeeds does to the view what it does without memory, if it
makes no buckets or moves nothing. -/
theorem mapSetLinear_eq (linear : ∀ hashed, state.view ≠ .mapHashed hashed)
    (sound : state.object.Sound)
    (undisturbed : (mapFindLinear types state.view.entries key = none →
      state.view.entries.length < 8) ∨ ∀ n, (environment.allocations n).calm)
    (ends : runFrom (mapSetLinear types environment key value) state = (.ok (), after)) :
    Maps.mapSetLinear types ⟨1, true, true, none⟩ state.view key value = (.ok (), after.view) := by
  rw [Maps.mapSetLinear]
  cases found : mapFindLinear types state.view.entries key with
  | some index =>
    exact congrArg (Prod.mk _) (mapSetLinear_present linear found ends).1.symm
  | none =>
    rcases mapSetLinear_absent sound found ends with
      ⟨ext, allocated, extended, served, len, view, object, stale, allocations, ends⟩
    rw [if_neg one_ne_zero, if_neg Bool.noConfusion]
    rcases lt_or_ge 8 ext.slice.len with long | short
    · have calm : ∀ n, (environment.allocations n).calm := by
        rcases undisturbed with short | calm
        · have few := short found
          omega
        · exact calm
      have sound' : extended.object.Sound := by
        rw [object]
        trivial
      have result := promote_calm sound' object long (calm _) ends
      rw [view] at result
      exact result
    · rw [promote_short short] at ends
      cases ends
      rw [Maps.promote, if_pos, view]
      rwa [length_append, length_singleton, ← len]

theorem mapSetLinear_stale (linear : ∀ hashed, state.view ≠ .mapHashed hashed)
    (sound : state.object.Sound)
    (few : mapFindLinear types state.view.entries key = none → state.view.entries.length < 8)
    (ends : runFrom (mapSetLinear types environment key value) state = (.ok (), after)) :
    after.stale = state.stale ∧ after.object.Sound := by
  cases found : mapFindLinear types state.view.entries key with
  | some index =>
    rcases mapSetLinear_present linear found ends with ⟨_, stale, object⟩
    rw [object]
    exact ⟨stale, sound⟩
  | none =>
    rcases mapSetLinear_absent sound found ends with
      ⟨ext, allocated, extended, served, len, view, object, stale, allocations, ends⟩
    have fewNow := few found
    rw [promote_short (by omega)] at ends
    cases ends
    rw [object]
    exact ⟨stale, trivial⟩

end Linear

/-! ## Insertions -/

section Set

variable {types : Types} {environment : Environment} {key value : Value}

theorem mapSet_cases
    (ends : runFrom (mapSet types environment key value) state = (.ok (), after)) :
    (∃ hashed, state.view = .mapHashed hashed ∧
      runFrom (mapInsertHashed types environment hashed key value) state = (.ok (), after)) ∨
    ((∀ hashed, state.view ≠ .mapHashed hashed) ∧
      runFrom (mapSetLinear types environment key value) state = (.ok (), after)) := by
  rcases runFrom_bind_eq_ok ends with ⟨_, rooted, begins, ends⟩
  rcases pushTempRoots_eq_ok begins with ⟨_, same⟩
  rw [same, runFrom_bind_of_ok (rfl : runFrom get state = (.ok state, state))] at ends
  cases view : state.view with
  | mapHashed hashed =>
    rw [view] at ends
    exact .inl ⟨hashed, rfl, ends⟩
  | map items | mapManaged items =>
    rw [view] at ends
    refine .inr ⟨?_, ends⟩
    intro hashed impossible
    cases impossible

theorem promotes_iff {object : MapObject} (linear : ∀ hashed, object ≠ .mapHashed hashed) :
    Promotes types object key ↔
      mapFindLinear types object.entries key = none ∧ 8 ≤ object.entries.length := by
  cases object with
  | mapHashed hashed => exact absurd rfl (linear hashed)
  | map _ | mapManaged _ => exact .rfl

theorem mapSet_of_linear {object : MapObject} (linear : ∀ hashed, object ≠ .mapHashed hashed)
    (key value : Value) :
    Maps.mapSet types ⟨3, true, true, none⟩ object key value =
      Maps.mapSetLinear types ⟨1, true, true, none⟩ object key value := by
  cases object with
  | mapHashed hashed => exact absurd rfl (linear hashed)
  | map _ => rfl
  | mapManaged _ => rfl

/-- An insertion that succeeds does to the view what it does without memory, if it does not
promote a list or moves nothing. -/
theorem mapSet_eq (sound : state.object.Sound)
    (undisturbed : ¬Promotes types state.view key ∨ ∀ n, (environment.allocations n).calm)
    (ends : runFrom (mapSet types environment key value) state = (.ok (), after)) :
    Maps.mapSet types ⟨3, true, true, none⟩ state.view key value = (.ok (), after.view) := by
  rcases mapSet_cases ends with ⟨hashed, view, inserts⟩ | ⟨linear, sets⟩
  · rw [view]
    exact (mapInsertHashed_eq view sound inserts).1
  · rw [mapSet_of_linear linear]
    apply mapSetLinear_eq linear sound ?_ sets
    rcases undisturbed with stays | calm
    · rw [promotes_iff linear] at stays
      exact .inl fun absent => Nat.lt_of_not_le fun many => stays ⟨absent, many⟩
    · exact .inr calm

theorem mapSet_stale (sound : state.object.Sound) (stays : ¬Promotes types state.view key)
    (ends : runFrom (mapSet types environment key value) state = (.ok (), after)) :
    after.stale = state.stale ∧ after.object.Sound := by
  rcases mapSet_cases ends with ⟨hashed, view, inserts⟩ | ⟨linear, sets⟩
  · exact (mapInsertHashed_eq view sound inserts).2
  · rw [promotes_iff linear] at stays
    exact mapSetLinear_stale linear sound
      (fun absent => Nat.lt_of_not_le fun many => stays ⟨absent, many⟩) sets

theorem mapSet_stale_of_promotes (sound : state.object.Sound)
    (promotes : Promotes types state.view key)
    (ends : runFrom (mapSet types environment key value) state = (.ok (), after)) :
    after.stale = true := by
  rcases mapSet_cases ends with ⟨hashed, view, inserts⟩ | ⟨linear, sets⟩
  · rw [view] at promotes
    cases promotes
  · rcases (promotes_iff linear).1 promotes with ⟨absent, many⟩
    rcases mapSetLinear_absent sound absent sets with
      ⟨ext, allocated, extended, served, len, view, object, stale, allocations, ends⟩
    apply promote_stale ?_ ?_ ?_ ends
    · rw [object]
      trivial
    · rw [served.taken, served.allocations, allocations]
    · rw [len]
      exact lt_succ_of_le many

end Set

/-! ## A compaction before the buckets -/

/-- Every block goes one place further, and leaves nothing that is an entry. -/
def shift : Compaction Block where
  moves address := address + 1
  left _ := .buckets fun _ => none
  injective := Nat.succ_injective

/-- The second allocation moves the blocks. -/
def shifting : Environment where
  tempRoots := 3
  allocations count := .served (if count = 0 then none else some shift) .behind

theorem runFrom_shifting_first (first : state.allocations = 0) (len : ℕ) :
    ∃ new after, runFrom (vmAllocManagedSlice shifting len) state = (.ok new, after) := by
  unfold vmAllocManagedSlice
  rw [runFrom_bind_of_ok (rfl : runFrom get state = (.ok state, state)), first]
  exact ⟨_, _, rfl⟩

theorem runFrom_shifting_second (second : state.allocations = 1) (len : ℕ) :
    ∃ new after, runFrom (vmAllocManagedSlice shifting len) state = (.ok new, after) ∧
      after.memory = (state.compacted shift).memory := by
  unfold vmAllocManagedSlice
  rw [runFrom_bind_of_ok (rfl : runFrom get state = (.ok state, state)), second]
  exact ⟨_, _, rfl, rfl⟩

theorem entryAt_shift {slice : Slice} (object : state.object = .mapManaged slice) :
    ((state.compacted shift).memory slice.ptr).entryAt = fun _ => ⟨.null, .null⟩ := by
  have elsewhere : (state.compacted shift).memory slice.ptr = shift.left slice.ptr := by
    apply shift.apply_elsewhere
    intro block inUse
    rw [object, Held.used, usedBy] at inUse
    split at inUse
    · rw [mem_singleton.1 inUse]
      exact succ_ne_self _
    · cases inUse
  rw [elsewhere]
  rfl

theorem exists_promote (types : Types) {ext : LocalSlice} (second : state.allocations = 1)
    (object : state.object = .mapManaged ext.slice) :
    ∃ after, runFrom (promote types shifting ext) state = (.ok (), after) := by
  unfold promote
  by_cases long : 8 < ext.slice.len
  · rw [if_pos long]
    rcases runFrom_shifting_second second (mapBucketsForCount ext.slice.len) with
      ⟨buckets, allocated, allocates, memory⟩
    have hashes : ∀ entry ∈ allocated.entriesAt ext.slice.ptr ext.slice.len,
        ∃ hash, hashOrTrap types entry.key = .ok hash := by
      intro entry isEntry
      rw [State.entriesAt, memory, entryAt_shift object] at isEntry
      rcases mem_map.1 isEntry with ⟨_, _, rfl⟩
      exact ⟨_, rfl⟩
    rcases exists_mapBuildHashedBuckets hashes (mapBucketsForCount ext.slice.len) with
      ⟨written, build⟩
    have reads : runFrom (readEntries ext) allocated =
        (.ok (allocated.entriesAt ext.slice.ptr ext.slice.len), allocated.use ext) := rfl
    have builds : runFrom (buildBuckets types (allocated.entriesAt ext.slice.ptr ext.slice.len)
        (mapBucketsForCount ext.slice.len)) (allocated.use ext) =
          (.ok written, allocated.use ext) := by
      rw [buildBuckets, build]
      rfl
    rw [runFrom_bind_of_ok allocates, runFrom_bind_of_ok reads, runFrom_bind_of_ok builds]
    exact ⟨_, rfl⟩
  · rw [if_neg long]
    exact ⟨_, rfl⟩

theorem exists_mapSet_shifting {types : Types} {key : Value} (value : Value)
    (promotes : Promotes types state.view key) (sound : state.object.Sound)
    (first : state.allocations = 0) :
    ∃ after, runFrom (mapSet types shifting key value) state = (.ok (), after) := by
  have linear : ∀ hashed, state.view ≠ .mapHashed hashed := by
    intro hashed view
    rw [view] at promotes
    exact promotes
  have absent := ((promotes_iff linear).1 promotes).1
  have sets : ∃ after, runFrom (mapSetLinear types shifting key value) state = (.ok (), after) := by
    unfold mapSetLinear
    rw [entries_view] at absent
    rw [runFrom_bind_of_ok (rfl : runFrom asMapSlice state = (.ok _, _)),
      runFrom_bind_of_ok (runFrom_readEntries rfl), absent]
    rcases runFrom_shifting_first first (state.object.entries.len + 1) with
      ⟨ext, allocated, allocates⟩
    rcases served_of_ok sound allocates with ⟨served, len⟩
    have count : state.view.entries.length = state.object.entries.len := by
      rw [entries_view, length_entriesAt]
    rcases extend_ok key value served.taken (by rw [served.view, len, count]) with
      ⟨extended, extends_, _, object, _, allocations⟩
    have second : extended.allocations = 1 := by
      rw [allocations, served.allocations, first]
    rcases exists_promote types second object with ⟨after, ends⟩
    have roots : runFrom (pushTempRoots shifting 3) state = (.ok (), state) := rfl
    have rest : runFrom (extend ext key value >>= fun _ => promote types shifting ext) allocated =
        (.ok (), after) :=
      (runFrom_bind_of_ok extends_).trans ends
    exact ⟨after, (runFrom_bind_of_ok roots).trans ((runFrom_bind_of_ok allocates).trans rest)⟩
  rcases sets with ⟨after, ends⟩
  have roots : runFrom (pushTempRoots shifting 2) state = (.ok (), state) := rfl
  have begins : runFrom get state = (.ok state, state) := rfl
  refine ⟨after, ?_⟩
  unfold mapSet
  rw [runFrom_bind_of_ok roots, runFrom_bind_of_ok begins]
  cases view : state.view with
  | mapHashed hashed => exact absurd view (linear hashed)
  | map items => exact ends
  | mapManaged items => exact ends

/-! ## Independence -/

/-- The map object before an insertion. -/
def begun (memory : ℕ → Block) (object : Held) : State :=
  ⟨memory, object, 0, false⟩

/-- What the lookups return in one map, they return in the other. -/
def SameContents (types : Types) (object other : MapObject) : Prop :=
  ∀ key, mapGet types object key = mapGet types other key ∧
    mapHas types object key = mapHas types other key

/-- Whatever the allocations do, an insertion that succeeds uses no slice from before one of them,
and the contents are those of an insertion during which no block is moved. -/
def Independent (types : Types) (memory : ℕ → Block) (object : Held) (key value : Value) : Prop :=
  ∀ environment after,
    runFrom (mapSet types environment key value) (begun memory object) = (.ok (), after) →
      after.stale = false ∧
        ∀ calm after', (∀ n, (calm.allocations n).calm) →
          runFrom (mapSet types calm key value) (begun memory object) = (.ok (), after') →
            SameContents types after.view after'.view

/-- An insertion depends on compaction exactly if it gives a list its first buckets. -/
theorem independent_iff (types : Types) (memory : ℕ → Block) {object : Held}
    (sound : object.Sound) (key value : Value) :
    Independent types memory object key value ↔ ¬Promotes types (begun memory object).view key := by
  have isSound : (begun memory object).object.Sound := sound
  constructor
  · intro independent promotes
    rcases exists_mapSet_shifting value promotes isSound rfl with ⟨after, ends⟩
    have fresh := (independent _ _ ends).1
    rw [mapSet_stale_of_promotes isSound promotes ends] at fresh
    cases fresh
  · intro stays environment after ends
    constructor
    · exact (mapSet_stale isSound stays ends).1
    · intro calm after' _ ends'
      have result := mapSet_eq isSound (.inl stays) ends
      rw [mapSet_eq isSound (.inl stays) ends'] at result
      have same : after'.view = after.view := congrArg Prod.snd result
      rw [same]
      exact fun _ => ⟨rfl, rfl⟩

/-- Eight entries in a block of their own. -/
def counted (_ : ℕ) : Block :=
  .entries fun index => ⟨.int (Int64.ofNat index), .int (Int64.ofNat index)⟩

/-- A list of three entries gets a fourth. -/
theorem independent_three : Independent noTypes counted (.mapManaged ⟨0, 3⟩) (.int 8) (.int 8) :=
  (independent_iff noTypes counted (by trivial) (.int 8) (.int 8)).2 (by decide +kernel)

/-- No allocation moves a block. -/
def still : Environment where
  tempRoots := 3
  allocations _ := .served none .behind

/-- The insertion of a ninth entry. -/
def insertNinth (environment : Environment) : Except Failure Unit × State :=
  runFrom (mapSet noTypes environment (.int 8) (.int 8)) (begun counted (.mapManaged ⟨0, 8⟩))

/-- With a compaction before the buckets of nine entries, the first of them is lost. -/
theorem not_independent :
    ¬∀ (types : Types) (memory : ℕ → Block) (object : Held), object.Sound →
      ∀ key value, Independent types memory object key value := by
  intro independent
  have result := independent noTypes counted (.mapManaged ⟨0, 8⟩) trivial (.int 8) (.int 8)
    shifting (insertNinth shifting).2 rfl
  have same := result.2 still (insertNinth still).2 (fun _ => rfl) rfl (.int 0)
  have lost : mapGet noTypes (insertNinth shifting).2.view (.int 0) = .ok none := rfl
  have kept : mapGet noTypes (insertNinth still).2.view (.int 0) = .ok (some (.int 0)) := rfl
  have impossible := (lost.symm.trans same.1).trans kept
  cases impossible

end Gengo.Maps.InMemory
