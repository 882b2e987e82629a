import Gengo.Heap.Runs
import Gengo.Pools.Intern

/-!
# The string slices of a chunk

`internStr` keeps the slice that its caller passes and compares later strings with the bytes
that it finds there. Which memory a slice lies in is a matter of the call site: a name that
was copied to the permanent end of the heap, the text of a program, a managed string, or a
buffer that is written again. Collections, compactions, later errors and host calls overwrite
every memory but constants and permanent data.
-/

namespace Gengo.Interning

open Pools (Pool)

/-- `MaxStrSlices`, four times `MaxConst`. -/
def maxStrSlices : ℕ :=
  4096 * 4

/-- The longest string that `internStr` looks for. -/
def maxScanned : ℕ :=
  32

/-- The memories that a slice can lie in. -/
inductive Region
  /-- Literals of the implementation, the names of its errors, the names under which a host
  has registered its modules, and the environment of the process. -/
  | fixed
  /-- `hs.heap`, with the managed data below `permanent_bump` and the permanent data above. -/
  | heap
  /-- The text of the program, with the string pool of the lexer. -/
  | source
  /-- `runtime_err_buf` -/
  | runtimeErr
  /-- `fmt_scratch` -/
  | fmtScratch
  /-- `net_err_buf` -/
  | netErr
  /-- Pages that a native function has freed before it returned. -/
  | pages
  deriving DecidableEq

/-- `[]const u8`. -/
structure Slice where
  region : Region
  start : ℕ
  len : ℕ
  deriving DecidableEq

/-- The bytes at every address of every memory. -/
abbrev Memory : Type :=
  Region → ℕ → UInt8

namespace Memory

/-- The bytes that a slice denotes now. -/
def bytes (memory : Memory) (slice : Slice) : List UInt8 :=
  (List.range slice.len).map fun i => memory slice.region (slice.start + i)

/-- `@memcpy`. -/
def write (memory : Memory) (region : Region) (start : ℕ) (bytes : List UInt8) : Memory :=
  fun other addr =>
    if other = region ∧ start ≤ addr then bytes.getD (addr - start) (memory other addr)
    else memory other addr

end Memory

/-- A chunk's slices, and the memory that they point to. -/
structure State where
  memory : Memory
  heap : Heap.System
  strSlices : Pool Slice maxStrSlices

inductive InternError
  | tooManyConstants
  | outOfMemory
  deriving DecidableEq

namespace State

variable (state : State)

/-- `hs.permanent_bump` -/
def permanentBump : ℕ :=
  state.heap.state.permanentBump

/-- The string is short enough to be looked for. -/
def scans (bytes : List UInt8) : Bool :=
  bytes.length ≤ maxScanned

/-- `internStr`: the index of the slice. -/
def internStr (slice : Slice) : Except InternError ℕ × State :=
  match state.strSlices.intern state.memory.bytes scans slice with
  | some (idx, strSlices) => (.ok idx, { state with strSlices := strSlices })
  | none => (.error .tooManyConstants, state)

/-- `copyName`: a copy of the bytes in permanent memory. -/
def copyName (bytes : List UInt8) : Except InternError Slice × State :=
  match state.heap.state.bump 0 bytes.length with
  | some (pos, heap) =>
    (.ok ⟨.heap, pos, bytes.length⟩, { state with
        memory := state.memory.write .heap pos bytes
        heap := ⟨heap, state.heap.live⟩ })
  | none => (.error .outOfMemory, state)

/-- `internStrCopy` -/
def internStrCopy (bytes : List UInt8) : Except InternError ℕ × State :=
  match state.copyName bytes with
  | (.ok copy, copied) => copied.internStr copy
  | (.error err, _) => (.error err, state)

/-- The slice lies in permanent memory. -/
def Permanent (slice : Slice) : Prop :=
  slice.region = .heap ∧ state.permanentBump ≤ slice.start

instance (slice : Slice) : Decidable (state.Permanent slice) :=
  inferInstanceAs (Decidable (_ ∧ _))

/-- The slice is a part of one that is interned. -/
def PartOfInterned (slice : Slice) : Prop :=
  ∃ held ∈ state.strSlices.refs, slice.region = held.region ∧ held.start ≤ slice.start ∧
    slice.start + slice.len ≤ held.start + held.len

/-- The slice lies in managed memory. -/
def Managed (slice : Slice) : Prop :=
  slice.region = .heap ∧ slice.start + slice.len ≤ state.permanentBump

/-- Bytes that may be overwritten: neither constants nor permanent data. -/
def Writable (region : Region) (start len : ℕ) : Prop :=
  region ≠ .fixed ∧ (region = .heap → start + len ≤ state.permanentBump)

instance (region : Region) (start len : ℕ) : Decidable (state.Writable region start len) :=
  inferInstanceAs (Decidable (_ ∧ _))

end State

/-- The call sites of `internStr`. -/
inductive Site
  /-- Literals, `@errorName`, the names of host modules and their functions, and
  `envGet` and `envListPosix`. -/
  | constant
  /-- The names of types, fields, members and tags and the defaults of named types, which
  `copyName` or the reader of artifacts has copied; the folded concatenation of
  constants. -/
  | copied
  /-- `parseLiteralDefault`, with the text of a string literal. -/
  | defaultValue
  /-- `runPanicUnwind`, with `pending_panic_message`. -/
  | panicMessage
  /-- The pattern of a regexp object, in its methods. -/
  | regexpPattern
  /-- `tplParse`, `tplParseTag`, `tplEncodeExpr` and `tplAddFunc`. -/
  | template
  /-- `wireToValueDepth` and `valueFromWireDepth`, with an error. -/
  | wireError
  /-- The errors of `net`. -/
  | netError
  /-- `envGetWasi` and `envListWasi`. -/
  | environmentWasi
  deriving DecidableEq

namespace Site

/-- The slices that a call site can pass. -/
def Supplies (state : State) (slice : Slice) : Site → Prop
  | constant => slice.region = .fixed
  | copied => state.Permanent slice
  | defaultValue => slice.region = .source
  | panicMessage =>
    slice.region = .runtimeErr ∨ slice.region = .fmtScratch ∨ slice.region = .fixed ∨
      state.PartOfInterned slice
  | regexpPattern => state.Managed slice ∨ state.PartOfInterned slice
  | template => state.Managed slice ∨ state.PartOfInterned slice
  | wireError => state.Managed slice
  | netError => slice.region = .netErr ∨ slice.region = .fixed
  | environmentWasi => slice.region = .pages

end Site

/-- A chunk, with the indices that `internStr` has returned and the bytes that they were
requested for. -/
structure System where
  state : State
  returned : List (ℕ × List UInt8)

/-- What happens to the slices and to the memory under them. -/
inductive Event
  | intern (site : Site) (slice : Slice)
  /-- `internStrCopy`, of `addStringConst`, `core.error`, the named errors and `http`. -/
  | internCopy (bytes : List UInt8)
  | copyName (bytes : List UInt8)
  /-- An allocation, a collection's frees or a compaction. -/
  | manage (op : Heap.Op)
  /-- Bytes are stored: a managed string is written, moved or cleared, a buffer is used for
  the next message, the text of a program is replaced. -/
  | write (region : Region) (start : ℕ) (bytes : List UInt8)
  /-- `rollbackDecl`: a declaration that does not compile gives up what it has interned,
  together with the constants that refer to it. -/
  | rollbackDecl (strSliceCount : ℕ)

namespace Event

/-- The heap is not reset while the chunk lives, and only mutable memory is written. -/
def Allowed (state : State) : Event → Prop
  | intern site slice => site.Supplies state slice
  | manage op => op ≠ .reset ∧ op.Allowed state.heap
  | write region start bytes => state.Writable region start bytes.length
  | _ => True

end Event

namespace System

/-- The system after a call of `internStr` for some bytes. -/
def record (system : System) (bytes : List UInt8) : Except InternError ℕ × State → System
  | (.ok idx, state) => ⟨state, (idx, bytes) :: system.returned⟩
  | (.error _, state) => ⟨state, system.returned⟩

/-- The system after an event. -/
def apply (system : System) : Event → System
  | .intern _ slice =>
    system.record (system.state.memory.bytes slice) (system.state.internStr slice)
  | .internCopy bytes => system.record bytes (system.state.internStrCopy bytes)
  | .copyName bytes => ⟨(system.state.copyName bytes).2, system.returned⟩
  | .manage op => ⟨{ system.state with heap := op.apply system.state.heap }, system.returned⟩
  | .write region start bytes =>
    ⟨{ system.state with memory := system.state.memory.write region start bytes }, system.returned⟩
  | .rollbackDecl strSliceCount =>
    ⟨{ system.state with strSlices := system.state.strSlices.truncate strSliceCount },
      system.returned.filter fun entry => entry.1 < strSliceCount⟩

/-- The system after a sequence of events. -/
def run (system : System) (events : List Event) : System :=
  events.foldl apply system

/-- Every event of a sequence meets a condition on the state in which it happens. -/
def Along (condition : State → Event → Prop) : System → List Event → Prop
  | _, [] => True
  | system, event :: events =>
    condition system.state event ∧ Along condition (system.apply event) events

/-- Nothing is interned yet. -/
def Fresh (system : System) : Prop :=
  system.state.strSlices.refs = [] ∧ system.returned = []

/-- Every index that was returned denotes the bytes that it was requested for. -/
def Immutable (system : System) : Prop :=
  system.state.strSlices.Denotes system.state.memory.bytes system.returned

end System

/-!
# Interned strings are immutable as long as their memory is

A slice that lies in constant or permanent memory reads the same for ever. As long as
`internStr` is passed such slices, every index that it has returned keeps the bytes that it
was requested for. A slice that it appends from any other memory does not: a store into that
memory changes the string.
-/

open List

/-- Nothing ever writes the bytes of the slice. -/
def Slice.Immortal (slice : Slice) (state : State) : Prop :=
  slice.len = 0 ∨ slice.region = .fixed ∨ state.Permanent slice

instance (slice : Slice) (state : State) : Decidable (slice.Immortal state) :=
  inferInstanceAs (Decidable (_ ∨ _))

/-- `internStr` appends the slice. -/
def State.Appends (state : State) (slice : Slice) : Prop :=
  state.strSlices.Adds state.memory.bytes State.scans slice

/-- A slice that is appended is immortal. -/
def Event.Lasting (state : State) : Event → Prop
  | intern _ slice => state.Appends slice → slice.Immortal state
  | _ => True

/-- A store into mutable memory. -/
def Event.Overwrites (state : State) : Event → Prop
  | write region start bytes => state.Writable region start bytes.length
  | _ => False

namespace System

/-- Whatever is stored into mutable memory, the interned strings keep their bytes. -/
def Durable (system : System) : Prop :=
  ∀ writes, system.Along Event.Overwrites writes → (system.run writes).Immutable

/-- Every state of a sequence of events is durable. -/
def Keeps (system : System) (events : List Event) : Prop :=
  ∀ done, done <+: events → (system.run done).Durable

/-- The invariant: the interned slices are immortal. -/
structure Sound (system : System) : Prop where
  immutable : system.Immutable
  immortal : ∀ slice ∈ system.state.strSlices.refs, slice.Immortal system.state

theorem Fresh.sound {system : System} (fresh : system.Fresh) : system.Sound := by
  constructor
  · simp [Immutable, fresh.2]
  · simp [fresh.1]

end System

section Memory

variable {memory : Memory} {region : Region} {start : ℕ} {bytes : List UInt8} {slice : Slice}

theorem Memory.bytes_congr {memory' : Memory}
    (same : ∀ i < slice.len, memory' slice.region (slice.start + i) =
      memory slice.region (slice.start + i)) :
    memory'.bytes slice = memory.bytes slice := by
  apply map_congr_left
  intro i mem
  exact same i (mem_range.mp mem)

theorem Memory.bytes_write_of_disjoint
    (apart : slice.region = region → start + bytes.length ≤ slice.start) :
    (memory.write region start bytes).bytes slice = memory.bytes slice := by
  apply bytes_congr
  intro i _
  rw [Memory.write]
  split_ifs with inside
  · have above := apart inside.1
    rw [getD_eq_getElem?_getD, List.getElem?_eq_none (by omega), Option.getD_none]
  · rfl

theorem Memory.bytes_write (memory : Memory) (region : Region) (start : ℕ)
    (bytes : List UInt8) :
    (memory.write region start bytes).bytes ⟨region, start, bytes.length⟩ = bytes := by
  apply ext_getElem
  · simp [Memory.bytes]
  · intro i below below'
    simp [Memory.bytes, Memory.write, List.getElem?_eq_getElem below']

/-- A store at the start of a slice that is not empty changes its bytes. -/
theorem Memory.bytes_write_succ_ne (nonempty : slice.len ≠ 0) :
    (memory.write slice.region slice.start [memory slice.region slice.start + 1]).bytes slice ≠
      memory.bytes slice := by
  intro equal
  have positive : 0 < slice.len := Nat.pos_of_ne_zero nonempty
  have first := congrArg (fun list => list[0]?) equal
  simp [Memory.bytes, Memory.write, positive] at first

end Memory

section Immortal

variable {state state' : State} {slice : Slice} {region : Region} {start : ℕ}
  {bytes : List UInt8}

theorem Slice.Immortal.mono (immortal : slice.Immortal state)
    (lower : state'.permanentBump ≤ state.permanentBump) : slice.Immortal state' := by
  rcases immortal with empty | fixed | permanent
  · exact .inl empty
  · exact .inr (.inl fixed)
  · exact .inr (.inr ⟨permanent.1, le_trans lower permanent.2⟩)

/-- A store into mutable memory does not reach an immortal slice. -/
theorem Slice.Immortal.bytes_write (immortal : slice.Immortal state)
    (writable : state.Writable region start bytes.length) :
    (state.memory.write region start bytes).bytes slice = state.memory.bytes slice := by
  rcases immortal with empty | fixed | permanent
  · simp [Memory.bytes, empty]
  · apply Memory.bytes_write_of_disjoint
    intro same
    exact absurd (same.symm.trans fixed) writable.1
  · apply Memory.bytes_write_of_disjoint
    intro same
    have below := writable.2 (same.symm.trans permanent.1)
    exact le_trans below permanent.2

theorem Slice.writable_of_mortal (mortal : ¬slice.Immortal state) :
    slice.len ≠ 0 ∧ state.Writable slice.region slice.start 1 := by
  simp only [Immortal, State.Permanent, not_or, not_and, not_le] at mortal
  rcases mortal with ⟨nonempty, mutable, managed⟩
  exact ⟨nonempty, mutable, managed⟩

end Immortal

namespace State

variable {state state' : State} {slice : Slice} {bytes : List UInt8}

/-- What `copyName` returns is immortal and denotes the bytes, and nothing immortal is
touched. -/
structure Copied (state : State) (bytes : List UInt8) (copy : Slice) (state' : State) : Prop where
  permanent : state'.Permanent copy
  bytes_eq : state'.memory.bytes copy = bytes
  strSlices_eq : state'.strSlices = state.strSlices
  lower : state'.permanentBump ≤ state.permanentBump
  same : ∀ slice : Slice, slice.Immortal state →
    state'.memory.bytes slice = state.memory.bytes slice

theorem copyName_cases (state : State) (bytes : List UInt8) :
    state.copyName bytes = (.error .outOfMemory, state) ∨
      ∃ copy state', state.copyName bytes = (.ok copy, state') ∧
        state.Copied bytes copy state' := by
  rw [copyName]
  cases bumped : state.heap.state.bump 0 bytes.length with
  | none => exact .inl rfl
  | some result =>
    rcases result with ⟨pos, heap⟩
    rcases Heap.State.permanentBump_bump bumped with ⟨bump_eq, room⟩
    have writable : state.Writable .heap pos bytes.length := ⟨by decide, fun _ => room⟩
    refine .inr ⟨_, _, rfl, ?_⟩
    constructor
    · exact ⟨rfl, bump_eq.le⟩
    · exact Memory.bytes_write state.memory .heap pos bytes
    · rfl
    · change heap.permanentBump ≤ state.heap.state.permanentBump
      omega
    · intro slice immortal
      exact immortal.bytes_write writable

end State

namespace System

variable {system : System} {slice : Slice} {state' : State}

/-- The invariant of a state whose memory reads the same where it matters. -/
theorem Sound.change (sound : system.Sound)
    (slices_eq : state'.strSlices = system.state.strSlices)
    (lower : state'.permanentBump ≤ system.state.permanentBump)
    (same : ∀ slice : Slice, slice.Immortal system.state →
      state'.memory.bytes slice = system.state.memory.bytes slice) :
    (⟨state', system.returned⟩ : System).Sound := by
  constructor
  · change state'.strSlices.Denotes state'.memory.bytes system.returned
    rw [slices_eq]
    apply Pool.Denotes.change _ sound.immutable
    intro slice mem
    exact same slice (sound.immortal slice mem)
  · intro slice mem
    change slice ∈ state'.strSlices.refs at mem
    rw [slices_eq] at mem
    exact (sound.immortal slice mem).mono lower

theorem Sound.internStr (sound : system.Sound)
    (lasting : system.state.Appends slice → slice.Immortal system.state) :
    (system.record (system.state.memory.bytes slice) (system.state.internStr slice)).Sound := by
  rw [State.internStr]
  cases interned : system.state.strSlices.intern system.state.memory.bytes State.scans slice with
  | none => exact sound
  | some result =>
    rcases result with ⟨idx, strSlices⟩
    constructor
    · exact Pool.Denotes.intern sound.immutable interned
    · intro held mem
      rcases Pool.intern_cases interned with ⟨rfl, _, _⟩ | ⟨room, appends, rfl, _⟩
      · exact sound.immortal held mem
      · rcases mem_append.mp mem with old | new
        · exact sound.immortal held old
        · rw [mem_singleton.mp new]
          exact lasting appends

/-- An event after which only immortal slices are interned keeps the invariant. -/
theorem Sound.apply (sound : system.Sound) {event : Event} (allowed : event.Allowed system.state)
    (lasting : event.Lasting system.state) : (system.apply event).Sound := by
  cases event with
  | intern site slice => exact sound.internStr lasting
  | internCopy bytes =>
    rw [System.apply, State.internStrCopy]
    rcases system.state.copyName_cases bytes with failed | ⟨copy, copied, succeeded, spec⟩
    · rw [failed]
      exact sound
    · rw [succeeded]
      have middle := sound.change spec.strSlices_eq spec.lower spec.same
      have interned := middle.internStr fun (_ : copied.Appends copy) =>
        .inr (.inr spec.permanent)
      rw [spec.bytes_eq] at interned
      exact interned
  | copyName bytes =>
    rw [System.apply]
    rcases system.state.copyName_cases bytes with failed | ⟨copy, copied, succeeded, spec⟩
    · rw [failed]
      exact sound
    · rw [succeeded]
      exact sound.change spec.strSlices_eq spec.lower spec.same
  | manage op =>
    exact sound.change rfl (Heap.permanentBump_apply_le allowed.1) fun _ _ => rfl
  | write region start bytes =>
    exact sound.change rfl le_rfl fun slice immortal => immortal.bytes_write allowed
  | rollbackDecl strSliceCount =>
    constructor
    · exact Pool.Denotes.truncate sound.immutable
    · intro slice mem
      exact sound.immortal slice (mem_of_mem_take mem)

@[simp]
theorem run_nil (system : System) : system.run [] = system :=
  rfl

@[simp]
theorem run_cons (system : System) (event : Event) (events : List Event) :
    system.run (event :: events) = (system.apply event).run events :=
  rfl

theorem Sound.durable (sound : system.Sound) : system.Durable := by
  intro writes overwrites
  suffices (system.run writes).Sound from this.immutable
  induction writes generalizing system with
  | nil => exact sound
  | cons event writes ih =>
    rcases overwrites with ⟨overwrite, further⟩
    cases event with
    | write region start bytes =>
      apply ih _ further
      exact sound.change rfl le_rfl fun slice immortal => immortal.bytes_write overwrite
    | intern _ _ | internCopy _ | copyName _ | manage _ | rollbackDecl _ => exact overwrite.elim

/-- A mortal slice that has been appended can be overwritten, and then the index denotes
other bytes. -/
theorem not_durable_of_appends (site : Site) (appends : system.state.Appends slice)
    (mortal : ¬slice.Immortal system.state) : ¬(system.apply (.intern site slice)).Durable := by
  intro durable
  rcases Slice.writable_of_mortal mortal with ⟨nonempty, writable⟩
  rw [System.apply, State.internStr, Pool.intern_of_adds appends] at durable
  have immutable := durable
    [.write slice.region slice.start [system.state.memory slice.region slice.start + 1]]
    ⟨writable, trivial⟩
  rcases (Pool.denotes_cons_iff.mp immutable).1 with ⟨held, at_index, read_eq⟩
  change (system.state.strSlices.refs ++ [slice])[system.state.strSlices.refs.length]? =
    some held at at_index
  have held_eq : slice = held := by
    simpa using at_index
  subst held_eq
  exact Memory.bytes_write_succ_ne nonempty read_eq

theorem keeps_nil_iff : system.Keeps [] ↔ system.Durable := by
  simp [Keeps]

variable {events : List Event}

theorem keeps_cons_iff {event : Event} :
    system.Keeps (event :: events) ↔ system.Durable ∧ (system.apply event).Keeps events := by
  constructor
  · intro keeps
    constructor
    · exact keeps [] nil_prefix
    · intro done isPrefix
      exact keeps (event :: done) (cons_prefix_cons.mpr ⟨rfl, isPrefix⟩)
  · rintro ⟨durable, keeps⟩ done isPrefix
    cases done with
    | nil => exact durable
    | cons first done =>
      rcases cons_prefix_cons.mp isPrefix with ⟨rfl, rest⟩
      exact keeps done rest

theorem Keeps.durable (keeps : system.Keeps events) : system.Durable :=
  keeps [] nil_prefix

theorem Sound.keeps_iff (sound : system.Sound) (allowed : system.Along Event.Allowed events) :
    system.Keeps events ↔ system.Along Event.Lasting events := by
  induction events generalizing system with
  | nil => simpa [keeps_nil_iff, Along] using sound.durable
  | cons event events ih =>
    rw [keeps_cons_iff, Along]
    constructor
    · rintro ⟨_, keeps⟩
      have lasting : event.Lasting system.state := by
        cases event with
        | intern site slice =>
          intro appends
          by_contra mortal
          exact not_durable_of_appends site appends mortal keeps.durable
        | internCopy bytes => trivial
        | copyName bytes => trivial
        | manage op => trivial
        | write region start bytes => trivial
        | rollbackDecl strSliceCount => trivial
      exact ⟨lasting, (ih (sound.apply allowed.1 lasting) allowed.2).mp keeps⟩
    · rintro ⟨lasting, further⟩
      exact ⟨sound.durable, (ih (sound.apply allowed.1 lasting) allowed.2).mpr further⟩

/-- From the start of a chunk on, the interned strings keep their bytes whatever is stored
into mutable memory, if and only if every slice that `internStr` appends is immortal. -/
theorem keeps_iff_lasting (start : System) (fresh : start.Fresh) (events : List Event)
    (allowed : start.Along Event.Allowed events) :
    start.Keeps events ↔ start.Along Event.Lasting events :=
  fresh.sound.keeps_iff allowed

/-- A chunk over memory that is all zeros. -/
def start (heapSize : ℕ) : System where
  state := ⟨fun _ _ => 0, ⟨Heap.State.init heapSize, []⟩, ⟨[], Nat.zero_le _⟩⟩
  returned := []

theorem start_fresh (heapSize : ℕ) : (start heapSize).Fresh :=
  ⟨rfl, rfl⟩

/-- A name is copied and interned, and then the message of an error is stored. -/
def nameEvents : List Event :=
  [.copyName [104, 105], .intern .copied ⟨.heap, 62, 2⟩, .write .runtimeErr 0 [97, 98]]

theorem allowed_nameEvents : (start 64).Along Event.Allowed nameEvents := by
  refine ⟨trivial, ?_, ?_, trivial⟩
  · show State.Permanent _ _
    decide
  · show State.Writable _ _ _ _
    decide

theorem keeps_nameEvents : (start 64).Keeps nameEvents := by
  apply (keeps_iff_lasting (start 64) (start_fresh 64) nameEvents allowed_nameEvents).mpr
  refine ⟨trivial, ?_, trivial, trivial⟩
  intro _
  exact .inr (.inr (by decide))

/-- The message of a panic is interned, and then the next panic stores its own. -/
def panicEvents : List Event :=
  [.write .runtimeErr 0 [97], .intern .panicMessage ⟨.runtimeErr, 0, 1⟩, .write .runtimeErr 0 [98]]

theorem allowed_panicEvents : (start 64).Along Event.Allowed panicEvents := by
  refine ⟨?_, ?_, ?_, trivial⟩
  · show State.Writable _ _ _ _
    decide
  · exact .inl rfl
  · show State.Writable _ _ _ _
    decide

/-- The first panic's message, recovered as an error value, reads as the second's. -/
theorem not_keeps : ¬∀ start : System, start.Fresh → ∀ events,
    start.Along Event.Allowed events → start.Keeps events := by
  intro keeps
  have immutable := keeps (start 64) (start_fresh 64) panicEvents allowed_panicEvents
    panicEvents prefix_rfl [] trivial
  rcases immutable (0, [97]) mem_cons_self with ⟨held, at_index, read_eq⟩
  have held_eq : (⟨.runtimeErr, 0, 1⟩ : Slice) = held := Option.some.inj at_index
  subst held_eq
  exact absurd read_eq (by decide)

end System

end Gengo.Interning
