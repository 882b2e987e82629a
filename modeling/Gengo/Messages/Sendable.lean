import Gengo.Tasks.Spawning

/-!
# Messages

The values and objects that a message is made of, the check that a message may cross the
boundary between two tasks, and its copy. An object is stored with the elements, entries
or bytes that it shows; the bytes and names of types and the code of functions are left out.
What the host grants, and what a compaction of the heap does to a slice that has been taken
before an allocation, are arguments.
-/

namespace Gengo.Messages

open Tasks (ActorRef maxTempRoots)

/-- The index of an object in the pool. -/
abbrev Ref :=
  ℕ

inductive Value
  | int (value : Int64)
  /-- The bits of the number. -/
  | float (bits : UInt64)
  | decimal (value : Int64)
  | rune (value : UInt32)
  | boolean (value : Bool)
  | string (bytes : List UInt8)
  | errorValue (bytes : List UInt8)
  | object (ref : Ref)
  | null
  | inlineVariant (bits : UInt64)
  | actorRef (ref : ActorRef)
  deriving DecidableEq

structure MapEntry where
  key : Value
  value : Value
  deriving DecidableEq

/-- The kinds of objects that are shared: types, natives, and numbers that never change. -/
inductive SharedKind
  | nativeFunction
  | hostModuleFunction
  | structType
  | interfaceType
  | namedType
  | enumType
  | enumTypeFn
  | variantType
  | variantCtor
  | namedTypeFn
  | bigint
  | namedErrorType
  | taskType
  deriving DecidableEq

inductive Object
  | array (items : List Value)
  | arrayManaged (items : List Value)
  | arrayView (items : List Value) (source : Ref)
  /-- The first elements of another array. -/
  | arrayCapacity (backing : Ref) (len : ℕ)
  | map (entries : List MapEntry)
  | mapManaged (entries : List MapEntry)
  /-- A map with buckets, which its copy does not have. -/
  | mapHashed (entries : List MapEntry) (len : ℕ)
  | dynString (bytes : List UInt8)
  | stringView (bytes : List UInt8) (source : Option Ref)
  /-- A builder with the bytes that it has written. -/
  | stringBuilder (bytes : List UInt8)
  | function
  | closure (func : Ref) (upvalues : List Ref)
  | cell (value : Value)
  | iterator (items : List Value) (entries : List MapEntry) (source : Option Ref)
  | namedValue (typ : Ref) (value : Value)
  | enumValue (typ : Ref) (name : List UInt8) (ordinal : Int64)
  | structInstance (typ : Ref) (fields : List MapEntry)
  /-- A struct instance with its fields in place. -/
  | smallStructInstance (typ : Ref) (values : List Value)
  | variantValue (typ : Ref) (tag : List UInt8) (ordinal : ℕ) (payload : Value)
      (sharedValues armFields : List Value)
  | namedErrorValue (typ : Ref) (msg : List UInt8)
  | shared (kind : SharedKind)
  deriving DecidableEq

/-- The objects of the pool that are in use. -/
structure Heap where
  objects : Ref → Object
  size : ℕ

/-- `asArraySlice`. -/
def asArraySlice (heap : Heap) : Object → Option (List Value)
  | .array items => some items
  | .arrayManaged items => some items
  | .arrayView items _ => some items
  | .arrayCapacity backing len =>
    match heap.objects backing with
    | .arrayManaged items => some (items.take len)
    | _ => none
  | _ => none

/-- `asMapSlice`. -/
def asMapSlice : Object → Option (List MapEntry)
  | .map entries => some entries
  | .mapManaged entries => some entries
  | .mapHashed entries len => some (entries.take len)
  | _ => none

/-- `MaxSendDepth`. -/
def maxSendDepth : ℕ :=
  64

/-- The objects that may be sent, given which of their parts may. -/
def objectSendable (heap : Heap) (sendable : Value → Bool) (obj : Object) : Bool :=
  match obj with
  | .function | .closure .. | .cell _ | .iterator .. => false
  | .array _ | .arrayManaged _ | .arrayView .. | .arrayCapacity .. =>
    match asArraySlice heap obj with
    | some items => items.all sendable
    | none => false
  | .map _ | .mapManaged _ | .mapHashed .. =>
    match asMapSlice obj with
    | some entries => entries.all fun entry => sendable entry.key && sendable entry.value
    | none => false
  | .structInstance _ fields => fields.all fun field => sendable field.value
  | .smallStructInstance _ values => values.all sendable
  | .namedValue _ value => sendable value
  | .variantValue _ _ _ payload sharedValues armFields =>
    sendable payload && sharedValues.all sendable && armFields.all sendable
  | .dynString _ | .stringView .. | .stringBuilder _ | .enumValue .. | .namedErrorValue ..
  | .shared _ => true

/-- `isSendable`, with the levels that are left before `MaxSendDepth`. -/
def isSendable (heap : Heap) : ℕ → Value → Bool
  | 0, _ => false
  | levels + 1, .object ref => objectSendable heap (isSendable heap levels) (heap.objects ref)
  | _ + 1, _ => true

inductive CloneError
  | notSendable
  | outOfMemory
  | badTempRootDiscipline
  | typeError
  /-- The recursion goes deeper than the model's bound. -/
  | tooDeep
  deriving DecidableEq

/-- What the host does: whether there is memory for the object of an index and what it owns,
and the byte that is read at a place of a slice that was taken before that allocation, which
may have moved the block. -/
structure Host where
  grants : ℕ → Bool
  reads : ℕ → ℕ → UInt8 → UInt8

/-- The heap, and the pairs of a container and its copy. -/
structure Copied where
  heap : Heap
  visits : List (Ref × Ref)

/-- What has been copied, and the number of temporary roots. -/
structure CloneState extends Copied where
  tempRoots : ℕ

abbrev CloneM :=
  StateT CloneState (Except CloneError)

/-- `MaxDeepVisits`. -/
def maxDeepVisits : ℕ :=
  1024

/-- `cloneFindExisting`. -/
def cloneFindExisting (src : Ref) (visits : List (Ref × Ref)) : Option Ref :=
  (visits.find? fun visit => visit.1 = src).map Prod.snd

/-- `cloneRemember`. -/
def cloneRemember (src dst : Ref) : CloneM Unit := fun state =>
  if maxDeepVisits ≤ state.visits.length then .error .outOfMemory
  else .ok ((), { state with visits := state.visits ++ [(src, dst)] })

/-- The allocation of an object. -/
def allocObject (host : Host) (obj : Object) : CloneM Ref := fun state =>
  if host.grants state.heap.size then
    .ok (state.heap.size, { state with
        heap := ⟨Function.update state.heap.objects state.heap.size obj, state.heap.size + 1⟩ })
  else .error .outOfMemory

/-- The contents of an object that has been allocated. -/
def setObject (ref : Ref) (obj : Object) : CloneM Unit := fun state =>
  .ok ((), { state with heap := { state.heap with
    objects := Function.update state.heap.objects ref obj } })

/-- `pushTempRoot`. -/
def pushTempRoot : CloneM Unit := fun state =>
  if maxTempRoots ≤ state.tempRoots then .error .badTempRootDiscipline
  else .ok ((), { state with tempRoots := state.tempRoots + 1 })

/-- `popTempRoot`. -/
def popTempRoot : CloneM Unit := fun state =>
  .ok ((), { state with tempRoots := state.tempRoots - 1 })

/-- An object that is a temporary root while its copy is made: a string or a builder. -/
def allocLeaf (host : Host) (obj : Object) : CloneM Value := do
  let ref ← allocObject host obj
  pushTempRoot
  popTempRoot
  return .object ref

/-- `makeDynString`, which copies the bytes before it allocates. -/
def makeDynString (host : Host) (bytes : List UInt8) : CloneM Value :=
  allocLeaf host (.dynString bytes)

/-- A copy of a builder's bytes, read after the allocation through the old slice. -/
def cloneBuilder (host : Host) (bytes : List UInt8) : CloneM Value := fun state =>
  allocLeaf host (.stringBuilder (bytes.mapIdx (host.reads state.heap.size))) state

section Containers

variable (host : Host) (clone : Value → CloneM Value) (src : Ref)

/-- A container: its copy is allocated, rooted and remembered before its parts are cloned. The
parts are stored in it when all are there: nothing reads them before. -/
def cloneContainer (placeholder : Object) (cloneParts : CloneM Object) : CloneM Value := do
  let dst ← allocObject host placeholder
  pushTempRoot
  cloneRemember src dst
  let copy ← cloneParts
  setObject dst copy
  popTempRoot
  return .object dst

/-- An entry, whose key is rooted while its value is cloned. -/
def cloneEntry (entry : MapEntry) : CloneM MapEntry := do
  let key ← clone entry.key
  pushTempRoot
  let value ← clone entry.value
  popTempRoot
  return ⟨key, value⟩

/-- A field keeps its key. -/
def cloneField (field : MapEntry) : CloneM MapEntry := do
  let value ← clone field.value
  return ⟨field.key, value⟩

/-- `cloneObject`, for an object that has no copy yet. -/
def cloneNew (heap : Heap) (obj : Object) : CloneM Value :=
  match obj with
  | .array _ | .arrayManaged _ | .arrayView .. | .arrayCapacity .. =>
    match asArraySlice heap obj with
    | none => throw .typeError
    | some items =>
      cloneContainer host src (.array []) do
        let items ← items.mapM clone
        return .arrayManaged items
  | .map _ | .mapManaged _ | .mapHashed .. =>
    match asMapSlice obj with
    | none => throw .typeError
    | some entries =>
      cloneContainer host src (.map []) do
        let entries ← entries.mapM (cloneEntry clone)
        return .map entries
  | .dynString bytes => makeDynString host bytes
  | .stringView bytes _ => makeDynString host bytes
  | .stringBuilder bytes => cloneBuilder host bytes
  | .function | .closure .. | .cell _ | .iterator .. | .shared _ => return .object src
  | .namedValue typ value =>
    cloneContainer host src (.array []) do
      let value ← clone value
      return .namedValue typ value
  | .enumValue typ name ordinal => do
    let ref ← allocObject host (.enumValue typ name ordinal)
    return .object ref
  | .structInstance typ fields =>
    cloneContainer host src (.array []) do
      let fields ← fields.mapM (cloneField clone)
      return .structInstance typ fields
  | .smallStructInstance typ values =>
    cloneContainer host src (.smallStructInstance typ values) do
      let values ← values.mapM clone
      return .smallStructInstance typ values
  | .variantValue typ tag ordinal payload sharedValues armFields =>
    cloneContainer host src (.variantValue typ tag ordinal .null [] []) do
      let sharedValues ← sharedValues.mapM clone
      let armFields ← armFields.mapM clone
      let payload ← clone payload
      return .variantValue typ tag ordinal payload sharedValues armFields
  | .namedErrorValue typ msg => do
    let ref ← allocObject host (.namedErrorValue typ msg)
    return .object ref

/-- `cloneObject`. -/
def cloneObject : CloneM Value := fun state =>
  match cloneFindExisting src state.visits with
  | some dst => .ok (.object dst, state)
  | none => cloneNew host clone src state.heap (state.heap.objects src) state

end Containers

/-- `cloneValue`, with a bound on its recursion. -/
def cloneValue (host : Host) : ℕ → Value → CloneM Value
  | 0, _ => throw .tooDeep
  | _ + 1, .string bytes => makeDynString host bytes
  | levels + 1, .object ref => cloneObject host (cloneValue host levels) ref
  | _ + 1, value => return value

/-- `checkSendableAndClone`: the copy, and the heap with it, given how many temporary roots there
are. -/
def checkSendableAndClone (host : Host) (heap : Heap) (tempRoots : ℕ) (value : Value)
    (bound : ℕ) : Except CloneError (Value × Heap) :=
  if ¬isSendable heap maxSendDepth value then .error .notSendable
  else
    match cloneValue host bound value ⟨⟨heap, []⟩, tempRoots⟩ with
    | .error err => .error err
    | .ok (copy, state) => .ok (copy, state.heap)

/-!
# Which messages may be sent

The parts of a message are found by following elements, entries, fields and payloads. A
message may be sent when none of its parts is of an unsendable kind or lies too deep.
-/

open List

/-- The values that an object refers to, its type apart. -/
def links : Object → List Value
  | .array items | .arrayManaged items | .smallStructInstance _ items => items
  | .arrayView items source => .object source :: items
  | .arrayCapacity backing _ => [.object backing]
  | .map entries | .mapManaged entries | .mapHashed entries _ | .structInstance _ entries =>
    entries.flatMap fun entry => [entry.key, entry.value]
  | .stringView _ source => source.toList.map Value.object
  | .closure func upvalues => (func :: upvalues).map Value.object
  | .cell value | .namedValue _ value => [value]
  | .iterator items entries source =>
    source.toList.map Value.object ++ items ++ entries.flatMap fun entry => [entry.key, entry.value]
  | .variantValue _ _ _ payload sharedValues armFields => payload :: sharedValues ++ armFields
  | .dynString _ | .stringBuilder _ | .function | .enumValue .. | .namedErrorValue .. |
    .shared _ => []

/-- A value that refers to an object of the heap, if to any. -/
def InHeap (heap : Heap) (value : Value) : Prop :=
  ∀ ref, value = .object ref → ref < heap.size

/-- A growing array is backed by a managed array. -/
def Backed (heap : Heap) : Object → Prop
  | .arrayCapacity backing len => ∃ items, heap.objects backing = .arrayManaged items ∧
      len ≤ items.length
  | _ => True

/-- The fields of a struct instance are named by constants. -/
def ConstantKeys : Object → Prop
  | .structInstance _ fields => ∀ field ∈ fields, ∀ ref, field.key ≠ .object ref
  | _ => True

/-- What holds of every heap: no reference dangles. -/
structure WellFormed (heap : Heap) : Prop where
  links : ∀ ref, ref < heap.size → ∀ link ∈ links (heap.objects ref), InHeap heap link
  backed : ∀ ref, ref < heap.size → Backed heap (heap.objects ref)
  constantKeys : ∀ ref, ref < heap.size → ConstantKeys (heap.objects ref)

/-- The parts of an object that are looked at. -/
def parts (heap : Heap) (obj : Object) : List Value :=
  match obj with
  | .array _ | .arrayManaged _ | .arrayView .. | .arrayCapacity .. =>
    (asArraySlice heap obj).getD []
  | .map _ | .mapManaged _ | .mapHashed .. =>
    ((asMapSlice obj).getD []).flatMap fun entry => [entry.key, entry.value]
  | .structInstance _ fields => fields.map MapEntry.value
  | .smallStructInstance _ values => values
  | .namedValue _ value => [value]
  | .variantValue _ _ _ payload sharedValues armFields => payload :: sharedValues ++ armFields
  | _ => []

/-- The parts, with the temporary roots that the copy of the object has while they are copied: the
copy itself, and the key of an entry whose value is copied. -/
def heldParts (heap : Heap) (obj : Object) : List (ℕ × Value) :=
  match obj with
  | .map _ | .mapManaged _ | .mapHashed .. =>
    ((asMapSlice obj).getD []).flatMap fun entry => [(1, entry.key), (2, entry.value)]
  | _ => (parts heap obj).map fun part => (1, part)

/-- A part of a message, with the temporary roots there are for the containers around it when it
is copied. -/
inductive Held (heap : Heap) (message : Value) : ℕ → Value → Prop
  | self : Held heap message 0 message
  | inside {ref : Ref} {held roots : ℕ} {part : Value} : Held heap message held (.object ref) →
      (roots, part) ∈ heldParts heap (heap.objects ref) → Held heap message (held + roots) part

/-- Whether the copy of an object is a temporary root for a while. -/
def Object.rooted : Object → Bool
  | .enumValue .. | .namedErrorValue .. | .shared _ | .function | .closure .. | .cell _
  | .iterator .. => false
  | _ => true

/-- The temporary roots that the copy of a value takes by itself. -/
def Value.rooted (heap : Heap) : Value → Bool
  | .string _ => true
  | .object ref => (heap.objects ref).rooted
  | _ => false

/-- With so many temporary roots at the start, there are not enough for a part of the message. -/
def RootsRunOut (heap : Heap) (tempRoots : ℕ) (message : Value) : Prop :=
  ∃ held part, Held heap message held part ∧
    maxTempRoots < tempRoots + held + (part.rooted heap).toNat

/-- A part of a message at a depth. -/
inductive Part (heap : Heap) : Value → ℕ → Value → Prop
  | self (value : Value) : Part heap value 0 value
  | inside {ref : Ref} {part inner : Value} {depth : ℕ} :
      part ∈ parts heap (heap.objects ref) → Part heap part depth inner →
        Part heap (.object ref) (depth + 1) inner

variable {heap : Heap}

theorem Part.trans_parts {value part : Value} {ref : Ref} {depth : ℕ}
    (outer : Part heap value depth (.object ref)) (isPart : part ∈ parts heap (heap.objects ref)) :
    Part heap value (depth + 1) part := by
  generalize heq : Value.object ref = inner at outer
  induction outer with
  | self value =>
    subst heq
    exact .inside isPart (.self part)
  | inside isOuter _ ih => exact .inside isOuter (ih heq)

/-- The kinds of objects that two tasks must not share and that have no copy. -/
def Object.Unsendable : Object → Prop
  | .function | .closure .. | .cell _ | .iterator .. => True
  | _ => False

/-- The value is an object of an unsendable kind. -/
def Unsendable (heap : Heap) : Value → Prop
  | .object ref => (heap.objects ref).Unsendable
  | _ => False

theorem WellFormed.parts (wellFormed : WellFormed heap) {ref : Ref} (inside : ref < heap.size) :
    ∀ part ∈ parts heap (heap.objects ref), InHeap heap part := by
  have linked := wellFormed.links ref inside
  have backed := wellFormed.backed ref inside
  intro part isPart
  generalize heap.objects ref = obj at linked backed isPart
  cases obj with
  | array items | arrayManaged items | smallStructInstance typ items | namedValue typ value
  | variantValue _ _ _ _ _ _ | map _ | mapManaged _ => exact linked part isPart
  | arrayView items source => exact linked part (mem_cons_of_mem _ isPart)
  | arrayCapacity backing len =>
    obtain ⟨items, backingEq, -⟩ := backed
    have backingInside : backing < heap.size :=
      linked _ mem_cons_self backing rfl
    have linkedBacking := wellFormed.links backing backingInside
    rw [backingEq] at linkedBacking
    simp only [Messages.parts, asArraySlice, backingEq, Option.getD_some] at isPart
    exact linkedBacking part (mem_of_mem_take isPart)
  | mapHashed entries len =>
    simp only [Messages.parts, asMapSlice, Option.getD_some, mem_flatMap] at isPart
    obtain ⟨entry, listed, isPart⟩ := isPart
    exact linked part (mem_flatMap.mpr ⟨entry, mem_of_mem_take listed, isPart⟩)
  | structInstance typ fields =>
    obtain ⟨field, listed, rfl⟩ := mem_map.mp isPart
    exact linked field.value (mem_flatMap.mpr ⟨field, listed, by simp⟩)
  | _ => cases isPart

theorem objectSendable_iff {sendable : Value → Bool} {obj : Object} (backed : Backed heap obj) :
    objectSendable heap sendable obj ↔
      ¬obj.Unsendable ∧ ∀ part ∈ parts heap obj, sendable part := by
  cases obj with
  | arrayCapacity backing len =>
    obtain ⟨items, backingEq, -⟩ := backed
    simp [objectSendable, parts, asArraySlice, backingEq, Object.Unsendable]
  | map entries | mapManaged entries | mapHashed entries =>
    simp only [objectSendable, parts, asMapSlice, Object.Unsendable, all_eq_true, Bool.and_eq_true,
      Option.getD_some, mem_flatMap, mem_cons, not_mem_nil, or_false, not_false_eq_true, true_and]
    constructor
    · rintro all part ⟨entry, listed, rfl | rfl⟩
      · exact (all entry listed).1
      · exact (all entry listed).2
    · intro all entry listed
      exact ⟨all _ ⟨entry, listed, .inl rfl⟩, all _ ⟨entry, listed, .inr rfl⟩⟩
  | variantValue typ tag ordinal payload sharedValues armFields =>
    simp [objectSendable, parts, Object.Unsendable, or_imp, forall_and, and_assoc]
  | _ => simp [objectSendable, parts, asArraySlice, Object.Unsendable]

/-- A message may be sent exactly when its parts are sendable and lie less deep than the
levels that are left. -/
theorem isSendable_iff (wellFormed : WellFormed heap) {levels : ℕ} {value : Value}
    (inHeap : InHeap heap value) : isSendable heap levels value ↔
      ∀ depth part, Part heap value depth part → depth < levels ∧ ¬Unsendable heap part := by
  induction levels generalizing value with
  | zero =>
    refine iff_of_false (by simp [isSendable]) fun all => ?_
    exact absurd (all 0 value (.self value)).1 (Nat.not_lt_zero 0)
  | succ levels ih =>
    cases value with
    | object ref =>
      have inside := inHeap ref rfl
      rw [isSendable, objectSendable_iff (wellFormed.backed ref inside)]
      constructor
      · rintro ⟨sendable, sendableParts⟩ depth part isPart
        cases isPart with
        | self => exact ⟨Nat.succ_pos levels, sendable⟩
        | inside isPart inner =>
          have partSendable := (ih (wellFormed.parts inside _ isPart)).mp (sendableParts _ isPart)
          obtain ⟨less, innerSendable⟩ := partSendable _ part inner
          exact ⟨Nat.succ_lt_succ less, innerSendable⟩
      · intro all
        refine ⟨(all 0 _ (.self _)).2, fun part isPart => ?_⟩
        rw [ih (wellFormed.parts inside part isPart)]
        intro depth inner isInner
        obtain ⟨less, innerSendable⟩ := all (depth + 1) inner (.inside isPart isInner)
        exact ⟨Nat.lt_of_succ_lt_succ less, innerSendable⟩
    | _ =>
      refine iff_of_true rfl fun depth part isPart => ?_
      cases isPart
      exact ⟨Nat.succ_pos levels, id⟩

end Gengo.Messages
