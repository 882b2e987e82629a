import Gengo.Maps.Keys

/-!
# The boundary to host modules

Arguments of a host function are turned into records of a fixed layout. A record of a string
points at the bytes of the string, and one of an array or a map points at a block of records
that is added for its elements. A record that the host returns is turned into a value with new
objects.

The bytes of strings, the objects of the pool and the records of the permanent end of the heap
each have addresses of their own, counted in bytes, objects and records. Nothing is collected or
moved: an allocation finds room or fails. Roots, which only concern collections, are left out.
-/

namespace Gengo.Exchange

open Bytecode (Bytes)
open Maps (InlineVariant)

inductive WireTag
  | null
  | boolean
  | number
  | string
  | array
  | map
  | error
  deriving DecidableEq, Repr

namespace WireTag

/-- `@intFromEnum` -/
def code : WireTag → UInt8
  | null => 0
  | boolean => 1
  | number => 2
  | string => 3
  | array => 4
  | map => 5
  | error => 6

/-- `@enumFromInt` -/
def ofCode (byte : UInt8) : Option WireTag :=
  [null, boolean, number, string, array, map, error][byte.toNat]?

end WireTag

def flagInteger : UInt8 :=
  1

def flagDecimal : UInt8 :=
  2

def flagRune : UInt8 :=
  4

/-- `ValueWire`, without its reserved fields. -/
structure ValueWire where
  tag : UInt8
  flags : UInt8
  payload : UInt64
  len : UInt32
  deriving DecidableEq, Repr

def makeWire (tag : WireTag) (flags : UInt8) (payload : UInt64) (len : UInt32) : ValueWire :=
  ⟨tag.code, flags, payload, len⟩

section

variable (tag : WireTag) (flags : UInt8) (payload : UInt64) (len : UInt32)
include tag flags payload len

@[simp]
theorem makeWire_flags : (makeWire tag flags payload len).flags = flags :=
  rfl

end

def nullWire : ValueWire :=
  makeWire .null 0 0 0

/-- `[]const u8` -/
structure Slice where
  ptr : UInt64
  len : ℕ
  deriving DecidableEq, Repr

/-- A value. A string is the slice that it was interned with, a float is the bits of its number,
and an object is its index in the pool. -/
inductive Value
  | null
  | boolean (value : Bool)
  | int (value : Int64)
  | float (bits : UInt64)
  | decimal (value : Int64)
  | rune (value : BitVec 21)
  | string (bytes : Slice)
  | errorValue (message : Slice)
  | object (address : ℕ)
  | inlineVariant (variant : InlineVariant)
  | actorRef (index generation : UInt32)
  deriving DecidableEq, Repr

structure MapEntry where
  key : Value
  value : Value
  deriving DecidableEq, Repr

/-- An object, as far as the boundary looks at it: `array` is also a managed array or a view of
one, with the items that it shows now, and `map` a managed map. `other` is an object of any
other kind: a named value, a struct, an enum value, a big integer, a function or a type. -/
inductive Object
  | dynString (bytes : Slice)
  | stringView (bytes : Slice)
  | array (items : List Value)
  | arrayCapacity (backing len : ℕ)
  | map (entries : List MapEntry)
  | mapHashed (entries : List MapEntry) (len : ℕ)
  | variantType (arms : List Slice)
  | variantValue (tag : Slice) (payload : Value) (sharedValues armFields : List Value)
  | other
  deriving DecidableEq, Repr

def inlineVariantPayload (variant : InlineVariant) : Value :=
  match variant.kind.toNat with
  | 1 => .int (Int64.ofBitVec (variant.payload.signExtend 64))
  | 2 => .boolean (variant.payload ≠ 0)
  | 3 => .rune (variant.payload.setWidth 21)
  | 4 => .decimal (Int64.ofBitVec (variant.payload.signExtend 64))
  | _ => .null

inductive HostError
  | valueTooDeep
  | valueTooLarge
  | unsupportedValueType
  | outOfMemory
  | tooManyConstants
  /-- `count * 2` is no `u32`. -/
  | countOverflow
  /-- What the code does not check: a pointer that points nowhere, a tag or a rune that is
  none. -/
  | illegal
  deriving DecidableEq, Repr

/-- The bytes of strings, with how many more there is room for, and the pool of objects. -/
structure Heap where
  memory : Bytes
  room : ℕ
  objects : List Object
  maxObjects : ℕ
  addressable : memory.length + room < 2 ^ 64

/-- The records that `bump` has given out, with the start and the length of each block. -/
structure Arena where
  records : List ValueWire
  room : ℕ
  buffers : List (ℕ × ℕ)
  addressable : records.length + room < 2 ^ 64

/-- `VMContext`: the heap, the interned strings and the permanent records. -/
structure Context where
  heap : Heap
  strSlices : List Slice
  arena : Arena

/-- `MaxStrSlices` -/
def maxStrSlices : ℕ :=
  4096 * 4

namespace Heap

/-- The bytes of a slice that lies in memory. -/
def read (heap : Heap) (slice : Slice) : Option Bytes :=
  if slice.ptr.toNat + slice.len ≤ heap.memory.length then
    some ((heap.memory.drop slice.ptr.toNat).take slice.len)
  else none

theorem addressable_append {memory : Bytes} {room : ℕ} (bytes : Bytes)
    (addressable : memory.length + room < 2 ^ 64) (enough : bytes.length ≤ room) :
    (memory ++ bytes).length + (room - bytes.length) < 2 ^ 64 := by
  rw [List.length_append]
  omega

/-- `vmAllocManagedBytes` and `@memcpy`: a copy of the bytes. -/
def allocBytes (heap : Heap) (bytes : Bytes) : Except HostError (Slice × Heap) :=
  if enough : bytes.length ≤ heap.room then
    .ok (⟨UInt64.ofNat heap.memory.length, bytes.length⟩, { heap with
        memory := heap.memory ++ bytes
        room := heap.room - bytes.length
        addressable := addressable_append bytes heap.addressable enough })
  else .error .outOfMemory

theorem addressable_sub {memory : Bytes} {room : ℕ} (size : ℕ)
    (addressable : memory.length + room < 2 ^ 64) : memory.length + (room - size) < 2 ^ 64 := by
  omega

/-- `vmAllocManagedSlice`: room for so many bytes of values. -/
def allocSlice (heap : Heap) (size : ℕ) : Except HostError Heap :=
  if size ≤ heap.room then
    .ok { heap with
      room := heap.room - size
      addressable := addressable_sub size heap.addressable }
  else .error .outOfMemory

/-- `allocTempRooted` -/
def allocObject (heap : Heap) (object : Object) : Except HostError (ℕ × Heap) :=
  if heap.objects.length < heap.maxObjects then
    .ok (heap.objects.length, { heap with objects := heap.objects ++ [object] })
  else .error .outOfMemory

def setObject (heap : Heap) (address : ℕ) (object : Object) : Heap :=
  { heap with objects := heap.objects.set address object }

end Heap

namespace Arena

theorem addressable_append {records : List ValueWire} {room : ℕ} (count : ℕ)
    (addressable : records.length + room < 2 ^ 64) (enough : count ≤ room) :
    (records ++ List.replicate count nullWire).length + (room - count) < 2 ^ 64 := by
  rw [List.length_append, List.length_replicate]
  omega

/-- `bump` of so many records, which are not written yet. -/
def bump (arena : Arena) (count : ℕ) : Except HostError (ℕ × Arena) :=
  if enough : count ≤ arena.room then
    .ok (arena.records.length,
      { records := arena.records ++ List.replicate count nullWire
        room := arena.room - count
        buffers := (arena.records.length, count) :: arena.buffers
        addressable := addressable_append count arena.addressable enough })
  else .error .outOfMemory

theorem addressable_set {records : List ValueWire} {room : ℕ} (address : ℕ) (wire : ValueWire)
    (addressable : records.length + room < 2 ^ 64) :
    (records.set address wire).length + room < 2 ^ 64 := by
  rwa [List.length_set]

def put (arena : Arena) (address : ℕ) (wire : ValueWire) : Arena :=
  { arena with
    records := arena.records.set address wire
    addressable := addressable_set address wire arena.addressable }

end Arena

/-- `internStr`: a slice of the same bytes that is short enough to be looked for, or this one. -/
def Context.internStr (ctx : Context) (slice : Slice) : Except HostError (Slice × Context) :=
  let found : Option Slice :=
    if slice.len ≤ 32 then
      ctx.strSlices.find? fun held => decide (ctx.heap.read held = ctx.heap.read slice)
    else none
  match found with
  | some held => .ok (held, ctx)
  | none =>
    if ctx.strSlices.length < maxStrSlices then
      .ok (slice, { ctx with strSlices := ctx.strSlices ++ [slice] })
    else .error .tooManyConstants

def maxWireDepth : ℕ :=
  64

def wireLen (len : ℕ) : Except HostError UInt32 :=
  if 4294967295 < len then .error .valueTooLarge else .ok (UInt32.ofNat len)

section Sending

variable (objects : ℕ → Option Object)

/-- `asArraySlice`, of an object that is an array. -/
def asArraySlice : Object → Option (List Value)
  | .array items => some items
  | .arrayCapacity backing len =>
    match objects backing with
    | some (.array items) => some (items.take len)
    | _ => none
  | _ => none

/-- `asMapSlice`, of an object that is a map. -/
def asMapSlice : Object → Option (List MapEntry)
  | .map entries => some entries
  | .mapHashed entries len => some (entries.take len)
  | _ => none

/-- The name of the arm of an inline variant. -/
def inlineVariantTag (variant : InlineVariant) : Option Slice :=
  match objects variant.typIdx.toNat with
  | some (.variantType arms) => arms[variant.ordinal.toNat]?
  | _ => none

end Sending

/-- The keys and the values of a map in turn. -/
def alternating (entries : List MapEntry) : List Value :=
  entries.flatMap fun entry => [entry.key, entry.value]

/-- The literals `"tag"` and `"value"`, which lie at the start of memory. -/
def literals : Bytes :=
  [116, 97, 103, 118, 97, 108, 117, 101]

def tagLiteral : Slice :=
  ⟨0, 3⟩

def valueLiteral : Slice :=
  ⟨3, 5⟩

/-- How a value is turned into a record. -/
abbrev Writer := Value → Context → Except HostError (ValueWire × Context)

/-- `wires[i] = try wireFromValueDepth(ctx, item, depth + 1)` -/
def putWire (write : Writer) (address : ℕ) (item : Value) (ctx : Context) :
    Except HostError Context := do
  let (wire, ctx) ← write item ctx
  return { ctx with arena := ctx.arena.put address wire }

def putWires (write : Writer) : ℕ → List Value → Context → Except HostError Context
  | _, [], ctx => .ok ctx
  | address, item :: items, ctx => do
    let ctx ← putWire write address item ctx
    putWires write (address + 1) items ctx

/-- A block of records for some items. -/
def wiresOf (write : Writer) (items : List Value) (ctx : Context) :
    Except HostError (UInt64 × Context) := do
  let (start, arena) ← ctx.arena.bump items.length
  let ctx ← putWires write start items { ctx with arena := arena }
  return (UInt64.ofNat start, ctx)

/-- A string that is interned first. -/
def putName (write : Writer) (address : ℕ) (name : Slice) (ctx : Context) :
    Except HostError Context := do
  let (name, ctx) ← ctx.internStr name
  putWire write address (.string name) ctx

/-- A variant is the map of its tag and its payload. -/
def wiresOfVariant (write : Writer) (tag : Slice) (payload : Value) (ctx : Context) :
    Except HostError (ValueWire × Context) := do
  let (start, arena) ← ctx.arena.bump 4
  let ctx ← putName write start tagLiteral { ctx with arena := arena }
  let ctx ← putName write (start + 1) tag ctx
  let ctx ← putName write (start + 2) valueLiteral ctx
  let ctx ← putWire write (start + 3) payload ctx
  return (makeWire .map 0 (UInt64.ofNat start) 2, ctx)

/-- A record that points at the bytes of a string. -/
def wireOfString (tag : WireTag) (slice : Slice) (ctx : Context) :
    Except HostError (ValueWire × Context) := do
  let len ← wireLen slice.len
  return (makeWire tag 0 slice.ptr len, ctx)

/-- The records of an object. -/
def wireFromObject (write : Writer) (object : Object) (ctx : Context) :
    Except HostError (ValueWire × Context) :=
  match object with
  | .dynString slice | .stringView slice => wireOfString .string slice ctx
  | .array _ | .arrayCapacity _ _ =>
    match asArraySlice (ctx.heap.objects[·]?) object with
    | some items => do
      let (start, ctx) ← wiresOf write items ctx
      let len ← wireLen items.length
      return (makeWire .array 0 start len, ctx)
    | none => .error .illegal
  | .map _ | .mapHashed _ _ =>
    match asMapSlice object with
    | some entries => do
      let (start, ctx) ← wiresOf write (alternating entries) ctx
      let len ← wireLen entries.length
      return (makeWire .map 0 start len, ctx)
    | none => .error .illegal
  -- The shared values and the fields of the arm are left out.
  | .variantValue tag payload _ _ => wiresOfVariant write tag payload ctx
  | .variantType _ | .other => .error .unsupportedValueType

/-- `wireFromValueDepth`, with the levels that are left. -/
def wireFromValueDepth : ℕ → Writer
  | 0, _, _ => .error .valueTooDeep
  | levels + 1, value, ctx =>
    match value with
    | .null => .ok (nullWire, ctx)
    | .boolean value => .ok (makeWire .boolean 0 (if value then 1 else 0) 0, ctx)
    | .int value => .ok (makeWire .number flagInteger value.toUInt64 0, ctx)
    | .float bits => .ok (makeWire .number 0 bits 0, ctx)
    | .rune value => .ok (makeWire .number flagRune (UInt64.ofNat value.toNat) 0, ctx)
    | .decimal value => .ok (makeWire .number flagDecimal value.toUInt64 0, ctx)
    | .string slice => wireOfString .string slice ctx
    | .errorValue slice => wireOfString .error slice ctx
    | .object address =>
      match ctx.heap.objects[address]? with
      | some object => wireFromObject (wireFromValueDepth levels) object ctx
      | none => .error .illegal
    | .inlineVariant variant =>
      match inlineVariantTag (ctx.heap.objects[·]?) variant with
      | some tag =>
        wiresOfVariant (wireFromValueDepth levels) tag (inlineVariantPayload variant) ctx
      | none => .error .illegal
    | .actorRef _ _ => .error .unsupportedValueType

def wireFromValue (ctx : Context) (value : Value) : Except HostError (ValueWire × Context) :=
  wireFromValueDepth maxWireDepth value ctx

/-- How a record is turned into a value. -/
abbrev Reader := ValueWire → Context → Except HostError (Value × Context)

/-- The record of a number. -/
def valueFromNumber (wire : ValueWire) : Except HostError Value :=
  if wire.flags &&& flagDecimal ≠ 0 then .ok (.decimal wire.payload.toInt64)
  else if wire.flags &&& flagRune ≠ 0 then
    if wire.payload.toNat < 2 ^ 21 then .ok (.rune (BitVec.ofNat 21 wire.payload.toNat))
    else .error .illegal
  else if wire.flags &&& flagInteger ≠ 0 then .ok (.int wire.payload.toInt64)
  else .ok (.float wire.payload)

/-- What a record of bytes points at. -/
def bytesAt (ctx : Context) (wire : ValueWire) : Except HostError Bytes :=
  match ctx.heap.read ⟨wire.payload, wire.len.toNat⟩ with
  | some data => .ok data
  | none => .error .illegal

/-- So many records from a pointer on. The pointer to none is not followed. -/
def wiresAt (ctx : Context) (payload : UInt64) (count : ℕ) : Except HostError (List ValueWire) :=
  if count = 0 ∨ payload.toNat + count ≤ ctx.arena.records.length then
    .ok ((ctx.arena.records.drop payload.toNat).take count)
  else .error .illegal

def makeDynString (ctx : Context) (bytes : Bytes) : Except HostError (Value × Context) := do
  let (address, heap) ← ctx.heap.allocObject (.dynString ⟨0, 0⟩)
  if bytes = [] then return (.object address, { ctx with heap := heap })
  else
    let (slice, heap) ← heap.allocBytes bytes
    return (.object address, { ctx with heap := heap.setObject address (.dynString slice) })

/-- `arr_obj.array_managed[i] = v` -/
def Heap.setItem (heap : Heap) (address index : ℕ) (value : Value) : Heap :=
  match heap.objects[address]? with
  | some (.array items) => heap.setObject address (.array (items.set index value))
  | _ => heap

/-- `map_obj.map_managed[i] = .{ .key = k, .value = v }` -/
def Heap.setEntry (heap : Heap) (address index : ℕ) (entry : MapEntry) : Heap :=
  match heap.objects[address]? with
  | some (.map entries) => heap.setObject address (.map (entries.set index entry))
  | _ => heap

def readItems (read : Reader) (address : ℕ) :
    ℕ → List ValueWire → Context → Except HostError Context
  | _, [], ctx => .ok ctx
  | index, wire :: wires, ctx => do
    let (item, ctx) ← read wire ctx
    readItems read address (index + 1) wires
      { ctx with heap := ctx.heap.setItem address index item }

def readEntries (read : Reader) (address : ℕ) :
    ℕ → List ValueWire → Context → Except HostError Context
  | index, keyWire :: valueWire :: wires, ctx => do
    let (key, ctx) ← read keyWire ctx
    let (value, ctx) ← read valueWire ctx
    readEntries read address (index + 1) wires
      { ctx with heap := ctx.heap.setEntry address index ⟨key, value⟩ }
  | _, _, ctx => .ok ctx

/-- `@sizeOf(Value)` -/
def sizeOfValue : ℕ :=
  16

def valueFromArray (read : Reader) (wire : ValueWire) (ctx : Context) :
    Except HostError (Value × Context) := do
  let count : ℕ := wire.len.toNat
  let elemWires ← wiresAt ctx wire.payload count
  let (address, heap) ← ctx.heap.allocObject (.array [])
  let heap ← heap.allocSlice (sizeOfValue * count)
  let heap : Heap := heap.setObject address (.array (List.replicate count .null))
  let ctx ← readItems read address 0 elemWires { ctx with heap := heap }
  return (.object address, ctx)

def valueFromMap (read : Reader) (wire : ValueWire) (ctx : Context) :
    Except HostError (Value × Context) := do
  let count : ℕ := wire.len.toNat
  if 4294967295 < count * 2 then throw .countOverflow
  let pairWires ← wiresAt ctx wire.payload (count * 2)
  let (address, heap) ← ctx.heap.allocObject (.map [])
  let heap ← heap.allocSlice (2 * sizeOfValue * count)
  let heap : Heap := heap.setObject address (.map (List.replicate count ⟨.null, .null⟩))
  let ctx ← readEntries read address 0 pairWires { ctx with heap := heap }
  return (.object address, ctx)

/-- The empty literal. -/
def emptyLiteral : Slice :=
  ⟨0, 0⟩

def valueFromError (wire : ValueWire) (ctx : Context) : Except HostError (Value × Context) := do
  if wire.len = 0 then
    let (message, ctx) ← ctx.internStr emptyLiteral
    return (.errorValue message, ctx)
  else
    let data ← bytesAt ctx wire
    let (copy, heap) ← ctx.heap.allocBytes data
    let (message, ctx) ← Context.internStr { ctx with heap := heap } copy
    return (.errorValue message, ctx)

def valueFromString (wire : ValueWire) (ctx : Context) : Except HostError (Value × Context) := do
  if wire.len = 0 then
    let (empty, ctx) ← ctx.internStr emptyLiteral
    return (.string empty, ctx)
  else
    let data ← bytesAt ctx wire
    makeDynString ctx data

/-- `valueFromWireDepth`, with the levels that are left. -/
def valueFromWireDepth : ℕ → Reader
  | 0, _, _ => .error .valueTooDeep
  | levels + 1, wire, ctx =>
    match WireTag.ofCode wire.tag with
    | some .null => .ok (.null, ctx)
    | some .boolean => .ok (.boolean (wire.payload ≠ 0), ctx)
    | some .number => do return (← valueFromNumber wire, ctx)
    | some .error => valueFromError wire ctx
    | some .string => valueFromString wire ctx
    | some .array => valueFromArray (valueFromWireDepth levels) wire ctx
    | some .map => valueFromMap (valueFromWireDepth levels) wire ctx
    | none => .error .illegal

def valueFromWire (ctx : Context) (wire : ValueWire) : Except HostError (Value × Context) :=
  valueFromWireDepth maxWireDepth wire ctx

end Gengo.Exchange
