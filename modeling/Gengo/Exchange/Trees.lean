import Gengo.Cells.Growing
import Gengo.Exchange.Boundary

/-!
# What values and records stand for

A value of a heap unfolds to a tree, in which nothing is left of the addresses of its parts. Two
values are deeply equal if they unfold to the same tree. A record describes a tree as well, if
whatever it points at lies in memory and every block of records that it points at is one that
was added as a whole. A record has nothing to describe a variant with: it describes the map that
a variant is documented to be converted to.
-/

namespace Gengo.Exchange

open Bytecode (Bytes)
open Cells (Within above)

/-- The tree of a value, with the bytes of its strings and the bits of its floats. The keys and
the values of a map stand in turn. Of the shared values and fields of a variant only the number is
shown. -/
inductive Tree
  | null
  | boolean (value : Bool)
  | int (value : Int64)
  | float (bits : UInt64)
  | decimal (value : Int64)
  | rune (value : BitVec 21)
  | string (bytes : Bytes)
  | error (message : Bytes)
  | array (items : List Tree)
  | map (alternating : List Tree)
  | variant (tag : Bytes) (payload : Tree) (fields : ℕ)

/-- A tree that shows all of a value: no variant has shared values or fields. -/
inductive Tree.Whole : Tree → Prop
  | null : Whole .null
  | boolean (value : Bool) : Whole (.boolean value)
  | int (value : Int64) : Whole (.int value)
  | float (bits : UInt64) : Whole (.float bits)
  | decimal (value : Int64) : Whole (.decimal value)
  | rune (value : BitVec 21) : Whole (.rune value)
  | string (bytes : Bytes) : Whole (.string bytes)
  | error (message : Bytes) : Whole (.error message)
  | array {items : List Tree} (each : ∀ item ∈ items, Whole item) : Whole (.array items)
  | map {alternating : List Tree} (each : ∀ item ∈ alternating, Whole item) :
      Whole (.map alternating)
  | variant {tag : Bytes} {payload : Tree} (inner : Whole payload) : Whole (.variant tag payload 0)

/-- `tag` -/
def tagBytes : Bytes :=
  [116, 97, 103]

/-- `value` -/
def valueBytes : Bytes :=
  [118, 97, 108, 117, 101]

/-- The tree with every variant replaced by a map with the fields `tag` and `value`. -/
def Tree.hosted : Tree → Tree
  | array items => .array (items.map hosted)
  | map alternating => .map (alternating.map hosted)
  | variant tag payload _ =>
    .map [.string tagBytes, .string tag, .string valueBytes, payload.hosted]
  | leaf => leaf

section Hosted

@[simp]
theorem hosted_string (bytes : Bytes) : (Tree.string bytes).hosted = .string bytes := by
  simp [Tree.hosted]

end Hosted

/-- What is seen of a heap. -/
structure HeapView where
  read : Slice → Option Bytes
  objects : ℕ → Option Object

/-- One view shows all that another one does. -/
structure HeapView.Sub (small large : HeapView) : Prop where
  read : Within small.read large.read
  objects : Within small.objects large.objects

/-- A view of a heap from an object on. -/
def Heap.view (heap : Heap) (low : ℕ) : HeapView :=
  ⟨heap.read, above low heap.objects⟩

/-- A value unfolds to a tree, if its parts unfold as `below` has it. -/
inductive UnfoldsWith (view : HeapView) (below : Value → Tree → Prop) : Value → Tree → Prop
  | null : UnfoldsWith view below .null .null
  | boolean (value : Bool) : UnfoldsWith view below (.boolean value) (.boolean value)
  | int (value : Int64) : UnfoldsWith view below (.int value) (.int value)
  | float (bits : UInt64) : UnfoldsWith view below (.float bits) (.float bits)
  | decimal (value : Int64) : UnfoldsWith view below (.decimal value) (.decimal value)
  | rune (value : BitVec 21) : UnfoldsWith view below (.rune value) (.rune value)
  | string {slice : Slice} {bytes : Bytes} (reads : view.read slice = some bytes) :
      UnfoldsWith view below (.string slice) (.string bytes)
  | errorValue {slice : Slice} {bytes : Bytes} (reads : view.read slice = some bytes) :
      UnfoldsWith view below (.errorValue slice) (.error bytes)
  | dynString {address : ℕ} {slice : Slice} {bytes : Bytes}
      (holds : view.objects address = some (.dynString slice))
      (reads : view.read slice = some bytes) :
      UnfoldsWith view below (.object address) (.string bytes)
  | stringView {address : ℕ} {slice : Slice} {bytes : Bytes}
      (holds : view.objects address = some (.stringView slice))
      (reads : view.read slice = some bytes) :
      UnfoldsWith view below (.object address) (.string bytes)
  | array {address : ℕ} {object : Object} {items : List Value} {trees : List Tree}
      (holds : view.objects address = some object)
      (slice : asArraySlice view.objects object = some items)
      (unfold : List.Forall₂ below items trees) :
      UnfoldsWith view below (.object address) (.array trees)
  | map {address : ℕ} {object : Object} {entries : List MapEntry} {trees : List Tree}
      (holds : view.objects address = some object)
      (slice : asMapSlice object = some entries)
      (unfold : List.Forall₂ below (alternating entries) trees) :
      UnfoldsWith view below (.object address) (.map trees)
  | variantValue {address : ℕ} {tag : Slice} {payload : Value} {sharedValues armFields : List Value}
      {name : Bytes} {tree : Tree}
      (holds : view.objects address = some (.variantValue tag payload sharedValues armFields))
      (reads : view.read tag = some name) (unfold : below payload tree) :
      UnfoldsWith view below (.object address)
        (.variant name tree (sharedValues.length + armFields.length))
  | inlineVariant {variant : Maps.InlineVariant} {tag : Slice} {name : Bytes} {tree : Tree}
      (arm : inlineVariantTag view.objects variant = some tag)
      (reads : view.read tag = some name)
      (unfold : below (inlineVariantPayload variant) tree) :
      UnfoldsWith view below (.inlineVariant variant) (.variant name tree 0)

/-- A value unfolds to a tree of less than so many levels. Objects of other kinds and actors do
not: what they are depends on where they are. -/
def HeapView.Unfolds (view : HeapView) : ℕ → Value → Tree → Prop
  | 0 => fun _ _ => False
  | levels + 1 => UnfoldsWith view (view.Unfolds levels)

/-- A value of one heap and a value of another have the same content, and a tree shows all of
it. -/
def DeepEqual (heap : Heap) (value : Value) (other : Heap) (back : Value) : Prop :=
  ∃ levels tree, tree.Whole ∧ (heap.view 0).Unfolds levels value tree ∧
    (other.view 0).Unfolds levels back tree

section Monotone

variable {view large : HeapView} {below below' : Value → Tree → Prop}

theorem asArraySlice_mono {small large : ℕ → Option Object} (sub : Within small large)
    {object : Object} {items : List Value} (slice : asArraySlice small object = some items) :
    asArraySlice large object = some items := by
  cases object with
  | arrayCapacity backing len =>
    simp only [asArraySlice] at slice ⊢
    cases held : small backing with
    | none => simp [held] at slice
    | some source =>
      rw [sub held]
      rwa [held] at slice
  | _ => exact slice

theorem inlineVariantTag_mono {small large : ℕ → Option Object} (sub : Within small large)
    {variant : Maps.InlineVariant} {tag : Slice}
    (arm : inlineVariantTag small variant = some tag) :
    inlineVariantTag large variant = some tag := by
  simp only [inlineVariantTag] at arm ⊢
  cases held : small variant.typIdx.toNat with
  | none => simp [held] at arm
  | some typ =>
    rw [sub held]
    rwa [held] at arm

theorem UnfoldsWith.mono (sub : view.Sub large)
    (same : ∀ value tree, below value tree → below' value tree) {value : Value} {tree : Tree}
    (unfolds : UnfoldsWith view below value tree) : UnfoldsWith large below' value tree := by
  cases unfolds with
  | null => exact .null
  | boolean => exact .boolean _
  | int => exact .int _
  | float => exact .float _
  | decimal => exact .decimal _
  | rune => exact .rune _
  | string reads => exact .string (sub.read reads)
  | errorValue reads => exact .errorValue (sub.read reads)
  | dynString holds reads => exact .dynString (sub.objects holds) (sub.read reads)
  | stringView holds reads => exact .stringView (sub.objects holds) (sub.read reads)
  | array holds slice unfold =>
    exact .array (sub.objects holds) (asArraySlice_mono sub.objects slice) (unfold.imp same)
  | map holds slice unfold => exact .map (sub.objects holds) slice (unfold.imp same)
  | variantValue holds reads unfold =>
    exact .variantValue (sub.objects holds) (sub.read reads) (same _ _ unfold)
  | inlineVariant arm reads unfold =>
    exact .inlineVariant (inlineVariantTag_mono sub.objects arm) (sub.read reads) (same _ _ unfold)

theorem HeapView.Unfolds.mono (sub : view.Sub large) {levels : ℕ} {value : Value} {tree : Tree}
    (unfolds : view.Unfolds levels value tree) : large.Unfolds levels value tree := by
  induction levels generalizing value tree with
  | zero => exact unfolds
  | succ levels ih =>
    exact UnfoldsWith.mono sub (fun _ _ => ih) unfolds

end Monotone

/-- What is seen of the bytes, of the records and of the blocks of records. -/
structure WireView where
  read : Slice → Option Bytes
  records : ℕ → Option ValueWire
  buffers : List (ℕ × ℕ)

/-- One view shows all that another one does. -/
structure WireView.Sub (small large : WireView) : Prop where
  read : Within small.read large.read
  records : Within small.records large.records
  buffers : small.buffers ⊆ large.buffers

/-- A view of the records from one on. -/
def Context.view (ctx : Context) (low : ℕ) : WireView :=
  ⟨ctx.heap.read, above low ctx.arena.records, ctx.arena.buffers⟩

namespace WireView

/-- The records from a start on. -/
def Holds (view : WireView) (start : ℕ) (wires : List ValueWire) : Prop :=
  ∀ index wire, wires[index]? = some wire → view.records (start + index) = some wire

/-- The records from a start on are a whole block. -/
structure Block (view : WireView) (start : ℕ) (wires : List ValueWire) : Prop where
  owned : (start, wires.length) ∈ view.buffers
  holds : view.Holds start wires

theorem Block.mono {view large : WireView} (sub : view.Sub large) {start : ℕ}
    {wires : List ValueWire} (block : view.Block start wires) : large.Block start wires := by
  constructor
  · exact sub.buffers block.owned
  · intro index wire found
    exact sub.records (block.holds index wire found)

end WireView

/-- A record describes a tree, if the records of its block describe its parts as `below` has
it. -/
inductive DescribesWith (view : WireView) (below : ValueWire → Tree → Prop) :
    ValueWire → Tree → Prop
  | null : DescribesWith view below nullWire .null
  | boolean (value : Bool) :
      DescribesWith view below (makeWire .boolean 0 (if value then 1 else 0) 0) (.boolean value)
  | int (value : Int64) :
      DescribesWith view below (makeWire .number flagInteger value.toUInt64 0) (.int value)
  | float (bits : UInt64) : DescribesWith view below (makeWire .number 0 bits 0) (.float bits)
  | decimal (value : Int64) :
      DescribesWith view below (makeWire .number flagDecimal value.toUInt64 0) (.decimal value)
  | rune (value : BitVec 21) :
      DescribesWith view below (makeWire .number flagRune (UInt64.ofNat value.toNat) 0)
        (.rune value)
  | string {payload : UInt64} {len : UInt32} {bytes : Bytes}
      (reads : view.read ⟨payload, len.toNat⟩ = some bytes) :
      DescribesWith view below (makeWire .string 0 payload len) (.string bytes)
  | error {payload : UInt64} {len : UInt32} {bytes : Bytes}
      (reads : view.read ⟨payload, len.toNat⟩ = some bytes) :
      DescribesWith view below (makeWire .error 0 payload len) (.error bytes)
  | array {payload : UInt64} {len : UInt32} {wires : List ValueWire} {trees : List Tree}
      (block : view.Block payload.toNat wires) (count : wires.length = len.toNat)
      (describe : List.Forall₂ below wires trees) :
      DescribesWith view below (makeWire .array 0 payload len) (.array trees)
  | map {payload : UInt64} {len : UInt32} {wires : List ValueWire} {trees : List Tree}
      (block : view.Block payload.toNat wires) (count : wires.length = len.toNat * 2)
      (describe : List.Forall₂ below wires trees) :
      DescribesWith view below (makeWire .map 0 payload len) (.map trees)

/-- A record describes a tree of less than so many levels, and all that it points at lies in the
block or the string that it points at. -/
def WireView.Describes (view : WireView) : ℕ → ValueWire → Tree → Prop
  | 0 => fun _ _ => False
  | levels + 1 => DescribesWith view (view.Describes levels)

section Monotone

variable {view large : WireView} {below below' : ValueWire → Tree → Prop}

theorem DescribesWith.mono (sub : view.Sub large)
    (same : ∀ wire tree, below wire tree → below' wire tree) {wire : ValueWire} {tree : Tree}
    (describes : DescribesWith view below wire tree) : DescribesWith large below' wire tree := by
  cases describes with
  | null => exact .null
  | boolean => exact .boolean _
  | int => exact .int _
  | float => exact .float _
  | decimal => exact .decimal _
  | rune => exact .rune _
  | string reads => exact .string (sub.read reads)
  | error reads => exact .error (sub.read reads)
  | array block count describe => exact .array (block.mono sub) count (describe.imp same)
  | map block count describe => exact .map (block.mono sub) count (describe.imp same)

theorem WireView.Describes.mono (sub : view.Sub large) {levels : ℕ} {wire : ValueWire}
    {tree : Tree} (describes : view.Describes levels wire tree) :
    large.Describes levels wire tree := by
  induction levels generalizing wire tree with
  | zero => exact describes
  | succ levels ih =>
    exact DescribesWith.mono sub (fun _ _ => ih) describes

end Monotone

/-- There is not enough room, or a map has 2³¹ entries or more. -/
def HostError.TooMuch (failure : HostError) : Prop :=
  failure = .outOfMemory ∨ failure = .tooManyConstants ∨ failure = .countOverflow

section Outcome

universe u v

variable {α : Type u} {β : Type u}

/-- A result has a property, or there was too much. -/
def Outcome (holds : α → Prop) : Except HostError α → Prop
  | .ok result => holds result
  | .error failure => failure.TooMuch

theorem Outcome.bind {holds : α → Prop} {holds' : β → Prop} {first : Except HostError α}
    {next : α → Except HostError β} (outcome : Outcome holds first)
    (continues : ∀ result, holds result → Outcome holds' (next result)) :
    Outcome holds' (first >>= next) := by
  cases first with
  | error failure => exact outcome
  | ok result => exact continues result outcome

end Outcome

theorem Context.internStr_outcome (ctx : Context) (slice : Slice) :
    Outcome (fun answer => ctx.heap.read answer.1 = ctx.heap.read slice ∧
      answer.2.heap = ctx.heap ∧ answer.2.arena = ctx.arena) (ctx.internStr slice) := by
  unfold internStr
  simp only
  split
  · rename_i held found
    refine ⟨?_, rfl, rfl⟩
    by_cases short : slice.len ≤ 32
    · rw [if_pos short] at found
      simpa using List.find?_some found
    · simp [short] at found
  · split
    · exact ⟨rfl, rfl, rfl⟩
    · exact .inr (.inl rfl)

end Gengo.Exchange
