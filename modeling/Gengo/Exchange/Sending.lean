import Gengo.Exchange.Trees

/-!
# What is sent

A value that is accepted unfolds to a tree, and its record describes the form of that tree that a
host gets. A block of records is filled from left to right while the records of its elements are
added above it.
-/

namespace Gengo.Exchange

open List Except Nat
open Bytecode (Bytes)
open Cells (Within above above_within_of_le above_within_of_extends above_set prefix_set)

/-- Whatever a value points at is there. -/
def Value.Held (view : HeapView) : Value → Prop
  | .string slice | .errorValue slice => ∃ bytes, view.read slice = some bytes
  | .object address => ∃ object, view.objects address = some object
  | .inlineVariant variant =>
    ∃ tag name, inlineVariantTag view.objects variant = some tag ∧ view.read tag = some name
  | _ => True

/-- Whatever an object points at is there. -/
def Object.Held (view : HeapView) : Object → Prop
  | .dynString slice | .stringView slice => ∃ bytes, view.read slice = some bytes
  | .array items => ∀ item ∈ items, item.Held view
  | .arrayCapacity backing _ => ∃ items, view.objects backing = some (.array items)
  | .map entries | .mapHashed entries _ =>
    ∀ entry ∈ entries, entry.key.Held view ∧ entry.value.Held view
  | .variantValue tag payload sharedValues armFields =>
    (∃ name, view.read tag = some name) ∧ payload.Held view ∧
      (∀ value ∈ sharedValues, value.Held view) ∧ ∀ value ∈ armFields, value.Held view
  | .variantType arms => ∀ arm ∈ arms, ∃ name, view.read arm = some name
  | .other => True

/-- Nothing in a heap points outside of it, and the literals are there. -/
structure Heap.Sound (heap : Heap) : Prop where
  objects : ∀ address object, (heap.view 0).objects address = some object →
    object.Held (heap.view 0)
  literals : literals <+: heap.memory

namespace Heap

variable {heap : Heap}

end Heap

/-- A record has been written for a tree, and only records above have been added. -/
structure Sent (levels : ℕ) (ctx sent : Context) (wire : ValueWire) (tree : Tree) : Prop where
  heap : sent.heap = ctx.heap
  records : ctx.arena.records <+: sent.arena.records
  buffers : ctx.arena.buffers ⊆ sent.arena.buffers
  describes : (sent.view ctx.arena.records.length).Describes levels wire tree

/-- Values that are accepted unfold, and their records describe them. -/
def Faithful (heap : Heap) (levels : ℕ) (write : Writer) : Prop :=
  ∀ ⦃value ctx wire sent⦄, ctx.heap = heap → value.Held (heap.view 0) →
    write value ctx = .ok (wire, sent) →
    ∃ tree, (heap.view 0).Unfolds levels value tree ∧ Sent levels ctx sent wire tree.hosted

/-- The first records of a block of so many describe trees. -/
structure Filling (levels : ℕ) (ctx filled : Context) (count : ℕ) (trees : List Tree) : Prop where
  heap : filled.heap = ctx.heap
  records : ctx.arena.records <+: filled.arena.records
  buffers : (ctx.arena.records.length, count) :: ctx.arena.buffers ⊆ filled.arena.buffers
  room : ctx.arena.records.length + count ≤ filled.arena.records.length
  wires : ∃ wires : List ValueWire, wires.length = trees.length ∧
    (∀ index wire, wires[index]? = some wire →
      filled.arena.records[ctx.arena.records.length + index]? = some wire) ∧
    List.Forall₂ ((filled.view (ctx.arena.records.length + count)).Describes levels) wires trees

section Filling

variable {levels count : ℕ} {ctx filled after : Context} {trees : List Tree} {heap : Heap}
  {write : Writer}

theorem sub_of_extends (same : after.heap = filled.heap)
    (records : filled.arena.records <+: after.arena.records)
    (buffers : filled.arena.buffers ⊆ after.arena.buffers) (low : ℕ) :
    (filled.view low).Sub (after.view low) := by
  constructor
  · rw [Context.view, Context.view, same]
    exact Within.refl _
  · exact above_within_of_extends records
  · exact buffers

theorem sub_of_le {low high : ℕ} (le : low ≤ high) : (ctx.view high).Sub (ctx.view low) := by
  constructor
  · exact Within.refl _
  · exact above_within_of_le le
  · exact List.Subset.refl _

variable (levels) in
theorem Filling.bump {start : ℕ} {arena : Arena}
    (bumped : ctx.arena.bump count = .ok (start, arena)) :
    start = ctx.arena.records.length ∧ Filling levels ctx { ctx with arena := arena } count [] := by
  unfold Arena.bump at bumped
  split at bumped
  · rcases bumped with ⟨rfl, rfl⟩
    refine ⟨rfl, rfl, prefix_append _ _, List.Subset.refl _, ?_, [], rfl, ?_, .nil⟩
    · simp
    · simp
  · simp at bumped

section

variable (filling : Filling levels ctx filled count trees)
include filling

/-- A record is written behind those that have been written, after the records of its parts have
been added above the block. -/
theorem Filling.put (same : ctx.heap = heap) (faithful : Faithful heap levels write)
    {item : Value} (held : item.Held (heap.view 0)) (below : trees.length < count)
    (written : putWire write (ctx.arena.records.length + trees.length) item filled = .ok after) :
    ∃ tree, (heap.view 0).Unfolds levels item tree ∧
      Filling levels ctx after count (trees ++ [tree.hosted]) := by
  unfold putWire at written
  cases result : write item filled with
  | error failure => simp [result, bind, Except.bind] at written
  | ok answer =>
    rcases answer with ⟨wire, sent⟩
    simp only [result, bind, Except.bind, pure, Except.pure, ok.injEq] at written
    rcases faithful (filling.heap.trans same) held result with ⟨tree, unfolds, sends⟩
    refine ⟨tree, unfolds, ?_⟩
    subst written
    have inside : ctx.arena.records.length + trees.length < sent.arena.records.length := by
      have grown := sends.records.length_le
      have room := filling.room
      omega
    have unseen : (Context.view
        { sent with arena := sent.arena.put (ctx.arena.records.length + trees.length) wire }
        (ctx.arena.records.length + count)) =
        sent.view (ctx.arena.records.length + count) := by
      rw [Context.view, Context.view]
      simp only [Arena.put]
      rw [above_set (Nat.add_lt_add_left below ctx.arena.records.length)]
    rcases filling.wires with ⟨wires, length_wires, holds, describe⟩
    constructor
    · exact sends.heap.trans filling.heap
    · exact prefix_set (filling.records.trans sends.records) (le_add_right _ _)
    · exact List.Subset.trans filling.buffers sends.buffers
    · have grown := sends.records.length_le
      have room := filling.room
      simp only [Arena.put, length_set]
      omega
    · refine ⟨wires ++ [wire], ?_, ?_, ?_⟩
      · simp [length_wires]
      · intro index other found
        by_cases last : index = trees.length
        · subst last
          rw [List.getElem?_append_right (by rw [length_wires]), length_wires,
            Nat.sub_self] at found
          simp only [Arena.put]
          rw [List.getElem?_set_self inside]
          exact found
        · have before : index < trees.length := by
            have bound := (List.getElem?_eq_some_iff.mp found).1
            rw [length_append, length_singleton, length_wires] at bound
            omega
          rw [List.getElem?_append_left (by rw [length_wires]; exact before)] at found
          simp only [Arena.put]
          rw [List.getElem?_set_ne (by omega)]
          have kept := holds index other found
          rcases sends.records with ⟨rest, records_eq⟩
          rw [← records_eq, List.getElem?_append_left (List.getElem?_eq_some_iff.mp kept).1]
          exact kept
      · rw [unseen]
        apply rel_append
        · apply describe.imp
          intro wire tree
          exact WireView.Describes.mono (sub_of_extends sends.heap sends.records sends.buffers _)
        · apply List.Forall₂.cons _ .nil
          exact sends.describes.mono (sub_of_le filling.room)

theorem Filling.putWires (same : ctx.heap = heap) (faithful : Faithful heap levels write)
    {items : List Value} (held : ∀ item ∈ items, item.Held (heap.view 0))
    (fits : trees.length + items.length ≤ count)
    (written : putWires write (ctx.arena.records.length + trees.length) items filled = .ok after) :
    ∃ more : List Tree, List.Forall₂ ((heap.view 0).Unfolds levels) items more ∧
      Filling levels ctx after count (trees ++ more.map Tree.hosted) := by
  induction items generalizing filled trees with
  | nil =>
    cases written
    exact ⟨[], .nil, by simpa using filling⟩
  | cons item items ih =>
    rw [length_cons] at fits
    unfold Exchange.putWires at written
    cases result : putWire write (ctx.arena.records.length + trees.length) item filled with
    | error failure => simp [result, bind, Except.bind] at written
    | ok next =>
      simp only [result, bind, Except.bind] at written
      rcases filling.put same faithful (held item mem_cons_self) (by omega) result with
        ⟨tree, unfolds, filling'⟩
      have position : ctx.arena.records.length + trees.length + 1 =
          ctx.arena.records.length + (trees ++ [tree.hosted]).length := by
        rw [length_append, length_singleton, add_assoc]
      rw [position] at written
      rcases ih filling'
          (fun other mem => held other (mem_cons_of_mem _ mem))
          (by rw [length_append, length_singleton]; omega) written with
        ⟨more, unfold, filled_all⟩
      refine ⟨tree :: more, .cons unfolds unfold, ?_⟩
      rwa [append_assoc, singleton_append, ← map_cons] at filled_all

theorem Filling.block (full : trees.length = count) :
    ∃ wires : List ValueWire,
      (filled.view ctx.arena.records.length).Block ctx.arena.records.length wires ∧
      wires.length = count ∧
      List.Forall₂ ((filled.view ctx.arena.records.length).Describes levels) wires trees := by
  rcases filling.wires with ⟨wires, length_wires, holds, describe⟩
  refine ⟨wires, ?_, length_wires.trans full, ?_⟩
  · constructor
    · rw [length_wires, full]
      exact filling.buffers mem_cons_self
    · intro index wire found
      exact (Cells.above_of_le (le_add_right _ _)).trans (holds index wire found)
  · apply describe.imp
    intro wire tree
    exact WireView.Describes.mono (sub_of_le (le_add_right _ _))

end

end Filling

section Values

variable {levels : ℕ} {ctx sent : Context} {heap : Heap} {write : Writer}

variable {payload : UInt64}

variable {bytes : Bytes}

section

variable {count : ℕ} {filled : Context} {trees : List Tree}
    (filling : Filling levels ctx filled count trees)
include filling

theorem Filling.putName {after : Context} {name : Slice} (same : ctx.heap = heap)
    (faithful : Faithful heap levels write) (reads : heap.read name = some bytes)
    (below : trees.length < count)
    (written : putName write (ctx.arena.records.length + trees.length) name filled = .ok after) :
    Filling levels ctx after count (trees ++ [.string bytes]) := by
  unfold Exchange.putName at written
  cases interned : filled.internStr name with
  | error failure => simp [interned, bind, Except.bind] at written
  | ok answer =>
    rcases answer with ⟨held, next⟩
    simp only [interned, bind, Except.bind] at written
    have outcome := filled.internStr_outcome name
    rw [interned] at outcome
    rcases outcome with ⟨read_eq, heap_eq, arena_eq⟩
    simp only [filling.heap, same, reads] at read_eq
    have filling' : Filling levels ctx next count trees := by
      rcases filling with
        ⟨heap_same, records, buffers, room, wires, length_wires, holds, describe⟩
      rw [← arena_eq] at records buffers room holds
      refine ⟨heap_eq.trans heap_same, records, buffers, room, wires, length_wires, holds, ?_⟩
      have same_view : ∀ low, next.view low = filled.view low := by
        intro low
        rw [Context.view, Context.view, heap_eq, arena_eq]
      rwa [same_view]
    have held_name : (Value.string held).Held (heap.view 0) := ⟨bytes, read_eq⟩
    rcases filling'.put same faithful held_name below written with
      ⟨tree, unfolds, filling''⟩
    cases levels with
    | zero => exact unfolds.elim
    | succ levels =>
      cases unfolds with
      | string reads' =>
        rw [Option.some.inj (reads'.symm.trans read_eq), hosted_string] at filling''
        exact filling''

end

theorem Sent.leaf {wire : ValueWire} {tree : Tree}
    (describes : (ctx.view ctx.arena.records.length).Describes levels wire tree) :
    Sent levels ctx ctx wire tree :=
  ⟨rfl, prefix_refl _, List.Subset.refl _, describes⟩

variable {slice : Slice}

end Values

end Gengo.Exchange
