import Gengo.Exchange.Sending

/-!
# What is received

A record that describes a tree is turned into a value that unfolds to that tree, unless there is
not enough room. An array or a map is an object that is filled from left to right while the
objects of its parts are added behind it.
-/

namespace Gengo.Exchange

open List Nat
open Bytecode (Bytes)
open Cells (Within above above_within_of_le above_within_of_extends above_set prefix_set)

/-- Only bytes and objects have been added. -/
structure Grown (ctx after : Context) : Prop where
  arena : after.arena = ctx.arena
  memory : ctx.heap.memory <+: after.heap.memory
  objects : ctx.heap.objects <+: after.heap.objects

theorem Heap.read_within {heap after : Heap} (extends_memory : heap.memory <+: after.memory) :
    Within heap.read after.read := by
  intro slice bytes reads
  rcases extends_memory with ⟨rest, memory_eq⟩
  unfold Heap.read at reads ⊢
  split at reads
  · rename_i inside
    have start_inside : slice.ptr.toNat ≤ heap.memory.length := by omega
    have length_eq : after.memory.length = heap.memory.length + rest.length := by
      rw [← memory_eq, length_append]
    rw [if_pos (by omega), ← reads, ← memory_eq, drop_append_of_le_length start_inside,
      take_append_of_le_length (by rw [length_drop]; omega)]
  · simp at reads

namespace Grown

open List

variable {ctx middle after : Context}

theorem refl (ctx : Context) : Grown ctx ctx :=
  ⟨rfl, prefix_refl _, prefix_refl _⟩

theorem trans (first : Grown ctx middle) (second : Grown middle after) : Grown ctx after :=
  ⟨second.arena.trans first.arena, first.memory.trans second.memory,
    first.objects.trans second.objects⟩

theorem sub_heap (grown : Grown ctx after) (low : ℕ) :
    (ctx.heap.view low).Sub (after.heap.view low) :=
  ⟨Heap.read_within grown.memory, above_within_of_extends grown.objects⟩

end Grown

theorem Heap.sub_of_le {heap : Heap} {low high : ℕ} (le : low ≤ high) :
    (heap.view high).Sub (heap.view low) :=
  ⟨Within.refl _, above_within_of_le le⟩

/-- A value has been made for a tree. -/
structure Received (levels : ℕ) (ctx after : Context) (back : Value) (tree : Tree) : Prop where
  grown : Grown ctx after
  unfolds : (after.heap.view ctx.heap.objects.length).Unfolds levels back tree

/-- Records that describe trees are turned into values that unfold to them. -/
def Reads (view : WireView) (levels : ℕ) (read : Reader) : Prop :=
  ∀ ⦃wire tree ctx⦄, view.Sub (ctx.view 0) → view.Describes levels wire tree →
    Outcome (fun answer => Received levels ctx answer.2 answer.1 tree) (read wire ctx)

section Steps

variable {ctx : Context}

end Steps

/-- The object behind those of a context holds cells of values, of which the first have been made
for trees. An array has one value in a cell, and a map has two. -/
structure Building {γ : Type} (object : List γ → Object) (values : γ → List Value) (levels : ℕ)
    (ctx built : Context) (count : ℕ) (done : List γ) (trees : List Tree) : Prop where
  grown : Grown ctx built
  held : ∃ rest : List γ, done.length + rest.length = count ∧
    built.heap.objects[ctx.heap.objects.length]? = some (object (done ++ rest))
  unfold : List.Forall₂ ((built.heap.view (ctx.heap.objects.length + 1)).Unfolds levels)
    (done.flatMap values) trees

section Building

variable {γ : Type} {object : List γ → Object} {values : γ → List Value} {levels count : ℕ}
  {ctx built next : Context} {done : List γ} {trees more : List Tree} {cell : γ}

theorem Grown.unfold (grown : Grown built next) {low : ℕ} {items : List Value}
    (unfold : List.Forall₂ ((built.heap.view low).Unfolds levels) items trees) :
    List.Forall₂ ((next.heap.view low).Unfolds levels) items trees :=
  unfold.imp fun _ _ => HeapView.Unfolds.mono (grown.sub_heap low)

theorem Received.above {back : Value} {tree : Tree} {low : ℕ}
    (received : Received levels built next back tree) (le : low ≤ built.heap.objects.length) :
    (next.heap.view low).Unfolds levels back tree :=
  received.unfolds.mono (Heap.sub_of_le le)

section

variable (building : Building object values levels ctx built count done trees)
include building

theorem Building.room : ctx.heap.objects.length + 1 ≤ built.heap.objects.length := by
  rcases building.held with ⟨rest, _, found⟩
  exact (List.getElem?_eq_some_iff.mp found).1

variable (cell) in
/-- The next cell is stored, after the objects of its parts have been added behind the object. -/
theorem Building.store (grown : Grown built next) (below : done.length < count)
    (unfold : List.Forall₂ ((next.heap.view (ctx.heap.objects.length + 1)).Unfolds levels)
      (values cell) more) :
    ∃ cells, next.heap.objects[ctx.heap.objects.length]? = some (object cells) ∧
      Building object values levels ctx { next with
          heap := next.heap.setObject ctx.heap.objects.length
            (object (cells.set done.length cell)) }
        count (done ++ [cell]) (trees ++ more) := by
  rcases building.held with ⟨rest, length_rest, found⟩
  cases rest with
  | nil =>
    rw [length_nil, add_zero] at length_rest
    omega
  | cons blank rest =>
    have found_next : next.heap.objects[ctx.heap.objects.length]? =
        some (object (done ++ blank :: rest)) := by
      rcases grown.objects with ⟨others, objects_eq⟩
      rw [← objects_eq, List.getElem?_append_left (List.getElem?_eq_some_iff.mp found).1]
      exact found
    have inside := (List.getElem?_eq_some_iff.mp found_next).1
    refine ⟨done ++ blank :: rest, found_next, ?_, ?_, ?_⟩
    · have all := building.grown.trans grown
      exact ⟨all.arena, all.memory, prefix_set all.objects (le_refl _)⟩
    · refine ⟨rest, ?_, ?_⟩
      · simp only [length_append, length_cons, length_nil] at length_rest ⊢
        omega
      · simp [Heap.setObject, List.getElem?_set_self inside]
    · have unseen : (next.heap.setObject ctx.heap.objects.length
          (object ((done ++ blank :: rest).set done.length cell))).view
            (ctx.heap.objects.length + 1) = next.heap.view (ctx.heap.objects.length + 1) := by
        rw [Heap.view, Heap.view]
        simp only [Heap.setObject]
        rw [above_set (lt_succ_self _)]
        rfl
      rw [unseen, flatMap_append, flatMap_singleton]
      exact rel_append (grown.unfold building.unfold) unfold

theorem Building.complete (length_eq : done.length = count) :
    (built.heap.view ctx.heap.objects.length).objects ctx.heap.objects.length =
        some (object done) ∧
      List.Forall₂ ((built.heap.view ctx.heap.objects.length).Unfolds levels)
        (done.flatMap values) trees := by
  rcases building.held with ⟨rest, length_rest, held⟩
  have nothing : rest = [] := eq_nil_of_length_eq_zero (by omega)
  rw [nothing, append_nil] at held
  constructor
  · exact (Cells.above_of_le (le_refl _)).trans held
  · apply building.unfold.imp
    intro value tree
    exact HeapView.Unfolds.mono (Heap.sub_of_le (le_succ _))

end

theorem Building.blank {heap added : Heap} {empty : Object} (cell : γ)
    (memory_eq : added.memory = ctx.heap.memory)
    (objects_eq : added.objects = ctx.heap.objects ++ [empty])
    (heap_eq : heap = added.setObject ctx.heap.objects.length
      (object (List.replicate count cell))) :
    Building object values levels ctx { ctx with heap := heap } count [] [] := by
  subst heap_eq
  refine ⟨⟨rfl, ?_, ?_⟩, ⟨List.replicate count cell, ?_, ?_⟩, ?_⟩
  · simp [Heap.setObject, memory_eq]
  · simp [Heap.setObject, objects_eq]
  · simp
  · simp [Heap.setObject, objects_eq]
  · exact .nil

end Building

section Blocks

variable {view : WireView} {levels : ℕ} {read : Reader} {ctx : Context}

variable {wires : List ValueWire}

variable {payload : UInt64}

end Blocks

section Records

variable {view : WireView} {levels : ℕ} {ctx : Context}

variable {payload : UInt64} {len : UInt32} {bytes : Bytes}

theorem Received.leaf {back : Value} {tree : Tree}
    (unfolds : (ctx.heap.view ctx.heap.objects.length).Unfolds levels back tree) :
    Received levels ctx ctx back tree :=
  ⟨Grown.refl ctx, unfolds⟩

end Records

/-- A value that is accepted, and comes back, has the same content. -/
def RoundTrips (ctx : Context) (value : Value) : Prop :=
  ∀ wire sent back after, wireFromValue ctx value = .ok (wire, sent) →
    valueFromWire sent wire = .ok (back, after) → DeepEqual ctx.heap value after.heap back

end Gengo.Exchange
