import Mathlib.Data.List.Nodup
import Mathlib.Logic.Relation

/-!
# Orders with the dependencies first

A list of items in which each item comes after everything that it needs. There is such a list
only of items that do not need themselves, however indirectly.
-/

namespace Gengo.Orders

open List

variable {α β : Type*} {needs : α → α → Prop}

/-- Items without repetition, each after everything that it needs. -/
inductive DependenciesFirst (needs : α → α → Prop) : List α → Prop
  | nil : DependenciesFirst needs []
  | snoc {order : List α} {item : α} (before : DependenciesFirst needs order)
      (fresh : item ∉ order) (ready : ∀ other, needs item other → other ∈ order) :
      DependenciesFirst needs (order ++ [item])

namespace DependenciesFirst

variable {order : List α}

section

variable (first : DependenciesFirst needs order)
include first

theorem nodup : order.Nodup := by
  induction first with
  | nil => exact nodup_nil
  | snoc _ fresh _ ih =>
    rw [← concat_eq_append]
    exact ih.concat fresh

theorem mem_of_needs {item other : α} (mem : item ∈ order) (need : needs item other) :
    other ∈ order := by
  induction first with
  | nil => exact absurd mem not_mem_nil
  | snoc _ _ ready ih =>
    rcases mem_append.mp mem with earlier | last
    · exact mem_append_left _ (ih earlier)
    · rw [mem_singleton.mp last] at need
      exact mem_append_left _ (ready _ need)

theorem mem_of_reaches {item other : α} (mem : item ∈ order)
    (reaches : Relation.ReflTransGen needs item other) : other ∈ order := by
  induction reaches with
  | refl => exact mem
  | tail _ need ih => exact first.mem_of_needs ih need

/-- No item of the order needs itself, however indirectly. -/
theorem acyclic {item : α} (mem : item ∈ order) : ¬Relation.TransGen needs item item := by
  induction first with
  | nil => exact absurd mem not_mem_nil
  | @snoc order last before fresh ready ih =>
    rcases mem_append.mp mem with earlier | isLast
    · exact ih earlier
    · rw [mem_singleton.mp isLast]
      intro cycle
      rcases Relation.TransGen.head'_iff.mp cycle with ⟨other, need, back⟩
      exact fresh (before.mem_of_reaches (ready other need) back)

/-- The images of the items, where a need of an image is that of its only item. -/
theorem map {needs' : β → β → Prop} {image : α → β}
    (injective : ∀ item ∈ order, ∀ other ∈ order, image item = image other → item = other)
    (lifted : ∀ item ∈ order, ∀ other, needs' (image item) other →
      ∃ need, needs item need ∧ image need = other) :
    DependenciesFirst needs' (order.map image) := by
  induction first with
  | nil => exact .nil
  | @snoc order last before fresh ready ih =>
    have isLast : last ∈ order ++ [last] := mem_append_right _ mem_cons_self
    have earlier : ∀ {item}, item ∈ order → item ∈ order ++ [last] :=
      fun mem => mem_append_left _ mem
    rw [map_append, map_singleton]
    refine .snoc (ih ?_ ?_) ?_ ?_
    · exact fun item mem other mem' => injective item (earlier mem) other (earlier mem')
    · exact fun item mem => lifted item (earlier mem)
    · intro mem
      rcases mem_map.mp mem with ⟨item, isItem, same⟩
      exact fresh (injective item (earlier isItem) last isLast same ▸ isItem)
    · intro other need
      rcases lifted last isLast other need with ⟨item, needed, rfl⟩
      exact mem_map_of_mem (ready item needed)

end

end DependenciesFirst

end Gengo.Orders
