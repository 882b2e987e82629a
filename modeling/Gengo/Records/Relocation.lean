import Mathlib.Algebra.GroupWithZero.Nat
import Mathlib.Algebra.Order.BigOperators.Group.List

/-!
# Relocating a sequence of records

A byte image is often a sequence of records laid end to end. A pass that gives
every record a new width moves the record boundaries. This file defines the
offsets of such a sequence, the relocation of old boundaries to new ones, and
the facts that make offsets measured between two boundaries meaningful after
the pass.
-/

namespace Gengo.Records

open List Option Nat

universe u v

variable {α : Type u}

/-- The number of bytes a sequence of records takes up. -/
def extent (width : α → ℕ) (items : List α) : ℕ :=
  (items.map width).sum

section

variable (width : α → ℕ)
include width

@[simp]
theorem extent_nil : extent width [] = 0 :=
  rfl

@[simp]
theorem extent_cons (item : α) (items : List α) :
    extent width (item :: items) = width item + extent width items := by
  simp [extent]

@[simp]
theorem extent_append (first second : List α) :
    extent width (first ++ second) = extent width first + extent width second := by
  simp [extent]

/-- Each record together with the offset at which it starts. -/
def placed (width : α → ℕ) : ℕ → List α → List (ℕ × α)
  | _, [] => []
  | base, item :: items => (base, item) :: placed width (base + width item) items

variable (base : ℕ)

@[simp]
theorem placed_nil : placed width base [] = [] :=
  rfl

@[simp]
theorem placed_cons (item : α) (items : List α) :
    placed width base (item :: items) = (base, item) :: placed width (base + width item) items :=
  rfl

theorem placed_append (first second : List α) :
    placed width base (first ++ second) =
      placed width base first ++ placed width (base + extent width first) second := by
  induction first generalizing base with
  | nil => simp
  | cons item items ih => simp [ih, add_assoc]

end

theorem mem_placed_iff {width : α → ℕ} {base start : ℕ} {item : α} {items : List α} :
    (start, item) ∈ placed width base items ↔
      ∃ before after, items = before ++ item :: after ∧ start = base + extent width before := by
  constructor
  · intro itemMem
    induction items generalizing base with
    | nil => simp at itemMem
    | cons head tail ih =>
      rcases mem_cons.mp itemMem with headEq | tailMem
      · obtain ⟨rfl, rfl⟩ := Prod.mk.inj headEq
        exact ⟨[], tail, rfl, by simp⟩
      · obtain ⟨before, after, tailEq, startEq⟩ := ih tailMem
        refine ⟨head :: before, after, by simp [tailEq], ?_⟩
        rw [extent_cons, startEq, add_assoc]
  · rintro ⟨before, after, rfl, rfl⟩
    rw [placed_append]
    exact mem_append_right _ (by simp)

theorem add_width_le_of_mem_placed {width : α → ℕ} {base start : ℕ} {item : α} {items : List α}
    (itemMem : (start, item) ∈ placed width base items) :
    base ≤ start ∧ start + width item ≤ base + extent width items := by
  obtain ⟨before, after, rfl, rfl⟩ := mem_placed_iff.mp itemMem
  rw [extent_append, extent_cons]
  omega

/-- A record that starts within a stretch of the sequence belongs to it. -/
theorem mem_of_start_between {width : α → ℕ} {first middle last : List α} {start : ℕ} {item : α}
    (itemPos : 0 < width item)
    (itemMem : (start, item) ∈ placed width 0 (first ++ middle ++ last))
    (from_le : extent width first ≤ start)
    (lt_to : start < extent width first + extent width middle) : item ∈ middle := by
  rw [placed_append, placed_append, mem_append, mem_append] at itemMem
  rcases itemMem with (inFirst | inMiddle) | inLast
  · have bounds := add_width_le_of_mem_placed inFirst
    omega
  · obtain ⟨before, after, rfl, -⟩ := mem_placed_iff.mp inMiddle
    simp
  · have bounds := add_width_le_of_mem_placed inLast
    rw [extent_append] at bounds
    omega

/-- An offset at which a record starts, or the end of the sequence. -/
def IsBoundary (width : α → ℕ) (items : List α) (offset : ℕ) : Prop :=
  ∃ before after, items = before ++ after ∧ offset = extent width before

theorem isBoundary_zero (width : α → ℕ) (items : List α) : IsBoundary width items 0 :=
  ⟨[], items, rfl, rfl⟩

theorem isBoundary_extent (width : α → ℕ) (items : List α) :
    IsBoundary width items (extent width items) :=
  ⟨items, [], by simp, rfl⟩

/-- The new offset of an old boundary; `none` inside a record or past the end. -/
def relocate (old new : α → ℕ) : List α → ℕ → Option ℕ
  | _, 0 => some 0
  | [], _ + 1 => none
  | item :: items, offset + 1 =>
    if offset + 1 < old item then none
    else (relocate old new items (offset + 1 - old item)).map (new item + ·)

@[simp]
theorem relocate_zero (old new : α → ℕ) (items : List α) : relocate old new items 0 = some 0 := by
  cases items <;> rfl

theorem relocate_cons_of_pos {old new : α → ℕ} {item : α} {items : List α} {offset : ℕ}
    (offsetPos : 0 < offset) :
    relocate old new (item :: items) offset =
      if offset < old item then none
      else (relocate old new items (offset - old item)).map (new item + ·) := by
  obtain ⟨offset, rfl⟩ := exists_eq_succ_of_ne_zero offsetPos.ne'
  rfl

/-- Relocation sends the end of a prefix to the new end of that prefix. -/
theorem relocate_eq_some_iff {old new : α → ℕ} {items : List α}
    (oldPos : ∀ item ∈ items, 0 < old item) {offset target : ℕ} :
    relocate old new items offset = some target ↔
      ∃ before after, items = before ++ after ∧ offset = extent old before ∧
        target = extent new before := by
  induction items generalizing offset target with
  | nil =>
    cases offset with
    | zero =>
      constructor
      · intro located
        exact ⟨[], [], rfl, rfl, (some.inj located).symm⟩
      · rintro ⟨before, after, split, -, rfl⟩
        obtain ⟨rfl, rfl⟩ := nil_eq_append_iff.mp split
        rfl
    | succ offset =>
      constructor
      · intro located
        simp [relocate] at located
      · rintro ⟨before, after, split, offsetEq, -⟩
        obtain ⟨rfl, rfl⟩ := nil_eq_append_iff.mp split
        simp at offsetEq
  | cons item items ih =>
    have itemPos : 0 < old item := oldPos item (by simp)
    have restPos : ∀ other ∈ items, 0 < old other :=
      fun other otherMem => oldPos other (by simp [otherMem])
    rcases Nat.eq_zero_or_pos offset with rfl | offsetPos
    · constructor
      · intro located
        rw [relocate_zero] at located
        exact ⟨[], item :: items, rfl, rfl, (some.inj located).symm⟩
      · rintro ⟨before, after, split, offsetEq, rfl⟩
        cases before with
        | nil => rfl
        | cons head tail =>
          obtain ⟨rfl, -⟩ := List.cons.inj split
          rw [extent_cons] at offsetEq
          omega
    · rw [relocate_cons_of_pos offsetPos]
      constructor
      · intro located
        split at located
        · cases located
        · obtain ⟨rest, restLocated, rfl⟩ := map_eq_some_iff.mp located
          obtain ⟨before, after, split, restEq, rfl⟩ := (ih restPos).mp restLocated
          refine ⟨item :: before, after, by simp [split], ?_, by simp⟩
          rw [extent_cons]
          omega
      · rintro ⟨before, after, split, offsetEq, rfl⟩
        cases before with
        | nil => simp at offsetEq; omega
        | cons head tail =>
          obtain ⟨rfl, tailSplit⟩ := List.cons.inj split
          rw [extent_cons] at offsetEq
          have restLocated :=
            (ih restPos).mpr ⟨tail, after, tailSplit, rfl, rfl⟩
          rw [if_neg (by omega), show offset - old item = extent old tail by omega, restLocated]
          simp

theorem relocate_extent {old new : α → ℕ} {before after : List α}
    (oldPos : ∀ item ∈ before ++ after, 0 < old item) :
    relocate old new (before ++ after) (extent old before) = some (extent new before) :=
  (relocate_eq_some_iff oldPos).mpr ⟨before, after, rfl, rfl, rfl⟩

theorem relocate_mono {old new : α → ℕ} {items : List α}
    (oldPos : ∀ item ∈ items, 0 < old item) {first second newFirst newSecond : ℕ}
    (firstLocated : relocate old new items first = some newFirst)
    (secondLocated : relocate old new items second = some newSecond)
    (ordered : first ≤ second) : newFirst ≤ newSecond := by
  obtain ⟨before, after, split, rfl, rfl⟩ := (relocate_eq_some_iff oldPos).mp firstLocated
  obtain ⟨before', after', split', rfl, rfl⟩ := (relocate_eq_some_iff oldPos).mp secondLocated
  rw [split] at split'
  rcases append_eq_append_iff.mp split' with ⟨between, rfl, -⟩ | ⟨extra, rfl, -⟩
  · rw [extent_append]
    exact le_add_right _ _
  · cases extra with
    | nil => simp
    | cons item rest =>
      have itemPos := oldPos item (by simp [split])
      rw [extent_append, extent_cons] at ordered
      omega

section Stretch

variable {old new : α → ℕ}

theorem extent_le_extent {items : List α} (grows : ∀ item ∈ items, old item ≤ new item) :
    extent old items ≤ extent new items := by
  induction items with
  | nil => exact le_refl 0
  | cons item items ih =>
    rw [extent_cons, extent_cons]
    exact Nat.add_le_add (grows item (by simp))
      (ih fun other otherMem => grows other (by simp [otherMem]))

/-- When no record shrinks, a stretch of records keeps its length exactly when
each of its records does. -/
theorem extent_eq_iff {items : List α} (grows : ∀ item ∈ items, old item ≤ new item) :
    extent new items = extent old items ↔ ∀ item ∈ items, new item = old item := by
  induction items with
  | nil => simp
  | cons item items ih =>
    have itemGrows := grows item (by simp)
    have restGrows : ∀ other ∈ items, old other ≤ new other :=
      fun other otherMem => grows other (by simp [otherMem])
    have restLe := extent_le_extent restGrows
    rw [extent_cons, extent_cons]
    constructor
    · intro sumEq
      have itemEq : new item = old item := by omega
      have restEq := (ih restGrows).mp (by omega)
      intro other otherMem
      rcases mem_cons.mp otherMem with rfl | restMem
      · exact itemEq
      · exact restEq other restMem
    · intro same
      rw [same item (by simp),
        (ih restGrows).mpr fun other otherMem => same other (by simp [otherMem])]

end Stretch

section Expand

variable {β : Type v} (old new : α → ℕ)

/-- Each record with the offset it starts at and the offset it moves to. -/
def relocated : ℕ → ℕ → List α → List (ℕ × ℕ × α)
  | _, _, [] => []
  | base, newBase, item :: items =>
    (base, newBase, item) :: relocated (base + old item) (newBase + new item) items

/-- Replace every record by records of another kind, told where it stood and where
its replacement begins. -/
def expandAll (replace : ℕ → ℕ → α → List β) : ℕ → ℕ → List α → List β
  | _, _, [] => []
  | base, newBase, item :: items =>
    replace base newBase item ++ expandAll replace (base + old item) (newBase + new item) items

variable {old new}

theorem mem_relocated_iff {base newBase start target : ℕ} {item : α} {items : List α} :
    (start, target, item) ∈ relocated old new base newBase items ↔
      ∃ before after, items = before ++ item :: after ∧
        start = base + extent old before ∧ target = newBase + extent new before := by
  induction items generalizing base newBase with
  | nil => simp [relocated]
  | cons head tail ih =>
    rw [relocated, mem_cons, ih]
    constructor
    · rintro (headEq | ⟨before, after, rfl, rfl, rfl⟩)
      · obtain ⟨rfl, rfl, rfl⟩ : start = base ∧ target = newBase ∧ item = head := by
          simpa using headEq
        exact ⟨[], tail, rfl, rfl, rfl⟩
      · refine ⟨head :: before, after, rfl, ?_, ?_⟩ <;> rw [extent_cons, add_assoc]
    · rintro ⟨before, after, split, rfl, rfl⟩
      cases before with
      | nil =>
        obtain ⟨rfl, rfl⟩ := List.cons.inj split
        exact .inl rfl
      | cons first rest =>
        obtain ⟨rfl, rfl⟩ := List.cons.inj split
        refine .inr ⟨rest, after, rfl, ?_, ?_⟩ <;> rw [extent_cons, add_assoc]

variable {width : β → ℕ} {replace : ℕ → ℕ → α → List β}

section

variable {base newBase : ℕ} {items : List α}
    (fills : ∀ entry ∈ relocated old new base newBase items, extent width
      (replace entry.1 entry.2.1 entry.2.2) = new entry.2.2)
include fills

/-- When every replacement fills the new width of its record, replacements begin
where the records move to. -/
theorem exists_split_expandAll {start target : ℕ} {item : α}
    (itemMem : (start, target, item) ∈ relocated old new base newBase items) :
    ∃ before after, expandAll old new replace base newBase items =
        before ++ replace start target item ++ after ∧
      target = newBase + extent width before := by
  induction items generalizing base newBase with
  | nil => simp [relocated] at itemMem
  | cons head tail ih =>
    rw [relocated, mem_cons] at itemMem
    rcases itemMem with headEq | tailMem
    · obtain ⟨rfl, rfl, rfl⟩ : start = base ∧ target = newBase ∧ item = head := by
        simpa using headEq
      exact ⟨[], _, rfl, rfl⟩
    · obtain ⟨before, after, split, targetEq⟩ :=
        ih (fun entry entryMem => fills entry (mem_cons_of_mem _ entryMem)) tailMem
      have headFills := fills (base, newBase, head) (by simp [relocated])
      refine ⟨replace base newBase head ++ before, after, ?_, ?_⟩
      · rw [expandAll, split]
        simp
      · rw [extent_append, headFills, targetEq, add_assoc]

theorem extent_expandAll :
    extent width (expandAll old new replace base newBase items) = extent new items := by
  induction items generalizing base newBase with
  | nil => rfl
  | cons head tail ih =>
    rw [expandAll, extent_append, extent_cons, fills (base, newBase, head) (by simp [relocated]),
      ih fun entry entryMem => fills entry (mem_cons_of_mem _ entryMem)]

/-- A record of the result belongs to the replacement of some record. -/
theorem exists_of_mem_placed_expandAll {placedItem : ℕ × β}
    (itemMem : placedItem ∈ placed width newBase (expandAll old new replace base newBase items)) :
    ∃ entry ∈ relocated old new base newBase items,
      placedItem ∈ placed width entry.2.1 (replace entry.1 entry.2.1 entry.2.2) := by
  induction items generalizing base newBase with
  | nil => simp [expandAll] at itemMem
  | cons head tail ih =>
    have headFills := fills (base, newBase, head) (by simp [relocated])
    rw [expandAll, placed_append, mem_append, headFills] at itemMem
    rcases itemMem with headMem | tailMem
    · exact ⟨(base, newBase, head), by simp [relocated], headMem⟩
    · obtain ⟨entry, entryMem, inEntry⟩ :=
        ih (fun entry entryMem => fills entry (mem_cons_of_mem _ entryMem)) tailMem
      exact ⟨entry, mem_cons_of_mem _ entryMem, inEntry⟩

end

end Expand

theorem exists_between {width : α → ℕ} {items : List α}
    (widthPos : ∀ item ∈ items, 0 < width item)
    {before after : List α} (split : items = before ++ after) {offset : ℕ}
    (boundary : IsBoundary width items offset) (ordered : extent width before ≤ offset) :
    ∃ between rest, after = between ++ rest ∧
      offset = extent width before + extent width between := by
  obtain ⟨prefixItems, suffixItems, split', rfl⟩ := boundary
  subst split
  rcases append_eq_append_iff.mp split' with ⟨between, rfl, afterEq⟩ | ⟨extra, rfl, -⟩
  · exact ⟨between, suffixItems, afterEq, by simp⟩
  · rw [extent_append] at ordered
    cases extra with
    | nil => exact ⟨[], after, rfl, by simp⟩
    | cons item rest =>
      have itemPos := widthPos item (by simp)
      rw [extent_cons] at ordered
      omega

end Gengo.Records
