import Mathlib

/-!
# Sorting by insertion

Items are inserted one after the other, each from the right, behind the last one that it is not
shifted past. For a relation that is transitive and that everything between two items splits, an
item ends up before an earlier one exactly if it is shifted past it. What is a stable order is
said with the positions that the items come from.
-/

namespace Gengo.Orders

open List

variable {α : Type}

/-- A permutation of the items in which none is before an earlier one in the order, and in which
those that the order does not separate keep their order. -/
def StablyOrdered (before : α → α → Prop) (items result : List α) : Prop :=
  ∃ placed : List (α × ℕ), placed.Perm items.zipIdx ∧ placed.map Prod.fst = result ∧
    placed.Pairwise fun x y => ¬before y.1 x.1 ∧ (¬before x.1 y.1 → x.2 < y.2)

/-- An item goes behind the last one that it is not shifted past. -/
def insertRight (shift : α → α → Bool) (sorted : List α) (item : α) : List α :=
  sorted.rdropWhile (shift · item) ++ item :: sorted.rtakeWhile (shift · item)

/-- All items, one after the other. -/
def insertAll (shift : α → α → Bool) (items : List α) : List α :=
  items.foldl (insertRight shift) []

/-- Items may be shifted past others as if they had a place in one order: what shifts past
something that shifts past a third one shifts past that, and what is shifted past is so by
everything in between or past it. -/
structure Shifts (shift : α → α → Bool) (items : List α) : Prop where
  trans : ∀ u ∈ items, ∀ v ∈ items, ∀ w ∈ items, shift u v → shift v w → shift u w
  split : ∀ u ∈ items, ∀ v ∈ items, ∀ w ∈ items, shift u w → shift u v ∨ shift v w

/-- An item stands before another one: it is earlier and that one was not shifted past it, or it is
later and was shifted past that one. -/
def Placed (shift : α → α → Bool) (x y : α × ℕ) : Prop :=
  (x.2 < y.2 ∧ ¬shift x.1 y.1) ∨ (y.2 < x.2 ∧ shift y.1 x.1)

variable {shift : α → α → Bool}

theorem perm_insertRight (sorted : List α) (item : α) :
    (insertRight shift sorted item).Perm (sorted ++ [item]) := by
  have whole : sorted.rdropWhile (shift · item) ++ sorted.rtakeWhile (shift · item) = sorted :=
    rdropWhile_append_rtakeWhile
  have middle : (insertRight shift sorted item).Perm (item :: sorted) := by
    rw [insertRight]
    refine perm_middle.trans ?_
    rw [whole]
  exact middle.trans (perm_append_singleton item sorted).symm

theorem perm_insertAll (items : List α) : (insertAll shift items).Perm items := by
  induction items using List.reverseRecOn with
  | nil => exact .nil
  | append_singleton items item ih =>
    rw [insertAll, foldl_concat]
    exact (perm_insertRight _ _).trans (ih.append_right _)

/-- An item that is later than all others gets its place among them. -/
theorem Placed.insertRight {sorted : List (α × ℕ)} {item : α × ℕ}
    (shifts : Shifts shift ((sorted ++ [item]).map Prod.fst))
    (placed : sorted.Pairwise (Placed shift)) (later : ∀ x ∈ sorted, x.2 < item.2) :
    (insertRight (fun x y => shift x.1 y.1) sorted item).Pairwise (Placed shift) := by
  have whole : sorted.rdropWhile (fun x => shift x.1 item.1) ++
      sorted.rtakeWhile (fun x => shift x.1 item.1) = sorted :=
    rdropWhile_append_rtakeWhile
  have isItem : item.1 ∈ (sorted ++ [item]).map Prod.fst := by simp
  have member : ∀ x ∈ sorted, x.1 ∈ (sorted ++ [item]).map Prod.fst := by
    intro x isIn
    exact mem_map_of_mem (mem_append_left _ isIn)
  have parts : (sorted.rdropWhile (fun x => shift x.1 item.1) ++
      sorted.rtakeWhile (fun x => shift x.1 item.1)).Pairwise (Placed shift) := by
    rwa [whole]
  rcases pairwise_append.1 parts with ⟨front, back, across⟩
  have stays : ∀ x ∈ sorted.rdropWhile (fun x => shift x.1 item.1), ¬shift x.1 item.1 := by
    intro x isFront shifted
    have nonempty := ne_nil_of_mem isFront
    have stop := rdropWhile_last_not _ _ nonempty
    have ends := dropLast_append_getLast nonempty
    generalize List.getLast _ nonempty = last at stop ends
    have inSorted : ∀ y ∈ sorted.rdropWhile (fun x => shift x.1 item.1), y ∈ sorted :=
      fun y isIn => ( rdropWhile_prefix _ _).subset isIn
    have lastIn := member last (inSorted last (by rw [← ends]; simp))
    have xIn := member x (inSorted x isFront)
    rw [← ends] at front isFront
    rcases mem_append.1 isFront with earlier | same
    · have before := (pairwise_append.1 front).2.2 x earlier last (mem_singleton_self _)
      rcases before with ⟨_, notPast⟩ | ⟨_, past⟩
      · rcases shifts.split x.1 xIn last.1 lastIn item.1 isItem shifted with isPast | isPast
        · exact notPast isPast
        · exact stop isPast
      · exact stop (shifts.trans last.1 lastIn x.1 xIn item.1 isItem past shifted)
    · exact stop (mem_singleton.1 same ▸ shifted)
  refine pairwise_append.2 ⟨front, pairwise_cons.2 ⟨?_, back⟩, ?_⟩
  · intro y isBack
    have yIn := (rtakeWhile_suffix _ _).subset isBack
    have past := mem_rtakeWhile_imp isBack
    exact .inr ⟨later y yIn, past⟩
  · intro x isFront y isBehind
    rcases mem_cons.1 isBehind with rfl | isBack
    · exact .inl ⟨later x (( rdropWhile_prefix _ _).subset isFront), stays x isFront⟩
    · exact across x isFront y isBack

theorem map_insertRight (sorted : List (α × ℕ)) (item : α × ℕ) :
    (insertRight (fun x y => shift x.1 y.1) sorted item).map Prod.fst =
      insertRight shift (sorted.map Prod.fst) item.1 := by
  simp only [insertRight, List.rdropWhile, List.rtakeWhile, map_append, map_cons,
    ← map_reverse, dropWhile_map, takeWhile_map, Function.comp_def]

theorem Shifts.sublist {items others : List α} (shifts : Shifts shift items)
    (sublist : ∀ x ∈ others, x ∈ items) : Shifts shift others where
  trans u isU v isV w isW := shifts.trans u (sublist u isU) v (sublist v isV) w (sublist w isW)
  split u isU v isV w isW := shifts.split u (sublist u isU) v (sublist v isV) w (sublist w isW)

/-- Past what is above them, items are shifted as if they had a place in one order. -/
theorem Shifts.of_rank {β : Type} [LinearOrder β] {items : List α} (rank : α → β)
    (agree : ∀ u ∈ items, ∀ v ∈ items, shift u v ↔ rank v < rank u) : Shifts shift items where
  trans u isU v isV w isW first second := by
    rw [agree u isU w isW]
    exact lt_trans ((agree v isV w isW).1 second) ((agree u isU v isV).1 first)
  split u isU v isV w isW past := by
    rw [agree u isU v isV, agree v isV w isW]
    rw [agree u isU w isW] at past
    exact (lt_or_ge (rank v) (rank u)).imp_right fun notBelow => lt_of_lt_of_le past notBelow

theorem mem_of_placed {placed : List (α × ℕ)} {items : List α} (perm : placed.Perm items.zipIdx)
    (x : α × ℕ) (isIn : x ∈ placed) : x.1 ∈ items :=
  mem_of_getElem? (mem_zipIdx_iff_getElem?.1 (perm.subset isIn))

theorem exists_placed {items : List α} (shifts : Shifts shift items) :
    ∃ placed : List (α × ℕ), placed.Perm items.zipIdx ∧
      placed.map Prod.fst = insertAll shift items ∧ placed.Pairwise (Placed shift) := by
  induction items using List.reverseRecOn with
  | nil => exact ⟨[], .nil, rfl, .nil⟩
  | append_singleton items item ih =>
    have fewer : Shifts shift items := shifts.sublist fun x isIn => mem_append_left _ isIn
    rcases ih fewer with ⟨placed, perm, same, pairwise⟩
    have tagged : (items ++ [item]).zipIdx = items.zipIdx ++ [(item, items.length)] := by
      simp [zipIdx_append]
    have later : ∀ x ∈ placed, x.2 < items.length := by
      intro x isIn
      have tag := mem_zipIdx (perm.subset isIn)
      omega
    have values : (placed ++ [(item, items.length)]).map Prod.fst =
        insertAll shift items ++ [item] := by
      rw [map_append, same]
      rfl
    refine ⟨insertRight (fun x y => shift x.1 y.1) placed (item, items.length), ?_, ?_, ?_⟩
    · rw [tagged]
      exact (perm_insertRight _ _).trans (perm.append_right _)
    · rw [map_insertRight, same, insertAll, insertAll, foldl_concat]
    · refine Placed.insertRight ?_ pairwise later
      rw [values]
      refine shifts.sublist ?_
      intro x isIn
      exact ((perm_insertAll items).append_right [item]).subset isIn

section Stably

variable {before : α → α → Prop} {items : List α} {placed placed' : List (α × ℕ)}

theorem mem_of_perm (perm : placed.Perm items.zipIdx) {position : ℕ}
    (inRange : position < items.length) : (items[position], position) ∈ placed := by
  apply perm.symm.subset
  rw [mem_zipIdx_iff_getElem?]
  exact List.getElem?_eq_getElem inRange

theorem sublist_or {β : Type} {list : List β} {x y : β} (isX : x ∈ list) (isY : y ∈ list)
    (differ : x ≠ y) : [x, y].Sublist list ∨ [y, x].Sublist list := by
  induction list with
  | nil => exact absurd isX not_mem_nil
  | cons head tail ih =>
    rcases mem_cons.1 isX with rfl | xTail
    · rcases mem_cons.1 isY with rfl | yTail
      · exact absurd rfl differ
      · exact .inl ((singleton_sublist.2 yTail).cons_cons x)
    · rcases mem_cons.1 isY with rfl | yTail
      · exact .inr ((singleton_sublist.2 xTail).cons_cons y)
      · rcases ih xTail yTail with before | before
        · exact .inl (before.cons head)
        · exact .inr (before.cons head)

theorem relation_of_sublist {β : Type} {list : List β} {relation : β → β → Prop} {x y : β}
    (pairwise : list.Pairwise relation) (sublist : [x, y].Sublist list) : relation x y :=
  pairwise_iff_forall_sublist.1 pairwise sublist

theorem exists_sublist {x y : α} (sublist : [x, y].Sublist (placed.map Prod.fst)) :
    ∃ i j, [(x, i), (y, j)].Sublist placed := by
  rcases sublist_map_iff.1 sublist with ⟨pair, isPair, same⟩
  rcases pair with _ | ⟨⟨_, i⟩, _ | ⟨⟨_, j⟩, _ | _⟩⟩
  · simp at same
  · simp at same
  · simp only [map_cons, map_nil, List.cons.injEq, and_true] at same
    rw [same.1, same.2]
    exact ⟨i, j, isPair⟩
  · simp at same

theorem StablyOrdered.asymmetric {result : List α} (stably : StablyOrdered before items result) :
    items.Pairwise fun x y => ¬(before x y ∧ before y x) := by
  rcases stably with ⟨placed, perm, _, pairwise⟩
  rw [pairwise_iff_getElem]
  intro p q pInRange qInRange earlier
  have differ : (items[p], p) ≠ (items[q], q) := by
    intro same
    exact absurd (Prod.mk.inj same).2 (Nat.ne_of_lt earlier)
  rcases sublist_or (mem_of_perm perm pInRange) (mem_of_perm perm qInRange) differ with
    inOrder | swapped
  · exact fun both => (relation_of_sublist pairwise inOrder).1 both.2
  · exact fun both => (relation_of_sublist pairwise swapped).1 both.1

/-- Where no two items are before each other, those that are shifted past nothing that they are
not before, and past everything earlier that they are before, are stably ordered. -/
theorem stablyOrdered_iff_of_asymmetric (shifts : Shifts shift items)
    (oneWay : ∀ u ∈ items, ∀ v ∈ items, shift u v → ¬shift v u)
    (asymmetric : items.Pairwise fun x y => ¬(before x y ∧ before y x)) :
    StablyOrdered before items (insertAll shift items) ↔
      items.Pairwise fun x y => shift x y ↔ before y x := by
  rcases exists_placed shifts with ⟨placed, perm, values, pairwise⟩
  have fromTo : ∀ {x y : α} {i j : ℕ}, [(x, i), (y, j)].Sublist placed →
      items[i]? = some x ∧ items[j]? = some y := by
    intro x y i j sublist
    have isX : (x, i) ∈ placed := sublist.subset (by simp)
    have isY : (y, j) ∈ placed := sublist.subset (by simp)
    exact ⟨mem_zipIdx_iff_getElem?.1 (perm.subset isX), mem_zipIdx_iff_getElem?.1 (perm.subset isY)⟩
  constructor
  · rintro ⟨placed', perm', values', pairwise'⟩
    rw [pairwise_iff_getElem]
    intro p q pInRange qInRange earlier
    have differ : (items[p], p) ≠ (items[q], q) := by
      intro same
      exact absurd (Prod.mk.inj same).2 (Nat.ne_of_lt earlier)
    constructor
    · intro shifted
      by_contra notBefore
      have kept : [(items[p], p), (items[q], q)].Sublist placed' := by
        rcases sublist_or (mem_of_perm perm' pInRange) (mem_of_perm perm' qInRange) differ with
          inOrder | swapped
        · exact inOrder
        · have stable := (relation_of_sublist pairwise' swapped).2 notBefore
          exact absurd stable (Nat.not_lt_of_lt earlier)
      have inResult : [items[p], items[q]].Sublist (placed.map Prod.fst) := by
        rw [values, ← values']
        exact kept.map Prod.fst
      rcases exists_sublist inResult with ⟨i, j, sublist⟩
      rcases relation_of_sublist pairwise sublist with ⟨_, stays⟩ | ⟨_, past⟩
      · exact stays shifted
      · exact oneWay items[p] (getElem_mem _) items[q] (getElem_mem _) shifted past
    · intro isBefore
      by_contra stays
      have kept : [(items[p], p), (items[q], q)].Sublist placed := by
        rcases sublist_or (mem_of_perm perm pInRange) (mem_of_perm perm qInRange) differ with
          inOrder | swapped
        · exact inOrder
        · rcases relation_of_sublist pairwise swapped with ⟨later, _⟩ | ⟨_, past⟩
          · exact absurd later (Nat.not_lt_of_lt earlier)
          · exact absurd past stays
      have inResult : [items[p], items[q]].Sublist (placed'.map Prod.fst) := by
        rw [values', ← values]
        exact kept.map Prod.fst
      rcases exists_sublist inResult with ⟨i, j, sublist⟩
      exact (relation_of_sublist pairwise' sublist).1 isBefore
  · intro agree
    rw [pairwise_iff_getElem] at agree asymmetric
    refine ⟨placed, perm, values, pairwise_iff_forall_sublist.2 ?_⟩
    rintro ⟨x, i⟩ ⟨y, j⟩ sublist
    rcases fromTo sublist with ⟨isX, isY⟩
    rcases List.getElem?_eq_some_iff.1 isX with ⟨iInRange, rfl⟩
    rcases List.getElem?_eq_some_iff.1 isY with ⟨jInRange, rfl⟩
    rcases relation_of_sublist pairwise sublist with ⟨earlier, stays⟩ | ⟨later, past⟩
    · refine ⟨?_, fun _ => earlier⟩
      intro isBefore
      exact stays ((agree i j iInRange jInRange earlier).2 isBefore)
    · have isBefore := (agree j i jInRange iInRange later).1 past
      have oneOnly := asymmetric j i jInRange iInRange later
      exact ⟨fun isBefore' => oneOnly ⟨isBefore', isBefore⟩,
        fun notBefore => absurd isBefore notBefore⟩

/-- Items are stably ordered by inserting them exactly if no two are before each other, and an
item is shifted past those earlier ones that it is before. -/
theorem stablyOrdered_iff (shifts : Shifts shift items)
    (oneWay : ∀ u ∈ items, ∀ v ∈ items, shift u v → ¬shift v u) :
    StablyOrdered before items (insertAll shift items) ↔
      items.Pairwise fun x y => ¬(before x y ∧ before y x) ∧ (shift x y ↔ before y x) := by
  rw [pairwise_and_iff]
  constructor
  · intro stably
    have asymmetric := stably.asymmetric
    exact ⟨asymmetric, (stablyOrdered_iff_of_asymmetric shifts oneWay asymmetric).1 stably⟩
  · rintro ⟨asymmetric, agree⟩
    exact (stablyOrdered_iff_of_asymmetric shifts oneWay asymmetric).2 agree

theorem stablyOrdered_of_length_le_one (single : items.length ≤ 1) :
    StablyOrdered before items (insertAll shift items) := by
  rcases items with _ | ⟨item, _ | ⟨other, rest⟩⟩
  · exact ⟨[], .nil, rfl, .nil⟩
  · exact ⟨[(item, 0)], .refl _, rfl, pairwise_singleton _ _⟩
  · simp at single

end Stably

/-- A strict weak order of the items: items that it does not separate are alike. -/
structure StrictWeak (less : α → α → Bool) (items : List α) : Prop where
  irrefl : ∀ u ∈ items, ¬less u u
  trans : ∀ u ∈ items, ∀ v ∈ items, ∀ w ∈ items, less u v → less v w → less u w
  split : ∀ u ∈ items, ∀ v ∈ items, ∀ w ∈ items, less u w → less u v ∨ less v w

/-- Neither of two items is before the other. -/
def alike (less : α → α → Bool) (x y : α) : Bool :=
  !less x y && !less y x

section Alike

variable {less : α → α → Bool} {items : List α} {placed : List (α × ℕ)}

theorem alike_iff {x y : α} : alike less x y ↔ ¬less x y ∧ ¬less y x := by
  simp [alike]

section

variable (weak : StrictWeak less items)
include weak

theorem StrictWeak.asymm {u v : α} (isU : u ∈ items) (isV : v ∈ items) (before : less u v) :
    ¬less v u :=
  fun behind => weak.irrefl u isU (weak.trans u isU v isV u isU before behind)

theorem StrictWeak.shifts : Shifts (fun u v => less v u) items where
  trans u isU v isV w isW first second := weak.trans w isW v isV u isU second first
  split u isU v isV w isW before := (weak.split w isW v isV u isU before).symm

/-- Shifted past what is not before them, items are ordered, but their equals are turned around. -/
theorem StrictWeak.shifts_not : Shifts (fun u v => !less u v) items where
  trans u isU v isV w isW first second := by
    simp only [Bool.not_eq_true', Bool.eq_false_iff] at first second ⊢
    intro before
    rcases weak.split u isU v isV w isW before with isBefore | isBefore
    · exact first isBefore
    · exact second isBefore
  split u isU v isV w isW first := by
    simp only [Bool.not_eq_true', Bool.eq_false_iff] at first ⊢
    by_contra both
    rw [not_or, not_not, not_not] at both
    exact first (weak.trans u isU v isV w isW both.1 both.2)

theorem StrictWeak.sublist {others : List α} (sublist : ∀ x ∈ others, x ∈ items) :
    StrictWeak less others where
  irrefl u isU := weak.irrefl u (sublist u isU)
  trans u isU v isV w isW := weak.trans u (sublist u isU) v (sublist v isV) w (sublist w isW)
  split u isU v isV w isW := weak.split u (sublist u isU) v (sublist v isV) w (sublist w isW)

theorem StrictWeak.alike_trans {a x y : α} (isA : a ∈ items) (isX : x ∈ items) (isY : y ∈ items)
    (first : alike less a x) (second : alike less a y) : ¬less x y := by
  rw [alike_iff] at first second
  intro before
  rcases weak.split x isX a isA y isY before with isBefore | isBefore
  · exact first.2 isBefore
  · exact second.1 isBefore

end

/-- The items that are alike one of them, with the positions they come from. -/
def classOf (less : α → α → Bool) (a : α) (placed : List (α × ℕ)) : List (α × ℕ) :=
  placed.filter fun x => alike less a x.1

theorem map_classOf (a : α) (placed : List (α × ℕ)) :
    (classOf less a placed).map Prod.fst = (placed.map Prod.fst).filter (alike less a) := by
  rw [classOf, filter_map]
  rfl

theorem map_fst_zipIdx (items : List α) : items.zipIdx.map Prod.fst = items := by
  simp

theorem pairwise_zipIdx (items : List α) : items.zipIdx.Pairwise fun x y => x.2 < y.2 := by
  rw [pairwise_iff_getElem]
  intro i j _ _ earlier
  simpa using earlier

theorem eq_of_pairwise_lt {first second : List (α × ℕ)} (perm : first.Perm second)
    (sorted : first.Pairwise fun x y => x.2 < y.2)
    (sorted' : second.Pairwise fun x y => x.2 < y.2) : first = second :=
  List.Perm.eq_of_pairwise (fun _ _ _ _ before behind => absurd before (Nat.not_lt_of_lt behind))
    sorted sorted' perm

theorem StablyOrdered.filter_alike {result : List α} (weak : StrictWeak less items)
    (stably : StablyOrdered (fun x y => less x y) items result) {a : α} (isA : a ∈ items) :
    result.filter (alike less a) = items.filter (alike less a) := by
  rcases stably with ⟨placed, perm, rfl, pairwise⟩
  have member := mem_of_placed perm
  have same : classOf less a placed = classOf less a items.zipIdx := by
    apply eq_of_pairwise_lt (perm.filter _) ?_ ((pairwise_zipIdx items).filter _)
    rw [pairwise_filter]
    refine pairwise.imp_of_mem ?_
    intro x y isX isY stable likeX likeY
    exact stable.2 (weak.alike_trans isA (member x isX) (member y isY) likeX likeY)
  rw [← map_classOf, same, map_classOf, map_fst_zipIdx]

/-- Shifted past what is not before them, items that are alike come in the opposite order. -/
theorem filter_insertAll_not (weak : StrictWeak less items) {a : α} (isA : a ∈ items) :
    (insertAll (fun u v => !less u v) items).filter (alike less a) =
      (items.filter (alike less a)).reverse := by
  rcases exists_placed weak.shifts_not with ⟨placed, perm, values, pairwise⟩
  have member := mem_of_placed perm
  have same : (classOf less a placed).reverse = classOf less a items.zipIdx := by
    refine eq_of_pairwise_lt ((reverse_perm _).trans (perm.filter _)) ?_
      ((pairwise_zipIdx items).filter _)
    rw [pairwise_reverse, classOf, pairwise_filter]
    refine pairwise.imp_of_mem ?_
    intro x y isX isY isPlaced likeX likeY
    rcases isPlaced with ⟨_, stays⟩ | ⟨later, _⟩
    · have before : less x.1 y.1 := by simpa using stays
      exact absurd before (weak.alike_trans isA (member x isX) (member y isY) likeX likeY)
    · exact later
  rw [← values, ← map_classOf, ← reverse_reverse (classOf less a placed), same,
    map_reverse, map_classOf, map_fst_zipIdx]

/-- A list that is ordered is given by the order of the items that are alike. -/
theorem eq_of_filter_alike {first second : List α} (weak : StrictWeak less first)
    (perm : first.Perm second) (sorted : first.Pairwise fun x y => ¬less y x)
    (sorted' : second.Pairwise fun x y => ¬less y x)
    (same : ∀ a ∈ first, first.filter (alike less a) = second.filter (alike less a)) :
    first = second := by
  induction first generalizing second with
  | nil => exact perm.nil_eq
  | cons head tail ih =>
    cases second with
    | nil => exact absurd perm.length_eq (by simp)
    | cons head' tail' =>
      have isHead : head ∈ head :: tail := mem_cons_self
      have isHead' : head' ∈ head :: tail := perm.symm.subset mem_cons_self
      have least : ¬less head' head := by
        rcases mem_cons.1 isHead' with rfl | inTail
        · exact weak.irrefl _ isHead
        · exact (pairwise_cons.1 sorted).1 head' inTail
      have least' : ¬less head head' := by
        rcases mem_cons.1 (perm.subset isHead) with rfl | inTail
        · exact weak.irrefl _ isHead
        · exact (pairwise_cons.1 sorted').1 head inTail
      have heads := same head isHead
      have itself := weak.irrefl head isHead
      rw [filter_cons_of_pos (alike_iff.2 ⟨itself, itself⟩),
        filter_cons_of_pos (alike_iff.2 ⟨least', least⟩)] at heads
      have isSame := (List.cons.inj heads).1
      subst isSame
      have fewer : StrictWeak less tail :=
        weak.sublist fun x isIn => mem_cons_of_mem _ isIn
      have tails : ∀ a ∈ tail, tail.filter (alike less a) = tail'.filter (alike less a) := by
        intro a isA
        have whole := same a (mem_cons_of_mem _ isA)
        by_cases isAlike : alike less a head
        · rw [filter_cons_of_pos isAlike, filter_cons_of_pos isAlike] at whole
          exact (List.cons.inj whole).2
        · rwa [filter_cons_of_neg isAlike, filter_cons_of_neg isAlike] at whole
      rw [ih fewer (perm_cons _ |>.1 perm) (pairwise_cons.1 sorted).2
        (pairwise_cons.1 sorted').2 tails]

theorem StablyOrdered.pairwise {before : α → α → Prop} {result : List α}
    (stably : StablyOrdered before items result) : result.Pairwise fun x y => ¬before y x := by
  rcases stably with ⟨placed, _, rfl, pairwise⟩
  rw [pairwise_map]
  exact pairwise.imp And.left

theorem StrictWeak.stablyOrdered (weak : StrictWeak less items) :
    StablyOrdered (fun x y => less x y) items (insertAll (fun u v => less v u) items) := by
  apply (stablyOrdered_iff weak.shifts ?_).2
  · refine List.Pairwise.imp_of_mem ?_ (pairwise_of_forall fun _ _ => trivial)
    intro u v isU isV _
    exact ⟨fun both => weak.asymm isU isV both.1 both.2, .rfl⟩
  · intro u isU v isV before
    exact weak.asymm isV isU before

theorem StrictWeak.pairwise_not (weak : StrictWeak less items) :
    (insertAll (fun u v => !less u v) items).Pairwise fun x y => ¬less y x := by
  rcases exists_placed weak.shifts_not with ⟨placed, perm, values, pairwise⟩
  have member := mem_of_placed perm
  rw [← values, pairwise_map]
  refine pairwise.imp_of_mem ?_
  intro x y isX isY isPlaced
  rcases isPlaced with ⟨_, stays⟩ | ⟨_, past⟩
  · have before : less x.1 y.1 := by simpa using stays
    exact weak.asymm (member x isX) (member y isY) before
  · simpa using past

/-- What is shifted past everything that is not before it is stably ordered exactly if the items
that are alike read the same in both directions. -/
theorem stablyOrdered_not_iff (weak : StrictWeak less items) :
    StablyOrdered (fun x y => less x y) items (insertAll (fun u v => !less u v) items) ↔
      ∀ a ∈ items, (items.filter (alike less a)).reverse = items.filter (alike less a) := by
  constructor
  · intro stably a isA
    rw [← filter_insertAll_not weak isA, stably.filter_alike weak isA]
  · intro palindromes
    have stably := weak.stablyOrdered
    have perm : (insertAll (fun u v => less v u) items).Perm items := perm_insertAll items
    have same : insertAll (fun u v => less v u) items = insertAll (fun u v => !less u v) items := by
      apply eq_of_filter_alike (weak.sublist fun x isIn => perm.subset isIn)
        (perm.trans (perm_insertAll items).symm) stably.pairwise weak.pairwise_not
      intro a isIn
      have isA := perm.subset isIn
      rw [stably.filter_alike weak isA, filter_insertAll_not weak isA, palindromes a isA]
    rwa [same] at stably

end Alike

end Gengo.Orders
