import Mathlib.Data.List.DropRight
import Mathlib.Data.List.GetD
import Mathlib.Data.List.Pairwise
import Mathlib.Order.Lattice

/-!
# Sparse tables

A table of entries that hold from their position on, up to the next one. In a table that is
ordered by position, bisection finds the entry that governs a position: the last one that does
not lie behind it. What a table says at each position is compared with a list of demands, one
for each position, which the edits of a table move along.
-/

namespace Gengo.Tables.Sparse

open List Nat

variable {α β : Type*} (key : α → ℕ) (value : α → β)

/-- The entries do not go back. -/
def Ordered (table : List α) : Prop :=
  table.Pairwise fun first second => key first ≤ key second

/-- The last entry that does not lie behind a position. -/
def governing (table : List α) (pos : ℕ) : Option α :=
  (table.filter fun entry => key entry ≤ pos).getLast?

/-- What the table says at a position. -/
def valueAt (table : List α) (pos : ℕ) : Option β :=
  (governing key table pos).map value

/-- At every position the table says what is demanded there. -/
def Follows (table : List α) (demands : List (Option β → Prop)) : Prop :=
  ∀ (pos : ℕ) (demand : Option β → Prop), demands[pos]? = some demand →
    demand (valueAt key value table pos)

/-- The loop of a bisection, with the distance of its indices as fuel. -/
def bisectLoop (keys : List ℕ) (pos : ℕ) : ℕ → ℕ → ℕ → ℕ
  | 0, lo, _ => lo
  | fuel + 1, lo, hi =>
    if lo + 1 < hi then
      if keys.getD (lo + (hi - lo) / 2) 0 ≤ pos then
        bisectLoop keys pos fuel (lo + (hi - lo) / 2) hi
      else bisectLoop keys pos fuel lo (lo + (hi - lo) / 2)
    else lo

/-- The index a bisection between two indices ends at. -/
def bisect (keys : List ℕ) (pos lo hi : ℕ) : ℕ :=
  bisectLoop keys pos (hi - lo) lo hi

variable {key value} {table added : List α} {pos pos' : ℕ}

theorem getLast?_filter_of_last {keep : α → Bool} {entry : α} (last : table.getLast? = some entry)
    (kept : keep entry) : (table.filter keep).getLast? = some entry := by
  rcases List.getLast?_eq_some_iff.mp last with ⟨rest, rfl⟩
  simp [kept]

theorem le_of_governing {entry : α} (governs : governing key table pos = some entry) :
    key entry ≤ pos := by
  simpa using (mem_filter.mp (mem_of_getLast? governs)).2

theorem mem_of_governing {entry : α} (governs : governing key table pos = some entry) :
    entry ∈ table :=
  (mem_filter.mp (mem_of_getLast? governs)).1

theorem governing_append_of_lt (behind : ∀ entry ∈ added, pos < key entry) :
    governing key (table ++ added) pos = governing key table pos := by
  have none_ : added.filter (fun entry => key entry ≤ pos) = [] := by
    rw [filter_eq_nil_iff]
    intro entry mem
    simpa using behind entry mem
  rw [governing, filter_append, none_, append_nil, governing]

theorem governing_eq_getLast? (all : ∀ entry ∈ table, key entry ≤ pos) :
    governing key table pos = table.getLast? := by
  rw [governing, filter_eq_self.mpr]
  intro entry mem
  simpa using all entry mem

/-- An entry that governs a position governs every earlier one that it does not lie behind. -/
theorem governing_of_le {entry : α} (governs : governing key table pos = some entry)
    (le : key entry ≤ pos') (le_pos : pos' ≤ pos) : governing key table pos' = some entry := by
  have narrower : table.filter (fun other => key other ≤ pos') =
      (table.filter fun other => key other ≤ pos).filter fun other => key other ≤ pos' := by
    rw [filter_filter]
    refine filter_congr fun other _ => ?_
    by_cases before : key other ≤ pos'
    · simp [before, before.trans le_pos]
    · simp [before]
  rw [governing, narrower]
  exact getLast?_filter_of_last governs (by simpa using le)

theorem governing_filter {keep : α → Bool}
    (kept : ∀ entry, governing key table pos = some entry → keep entry) :
    governing key (table.filter keep) pos = governing key table pos := by
  rw [governing, filter_comm]
  cases governs : governing key table pos with
  | none =>
    rw [List.getLast?_eq_none_iff.mp governs]
    rfl
  | some entry => exact getLast?_filter_of_last governs (kept entry governs)

/-- Entries may be moved together with the position at which the table is read. -/
theorem valueAt_map {move : α → α} (same : ∀ entry ∈ table, value (move entry) = value entry)
    (moved : ∀ entry ∈ table, (key (move entry) ≤ pos' ↔ key entry ≤ pos)) :
    valueAt key value (table.map move) pos' = valueAt key value table pos := by
  have kept : (table.map move).filter (fun entry => key entry ≤ pos') =
      (table.filter fun entry => key entry ≤ pos).map move := by
    rw [filter_map]
    refine congrArg _ (filter_congr fun entry mem => ?_)
    rw [Function.comp_apply, decide_eq_decide]
    exact moved entry mem
  rw [valueAt, governing, kept, List.getLast?_map, valueAt, governing, Option.map_map]
  cases last : (table.filter fun entry => key entry ≤ pos).getLast? with
  | none => rfl
  | some entry => exact congrArg some (same entry (mem_of_governing last))

/-- The entries up to a position are among those up to a later one. -/
theorem filter_sublist_of_le (le : pos ≤ pos') :
    (table.filter fun entry => key entry ≤ pos).Sublist
      (table.filter fun entry => key entry ≤ pos') := by
  refine monotone_filter_right table fun entry before => ?_
  rw [decide_eq_true_eq] at before ⊢
  exact before.trans le

/-- Between two positions with different governing entries, an entry begins. -/
theorem count_lt_of_governing_ne (le : pos ≤ pos')
    (differs : governing key table pos ≠ governing key table pos') :
    (table.filter fun entry => key entry ≤ pos).length <
      (table.filter fun entry => key entry ≤ pos').length := by
  have sublist : (table.filter fun entry => key entry ≤ pos).Sublist
      (table.filter fun entry => key entry ≤ pos') := filter_sublist_of_le le
  refine sublist.length_le.lt_of_ne fun same => differs ?_
  rw [governing, governing, sublist.eq_of_length same]

namespace Follows

variable {demands : List (Option β → Prop)}

theorem nil : Follows key value table [] :=
  fun _ _ at_ => absurd at_ (by simp)

section

variable (follows : Follows key value table demands)
include follows

theorem append_entries (behind : ∀ entry ∈ added, demands.length ≤ key entry) :
    Follows key value (table ++ added) demands := by
  intro pos demand at_
  have inside := (List.getElem?_eq_some_iff.mp at_).1
  rw [valueAt, governing_append_of_lt fun entry mem => inside.trans_le (behind entry mem)]
  exact follows pos demand at_

theorem snoc {demand : Option β → Prop} (holds : demand (valueAt key value table demands.length)) :
    Follows key value table (demands ++ [demand]) := by
  intro pos demand' at_
  rcases lt_trichotomy pos demands.length with inside | rfl | outside
  · rw [List.getElem?_append_left inside] at at_
    exact follows pos demand' at_
  · rw [List.getElem?_concat_length, Option.some.injEq] at at_
    exact at_ ▸ holds
  · have bound := (List.getElem?_eq_some_iff.mp at_).1
    rw [length_append, length_singleton] at bound
    omega

theorem take (count : ℕ) : Follows key value table (demands.take count) := by
  intro pos demand at_
  have inside := (List.getElem?_eq_some_iff.mp at_).1
  rw [length_take] at inside
  rw [List.getElem?_take_of_lt (by omega)] at at_
  exact follows pos demand at_

/-- Entries from a position on may be dropped with what is demanded there. -/
theorem truncate (count : ℕ) :
    Follows key value (table.filter fun entry => key entry < count) (demands.take count) := by
  intro pos demand at_
  have inside := (List.getElem?_eq_some_iff.mp at_).1
  rw [length_take] at inside
  have same : governing key (table.filter fun entry => key entry < count) pos =
      governing key table pos :=
    governing_filter fun entry governs => by
      simpa using (le_of_governing governs).trans_lt (by omega)
  rw [valueAt, same]
  exact follows.take count pos demand at_

/-- What a table says may be read off another one, position by position. -/
theorem reread {table' : List α} {demands' : List (Option β → Prop)}
    (same : ∀ (pos : ℕ) (demand : Option β → Prop), demands'[pos]? = some demand →
      ∃ from_, demands[from_]? = some demand ∧
        valueAt key value table' pos = valueAt key value table from_) :
    Follows key value table' demands' := by
  intro pos demand at_
  rcases same pos demand at_ with ⟨from_, at_', eq⟩
  exact eq ▸ follows from_ demand at_'

end

end Follows

section

variable (ordered : Ordered key table)
include ordered

theorem Ordered.append (ordered' : Ordered key added)
    (before : ∀ entry ∈ table, ∀ later ∈ added, key entry ≤ key later) :
    Ordered key (table ++ added) :=
  pairwise_append.mpr ⟨ordered, ordered', before⟩

theorem Ordered.filter (keep : α → Bool) : Ordered key (table.filter keep) :=
  List.Pairwise.filter keep ordered

/-- In an ordered table no entry before a position lies behind the one that governs it. -/
theorem Ordered.le_governing {entry other : α} (governs : governing key table pos = some entry)
    (mem : other ∈ table) (le : key other ≤ pos) : key other ≤ key entry := by
  rcases List.getLast?_eq_some_iff.mp governs with ⟨earlier, ends⟩
  have listed : other ∈ table.filter fun entry => key entry ≤ pos :=
    mem_filter.mpr ⟨mem, by simpa using le⟩
  have sorted := List.Pairwise.filter (fun entry => decide (key entry ≤ pos)) ordered
  rw [ends] at listed sorted
  rcases mem_append.mp listed with before | isLast
  · exact (pairwise_append.mp sorted).2.2 other before entry mem_cons_self
  · rw [mem_singleton.mp isLast]

/-- Dropping entries from the end of an ordered table on leaves those before a position. -/
theorem Ordered.rdropWhile_eq_filter :
    table.rdropWhile (fun entry => pos ≤ key entry) =
      table.filter fun entry => key entry < pos := by
  induction table using List.reverseRecOn with
  | nil => rfl
  | append_singleton rest last ih =>
    have parts := pairwise_append.mp ordered
    by_cases behind : pos ≤ key last
    · rw [rdropWhile_concat_pos _ _ _ (by simpa using behind), ih parts.1, filter_append]
      simp [behind]
    · rw [rdropWhile_concat_neg _ _ _ (by simpa using behind), eq_comm, filter_eq_self]
      intro entry mem
      rcases mem_append.mp mem with earlier | isLast
      · have le := parts.2.2 entry earlier last mem_cons_self
        simpa using le.trans_lt (not_le.mp behind)
      · rw [mem_singleton.mp isLast]
        simpa using behind

end

/-- Where the keys compare in the same way, the loop ends at the same index. -/
theorem bisectLoop_congr {keys keys' : List ℕ}
    (same : ∀ index, keys.getD index 0 ≤ pos ↔ keys'.getD index 0 ≤ pos') (fuel lo hi : ℕ) :
    bisectLoop keys pos fuel lo hi = bisectLoop keys' pos' fuel lo hi := by
  induction fuel generalizing lo hi with
  | zero => rfl
  | succ fuel ih =>
    rw [bisectLoop, bisectLoop]
    simp only [same, ih]

/-- The loop keeps an entry that does not lie behind the position and finds the last one. -/
theorem bisectLoop_spec {keys : List ℕ} (ordered : keys.Pairwise (· ≤ ·)) {fuel lo hi : ℕ}
    (enough : hi ≤ lo + fuel) (lt : lo < hi) (bound : hi ≤ keys.length)
    (before : keys.getD lo 0 ≤ pos)
    (behind : ∀ index, hi ≤ index → index < keys.length → pos < keys.getD index 0) :
    bisectLoop keys pos fuel lo hi < keys.length ∧
      keys.getD (bisectLoop keys pos fuel lo hi) 0 ≤ pos ∧
      ∀ index, bisectLoop keys pos fuel lo hi < index → index < keys.length →
        pos < keys.getD index 0 := by
  induction fuel generalizing lo hi with
  | zero => omega
  | succ fuel ih =>
    rw [bisectLoop]
    split
    · split
      · rename_i more mid
        exact ih (by omega) (by omega) bound mid behind
      · rename_i more mid
        refine ih (by omega) (by omega) (by omega) before ?_
        intro index from_ inside
        have le : keys.getD (lo + (hi - lo) / 2) 0 ≤ keys.getD index 0 := by
          rw [getD_eq_getElem _ _ inside, getD_eq_getElem _ _ (by omega)]
          rcases from_.eq_or_lt with same | later
          · simp [← same]
          · exact pairwise_iff_getElem.mp ordered _ _ (by omega) inside later
        omega
    · rename_i done
      exact ⟨by omega, before, fun index later inside => behind index (by omega) inside⟩

theorem governing_eq_bisect (ordered : Ordered key table) {first : α}
    (head : table.head? = some first) (before : key first ≤ pos) :
    governing key table pos = table[bisect (table.map key) pos 0 table.length]? := by
  have nonempty : 0 < table.length := by
    cases table with
    | nil => simp at head
    | cons entry rest => exact succ_pos _
  have first_le : (table.map key).getD 0 0 ≤ pos := by
    cases table with
    | nil => simp at head
    | cons entry rest =>
      rw [List.head?_cons, Option.some.injEq] at head
      simpa [head] using before
  have keys : (table.map key).Pairwise (· ≤ ·) := pairwise_map.mpr ordered
  have found := bisectLoop_spec keys (Nat.zero_add _).ge nonempty (length_map key).ge first_le
    fun index from_ inside => absurd inside (by simpa using from_)
  rw [bisect, Nat.sub_zero]
  generalize bisectLoop (table.map key) pos table.length 0 table.length = index at found ⊢
  rcases found with ⟨inside, le, behind⟩
  rw [length_map] at inside behind
  rw [getD_eq_getElem _ _ (by simpa using inside), getElem_map] at le
  have kept : table.filter (fun entry => key entry ≤ pos) = table.take (index + 1) := by
    conv_lhs => rw [← take_append_drop (index + 1) table]
    rw [filter_append]
    have all : (table.take (index + 1)).filter (fun entry => key entry ≤ pos) =
        table.take (index + 1) := by
      rw [filter_eq_self]
      intro entry mem
      rcases mem_take_iff_getElem.mp mem with ⟨at_, bound, rfl⟩
      rw [decide_eq_true_eq]
      rcases lt_or_ge at_ index with earlier | notEarlier
      · exact (pairwise_iff_getElem.mp ordered _ _ _ inside earlier).trans le
      · obtain rfl : at_ = index := by omega
        exact le
    have none_ : (table.drop (index + 1)).filter (fun entry => key entry ≤ pos) = [] := by
      rw [filter_eq_nil_iff]
      intro entry mem
      rcases mem_drop_iff_getElem.mp mem with ⟨at_, bound, rfl⟩
      have lt := behind (index + 1 + at_) (by omega) (by omega)
      rw [getD_eq_getElem _ _ (by simpa using by omega), getElem_map] at lt
      simpa using lt
    rw [all, none_, append_nil]
  rw [governing, kept, List.getLast?_eq_getElem?, length_take,
    min_eq_left (succ_le_of_lt inside), succ_sub_one, List.getElem?_take_of_succ]

end Gengo.Tables.Sparse
