import Mathlib.Data.List.Perm.Basic
import Mathlib.Data.Set.Basic

/-!
# Lists of entries

A finite map as a list of keys with their values, in any order, where the keys are compared by a
test that is an equivalence on those that occur. Entries are added at the end and overwritten in
place, and one is removed by putting the last into its place.
-/

namespace Gengo.Tables

open List Option

structure Entry (K V : Type) where
  key : K
  value : V
  deriving DecidableEq, Repr

section

variable {K V : Type} (same : K → K → Bool) (keys : Set K)

/-- The test is an equivalence between these keys. -/
structure EquivalenceOn : Prop where
  refl : ∀ {key}, key ∈ keys → same key key = true
  euclidean : ∀ {first second third}, first ∈ keys → second ∈ keys → third ∈ keys →
    same first second = true → same first third = true → same second third = true

/-- The last write to a key wins. -/
def write (content : K → Option V) (key : K) (value : V) : K → Option V :=
  fun asked => if same key asked then some value else content asked

def erase (content : K → Option V) (key : K) : K → Option V :=
  fun asked => if same key asked then none else content asked

/-- The entries have different keys, and are the content of the map. -/
structure Represents (entries : List (Entry K V)) (content : K → Option V) : Prop where
  known : ∀ entry ∈ entries, entry.key ∈ keys
  distinct : ∀ {index other : ℕ} {entry another : Entry K V}, entries[index]? = some entry →
    entries[other]? = some another → same entry.key another.key = true → index = other
  lookup : ∀ {key : K}, key ∈ keys → ∀ value, content key = some value ↔
    ∃ (index : ℕ) (entry : Entry K V), entries[index]? = some entry ∧
      same entry.key key = true ∧ entry.value = value

end

variable {K V : Type} {same : K → K → Bool} {keys : Set K}

section

variable {first second : K} (equivalence : EquivalenceOn same keys) (firstIn : first ∈ keys)
    (secondIn : second ∈ keys)
include equivalence firstIn secondIn

theorem EquivalenceOn.symm (related : same first second = true) : same second first = true :=
  equivalence.euclidean firstIn secondIn firstIn related (equivalence.refl firstIn)

theorem EquivalenceOn.trans {third : K} (thirdIn : third ∈ keys)
    (related : same first second = true) (onward : same second third = true) :
    same first third = true :=
  equivalence.euclidean secondIn firstIn thirdIn (equivalence.symm firstIn secondIn related) onward

/-- Related keys are related to the same keys. -/
theorem EquivalenceOn.congr {third : K} (thirdIn : third ∈ keys)
    (related : same first second = true) : same first third = same second third := by
  rw [Bool.eq_iff_iff]
  constructor
  · exact equivalence.euclidean firstIn secondIn thirdIn related
  · exact equivalence.trans firstIn secondIn thirdIn related

end

namespace Represents

variable {entries : List (Entry K V)} {content : K → Option V} {key : K}

theorem nil : Represents same keys ([] : List (Entry K V)) fun _ => none where
  known := fun entry inNil => absurd inNil not_mem_nil
  distinct := by
    intro index other entry another atIndex
    cases atIndex
  lookup := by
    intro key _ value
    simp

section

variable (represents : Represents same keys entries content)
include represents

theorem known_getElem? {index : ℕ} {entry : Entry K V} (atIndex : entries[index]? = some entry) :
    entry.key ∈ keys :=
  represents.known entry (mem_of_getElem? atIndex)

theorem eq_some (keyIn : key ∈ keys) {index : ℕ} {entry : Entry K V}
    (atIndex : entries[index]? = some entry) (isMatch : same entry.key key = true) :
    content key = some entry.value :=
  (represents.lookup keyIn entry.value).mpr ⟨index, entry, atIndex, isMatch, rfl⟩

theorem eq_none (keyIn : key ∈ keys)
    (absent : ∀ (index : ℕ) (entry : Entry K V), entries[index]? = some entry →
      same entry.key key = false) : content key = none := by
  cases found : content key with
  | none => rfl
  | some value =>
    rcases (represents.lookup keyIn value).mp found with ⟨index, entry, atIndex, isMatch, _⟩
    rw [absent index entry atIndex] at isMatch
    cases isMatch

section

variable (equivalence : EquivalenceOn same keys) (keyIn : key ∈ keys)
include equivalence keyIn

theorem unique {index other : ℕ} {entry another : Entry K V}
    (atIndex : entries[index]? = some entry) (atOther : entries[other]? = some another)
    (isMatch : same entry.key key = true) (alsoMatch : same another.key key = true) :
    index = other := by
  have entryIn := represents.known_getElem? atIndex
  have anotherIn := represents.known_getElem? atOther
  have back := equivalence.symm anotherIn keyIn alsoMatch
  exact represents.distinct atIndex atOther (equivalence.trans entryIn keyIn anotherIn isMatch back)

theorem erase_absent (absent : ∀ (index : ℕ) (entry : Entry K V), entries[index]? = some entry →
      same entry.key key = false) :
    Represents same keys entries (erase same content key) where
  known := represents.known
  distinct := represents.distinct
  lookup := by
    intro asked askedIn value
    rw [erase, ← represents.lookup askedIn]
    cases isKey : same key asked with
    | false => rw [if_neg Bool.false_ne_true]
    | true =>
      have missing : content asked = none := by
        apply represents.eq_none askedIn
        intro index entry atIndex
        have entryIn := represents.known_getElem? atIndex
        have back := equivalence.symm keyIn askedIn isKey
        cases isMatch : same entry.key asked with
        | false => rfl
        | true =>
          have related := equivalence.trans entryIn askedIn keyIn isMatch back
          rw [absent index entry atIndex] at related
          cases related
      rw [if_pos rfl, missing]

theorem append (absent : ∀ (index : ℕ) (entry : Entry K V), entries[index]? = some entry →
      same entry.key key = false) (value : V) :
    Represents same keys (entries ++ [⟨key, value⟩]) (write same content key value) where
  known := by
    intro entry inEntries
    rcases mem_append.mp inEntries with old | new
    · exact represents.known entry old
    · rw [mem_singleton.mp new]
      exact keyIn
  distinct := by
    intro index other entry another atIndex atOther related
    rw [List.getElem?_append] at atIndex atOther
    split at atIndex <;> split at atOther
    · exact represents.distinct atIndex atOther related
    · have isNew := mem_singleton.mp (mem_of_getElem? atOther)
      rw [isNew, absent index entry atIndex] at related
      cases related
    · have isNew := mem_singleton.mp (mem_of_getElem? atIndex)
      have anotherIn := represents.known_getElem? atOther
      rw [isNew] at related
      have back := equivalence.symm keyIn anotherIn related
      rw [absent other another atOther] at back
      cases back
    · have inRest := (List.getElem?_eq_some_iff.mp atIndex).1
      have alsoInRest := (List.getElem?_eq_some_iff.mp atOther).1
      rw [length_singleton] at inRest alsoInRest
      omega
  lookup := by
    intro asked askedIn found
    rw [write]
    cases isNew : same key asked with
    | true =>
      rw [if_pos rfl, some.injEq]
      constructor
      · intro valueEq
        exact ⟨entries.length, ⟨key, value⟩, List.getElem?_concat_length, isNew, valueEq⟩
      · rintro ⟨index, entry, atIndex, isMatch, valueEq⟩
        rw [List.getElem?_append] at atIndex
        split at atIndex
        · have entryIn := represents.known_getElem? atIndex
          have related := equivalence.trans entryIn askedIn keyIn isMatch
            (equivalence.symm keyIn askedIn isNew)
          rw [absent index entry atIndex] at related
          cases related
        · rw [mem_singleton.mp (mem_of_getElem? atIndex)] at valueEq
          exact valueEq
    | false =>
      rw [if_neg Bool.false_ne_true, represents.lookup askedIn]
      constructor
      · rintro ⟨index, entry, atIndex, rest⟩
        have inRange := (List.getElem?_eq_some_iff.mp atIndex).1
        exact ⟨index, entry, by rw [List.getElem?_append_left inRange, atIndex], rest⟩
      · rintro ⟨index, entry, atIndex, isMatch, valueEq⟩
        rw [List.getElem?_append] at atIndex
        split at atIndex
        · exact ⟨index, entry, atIndex, isMatch, valueEq⟩
        · rw [mem_singleton.mp (mem_of_getElem? atIndex), isNew] at isMatch
          cases isMatch

theorem update {place : ℕ} {held : Entry K V} (atPlace : entries[place]? = some held)
    (isHeld : same held.key key = true) (value : V) :
    Represents same keys (entries.set place ⟨held.key, value⟩) (write same content key value) := by
  have heldIn := represents.known_getElem? atPlace
  have inRange := (List.getElem?_eq_some_iff.mp atPlace).1
  -- An entry keeps its key, and its value unless it is the one of this key.
  have before {index : ℕ} {entry : Entry K V}
      (atIndex : (entries.set place ⟨held.key, value⟩)[index]? = some entry) :
      (index = place ∧ entry = ⟨held.key, value⟩) ∨
        (index ≠ place ∧ entries[index]? = some entry) := by
    rw [List.getElem?_set] at atIndex
    split at atIndex
    · next isPlace =>
        exact .inl ⟨isPlace.symm, (some.inj atIndex).symm⟩
    · next isOther => exact .inr ⟨fun isPlace => isOther isPlace.symm, atIndex⟩
  constructor
  · intro entry inEntries
    rcases mem_iff_getElem?.mp inEntries with ⟨index, atIndex⟩
    rcases before atIndex with ⟨_, isNew⟩ | ⟨_, isOld⟩
    · rw [isNew]
      exact heldIn
    · exact represents.known_getElem? isOld
  · intro index other entry another atIndex atOther related
    rcases before atIndex with ⟨isPlace, isNew⟩ | ⟨_, isOld⟩ <;>
      rcases before atOther with ⟨isPlace', isNew'⟩ | ⟨_, isOld'⟩
    · omega
    · rw [isNew] at related
      rw [isPlace]
      exact represents.distinct atPlace isOld' related
    · rw [isNew'] at related
      rw [isPlace']
      exact represents.distinct isOld atPlace related
    · exact represents.distinct isOld isOld' related
  · intro asked askedIn found
    have heldAsked : same held.key asked = same key asked :=
      equivalence.congr heldIn keyIn askedIn isHeld
    rw [write]
    cases isKey : same key asked with
    | true =>
      rw [isKey] at heldAsked
      rw [if_pos rfl, some.injEq]
      constructor
      · intro valueEq
        exact ⟨place, ⟨held.key, value⟩, List.getElem?_set_self inRange, heldAsked, valueEq⟩
      · rintro ⟨index, entry, atIndex, isMatch, valueEq⟩
        rcases before atIndex with ⟨_, isNew⟩ | ⟨elsewhere, isOld⟩
        · rw [isNew] at valueEq
          exact valueEq
        · exact absurd
            (represents.unique equivalence askedIn isOld atPlace isMatch heldAsked) elsewhere
    | false =>
      rw [isKey] at heldAsked
      rw [if_neg Bool.false_ne_true, represents.lookup askedIn]
      constructor
      · rintro ⟨index, entry, atIndex, isMatch, valueEq⟩
        refine ⟨index, entry, ?_, isMatch, valueEq⟩
        rw [List.getElem?_set_ne, atIndex]
        intro isPlace
        rw [← isPlace, atPlace] at atIndex
        cases atIndex
        rw [heldAsked] at isMatch
        cases isMatch
      · rintro ⟨index, entry, atIndex, isMatch, valueEq⟩
        rcases before atIndex with ⟨_, isNew⟩ | ⟨_, isOld⟩
        · rw [isNew, heldAsked] at isMatch
          cases isMatch
        · exact ⟨index, entry, isOld, isMatch, valueEq⟩

end

end

end Represents

/-- The last element takes the place of the one that goes. -/
def swapRemove {α : Type} (items : List α) (index : ℕ) : List α :=
  match items.getLast? with
  | some last => (items.set index last).dropLast
  | none => items

theorem length_swapRemove_lt {α : Type} {items : List α} {index : ℕ}
    (inRange : index < items.length) : (swapRemove items index).length < items.length := by
  rw [swapRemove, List.getLast?_eq_getElem?, List.getElem?_eq_getElem (by omega)]
  simp only [length_dropLast, length_set]
  omega

theorem getElem?_swapRemove {α : Type} {items : List α} {index : ℕ} (inRange : index < items.length)
    (other : ℕ) :
    (swapRemove items index)[other]? =
      if other < items.length - 1 then
        if other = index then items[items.length - 1]? else items[other]?
      else none := by
  have lastIn : items.length - 1 < items.length := by omega
  rw [swapRemove, List.getLast?_eq_getElem?, List.getElem?_eq_getElem lastIn]
  simp only [List.getElem?_dropLast, length_set, List.getElem?_set]
  split
  · by_cases isIndex : index = other
    · rw [if_pos isIndex, if_pos isIndex.symm]
    · rw [if_neg isIndex, if_neg (Ne.symm isIndex)]
  · rfl

theorem perm_swapRemove {α : Type} {items : List α} {idx : ℕ} (inside : idx < items.length) :
    items ~ items[idx] :: swapRemove items idx := by
  have lastIn : items.length - 1 < items.length := by omega
  have isLast : items.getLast? = some items[items.length - 1] := by
    rw [getLast?_eq_getElem?, getElem?_eq_getElem lastIn]
  have stays : items[items.length - 1] ∈ (items.set idx items[items.length - 1]).getLast? := by
    rw [getLast?_eq_getElem?, length_set, getElem?_set]
    split_ifs
    · rfl
    · exact getElem?_eq_getElem lastIn
  have whole := set_perm_cons_eraseIdx inside items[items.length - 1]
  rw [← dropLast_append_getLast? _ stays] at whole
  rw [swapRemove, isLast]
  refine (getElem_cons_eraseIdx_perm inside).symm.trans (.cons _ ?_)
  exact (perm_cons _).mp (whole.symm.trans perm_append_comm)

namespace Represents

variable {entries : List (Entry K V)} {content : K → Option V} {key : K}

theorem swapRemove (represents : Represents same keys entries content)
    (equivalence : EquivalenceOn same keys) (keyIn : key ∈ keys) {place : ℕ} {held : Entry K V}
    (atPlace : entries[place]? = some held) (isHeld : same held.key key = true) :
    Represents same keys (swapRemove entries place) (erase same content key) := by
  have heldIn := represents.known_getElem? atPlace
  have inRange := (List.getElem?_eq_some_iff.mp atPlace).1
  -- What is left comes from the same position, or from the last.
  have before {index : ℕ} {entry : Entry K V}
      (atIndex : (Tables.swapRemove entries place)[index]? = some entry) :
      ∃ origin, entries[origin]? = some entry ∧ origin ≠ place ∧ index < entries.length - 1 ∧
        origin = if index = place then entries.length - 1 else index := by
    rw [getElem?_swapRemove inRange] at atIndex
    split at atIndex
    · split at atIndex
      · exact ⟨_, atIndex, by omega, by omega, by rw [if_pos (by omega)]⟩
      · exact ⟨_, atIndex, by omega, by omega, by rw [if_neg (by omega)]⟩
    · cases atIndex
  have after {origin : ℕ} {entry : Entry K V} (atOrigin : entries[origin]? = some entry)
      (elsewhere : origin ≠ place) :
      ∃ index : ℕ, (Tables.swapRemove entries place)[index]? = some entry := by
    have originIn := (List.getElem?_eq_some_iff.mp atOrigin).1
    by_cases isLast : origin = entries.length - 1
    · refine ⟨place, ?_⟩
      rw [getElem?_swapRemove inRange, if_pos (by omega), if_pos rfl, ← isLast, atOrigin]
    · refine ⟨origin, ?_⟩
      rw [getElem?_swapRemove inRange, if_pos (by omega), if_neg elsewhere, atOrigin]
  constructor
  · intro entry inEntries
    rcases mem_iff_getElem?.mp inEntries with ⟨index, atIndex⟩
    rcases before atIndex with ⟨origin, atOrigin, _⟩
    exact represents.known_getElem? atOrigin
  · intro index other entry another atIndex atOther related
    rcases before atIndex with ⟨origin, atOrigin, _, indexLt, originEq⟩
    rcases before atOther with ⟨origin', atOrigin', _, otherLt, originEq'⟩
    have sameOrigin := represents.distinct atOrigin atOrigin' related
    split at originEq <;> split at originEq' <;> omega
  · intro asked askedIn found
    have heldAsked : same held.key asked = same key asked :=
      equivalence.congr heldIn keyIn askedIn isHeld
    rw [erase]
    cases isKey : same key asked with
    | true =>
      rw [isKey] at heldAsked
      rw [if_pos rfl]
      refine iff_of_false (by simp) ?_
      rintro ⟨index, entry, atIndex, isMatch, _⟩
      rcases before atIndex with ⟨origin, atOrigin, elsewhere, _⟩
      exact elsewhere (represents.unique equivalence askedIn atOrigin atPlace isMatch heldAsked)
    | false =>
      rw [isKey] at heldAsked
      rw [if_neg Bool.false_ne_true, represents.lookup askedIn]
      constructor
      · rintro ⟨origin, entry, atOrigin, isMatch, valueEq⟩
        have elsewhere : origin ≠ place := by
          intro isPlace
          rw [isPlace, atPlace] at atOrigin
          cases atOrigin
          rw [heldAsked] at isMatch
          cases isMatch
        rcases after atOrigin elsewhere with ⟨index, atIndex⟩
        exact ⟨index, entry, atIndex, isMatch, valueEq⟩
      · rintro ⟨index, entry, atIndex, isMatch, valueEq⟩
        rcases before atIndex with ⟨origin, atOrigin, _⟩
        exact ⟨origin, entry, atOrigin, isMatch, valueEq⟩

end Represents

end Gengo.Tables
