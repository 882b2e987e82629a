import Mathlib.Data.Finset.Card
import Mathlib.Data.Nat.ModEq

/-!
# Linear probing

An index of a list of keys: slots, each of which is vacant or holds the position of a key, whose
number is a power of two. The search for a key starts at its hash and goes on, around the end,
until a slot that is vacant or holds what is looked for. A key is found as long as the slots
between its hash and its own slot are all taken, which placing further keys keeps.
-/

namespace Gengo.Tables

open List Nat

/-- How a search through the slots ends. -/
inductive Probe
  | vacant (slot : ℕ)
  | found (index : ℕ)
  | exhausted
  deriving DecidableEq, Repr

/-- The slot at a distance from where a search starts. -/
def slotOf (buckets : List (Option ℕ)) (hash distance : ℕ) : ℕ :=
  hash + distance &&& (buckets.length - 1)

/-- Look at so many slots, the given one first. -/
def probe (buckets : List (Option ℕ)) (matching : ℕ → Bool) : ℕ → ℕ → Probe
  | 0, _ => .exhausted
  | fuel + 1, slot =>
    match buckets[slot]? with
    | some (some index) =>
      if matching index then .found index
      else probe buckets matching fuel (slot + 1 &&& (buckets.length - 1))
    | _ => .vacant slot

/-- Look at every slot, from the hash on. -/
def search (buckets : List (Option ℕ)) (matching : ℕ → Bool) (hash : ℕ) : Probe :=
  probe buckets matching buckets.length (hash &&& (buckets.length - 1))

/-- The position goes to the first vacant slot, unless a slot before it matches. -/
def place (buckets : List (Option ℕ)) (matching : ℕ → Bool) (hash index : ℕ) : List (Option ℕ) :=
  match search buckets matching hash with
  | .vacant slot => buckets.set slot (some index)
  | _ => buckets

variable {buckets : List (Option ℕ)} {matching : ℕ → Bool} {hash : ℕ}

def PowerSized (buckets : List (Option ℕ)) : Prop :=
  ∃ exponent, buckets.length = 2 ^ exponent

section

variable (size : PowerSized buckets)
include size

theorem slotOf_eq_mod (hash distance : ℕ) :
    slotOf buckets hash distance = (hash + distance) % buckets.length := by
  rcases size with ⟨exponent, length⟩
  rw [slotOf, length, and_two_pow_sub_one_eq_mod]

theorem PowerSized.length_pos : 0 < buckets.length := by
  rcases size with ⟨exponent, length⟩
  rw [length]
  exact Nat.two_pow_pos exponent

theorem slotOf_lt (hash distance : ℕ) : slotOf buckets hash distance < buckets.length := by
  rw [slotOf_eq_mod size]
  exact mod_lt _ size.length_pos

theorem next_slotOf (distance : ℕ) :
    (slotOf buckets hash distance + 1) &&& (buckets.length - 1) =
      slotOf buckets hash (distance + 1) := by
  have next := slotOf_eq_mod size (slotOf buckets hash distance) 1
  rw [slotOf] at next
  rw [next, slotOf_eq_mod size, slotOf_eq_mod size, mod_add_mod, add_assoc]

/-- Different distances, once around at most, lead to different slots. -/
theorem slotOf_injective {first second : ℕ} (firstLt : first < buckets.length)
    (secondLt : second < buckets.length)
    (same : slotOf buckets hash first = slotOf buckets hash second) : first = second := by
  rw [slotOf_eq_mod size, slotOf_eq_mod size] at same
  have congruent : first ≡ second [MOD buckets.length] := Nat.ModEq.add_left_cancel' hash same
  exact Nat.ModEq.eq_of_lt_of_lt congruent firstLt secondLt

end

/-- The next slots are all taken, by others. -/
def Passes (buckets : List (Option ℕ)) (matching : ℕ → Bool) (hash distance count : ℕ) : Prop :=
  ∀ nearer < count, ∃ other,
    buckets[slotOf buckets hash (distance + nearer)]? = some (some other) ∧ matching other = false

theorem Passes.cons {distance count other : ℕ}
    (taken : buckets[slotOf buckets hash distance]? = some (some other))
    (differs : matching other = false)
    (rest : Passes buckets matching hash (distance + 1) count) :
    Passes buckets matching hash distance (count + 1) := by
  intro nearer nearerLt
  cases nearer with
  | zero => exact ⟨other, taken, differs⟩
  | succ nearer =>
    rcases rest nearer (by omega) with ⟨further, takenFurther, differsFurther⟩
    refine ⟨further, ?_, differsFurther⟩
    rw [← takenFurther]
    congr 2
    omega

/-- What a search says of the slots. -/
def Outcome (buckets : List (Option ℕ)) (matching : ℕ → Bool) (hash distance fuel : ℕ) :
    Probe → Prop
  | .vacant slot => ∃ further < fuel, slot = slotOf buckets hash (distance + further) ∧
      buckets[slot]? = some none ∧ Passes buckets matching hash distance further
  | .found index => matching index = true ∧ ∃ slot : ℕ, buckets[slot]? = some (some index)
  | .exhausted => Passes buckets matching hash distance fuel

theorem outcome_probe (size : PowerSized buckets) (fuel distance : ℕ) :
    Outcome buckets matching hash distance fuel
      (probe buckets matching fuel (slotOf buckets hash distance)) := by
  induction fuel generalizing distance with
  | zero => exact fun nearer nearerLt => absurd nearerLt (not_lt_zero nearer)
  | succ fuel ih =>
    have inRange := slotOf_lt size hash distance
    cases content : buckets[slotOf buckets hash distance] with
    | none =>
      have vacant : buckets[slotOf buckets hash distance]? = some none := by
        rw [List.getElem?_eq_getElem inRange, content]
      rw [probe, vacant]
      exact ⟨0, succ_pos fuel, rfl, vacant, fun nearer nearerLt => by omega⟩
    | some index =>
      have taken : buckets[slotOf buckets hash distance]? = some (some index) := by
        rw [List.getElem?_eq_getElem inRange, content]
      rw [probe, taken]
      cases isMatch : matching index with
      | true =>
        simp only [isMatch, if_true]
        exact ⟨isMatch, _, taken⟩
      | false =>
        rw [next_slotOf size]
        have later := ih (distance + 1)
        simp only [isMatch, Bool.false_eq_true, if_false]
        generalize probe buckets matching fuel (slotOf buckets hash (distance + 1)) = result
          at later ⊢
        cases result with
        | vacant slot =>
          rcases later with ⟨further, furtherLt, slotEq, isVacant, passes⟩
          refine ⟨further + 1, by omega, ?_, isVacant, passes.cons taken isMatch⟩
          rw [slotEq, add_assoc, add_comm 1]
        | found _ => exact later
        | exhausted => exact later.cons taken isMatch

theorem outcome_search (size : PowerSized buckets) (matching : ℕ → Bool) (hash : ℕ) :
    Outcome buckets matching hash 0 buckets.length (search buckets matching hash) := by
  have start : hash &&& (buckets.length - 1) = slotOf buckets hash 0 := rfl
  rw [search, start]
  exact outcome_probe size buckets.length 0

/-- The search for a hash comes to this position, past slots that are all taken. -/
def Reachable (buckets : List (Option ℕ)) (hash index : ℕ) : Prop :=
  ∃ distance < buckets.length,
    buckets[slotOf buckets hash distance]? = some (some index) ∧
      ∀ nearer < distance, ∃ other, buckets[slotOf buckets hash nearer]? = some (some other)

/-- The slots hold each position of the list of hashes once, where the search comes to it. -/
structure Indexes (hashes : List ℕ) (buckets : List (Option ℕ)) : Prop where
  size : PowerSized buckets
  bounded : ∀ {slot index : ℕ}, buckets[slot]? = some (some index) → index < hashes.length
  once : ∀ {slot other index : ℕ}, buckets[slot]? = some (some index) →
    buckets[other]? = some (some index) → slot = other
  reachable : ∀ {index hash : ℕ}, hashes[index]? = some hash → Reachable buckets hash index

theorem indexes_nil {size : ℕ} (power : ∃ exponent, size = 2 ^ exponent) :
    Indexes [] (List.replicate size none) where
  size := by
    rcases power with ⟨exponent, sizeEq⟩
    exact ⟨exponent, by rw [length_replicate, sizeEq]⟩
  bounded := by
    intro slot index taken
    simp [List.getElem?_replicate] at taken
  once := by
    intro slot other index taken
    simp [List.getElem?_replicate] at taken
  reachable := by
    intro index hash atIndex
    simp at atIndex

variable {hashes : List ℕ} {index : ℕ}

section

variable (indexes : Indexes hashes buckets)
include indexes

theorem Indexes.exists_found (atIndex : hashes[index]? = some hash)
    (isMatch : matching index = true) : ∃ found, search buckets matching hash = .found found := by
  have outcome := outcome_search indexes.size matching hash
  rcases indexes.reachable atIndex with ⟨distance, distanceLt, taken, between⟩
  cases result : search buckets matching hash with
  | found found => exact ⟨found, rfl⟩
  | exhausted =>
    rw [result] at outcome
    rcases outcome distance distanceLt with ⟨other, takenByOther, differs⟩
    rw [zero_add, taken] at takenByOther
    cases takenByOther
    rw [isMatch] at differs
    cases differs
  | vacant slot =>
    rw [result] at outcome
    rcases outcome with ⟨further, _, slotEq, isVacant, passes⟩
    rw [zero_add] at slotEq
    subst slotEq
    rcases lt_trichotomy further distance with before | same | after
    · rcases between further before with ⟨other, takenByOther⟩
      rw [isVacant] at takenByOther
      cases takenByOther
    · rw [same, taken] at isVacant
      cases isVacant
    · rcases passes distance after with ⟨other, takenByOther, differs⟩
      rw [zero_add, taken] at takenByOther
      cases takenByOther
      rw [isMatch] at differs
      cases differs

theorem Indexes.found (found : search buckets matching hash = .found index) :
    matching index = true ∧ index < hashes.length := by
  have outcome := outcome_search indexes.size matching hash
  rw [found] at outcome
  rcases outcome with ⟨isMatch, slot, taken⟩
  exact ⟨isMatch, indexes.bounded taken⟩

theorem Indexes.search_ne_exhausted (room : hashes.length < buckets.length) :
    search buckets matching hash ≠ .exhausted := by
  intro exhausted
  have outcome := outcome_search indexes.size matching hash
  rw [exhausted] at outcome
  choose! holder taken using
    fun distance (distanceLt : distance < buckets.length) => outcome distance distanceLt
  have crowded : (Finset.range buckets.length).card ≤ (Finset.range hashes.length).card := by
    apply Finset.card_le_card_of_injOn holder
    · intro distance distanceLt
      have inRange := Finset.mem_range.mp distanceLt
      exact Finset.mem_coe.mpr (Finset.mem_range.mpr (indexes.bounded (taken distance inRange).1))
    · intro first firstLt second secondLt same
      have firstInRange := Finset.mem_range.mp firstLt
      have secondInRange := Finset.mem_range.mp secondLt
      have firstTaken := (taken first firstInRange).1
      have secondTaken := (taken second secondInRange).1
      rw [← same] at secondTaken
      have slots := indexes.once firstTaken secondTaken
      rw [zero_add, zero_add] at slots
      exact slotOf_injective indexes.size firstInRange secondInRange slots
  rw [Finset.card_range, Finset.card_range] at crowded
  omega

end

theorem getElem?_set_taken {slot other : ℕ} {position : ℕ} (vacant : buckets[slot]? = some none)
    (taken : buckets[other]? = some (some position)) :
    (buckets.set slot (some index))[other]? = some (some position) := by
  rw [List.getElem?_set_ne, taken]
  intro same
  rw [← same, vacant] at taken
  cases taken

theorem slotOf_set {slot : ℕ} (hash distance : ℕ) :
    slotOf (buckets.set slot (some index)) hash distance = slotOf buckets hash distance := by
  rw [slotOf, slotOf, length_set]

section

variable (indexes : Indexes hashes buckets)
include indexes

/-- A new position in a vacant slot that the search for its hash comes to. -/
theorem Indexes.set {distance : ℕ} (distanceLt : distance < buckets.length)
    (vacant : buckets[slotOf buckets hash distance]? = some none)
    (passes : Passes buckets matching hash 0 distance) :
    Indexes (hashes ++ [hash])
      (buckets.set (slotOf buckets hash distance) (some hashes.length)) where
  size := by
    rcases indexes.size with ⟨exponent, length⟩
    exact ⟨exponent, by rw [length_set, length]⟩
  bounded := by
    intro slot index taken
    rw [length_append, length_singleton]
    rw [List.getElem?_set] at taken
    split at taken
    · split at taken
      · cases taken
        omega
      · cases taken
    · have before := indexes.bounded taken
      omega
  once := by
    intro slot other index taken takenByOther
    rw [List.getElem?_set] at taken takenByOther
    have fresh : ∀ {place : ℕ}, buckets[place]? ≠ some (some hashes.length) :=
      fun held => absurd (indexes.bounded held) (lt_irrefl _)
    split at taken <;> split at takenByOther
    · omega
    · split at taken
      · cases taken
        exact absurd takenByOther fresh
      · cases taken
    · split at takenByOther
      · cases takenByOther
        exact absurd taken fresh
      · cases takenByOther
    · exact indexes.once taken takenByOther
  reachable := by
    intro index other atIndex
    rw [List.getElem?_append] at atIndex
    split at atIndex
    · rcases indexes.reachable atIndex with ⟨away, awayLt, taken, between⟩
      refine ⟨away, by rwa [length_set], ?_, ?_⟩
      · rw [slotOf_set]
        exact getElem?_set_taken vacant taken
      · intro nearer nearerLt
        rcases between nearer nearerLt with ⟨position, takenNearer⟩
        rw [slotOf_set]
        exact ⟨position, getElem?_set_taken vacant takenNearer⟩
    · have indexEq : index = hashes.length := by
        have inRest := (List.getElem?_eq_some_iff.mp atIndex).1
        rw [length_singleton] at inRest
        omega
      subst indexEq
      rw [Nat.sub_self] at atIndex
      cases atIndex
      refine ⟨distance, by rwa [length_set], ?_, ?_⟩
      · rw [slotOf_set, List.getElem?_set_self (slotOf_lt indexes.size hash distance)]
      · intro nearer nearerLt
        rcases passes nearer nearerLt with ⟨position, takenNearer, _⟩
        rw [zero_add] at takenNearer
        rw [slotOf_set]
        exact ⟨position, getElem?_set_taken vacant takenNearer⟩

theorem Indexes.vacant (room : hashes.length < buckets.length) (hash : ℕ)
    (absent : ∀ index < hashes.length, matching index = false) :
    ∃ slot, search buckets matching hash = .vacant slot ∧
      Indexes (hashes ++ [hash]) (buckets.set slot (some hashes.length)) := by
  have outcome := outcome_search indexes.size matching hash
  cases result : search buckets matching hash with
  | exhausted => exact absurd result (indexes.search_ne_exhausted room)
  | found index =>
    have found := indexes.found result
    rw [absent index found.2] at found
    cases found.1
  | vacant slot =>
    rw [result] at outcome
    rcases outcome with ⟨further, furtherLt, slotEq, isVacant, passes⟩
    rw [zero_add] at slotEq
    subst slotEq
    exact ⟨_, rfl, indexes.set furtherLt isVacant passes⟩

theorem Indexes.place (room : hashes.length < buckets.length) (hash : ℕ)
    (absent : ∀ index < hashes.length, matching index = false) :
    Indexes (hashes ++ [hash]) (place buckets matching hash hashes.length) := by
  rcases indexes.vacant room hash absent with ⟨slot, result, placed⟩
  rw [Tables.place, result]
  exact placed

end

theorem length_place (index : ℕ) : (place buckets matching hash index).length = buckets.length := by
  rw [place]
  cases search buckets matching hash with
  | vacant slot => exact length_set
  | found _ => rfl
  | exhausted => rfl

end Gengo.Tables
