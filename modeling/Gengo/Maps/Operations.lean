import Gengo.Maps.Keys
import Gengo.Tables.Entries
import Gengo.Tables.Probing

/-!
# Operations on maps

The three representations of a map and the operations that go through them: a list that is
searched from its beginning, in memory of its own or not, and a list with an index of buckets. An
operation that fails leaves the map in some state, which comes with the failure. The entries and
the buckets are lists here. Where their blocks lie shows in one place: the first buckets of a list
are built of a slice from before their allocation.
-/

namespace Gengo.Maps

open Tables (Entry probe search place swapRemove)

abbrev MapEntry :=
  Entry Value Value

/-- `MapHashedObj`: the entries in use, for how many the block has room, and the buckets. -/
structure MapHashed where
  entries : List MapEntry
  capacity : ℕ
  buckets : List (Option ℕ)
  deriving Nonempty

inductive MapObject
  | map (entries : List MapEntry)
  | mapManaged (entries : List MapEntry)
  | mapHashed (hashed : MapHashed)

/-- Why an operation ends without a result. No vacant bucket is reported as no memory, too. -/
inductive Failure
  | outOfMemory
  | noVacantBucket
  | badTempRootDiscipline
  | trap
  deriving DecidableEq, Repr

/-- What the memory has left: places for temporary roots, a block for entries, and then a block for
buckets. When the allocation of that one moves the entries, other things may be at their old
address. -/
structure Supply where
  tempRoots : ℕ
  entries : Bool
  buckets : Bool
  moved : Option (ℕ → MapEntry)

/-- The entries as a slice from before the allocation of the buckets has them. -/
def Supply.stale (supply : Supply) (entries : List MapEntry) : List MapEntry :=
  match supply.moved with
  | none => entries
  | some content => (List.range entries.length).map content

/-- `asMapSlice` -/
def MapObject.entries : MapObject → List MapEntry
  | .map entries => entries
  | .mapManaged entries => entries
  | .mapHashed hashed => hashed.entries

/-- The first power of two, from one that is given on, that is no less than the number. -/
def raise (number : ℕ) : ℕ → ℕ → ℕ
  | 0, power => power
  | fuel + 1, power => if power < number then raise number fuel (power * 2) else power

def mapBucketsForCount (entryCount : ℕ) : ℕ :=
  let number := if entryCount < 4 then 8 else entryCount * 2
  raise number number 1

section

variable (types : Types)

/-- The hash of a key, unless the program stops. -/
def hashOrTrap (key : Value) : Except Failure ℕ :=
  match mapHashValue types key with
  | some hash => .ok hash.toNat
  | none => .error .trap

def isAt (entries : List MapEntry) (key : Value) (index : ℕ) : Bool :=
  match entries[index]? with
  | some entry => mapKeyEquals types entry.key key
  | none => false

def mapFindLinear (items : List MapEntry) (key : Value) : Option ℕ :=
  items.findIdx? fun entry => mapKeyEquals types entry.key key

def mapFindHashedIndex (hashed : MapHashed) (key : Value) : Except Failure (Option ℕ) := do
  if hashed.buckets.length = 0 then return none
  let hash ← hashOrTrap types key
  match search hashed.buckets (isAt types hashed.entries key) hash with
  | .found index => return some index
  | _ => return none

/-- Where the entry of a key is. -/
def mapFind (object : MapObject) (key : Value) : Except Failure (Option ℕ) :=
  match object with
  | .map items | .mapManaged items => .ok (mapFindLinear types items key)
  | .mapHashed hashed => mapFindHashedIndex types hashed key

def mapGet (object : MapObject) (key : Value) : Except Failure (Option Value) := do
  match ← mapFind types object key with
  | some index => return object.entries[index]?.map Entry.value
  | none => return none

def mapHas (object : MapObject) (key : Value) : Except Failure Bool := do
  return (← mapFind types object key).isSome

/-- The entries from a position on get their buckets. -/
def placeEntries (entries : List MapEntry) :
    List MapEntry → ℕ → List (Option ℕ) → Except Failure (List (Option ℕ))
  | [], _, buckets => .ok buckets
  | entry :: rest, index, buckets => do
    let hash ← hashOrTrap types entry.key
    placeEntries entries rest (index + 1) (place buckets (isAt types entries entry.key) hash index)

def mapBuildHashedBuckets (entries : List MapEntry) (size : ℕ) : Except Failure (List (Option ℕ)) :=
  if size = 0 then .ok []
  else placeEntries types entries entries 0 (List.replicate size none)

/-- `build_map`, when there is memory. -/
def buildMap (entries : List MapEntry) : Except Failure MapObject := do
  let buckets ← mapBuildHashedBuckets types entries (mapBucketsForCount entries.length)
  return .mapHashed ⟨entries, entries.length, buckets⟩

/-- The entry of a key gets a value, or a new entry goes behind the others. -/
def insertHashed (hashed : MapHashed) (key value : Value) : Except Failure Unit × MapObject :=
  match hashOrTrap types key with
  | .error failure => (.error failure, .mapHashed hashed)
  | .ok hash =>
    match search hashed.buckets (isAt types hashed.entries key) hash with
    | .vacant slot =>
      (.ok (), .mapHashed { hashed with
        entries := hashed.entries ++ [⟨key, value⟩]
        buckets := hashed.buckets.set slot (some hashed.entries.length) })
    | .found index =>
      (.ok (), .mapHashed { hashed with
        entries := match hashed.entries[index]? with
          | some held => hashed.entries.set index ⟨held.key, value⟩
          | none => hashed.entries })
    | .exhausted => (.error .noVacantBucket, .mapHashed hashed)

/-- The table has no buckets, no room for an entry, or too few buckets for one more entry. -/
def mustGrow (hashed : MapHashed) : Bool :=
  hashed.buckets.length = 0 || hashed.capacity ≤ hashed.entries.length ||
    hashed.buckets.length * 7 ≤ (hashed.entries.length + 1) * 10

def grownCapacity (hashed : MapHashed) : ℕ :=
  let doubled := if hashed.capacity < 8 then 8 else hashed.capacity * 2
  if doubled < hashed.entries.length + 1 then hashed.entries.length + 1 else doubled

/-- The entries are in their new block, and there are no buckets yet. -/
def withoutBuckets (hashed : MapHashed) : MapHashed where
  entries := hashed.entries
  capacity := grownCapacity hashed
  buckets := []

def mapInsertHashed (supply : Supply) (hashed : MapHashed) (key value : Value) :
    Except Failure Unit × MapObject :=
  if mustGrow hashed then
    if supply.tempRoots = 0 then (.error .badTempRootDiscipline, .mapHashed hashed)
    else if supply.entries = false then (.error .outOfMemory, .mapHashed hashed)
    else if supply.buckets = false then (.error .outOfMemory, .mapHashed (withoutBuckets hashed))
    else
      match mapBuildHashedBuckets types hashed.entries
          (mapBucketsForCount (grownCapacity hashed)) with
      | .error failure => (.error failure, .mapHashed (withoutBuckets hashed))
      | .ok buckets =>
        insertHashed types { withoutBuckets hashed with buckets := buckets } key value
  else insertHashed types hashed key value

/-- A list with a new entry, which gets buckets if it has become long. The slice that was taken
before their allocation is read and published after it. -/
def promote (supply : Supply) (extended : List MapEntry) : Except Failure Unit × MapObject :=
  if extended.length ≤ 8 then (.ok (), .mapManaged extended)
  else if supply.buckets = false then (.error .outOfMemory, .mapManaged extended)
  else
    let entries := supply.stale extended
    match mapBuildHashedBuckets types entries (mapBucketsForCount extended.length) with
    | .error failure => (.error failure, .mapManaged extended)
    | .ok buckets => (.ok (), .mapHashed ⟨entries, extended.length, buckets⟩)

/-- The same representation with other entries. -/
def withEntries : MapObject → List MapEntry → MapObject
  | .map _, entries => .map entries
  | .mapManaged _, entries => .mapManaged entries
  | .mapHashed hashed, entries => .mapHashed { hashed with entries := entries }

/-- `mapSet` of a map without buckets. -/
def mapSetLinear (supply : Supply) (object : MapObject) (key value : Value) :
    Except Failure Unit × MapObject :=
  match mapFindLinear types object.entries key with
  | some index =>
    (.ok (), withEntries object (match object.entries[index]? with
      | some held => object.entries.set index ⟨held.key, value⟩
      | none => object.entries))
  | none =>
    if supply.tempRoots = 0 then (.error .badTempRootDiscipline, object)
    else if supply.entries = false then (.error .outOfMemory, object)
    else promote types supply (object.entries ++ [⟨key, value⟩])

/-- The key and the value take a temporary root each. -/
def mapSet (supply : Supply) (object : MapObject) (key value : Value) :
    Except Failure Unit × MapObject :=
  if supply.tempRoots < 2 then (.error .badTempRootDiscipline, object)
  else
    let left := { supply with tempRoots := supply.tempRoots - 2 }
    match object with
    | .mapHashed hashed => mapInsertHashed types left hashed key value
    | _ => mapSetLinear types left object key value

def mapDelete (object : MapObject) (key : Value) : Except Failure Value × MapObject :=
  match mapFind types object key with
  | .error failure => (.error failure, object)
  | .ok none => (.ok .null, object)
  | .ok (some index) =>
    let removed := (object.entries[index]?.map Entry.value).getD .null
    let shrunk := swapRemove object.entries index
    match object with
    | .mapHashed hashed =>
      match mapBuildHashedBuckets types shrunk hashed.buckets.length with
      | .error failure => (.error failure, .mapHashed { hashed with entries := shrunk })
      | .ok buckets => (.ok removed, .mapHashed ⟨shrunk, hashed.capacity, buckets⟩)
    | _ => (.ok removed, withEntries object shrunk)

end

/-!
# Insertions that fail

What an insertion without memory leaves behind. A block for the entries comes first: when there is
none, nothing has changed. The entries are in their new block when the block for the buckets is
asked for. Without it, a table that was to grow has no buckets at all, and a list that was to get
its first buckets has the new entry.
-/

variable (types : Types)

/-- What the lookups returned, they return again. -/
def SameLookups (before after : MapObject) : Prop :=
  ∀ key,
    (∀ result, mapGet types before key = .ok result → mapGet types after key = .ok result) ∧
    ∀ result, mapHas types before key = .ok result → mapHas types after key = .ok result

/-- A `mapSet` that is out of memory changes no lookup. -/
def SetsAtomically (supply : Supply) (object : MapObject) (key value : Value) : Prop :=
  ∀ after, mapSet types supply object key value = (.error .outOfMemory, after) →
    SameLookups types object after

def InsertsAtomically (supply : Supply) (hashed : MapHashed) (key value : Value) : Prop :=
  ∀ after, mapInsertHashed types supply hashed key value = (.error .outOfMemory, after) →
    SameLookups types (.mapHashed hashed) after

/-- There is a block for the entries, and then none for the buckets. -/
def Supply.failsForBuckets (supply : Supply) : Prop :=
  supply.entries = true ∧ supply.buckets = false

/-- A table that must grow gets its buckets, or has nothing that a lookup finds. -/
def GrowsSafely (supply : Supply) (hashed : MapHashed) : Prop :=
  mustGrow hashed = true → 0 < supply.tempRoots → supply.failsForBuckets →
    ∀ key, mapHas types (.mapHashed hashed) key ≠ .ok true

/-- A list with more than eight entries gets its buckets, or every key that equals the new one is
found already. -/
def PromotesSafely (supply : Supply) (items : List MapEntry) (key : Value) : Prop :=
  mapFindLinear types items key = none → 8 ≤ items.length → 0 < supply.tempRoots →
    supply.failsForBuckets →
    ∀ asked, mapKeyEquals types key asked = true → (mapFindLinear types items asked).isSome

/-- What is left when the key and the value have their temporary roots. -/
def Supply.afterRoots (supply : Supply) : Supply :=
  { supply with tempRoots := supply.tempRoots - 2 }

def SetsSafely (supply : Supply) (object : MapObject) (key : Value) : Prop :=
  2 ≤ supply.tempRoots →
    match object with
    | .mapHashed hashed => GrowsSafely types supply.afterRoots hashed
    | .map items | .mapManaged items => PromotesSafely types supply.afterRoots items key

variable {types}

theorem hashOrTrap_ne_outOfMemory {key : Value} {failure : Failure}
    (failed : hashOrTrap types key = .error failure) : failure ≠ .outOfMemory := by
  rw [hashOrTrap] at failed
  split at failed
  · cases failed
  · cases failed
    exact nofun

theorem placeEntries_ne_outOfMemory {entries rest : List MapEntry} {index : ℕ}
    {buckets : List (Option ℕ)} {failure : Failure}
    (failed : placeEntries types entries rest index buckets = .error failure) :
    failure ≠ .outOfMemory := by
  induction rest generalizing index buckets with
  | nil => cases failed
  | cons entry rest ih =>
    rw [placeEntries] at failed
    cases hash : hashOrTrap types entry.key with
    | error _ =>
      rw [hash] at failed
      cases failed
      exact hashOrTrap_ne_outOfMemory hash
    | ok number =>
      rw [hash] at failed
      exact ih failed

theorem mapBuildHashedBuckets_ne_outOfMemory {entries : List MapEntry} {size : ℕ}
    {failure : Failure} (failed : mapBuildHashedBuckets types entries size = .error failure) :
    failure ≠ .outOfMemory := by
  rw [mapBuildHashedBuckets] at failed
  split at failed
  · cases failed
  · exact placeEntries_ne_outOfMemory failed

theorem insertHashed_ne_outOfMemory {hashed : MapHashed} {key value : Value} {after : MapObject} :
    insertHashed types hashed key value ≠ (.error .outOfMemory, after) := by
  intro failed
  rw [insertHashed] at failed
  split at failed
  · next hash =>
      cases failed
      exact hashOrTrap_ne_outOfMemory hash rfl
  · split at failed <;> cases failed

variable {supply : Supply}

/-- A growing table is out of memory before anything has changed, or with its entries moved. -/
theorem mapInsertHashed_outOfMemory_iff {hashed : MapHashed} {key value : Value}
    {after : MapObject} :
    mapInsertHashed types supply hashed key value = (.error .outOfMemory, after) ↔
      mustGrow hashed = true ∧ 0 < supply.tempRoots ∧
        ((supply.entries = false ∧ after = .mapHashed hashed) ∨
          (supply.failsForBuckets ∧ after = .mapHashed (withoutBuckets hashed))) := by
  constructor
  · intro failed
    rw [mapInsertHashed] at failed
    split at failed
    · next grows =>
        split at failed
        · cases failed
        · next roots =>
            refine ⟨grows, by omega, ?_⟩
            split at failed
            · next noEntries =>
                cases failed
                exact .inl ⟨noEntries, rfl⟩
            · next someEntries =>
                split at failed
                · next noBuckets =>
                    cases failed
                    exact .inr ⟨⟨Bool.eq_true_of_not_eq_false someEntries, noBuckets⟩, rfl⟩
                · split at failed
                  · next build =>
                      cases failed
                      exact absurd rfl (mapBuildHashedBuckets_ne_outOfMemory build)
                  · exact absurd failed insertHashed_ne_outOfMemory
    · exact absurd failed insertHashed_ne_outOfMemory
  · rintro ⟨grows, roots, ⟨noEntries, rfl⟩ | ⟨⟨someEntries, noBuckets⟩, rfl⟩⟩
    · rw [mapInsertHashed, if_pos grows, if_neg (by omega), if_pos noEntries]
    · rw [mapInsertHashed, if_pos grows, if_neg (by omega), if_neg (by rw [someEntries]; simp),
        if_pos noBuckets]

theorem promote_outOfMemory_iff {extended : List MapEntry} {after : MapObject} :
    promote types supply extended = (.error .outOfMemory, after) ↔
      8 < extended.length ∧ supply.buckets = false ∧ after = .mapManaged extended := by
  constructor
  · intro failed
    rw [promote] at failed
    split at failed
    · cases failed
    · next long =>
        split at failed
        · next noBuckets =>
            cases failed
            exact ⟨by omega, noBuckets, rfl⟩
        · dsimp only at failed
          split at failed
          · next build =>
              cases failed
              exact absurd rfl (mapBuildHashedBuckets_ne_outOfMemory build)
          · cases failed
  · rintro ⟨long, noBuckets, rfl⟩
    rw [promote, if_neg (by omega), if_pos noBuckets]

variable {object : MapObject}

theorem mapSetLinear_outOfMemory_iff {key value : Value} {after : MapObject} :
    mapSetLinear types supply object key value = (.error .outOfMemory, after) ↔
      mapFindLinear types object.entries key = none ∧ 0 < supply.tempRoots ∧
        ((supply.entries = false ∧ after = object) ∨
          (8 ≤ object.entries.length ∧ supply.failsForBuckets ∧
            after = .mapManaged (object.entries ++ [⟨key, value⟩]))) := by
  constructor
  · intro failed
    rw [mapSetLinear] at failed
    split at failed
    · cases failed
    · next absent =>
        refine ⟨absent, ?_⟩
        split at failed
        · cases failed
        · next roots =>
            refine ⟨by omega, ?_⟩
            split at failed
            · next noEntries =>
                cases failed
                exact .inl ⟨noEntries, rfl⟩
            · next someEntries =>
                rw [promote_outOfMemory_iff, List.length_append, List.length_singleton] at failed
                rcases failed with ⟨long, noBuckets, rfl⟩
                exact .inr ⟨by omega, ⟨Bool.eq_true_of_not_eq_false someEntries, noBuckets⟩, rfl⟩
  · rintro ⟨absent, roots, ⟨noEntries, rfl⟩ | ⟨long, ⟨someEntries, noBuckets⟩, rfl⟩⟩
    · rw [mapSetLinear, absent]
      simp only [if_neg (show supply.tempRoots ≠ 0 by omega), if_pos noEntries]
    · rw [mapSetLinear, absent]
      simp only [if_neg (show supply.tempRoots ≠ 0 by omega), someEntries, Bool.true_eq_false,
        if_false]
      rw [promote_outOfMemory_iff, List.length_append, List.length_singleton]
      exact ⟨by omega, noBuckets, rfl⟩

theorem SameLookups.refl (object : MapObject) : SameLookups types object object :=
  fun _ => ⟨fun _ found => found, fun _ found => found⟩

theorem mapFind_withoutBuckets (hashed : MapHashed) (key : Value) :
    mapFind types (.mapHashed (withoutBuckets hashed)) key = .ok none := by
  rw [mapFind, mapFindHashedIndex, withoutBuckets, List.length_nil, if_pos rfl]
  rfl

theorem sameLookups_withoutBuckets_iff (hashed : MapHashed) :
    SameLookups types (.mapHashed hashed) (.mapHashed (withoutBuckets hashed)) ↔
      ∀ key, mapHas types (.mapHashed hashed) key ≠ .ok true := by
  constructor
  · intro same key isThere
    have stillThere := (same key).2 true isThere
    rw [mapHas, mapFind_withoutBuckets] at stillThere
    cases stillThere
  · intro absent key
    rw [mapGet, mapHas, mapGet, mapHas, mapFind_withoutBuckets]
    have notThere := absent key
    rw [mapHas] at notThere
    cases found : mapFind types (.mapHashed hashed) key with
    | error _ => exact ⟨nofun, nofun⟩
    | ok position =>
      rw [found] at notThere
      cases position with
      | none => exact ⟨fun _ result => result, fun _ result => result⟩
      | some _ => exact absurd rfl notThere

theorem mapFind_linear (linear : ∀ hashed, object ≠ .mapHashed hashed) (key : Value) :
    mapFind types object key = .ok (mapFindLinear types object.entries key) := by
  cases object with
  | map _ => rfl
  | mapManaged _ => rfl
  | mapHashed hashed => exact absurd rfl (linear hashed)

theorem mapFindLinear_append (items : List MapEntry) (key value asked : Value) :
    mapFindLinear types (items ++ [⟨key, value⟩]) asked =
      match mapFindLinear types items asked with
      | some index => some index
      | none => if mapKeyEquals types key asked then some items.length else none := by
  rw [mapFindLinear, mapFindLinear, List.findIdx?_append]
  cases items.findIdx? fun entry => mapKeyEquals types entry.key asked with
  | some index => rfl
  | none =>
    cases isNew : mapKeyEquals types key asked <;> simp [isNew]

/-- A new entry at the end of a list shows unless each key that equals its own is found before. -/
theorem sameLookups_append_iff (linear : ∀ hashed, object ≠ .mapHashed hashed) (key value : Value) :
    SameLookups types object (.mapManaged (object.entries ++ [⟨key, value⟩])) ↔
      ∀ asked, mapKeyEquals types key asked = true →
        (mapFindLinear types object.entries asked).isSome := by
  have found (asked : Value) :
      mapFind types (.mapManaged (object.entries ++ [⟨key, value⟩])) asked =
        .ok (mapFindLinear types (object.entries ++ [⟨key, value⟩]) asked) := rfl
  constructor
  · intro same asked isNew
    have unchanged := (same asked).2 _ (by rw [mapHas, mapFind_linear linear]; rfl)
    rw [mapHas, found, mapFindLinear_append] at unchanged
    cases before : mapFindLinear types object.entries asked with
    | some _ => rfl
    | none =>
      rw [before, isNew] at unchanged
      cases unchanged
  · intro covered asked
    rw [mapGet, mapHas, mapGet, mapHas, mapFind_linear linear, found, mapFindLinear_append]
    cases before : mapFindLinear types object.entries asked with
    | some index =>
      have inRange : index < object.entries.length := by
        rw [mapFindLinear, List.findIdx?_eq_some_iff_getElem] at before
        exact before.1
      have unchanged : (MapObject.mapManaged (object.entries ++ [⟨key, value⟩])).entries[index]? =
          object.entries[index]? := List.getElem?_append_left inRange
      refine ⟨fun result held => ?_, fun result held => held⟩
      rw [← held]
      simp only [Except.bind, bind, unchanged]
    | none =>
      cases isNew : mapKeyEquals types key asked with
      | true =>
        have isSome := covered asked isNew
        rw [before] at isSome
        cases isSome
      | false => exact ⟨fun _ held => held, fun _ held => held⟩

theorem insertsAtomically_iff {hashed : MapHashed} {key value : Value} :
    InsertsAtomically types supply hashed key value ↔ GrowsSafely types supply hashed := by
  constructor
  · intro atomic grows roots fails
    rw [← sameLookups_withoutBuckets_iff]
    exact atomic _ (mapInsertHashed_outOfMemory_iff.mpr ⟨grows, roots, .inr ⟨fails, rfl⟩⟩)
  · intro safely after failed
    rcases mapInsertHashed_outOfMemory_iff.mp failed with
      ⟨grows, roots, ⟨_, rfl⟩ | ⟨fails, rfl⟩⟩
    · exact SameLookups.refl _
    · rw [sameLookups_withoutBuckets_iff]
      exact safely grows roots fails

theorem mapSetLinear_atomic_iff (linear : ∀ hashed, object ≠ .mapHashed hashed)
    {key value : Value} :
    (∀ after, mapSetLinear types supply object key value = (.error .outOfMemory, after) →
      SameLookups types object after) ↔ PromotesSafely types supply object.entries key := by
  constructor
  · intro atomic absent long roots fails
    rw [← sameLookups_append_iff linear key value]
    exact atomic _ (mapSetLinear_outOfMemory_iff.mpr ⟨absent, roots, .inr ⟨long, fails, rfl⟩⟩)
  · intro safely after failed
    rcases mapSetLinear_outOfMemory_iff.mp failed with
      ⟨absent, roots, ⟨_, rfl⟩ | ⟨long, fails, rfl⟩⟩
    · exact SameLookups.refl _
    · rw [sameLookups_append_iff linear]
      exact safely absent long roots fails

/-- Insertions are atomic exactly if a block for the buckets is never missing after the one for
the entries, but where that shows to no lookup. -/
theorem setsAtomically_iff (supply : Supply) (object : MapObject) (hashed : MapHashed)
    (key value : Value) :
    (SetsAtomically types supply object key value ↔ SetsSafely types supply object key) ∧
      (InsertsAtomically types supply hashed key value ↔ GrowsSafely types supply hashed) := by
  refine ⟨?_, insertsAtomically_iff⟩
  unfold SetsAtomically SetsSafely
  by_cases roots : 2 ≤ supply.tempRoots
  · have enough : ¬supply.tempRoots < 2 := by omega
    cases object with
    | mapHashed hashed =>
      simp only [mapSet, if_neg enough, roots, forall_const]
      exact insertsAtomically_iff
    | map items | mapManaged items =>
      simp only [mapSet, if_neg enough, roots, forall_const]
      exact mapSetLinear_atomic_iff fun _ => MapObject.noConfusion
  · have few : supply.tempRoots < 2 := by omega
    refine iff_of_true ?_ fun enough => absurd enough roots
    intro after failed
    rw [mapSet, if_pos few] at failed
    cases failed

/-- A map of one entry that is to grow, and gets a block for its entries but none for its buckets,
loses the entry. -/
theorem not_setsAtomically :
    ¬∀ (types : Types) (supply : Supply) (object : MapObject) (key value : Value),
      SetsAtomically types supply object key value := by
  intro atomic
  let hashed : MapHashed :=
    ⟨[⟨.int 1, .int 2⟩], 1, [none, some 0, none, none, none, none, none, none]⟩
  have same := atomic ⟨fun _ => 0, fun _ _ => []⟩ ⟨8, true, false, none⟩
    (.mapHashed hashed) (.int 3)
    (.int 4) (.mapHashed (withoutBuckets hashed)) (by rfl)
  have kept := (same (.int 1)).2 true (by decide +kernel)
  rw [mapHas, mapFind_withoutBuckets] at kept
  cases kept

end Gengo.Maps
