import Gengo.Maps.Hashing
import Gengo.Maps.Operations

/-!
# Maps against finite maps

A map that was built from a literal or begun empty, and every map that insertions and deletions
make of it, is compared with the finite map in which the last write to a key wins. The two agree
on keys between which equality is an equivalence, as long as the hashes agree once there are
buckets, the literal repeats no key, no insertion fails between its two blocks, and a list that
gets its first buckets stays where it is.
-/

namespace Gengo.Maps

open List Option
open Tables (Entry Represents EquivalenceOn Indexes PowerSized write erase search place swapRemove)

variable (types : Types)

inductive Act
  | set (supply : Supply) (key value : Value)
  | delete (key : Value)

/-- The content that the entries of a literal are written for, one after the other. -/
def literalContent (entries : List MapEntry) : Value → Option Value :=
  entries.foldl (fun content entry => write (mapKeyEquals types) content entry.key entry.value)
    fun _ => none

/-- The maps that are reached from a literal or from an empty map, each with the finite map it
stands for. An insertion that fails is not to change that. -/
inductive Run (literals : List MapEntry → Prop) (condition : MapObject → Act → Prop) :
    MapObject → (Value → Option Value) → Prop
  | literal {entries : List MapEntry} {object : MapObject} : literals entries →
      buildMap types entries = .ok object →
      Run literals condition object (literalContent types entries)
  | empty : Run literals condition (.map []) fun _ => none
  | set {object after : MapObject} {content : Value → Option Value} {supply : Supply}
      {key value : Value} : Run literals condition object content →
      condition object (.set supply key value) →
      mapSet types supply object key value = (.ok (), after) →
      Run literals condition after (write (mapKeyEquals types) content key value)
  | setFails {object after : MapObject} {content : Value → Option Value} {supply : Supply}
      {key value : Value} {failure : Failure} : Run literals condition object content →
      condition object (.set supply key value) →
      mapSet types supply object key value = (.error failure, after) →
      Run literals condition after content
  | delete {object after : MapObject} {content : Value → Option Value} {key removed : Value} :
      Run literals condition object content → condition object (.delete key) →
      mapDelete types object key = (.ok removed, after) →
      Run literals condition after (erase (mapKeyEquals types) content key)

/-- The keys are different, and the lookups and deletions of these keys are those of the finite
map. -/
structure Behaves (keys : Set Value) (object : MapObject) (content : Value → Option Value) :
    Prop where
  distinct : object.entries.Pairwise fun entry later =>
    mapKeyEquals types entry.key later.key = false
  get : ∀ key ∈ keys, mapGet types object key = .ok (content key)
  has : ∀ key ∈ keys, mapHas types object key = .ok (content key).isSome
  delete : ∀ key ∈ keys, (mapDelete types object key).1 = .ok ((content key).getD .null)

def AgreeOn (keys : Set Value) : Prop :=
  ∀ first ∈ keys, ∀ second ∈ keys, HashesAgree types first second

/-- A literal gets buckets, and repeats no key. -/
structure LiteralMeets (keys : Set Value) (entries : List MapEntry) : Prop where
  known : ∀ entry ∈ entries, entry.key ∈ keys
  distinct : entries.Pairwise fun entry later => mapKeyEquals types entry.key later.key = false
  agree : AgreeOn types keys

/-- A list that gets buckets is not moved when they are allocated. -/
def PromotesInPlace (supply : Supply) (object : MapObject) (key : Value) : Prop :=
  match object with
  | .mapHashed _ => True
  | .map items | .mapManaged items =>
    mapFindLinear types items key = none → 8 ≤ items.length → supply.moved = none

/-- An insertion into a map with eight entries or more may make buckets. -/
def Meets (keys : Set Value) (object : MapObject) : Act → Prop
  | .set supply key _ =>
    key ∈ keys ∧ (8 ≤ object.entries.length → AgreeOn types keys) ∧
      SetsSafely types supply object key ∧ PromotesInPlace types supply object key
  | .delete key => key ∈ keys

variable {types}

/-- The hash of a key that has one. -/
def hashOf (types : Types) (key : Value) : ℕ :=
  ((mapHashValue types key).getD 0).toNat

def hashesOf (types : Types) (entries : List MapEntry) : List ℕ :=
  entries.map fun entry => hashOf types entry.key

/-- The buckets lead to every entry, with some of them vacant, or there is no entry yet. -/
def Indexed (types : Types) (hashed : MapHashed) : Prop :=
  (hashed.buckets = [] ∧ hashed.entries = []) ∨
    (Indexes (hashesOf types hashed.entries) hashed.buckets ∧
      hashed.entries.length < hashed.buckets.length)

/-- A map with buckets has hashes that agree, and an index. -/
def Accessible (types : Types) (keys : Set Value) : MapObject → Prop
  | .mapHashed hashed => AgreeOn types keys ∧ Indexed types hashed
  | _ => True

structure Refines (types : Types) (keys : Set Value) (object : MapObject)
    (content : Value → Option Value) : Prop where
  represents : Represents (mapKeyEquals types) keys object.entries content
  accessible : Accessible types keys object

variable {keys : Set Value} {object : MapObject} {content : Value → Option Value}
  {key value : Value}

theorem AgreeOn.hashOrTrap_eq (agree : AgreeOn types keys) (keyIn : key ∈ keys) :
    hashOrTrap types key = .ok (hashOf types key) := by
  have isSome := (agree key keyIn key keyIn).1
  rw [hashOrTrap, hashOf]
  cases hash : mapHashValue types key with
  | none =>
    rw [hash] at isSome
    cases isSome
  | some _ => rfl

theorem AgreeOn.hashOf_eq (agree : AgreeOn types keys) {first second : Value}
    (firstIn : first ∈ keys) (secondIn : second ∈ keys)
    (equal : mapKeyEquals types first second = true) :
    hashOf types first = hashOf types second := by
  rw [hashOf, hashOf, (agree first firstIn second secondIn).2.2 equal]

theorem getElem?_hashesOf (types : Types) {entries : List MapEntry} {index : ℕ} {entry : MapEntry}
    (atIndex : entries[index]? = some entry) :
    (hashesOf types entries)[index]? = some (hashOf types entry.key) := by
  rw [hashesOf, List.getElem?_map, atIndex, map_some]

theorem length_hashesOf (types : Types) (entries : List MapEntry) :
    (hashesOf types entries).length = entries.length :=
  length_map _

theorem isAt_eq {entries : List MapEntry} {index : ℕ} {entry : MapEntry}
    (atIndex : entries[index]? = some entry) :
    isAt types entries key index = mapKeyEquals types entry.key key := by
  rw [isAt, atIndex]

/-- Where a lookup has to lead. -/
def Located (types : Types) (entries : List MapEntry) (key : Value) : Option ℕ → Prop
  | some index => ∃ entry, entries[index]? = some entry ∧
      mapKeyEquals types entry.key key = true
  | none => ∀ (index : ℕ) (entry : MapEntry), entries[index]? = some entry →
      mapKeyEquals types entry.key key = false

theorem located_mapFindLinear (types : Types) (entries : List MapEntry) (key : Value) :
    Located types entries key (mapFindLinear types entries key) := by
  cases found : mapFindLinear types entries key with
  | some index =>
    rcases List.findIdx?_eq_some_iff_getElem.mp found with ⟨inRange, isMatch, _⟩
    exact ⟨entries[index], List.getElem?_eq_getElem inRange, isMatch⟩
  | none =>
    intro index entry atIndex
    have absent := List.findIdx?_eq_none_iff.mp found entry (mem_of_getElem? atIndex)
    exact absent

variable {hashed : MapHashed}

theorem located_search (agree : AgreeOn types keys)
    (represents : Represents (mapKeyEquals types) keys hashed.entries content)
    (indexes : Indexes (hashesOf types hashed.entries) hashed.buckets) (keyIn : key ∈ keys) :
    Located types hashed.entries key
      (match search hashed.buckets (isAt types hashed.entries key) (hashOf types key) with
        | .found index => some index
        | _ => none) := by
  have absent (missing : ∀ index, search hashed.buckets (isAt types hashed.entries key)
      (hashOf types key) ≠ .found index) : Located types hashed.entries key none := by
    intro index entry atIndex
    cases isMatch : mapKeyEquals types entry.key key with
    | false => rfl
    | true =>
      have entryIn := represents.known_getElem? atIndex
      have atHash := getElem?_hashesOf types atIndex
      rw [agree.hashOf_eq entryIn keyIn isMatch] at atHash
      rw [← isAt_eq atIndex] at isMatch
      rcases indexes.exists_found atHash isMatch with ⟨found, result⟩
      exact absurd result (missing found)
  cases result : search hashed.buckets (isAt types hashed.entries key) (hashOf types key) with
  | found index =>
    have isMatch := (indexes.found result).1
    rw [isAt] at isMatch
    split at isMatch
    · next entry atIndex => exact ⟨entry, atIndex, isMatch⟩
    · cases isMatch
  | vacant slot | exhausted => exact absent fun index found => by cases result.symm.trans found

section

variable (refines : Refines types keys object content) (keyIn : key ∈ keys)
include refines keyIn

theorem Refines.mapFind_eq :
    ∃ found, mapFind types object key = .ok found ∧ Located types object.entries key found := by
  cases object with
  | map items | mapManaged items => exact ⟨_, rfl, located_mapFindLinear types items key⟩
  | mapHashed hashed =>
    rcases refines.accessible with ⟨agree, ⟨noBuckets, noEntries⟩ | ⟨indexes, _⟩⟩
    · refine ⟨none, ?_, ?_⟩
      · rw [mapFind, mapFindHashedIndex, noBuckets, length_nil, if_pos rfl]
        rfl
      · intro index entry atIndex
        rw [MapObject.entries, noEntries] at atIndex
        cases atIndex
    · have someBuckets : hashed.buckets.length ≠ 0 := by
        have positive := indexes.size.length_pos
        omega
      have located := located_search agree refines.represents indexes keyIn
      refine ⟨_, ?_, located⟩
      rw [mapFind, mapFindHashedIndex, if_neg someBuckets, agree.hashOrTrap_eq keyIn]
      simp only [bind, Except.bind]
      cases search hashed.buckets (isAt types hashed.entries key) (hashOf types key) <;> rfl

theorem Refines.mapGet_eq : mapGet types object key = .ok (content key) := by
  rcases refines.mapFind_eq keyIn with ⟨found, result, located⟩
  rw [mapGet, result]
  cases found with
  | some index =>
    rcases located with ⟨entry, atIndex, isMatch⟩
    simp only [bind, Except.bind, atIndex, map_some]
    rw [refines.represents.eq_some keyIn atIndex isMatch]
    rfl
  | none =>
    rw [refines.represents.eq_none keyIn located]
    rfl

theorem Refines.mapHas_eq : mapHas types object key = .ok (content key).isSome := by
  rcases refines.mapFind_eq keyIn with ⟨found, result, located⟩
  rw [mapHas, result]
  cases found with
  | some index =>
    rcases located with ⟨entry, atIndex, isMatch⟩
    rw [refines.represents.eq_some keyIn atIndex isMatch]
    rfl
  | none =>
    rw [refines.represents.eq_none keyIn located]
    rfl

end

theorem raise_power (number fuel : ℕ) {power : ℕ} (isPower : ∃ exponent, power = 2 ^ exponent) :
    ∃ exponent, raise number fuel power = 2 ^ exponent := by
  induction fuel generalizing power with
  | zero => exact isPower
  | succ fuel ih =>
    rw [raise]
    split
    · rcases isPower with ⟨exponent, powerEq⟩
      exact ih ⟨exponent + 1, by rw [powerEq, pow_succ]⟩
    · exact isPower

theorem le_raise {number fuel power : ℕ} (enough : number ≤ power * 2 ^ fuel) :
    number ≤ raise number fuel power := by
  induction fuel generalizing power with
  | zero => rwa [pow_zero, mul_one] at enough
  | succ fuel ih =>
    rw [raise]
    split
    · apply ih
      rwa [mul_assoc, ← pow_succ']
    · omega

theorem mapBucketsForCount_power (count : ℕ) :
    ∃ exponent, mapBucketsForCount count = 2 ^ exponent :=
  raise_power _ _ ⟨0, rfl⟩

theorem lt_mapBucketsForCount (count : ℕ) : count + 1 < mapBucketsForCount count := by
  have large (number : ℕ) : number ≤ raise number number 1 := by
    apply le_raise
    rw [one_mul]
    exact number.lt_two_pow_self.le
  rw [mapBucketsForCount]
  split
  · have atLeast := large 8
    omega
  · have atLeast := large (count * 2)
    omega

/-- The buckets of the first entries lead to them, and the rest follow. -/
theorem placeEntries_eq (agree : AgreeOn types keys) {entries : List MapEntry}
    (represents : Represents (mapKeyEquals types) keys entries content) {rest : List MapEntry}
    {count : ℕ} {buckets : List (Option ℕ)} (split : entries.drop count = rest)
    (indexes : Indexes (hashesOf types (entries.take count)) buckets)
    (countLe : count ≤ entries.length) (room : entries.length ≤ buckets.length) :
    ∃ placed, placeEntries types entries rest count buckets = .ok placed ∧
      placed.length = buckets.length ∧ Indexes (hashesOf types entries) placed := by
  induction rest generalizing count buckets with
  | nil =>
    have all := drop_eq_nil_iff.mp split
    rw [take_of_length_le all] at indexes
    exact ⟨buckets, rfl, rfl, indexes⟩
  | cons entry rest ih =>
    have countLt : count < entries.length := by
      rcases Nat.lt_or_ge count entries.length with inRange | beyond
      · exact inRange
      · rw [drop_eq_nil_iff.mpr beyond] at split
        cases split
    rw [drop_eq_getElem_cons countLt] at split
    rcases List.cons.inj split with ⟨entryEq, restEq⟩
    have atCount : entries[count]? = some entry := by
      rw [List.getElem?_eq_getElem countLt, entryEq]
    have entryIn := represents.known_getElem? atCount
    have lengthTake : (hashesOf types (entries.take count)).length = count := by
      rw [length_hashesOf, length_take, Nat.min_eq_left countLe]
    have absent : ∀ index < (hashesOf types (entries.take count)).length,
        isAt types entries entry.key index = false := by
      intro index indexLt
      rw [lengthTake] at indexLt
      have atIndex : entries[index]? = some entries[index] := List.getElem?_eq_getElem (by omega)
      rw [isAt_eq atIndex]
      cases related : mapKeyEquals types entries[index].key entry.key with
      | false => rfl
      | true =>
        have same := represents.distinct atIndex atCount related
        omega
    have placed := indexes.place (by omega) (hashOf types entry.key) absent
    have next : hashesOf types (entries.take count) ++ [hashOf types entry.key] =
        hashesOf types (entries.take (count + 1)) := by
      rw [take_add_one, atCount, hashesOf, hashesOf, map_append]
      rfl
    rw [next, lengthTake] at placed
    rw [placeEntries, agree.hashOrTrap_eq entryIn]
    rcases ih restEq placed (by omega) (by rwa [Tables.length_place]) with
      ⟨result, resultEq, resultLength, resultIndexes⟩
    exact ⟨result, resultEq, by rw [resultLength, Tables.length_place], resultIndexes⟩

theorem mapBuildHashedBuckets_eq (agree : AgreeOn types keys) {entries : List MapEntry}
    (represents : Represents (mapKeyEquals types) keys entries content) {size : ℕ}
    (power : ∃ exponent, size = 2 ^ exponent) (room : entries.length ≤ size) :
    ∃ buckets, mapBuildHashedBuckets types entries size = .ok buckets ∧ buckets.length = size ∧
      Indexes (hashesOf types entries) buckets := by
  have positive : size ≠ 0 := by
    rcases power with ⟨exponent, sizeEq⟩
    rw [sizeEq]
    exact (Nat.two_pow_pos exponent).ne'
  rw [mapBuildHashedBuckets, if_neg positive]
  have length : (List.replicate size (none : Option ℕ)).length = size := length_replicate
  have start : Indexes (hashesOf types (entries.take 0)) (List.replicate size none) :=
    Tables.indexes_nil power
  rcases placeEntries_eq agree represents drop_zero start (Nat.zero_le _)
      (by rwa [length]) with ⟨buckets, built, sameLength, indexes⟩
  exact ⟨buckets, built, by rw [sameLength, length], indexes⟩

theorem insertHashed_found {hash index : ℕ} {held : MapEntry}
    (isHash : hashOrTrap types key = .ok hash)
    (result : search hashed.buckets (isAt types hashed.entries key) hash = .found index)
    (atIndex : hashed.entries[index]? = some held) :
    insertHashed types hashed key value =
      (.ok (), .mapHashed ⟨hashed.entries.set index ⟨held.key, value⟩, hashed.capacity,
        hashed.buckets⟩) := by
  rw [insertHashed, isHash]
  simp only [result, atIndex]

theorem insertHashed_vacant {hash slot : ℕ} (isHash : hashOrTrap types key = .ok hash)
    (result : search hashed.buckets (isAt types hashed.entries key) hash = .vacant slot) :
    insertHashed types hashed key value =
      (.ok (), .mapHashed ⟨hashed.entries ++ [⟨key, value⟩], hashed.capacity,
        hashed.buckets.set slot (some hashed.entries.length)⟩) := by
  rw [insertHashed, isHash]
  simp only [result]

theorem hashesOf_set {entries : List MapEntry} {index : ℕ} {held : MapEntry}
    (atIndex : entries[index]? = some held) :
    hashesOf types (entries.set index ⟨held.key, value⟩) = hashesOf types entries := by
  apply ext_getElem?
  intro other
  rw [hashesOf, hashesOf, map_set, List.getElem?_set]
  split
  · next isIndex =>
      rw [← isIndex, List.getElem?_map, atIndex, map_some, length_map,
        if_pos (List.getElem?_eq_some_iff.mp atIndex).1]
  · rfl

/-- A table with enough buckets takes the entry. -/
theorem insertHashed_refines (equivalence : EquivalenceOn (mapKeyEquals types) keys)
    (agree : AgreeOn types keys)
    (represents : Represents (mapKeyEquals types) keys hashed.entries content)
    (indexes : Indexes (hashesOf types hashed.entries) hashed.buckets)
    (room : hashed.entries.length + 1 < hashed.buckets.length) (keyIn : key ∈ keys)
    (value : Value) :
    ∃ after, insertHashed types hashed key value = (.ok (), after) ∧
      Refines types keys after (write (mapKeyEquals types) content key value) := by
  have isHash := agree.hashOrTrap_eq keyIn
  have located := located_search agree represents indexes keyIn
  have lengthEq := length_hashesOf types hashed.entries
  cases result : search hashed.buckets (isAt types hashed.entries key) (hashOf types key) with
  | exhausted => exact absurd result (indexes.search_ne_exhausted (by omega))
  | found index =>
    rw [result] at located
    rcases located with ⟨held, atIndex, isMatch⟩
    have updated := represents.update equivalence keyIn atIndex isMatch value
    refine ⟨_, insertHashed_found isHash result atIndex, updated, agree, .inr ⟨?_, ?_⟩⟩
    · rwa [hashesOf_set atIndex]
    · change (hashed.entries.set index _).length < hashed.buckets.length
      rw [length_set]
      omega
  | vacant slot =>
    rw [result] at located
    have absent : ∀ index < (hashesOf types hashed.entries).length,
        isAt types hashed.entries key index = false := by
      intro index indexLt
      rw [lengthEq] at indexLt
      have atIndex := List.getElem?_eq_getElem indexLt
      rw [isAt_eq atIndex]
      exact located index _ atIndex
    rcases indexes.vacant (by omega) (hashOf types key) absent with
      ⟨slot', result', placed⟩
    cases result.symm.trans result'
    refine ⟨_, insertHashed_vacant isHash result,
      represents.append equivalence keyIn located value, agree, .inr ⟨?_, ?_⟩⟩
    · rw [lengthEq] at placed
      have next : hashesOf types (hashed.entries ++ [⟨key, value⟩]) =
          hashesOf types hashed.entries ++ [hashOf types key] := by
        rw [hashesOf, hashesOf, map_append]
        rfl
      rwa [next]
    · rw [length_append, length_singleton, length_set]
      omega

theorem lt_grownCapacity (hashed : MapHashed) : hashed.entries.length < grownCapacity hashed := by
  unfold grownCapacity
  simp only
  split <;> split <;> omega

/-- What an insertion into a map can end with, when it is not out of memory for the buckets. -/
def InsertsOrKeeps (types : Types) (keys : Set Value) (object : MapObject)
    (content : Value → Option Value) (key value : Value) :
    Except Failure Unit × MapObject → Prop
  | (.ok _, after) => Refines types keys after (write (mapKeyEquals types) content key value)
  | (.error _, after) => after = object

theorem mapInsertHashed_refines (equivalence : EquivalenceOn (mapKeyEquals types) keys)
    (refines : Refines types keys (.mapHashed hashed) content) (keyIn : key ∈ keys)
    (supply : Supply) (value : Value) :
    InsertsOrKeeps types keys (.mapHashed hashed) content key value
        (mapInsertHashed types supply hashed key value) ∨
      (mustGrow hashed = true ∧ 0 < supply.tempRoots ∧ supply.failsForBuckets ∧
        mapInsertHashed types supply hashed key value =
          (.error .outOfMemory, .mapHashed (withoutBuckets hashed))) := by
  rcases refines.accessible with ⟨agree, indexed⟩
  have represents := refines.represents
  rw [mapInsertHashed]
  split
  · next grows =>
      split
      · exact .inl rfl
      · next roots =>
          split
          · exact .inl rfl
          · next someEntries =>
              split
              · next noBuckets =>
                  exact .inr ⟨grows, by omega,
                    ⟨Bool.eq_true_of_not_eq_false someEntries, noBuckets⟩, rfl⟩
              · have room := lt_mapBucketsForCount (grownCapacity hashed)
                have capacity := lt_grownCapacity hashed
                have entriesEq : (MapObject.mapHashed hashed).entries = hashed.entries := rfl
                rcases mapBuildHashedBuckets_eq agree represents
                    (mapBucketsForCount_power (grownCapacity hashed))
                    (by rw [entriesEq]; omega) with ⟨buckets, built, length, indexes⟩
                rw [entriesEq] at built
                rw [built]
                let grown : MapHashed := { withoutBuckets hashed with buckets := buckets }
                have wider : grown.entries.length + 1 < grown.buckets.length := by
                  change hashed.entries.length + 1 < buckets.length
                  omega
                have held : Represents (mapKeyEquals types) keys grown.entries content := represents
                have reached : Indexes (hashesOf types grown.entries) grown.buckets := indexes
                rcases insertHashed_refines equivalence agree held reached wider keyIn value
                  with ⟨after, inserted, result⟩
                left
                change InsertsOrKeeps types keys _ content key value
                  (insertHashed types grown key value)
                rw [inserted]
                exact result
  · next stays =>
      simp only [mustGrow, Bool.or_eq_true, decide_eq_true_eq, not_or] at stays
      rcases stays with ⟨⟨someBuckets, _⟩, sparse⟩
      rcases indexed with ⟨noBuckets, _⟩ | ⟨indexes, _⟩
      · rw [noBuckets] at someBuckets
        exact absurd rfl someBuckets
      · rcases insertHashed_refines equivalence agree represents indexes (by omega) keyIn value
          with ⟨after, inserted, result⟩
        left
        rw [inserted]
        exact result

theorem mapSetLinear_refines (equivalence : EquivalenceOn (mapKeyEquals types) keys)
    (refines : Refines types keys object content)
    (linear : ∀ hashed, object ≠ .mapHashed hashed) (keyIn : key ∈ keys)
    (agree : 8 ≤ object.entries.length → AgreeOn types keys) (supply : Supply)
    (inPlace : mapFindLinear types object.entries key = none → 8 ≤ object.entries.length →
      supply.moved = none) (value : Value) :
    InsertsOrKeeps types keys object content key value
        (mapSetLinear types supply object key value) ∨
      (mapFindLinear types object.entries key = none ∧ 8 ≤ object.entries.length ∧
        0 < supply.tempRoots ∧ supply.failsForBuckets) := by
  have located := located_mapFindLinear types object.entries key
  have represents := refines.represents
  cases found : mapFindLinear types object.entries key with
  | some index =>
    rw [found] at located
    rcases located with ⟨held, atIndex, isMatch⟩
    have updated := represents.update equivalence keyIn atIndex isMatch value
    left
    rw [mapSetLinear, found]
    simp only [atIndex]
    cases object with
    | map _ | mapManaged _ => exact ⟨updated, trivial⟩
    | mapHashed hashed => exact absurd rfl (linear hashed)
  | none =>
    rw [found] at located
    have appended := represents.append equivalence keyIn located value
    rw [mapSetLinear, found]
    simp only
    split
    · exact .inl rfl
    · next roots =>
        split
        · exact .inl rfl
        · next someEntries =>
            rw [promote, length_append, length_singleton]
            split
            · exact .inl ⟨appended, trivial⟩
            · next long =>
                split
                · next noBuckets =>
                    exact .inr ⟨trivial, by omega, by omega,
                      ⟨Bool.eq_true_of_not_eq_false someEntries, noBuckets⟩⟩
                · have unmoved := inPlace found (by omega)
                  have agreeing := agree (by omega)
                  have room := lt_mapBucketsForCount (object.entries.length + 1)
                  rcases mapBuildHashedBuckets_eq agreeing appended
                      (mapBucketsForCount_power (object.entries.length + 1))
                      (by rw [length_append, length_singleton]; omega) with
                    ⟨buckets, built, length, indexes⟩
                  have vacancy :
                      (object.entries ++ ([⟨key, value⟩] : List MapEntry)).length <
                        buckets.length := by
                    rw [length_append, length_singleton]
                    omega
                  have refined : Refines types keys
                      (.mapHashed ⟨object.entries ++ [⟨key, value⟩], object.entries.length + 1,
                        buckets⟩) (write (mapKeyEquals types) content key value) :=
                    ⟨appended, agreeing, .inr ⟨indexes, vacancy⟩⟩
                  simp only [Supply.stale, unmoved, built]
                  exact .inl refined

theorem Refines.entries_eq_nil (refines : Refines types keys object content)
    (equivalence : EquivalenceOn (mapKeyEquals types) keys)
    (absent : ∀ key, mapHas types object key ≠ .ok true) : object.entries = [] := by
  cases first : object.entries with
  | nil => rfl
  | cons entry rest =>
    have atFirst : object.entries[0]? = some entry := by rw [first]; rfl
    have entryIn := refines.represents.known_getElem? atFirst
    have found := refines.represents.eq_some entryIn atFirst (equivalence.refl entryIn)
    have isThere := refines.mapHas_eq entryIn
    rw [found] at isThere
    exact absurd isThere (absent entry.key)

/-- What an insertion leaves stands for the finite map with the write, or without it. -/
def SetRefines (types : Types) (keys : Set Value) (content : Value → Option Value)
    (key value : Value) : Except Failure Unit × MapObject → Prop
  | (.ok _, after) => Refines types keys after (write (mapKeyEquals types) content key value)
  | (.error _, after) => Refines types keys after content

theorem InsertsOrKeeps.setRefines (refines : Refines types keys object content)
    {result : Except Failure Unit × MapObject}
    (inserts : InsertsOrKeeps types keys object content key value result) :
    SetRefines types keys content key value result := by
  rcases result with ⟨outcome, after⟩
  cases outcome with
  | ok _ => exact inserts
  | error _ =>
    cases inserts
    exact refines

section

variable (equivalence : EquivalenceOn (mapKeyEquals types) keys)
include equivalence

section

variable (refines : Refines types keys object content)
include refines

theorem mapSet_refines (supply : Supply) (keyIn : key ∈ keys)
    (agree : 8 ≤ object.entries.length → AgreeOn types keys)
    (safely : SetsSafely types supply object key)
    (inPlace : PromotesInPlace types supply object key) (value : Value) :
    SetRefines types keys content key value (mapSet types supply object key value) := by
  have promotesSafely (items : List MapEntry) (absent : mapFindLinear types items key = none)
      (covered : ∀ asked, mapKeyEquals types key asked = true →
        (mapFindLinear types items asked).isSome) : False := by
    have isSome := covered key (equivalence.refl keyIn)
    rw [absent] at isSome
    cases isSome
  rw [mapSet]
  split
  · exact refines
  · next enough =>
      have safelyNow := safely (by omega)
      cases object with
      | map items | mapManaged items =>
        rcases mapSetLinear_refines equivalence refines
            (fun _ => MapObject.noConfusion) keyIn agree supply.afterRoots inPlace value with
          inserts | ⟨absent, long, roots, fails⟩
        · exact inserts.setRefines refines
        · exact absurd (safelyNow absent long roots fails) (promotesSafely items absent)
      | mapHashed hashed =>
        rcases mapInsertHashed_refines equivalence refines keyIn supply.afterRoots
            value with inserts | ⟨grows, roots, fails, result⟩
        · exact inserts.setRefines refines
        · have noEntries := refines.entries_eq_nil equivalence (safelyNow grows roots fails)
          change SetRefines types keys content key value
            (mapInsertHashed types supply.afterRoots hashed key value)
          rw [result]
          exact ⟨refines.represents, refines.accessible.1, .inl ⟨rfl, noEntries⟩⟩

theorem mapDelete_refines (keyIn : key ∈ keys) :
    ∃ after, mapDelete types object key = (.ok ((content key).getD .null), after) ∧
      Refines types keys after (erase (mapKeyEquals types) content key) := by
  rcases refines.mapFind_eq keyIn with ⟨found, result, located⟩
  have represents := refines.represents
  cases found with
  | none =>
    refine ⟨object, ?_, represents.erase_absent equivalence keyIn located, refines.accessible⟩
    rw [mapDelete, result, represents.eq_none keyIn located]
    rfl
  | some index =>
    rcases located with ⟨held, atIndex, isMatch⟩
    have removed := represents.swapRemove equivalence keyIn atIndex isMatch
    have value := represents.eq_some keyIn atIndex isMatch
    cases object with
    | map items =>
      refine ⟨_, ?_, (⟨removed, trivial⟩ : Refines types keys (.map _) _)⟩
      rw [mapDelete, result, value]
      simp only [atIndex]
      rfl
    | mapManaged items =>
      refine ⟨_, ?_, (⟨removed, trivial⟩ : Refines types keys (.mapManaged _) _)⟩
      rw [mapDelete, result, value]
      simp only [atIndex]
      rfl
    | mapHashed hashed =>
      change hashed.entries[index]? = some held at atIndex
      have inRange := (List.getElem?_eq_some_iff.mp atIndex).1
      rcases refines.accessible with ⟨agree, ⟨_, noEntries⟩ | ⟨indexes, room⟩⟩
      · change hashed.entries = [] at noEntries
        rw [noEntries] at inRange
        cases inRange
      · have shorter : (swapRemove hashed.entries index).length < hashed.entries.length :=
          Tables.length_swapRemove_lt inRange
        rcases mapBuildHashedBuckets_eq agree removed indexes.size
            (by change (swapRemove hashed.entries index).length ≤ _; omega) with
          ⟨buckets, built, length, reached⟩
        change mapBuildHashedBuckets types (swapRemove hashed.entries index) _ = _ at built
        refine ⟨.mapHashed ⟨swapRemove hashed.entries index, hashed.capacity, buckets⟩, ?_,
          removed, agree, .inr ⟨reached, ?_⟩⟩
        · rw [mapDelete, result, value]
          simp only [atIndex, MapObject.entries, built]
          rfl
        · change (swapRemove hashed.entries index).length < buckets.length
          omega

theorem Refines.behaves : Behaves types keys object content where
  distinct := by
    rw [pairwise_iff_getElem]
    intro index later indexLt laterLt before
    cases related : mapKeyEquals types object.entries[index].key object.entries[later].key with
    | false => rfl
    | true =>
      have same := refines.represents.distinct (List.getElem?_eq_getElem indexLt)
        (List.getElem?_eq_getElem laterLt) related
      omega
  get := fun _ keyIn => refines.mapGet_eq keyIn
  has := fun _ keyIn => refines.mapHas_eq keyIn
  delete := by
    intro key keyIn
    rcases mapDelete_refines equivalence refines keyIn with ⟨after, result, _⟩
    rw [result]

end

/-- The entries of a literal with different keys are the last writes to them. -/
theorem represents_literal {entries : List MapEntry} (meets : LiteralMeets types keys entries) :
    Represents (mapKeyEquals types) keys entries (literalContent types entries) := by
  rcases meets with ⟨known, distinct, _⟩
  induction entries using List.reverseRecOn with
  | nil => exact Represents.nil
  | append_singleton earlier entry ih =>
    rw [pairwise_append] at distinct
    have before := ih (fun other otherIn => known other (mem_append_left _ otherIn)) distinct.1
    have entryIn := known entry (mem_append_right _ (mem_singleton_self entry))
    rw [literalContent, foldl_append]
    apply before.append equivalence entryIn
    intro index other atIndex
    exact distinct.2.2 other (mem_of_getElem? atIndex) entry (mem_singleton_self entry)

theorem buildMap_refines {entries : List MapEntry} (meets : LiteralMeets types keys entries)
    (built : buildMap types entries = .ok object) :
    Refines types keys object (literalContent types entries) := by
  have represents := represents_literal equivalence meets
  have room := lt_mapBucketsForCount entries.length
  rcases mapBuildHashedBuckets_eq meets.agree represents
      (mapBucketsForCount_power entries.length) (by omega) with ⟨buckets, done, length, indexes⟩
  rw [buildMap, done] at built
  cases built
  exact ⟨represents, meets.agree, .inr ⟨indexes, by simp only; omega⟩⟩

theorem Run.refines (run : Run types (LiteralMeets types keys) (Meets types keys) object content) :
    Refines types keys object content := by
  induction run with
  | literal meets built => exact buildMap_refines equivalence meets built
  | empty => exact ⟨Represents.nil, trivial⟩
  | @set object after content supply key value _ meets done refines
  | @setFails object after content supply key value _ _ meets done refines =>
    rcases meets with ⟨keyIn, agree, safely, inPlace⟩
    have result := mapSet_refines equivalence refines supply keyIn agree safely inPlace value
    rw [done] at result
    exact result
  | delete _ keyIn done refines =>
    rcases mapDelete_refines equivalence refines keyIn with ⟨after, result, left⟩
    rw [done] at result
    cases result
    exact left

end

/-- In every run whose steps meet the condition, the map behaves as the finite map. -/
theorem behaves_of_run (types : Types) (keys : Set Value)
    (equivalence : EquivalenceOn (mapKeyEquals types) keys) (object : MapObject)
    (content : Value → Option Value)
    (run : Run types (LiteralMeets types keys) (Meets types keys) object content) :
    Behaves types keys object content :=
  (run.refines equivalence).behaves equivalence

def noTypes : Types :=
  ⟨fun _ => 0, fun _ _ => []⟩

/-- A literal of one entry, and an insertion that makes its table grow. -/
theorem behaves_two :
    Behaves noTypes {.int 1, .int 3}
      (.mapHashed ⟨[⟨.int 1, .int 2⟩, ⟨.int 3, .int 4⟩], 8,
        [none, some 0, none, some 1] ++ List.replicate 12 none⟩)
      (write (mapKeyEquals noTypes) (literalContent noTypes [⟨.int 1, .int 2⟩]) (.int 3)
        (.int 4)) := by
  have agree : AgreeOn noTypes {.int 1, .int 3} := by
    rintro first (rfl | rfl) second (rfl | rfl) <;>
      exact ⟨by decide +kernel, by decide +kernel, by decide +kernel⟩
  have equivalence : EquivalenceOn (mapKeyEquals noTypes) {.int 1, .int 3} := by
    constructor
    · rintro key (rfl | rfl) <;> decide +kernel
    · rintro first second third (rfl | rfl) (rfl | rfl) (rfl | rfl) <;> decide +kernel
  have meets : LiteralMeets noTypes {.int 1, .int 3} [⟨.int 1, .int 2⟩] :=
    ⟨fun entry entryIn => .inl (by rw [mem_singleton.mp entryIn]), pairwise_singleton _ _, agree⟩
  have start : Run noTypes (LiteralMeets noTypes {.int 1, .int 3})
      (Meets noTypes {.int 1, .int 3})
      (.mapHashed ⟨[⟨.int 1, .int 2⟩], 1, [none, some 0] ++ List.replicate 6 none⟩)
      (literalContent noTypes [⟨.int 1, .int 2⟩]) := Run.literal meets rfl
  let supply : Supply := ⟨8, true, true, none⟩
  have condition : Meets noTypes {.int 1, .int 3}
      (.mapHashed ⟨[⟨.int 1, .int 2⟩], 1, [none, some 0] ++ List.replicate 6 none⟩)
      (.set supply (.int 3) (.int 4)) :=
    ⟨.inr rfl, fun _ => agree, fun _ _ _ fails => (Bool.noConfusion fails.2), trivial⟩
  exact behaves_of_run noTypes {.int 1, .int 3} equivalence _ _ (Run.set start condition rfl)

/-- In the map of the literal `{1: 10, 1: 20}` the first value of the key is found. -/
theorem not_behaves :
    ¬∀ (types : Types) (object : MapObject) (content : Value → Option Value),
      Run types (fun _ => True) (fun _ _ => True) object content →
        Behaves types Set.univ object content := by
  intro behaves
  have run : Run noTypes (fun _ => True) (fun _ _ => True)
      (.mapHashed ⟨[⟨.int 1, .int 10⟩, ⟨.int 1, .int 20⟩], 2,
        [none, some 0] ++ List.replicate 6 none⟩)
      (literalContent noTypes [⟨.int 1, .int 10⟩, ⟨.int 1, .int 20⟩]) := .literal trivial rfl
  have found := (behaves noTypes _ _ run).get (.int 1) trivial
  have first : mapGet noTypes
      (.mapHashed ⟨[⟨.int 1, .int 10⟩, ⟨.int 1, .int 20⟩], 2,
        [none, some 0] ++ List.replicate 6 none⟩) (.int 1) = .ok (some (.int 10)) := rfl
  have different : (.ok (some (.int 10)) : Except Failure (Option Value)) =
      .ok (some (.int 20)) := first.symm.trans found
  cases different

end Gengo.Maps
