import Gengo.Arrays.Filter
import Gengo.Sorting.Comparison

/-!
# Sorting arrays

`std.sort.asc`, `std.sort.desc` and `std.sort.by` copy the array and sort the copy in place. Every
item goes down from its position, past those that it is moved past: for the first two that is a
comparison of the two values, for the last one a comparator is called, which is code of the
program.
-/

namespace Gengo.Sorting

open Arrays (World Behaviour Setting callFunction asBool makeArray)
open Maps (Value)
open Orders List

/-- How sorting fails. The message about an answer that says nothing about the order names its
type, as in `comparator must return int, float, or bool, got null`. -/
inductive SortFailure (ε : Type)
  | typeError
  | raised (error : ε)
  | noOrder (answer : Value)
  | outOfMemory
  | outOfBounds

/-- Whether an item is moved up to make room for another one, and what has happened when that is
known. -/
abbrev Past (σ ε : Type) :=
  Value → Value → σ → Except (SortFailure ε) Bool × σ

section

variable {σ ε : Type}

/-- The inner loop: items are moved up until the key has a place. -/
def shiftDown (past : Past σ ε) (key : Value) :
    ℕ → List Value → σ → Except (SortFailure ε) (List Value) × σ
  | 0, items, state => (.ok (items.set 0 key), state)
  | j + 1, items, state =>
    match items[j]? with
    | none => (.error .outOfBounds, state)
    | some prev =>
      match past prev key state with
      | (.error failure, after) => (.error failure, after)
      | (.ok true, after) => shiftDown past key j (items.set (j + 1) prev) after
      | (.ok false, after) => (.ok (items.set (j + 1) key), after)

/-- The outer loop, over the positions of the keys. -/
def insertKeys (past : Past σ ε) :
    List ℕ → List Value → σ → Except (SortFailure ε) (List Value) × σ
  | [], items, state => (.ok items, state)
  | i :: indices, items, state =>
    match items[i]? with
    | none => (.error .outOfBounds, state)
    | some key =>
      match shiftDown past key i items state with
      | (.error failure, after) => (.error failure, after)
      | (.ok shifted, after) => insertKeys past indices shifted after

/-- The world with a new array. -/
def pushArray (world : World σ) (items : List Value) : World σ where
  memory := (makeArray world.memory true items true).2
  sound := (Arrays.follows_step world.sound ⟨.make true items, true⟩ :
    Arrays.Follows _ _ (Arrays.step ⟨.null, 0⟩ _ _)).sound world.sound
  rest := world.rest

/-- What the three functions have in common. The copy is asked for before anything is compared;
it is out of reach of the comparator until it is pushed, so it is kept beside the memory. -/
def sortWith (past : Past (World σ) ε) (world : World σ) (array : ℕ) (served : Bool) :
    Except (SortFailure ε) ℕ × World σ :=
  if world.memory.objects.length ≤ array then
    (.error .typeError, world)
  else if served then
    let items := world.memory.items array
    match insertKeys past (List.range' 1 (items.length - 1)) items world with
    | (.error failure, after) => (.error failure, after)
    | (.ok sorted, after) => (.ok after.memory.objects.length, pushArray after sorted)
  else
    (.error .outOfMemory, world)

/-- An item that is moved past, by a comparison of the values. -/
def pastBy (shift : Value → Value → Bool) : Past (World σ) ε :=
  fun prev key world => (.ok (shift prev key), world)

/-- `sort_asc`. -/
def sortAsc (world : World σ) (array : ℕ) (served : Bool) : Except (SortFailure ε) ℕ × World σ :=
  sortWith (pastBy valueGreaterThan) world array served

/-- `sort_desc`. -/
def sortDesc (world : World σ) (array : ℕ) (served : Bool) : Except (SortFailure ε) ℕ × World σ :=
  sortWith (pastBy valueLessThan) world array served

/-- What an answer of a comparator says: the first argument is less than the second one. -/
def readsLess : Value → Option Bool
  | .int value => some (value < 0)
  | .float bits => some (floatLess bits 0)
  | answer => asBool answer

/-- A call of the comparator. Only an item that is less than the key is not moved. -/
def pastComparator (setting : Setting Value) (comparator : Value → Behaviour σ ε) :
    Past (World σ) ε :=
  fun prev key world =>
    let called := callFunction setting (comparator prev) key world
    match called.1 with
    | .error error => (.error (.raised error), called.2)
    | .ok answer =>
      match readsLess answer with
      | none => (.error (.noOrder answer), called.2)
      | some less => (.ok !less, called.2)

/-- `sort_by`. -/
def sortBy (setting : Setting Value) (comparator : Value → Behaviour σ ε) (world : World σ)
    (array : ℕ) (served : Bool) : Except (SortFailure ε) ℕ × World σ :=
  sortWith (pastComparator setting comparator) world array served

/-- The states that there may be while items are compared with each other. -/
inductive Reached (past : Past σ ε) (items : List Value) (start : σ) : σ → Prop
  | start : Reached past items start start
  | call {state : σ} {prev key : Value} (reached : Reached past items start state)
      (isPrev : prev ∈ items) (isKey : key ∈ items) :
      Reached past items start (past prev key state).2

/-- However often items have been compared, the answers are those of a relation. -/
def Answers (past : Past σ ε) (shift : Value → Value → Bool) (items : List Value) (start : σ) :
    Prop :=
  ∀ state, Reached past items start state → ∀ prev ∈ items, ∀ key ∈ items,
    (past prev key state).1 = .ok (shift prev key)

variable {past : Past σ ε} {shift : Value → Value → Bool} {items : List Value} {start state : σ}

/-- The inner loop compares items only, and puts nothing else in their place. -/
theorem shiftDown_reached {key : Value} (isKey : key ∈ items) {j : ℕ} {others : List Value}
    (within : ∀ value ∈ others, value ∈ items) (reached : Reached past items start state) :
    Reached past items start (shiftDown past key j others state).2 ∧
      ∀ shifted, (shiftDown past key j others state).1 = .ok shifted →
        ∀ value ∈ shifted, value ∈ items := by
  have set_within : ∀ {position : ℕ} {list : List Value} {other : Value},
      (∀ value ∈ list, value ∈ items) → other ∈ items →
        ∀ value ∈ list.set position other, value ∈ items := by
    intro position list other listWithin isOther value isIn
    rcases mem_or_eq_of_mem_set isIn with inList | rfl
    · exact listWithin value inList
    · exact isOther
  induction j generalizing others state with
  | zero =>
    refine ⟨reached, ?_⟩
    intro shifted gives
    rw [← Except.ok.inj gives]
    exact set_within within isKey
  | succ j ih =>
    unfold shiftDown
    cases found : others[j]? with
    | none => exact ⟨reached, fun _ gives => absurd gives (by simp)⟩
    | some prev =>
      have isPrev := within prev (mem_of_getElem? found)
      have next := Reached.call reached isPrev isKey
      dsimp only
      generalize past prev key state = outcome at next
      rcases outcome with ⟨failure | moves, after⟩
      · exact ⟨next, fun _ gives => absurd gives (by simp)⟩
      · cases moves with
        | true => exact ih (set_within within isPrev) next
        | false =>
          refine ⟨next, ?_⟩
          intro shifted gives
          rw [← Except.ok.inj gives]
          exact set_within within isKey

theorem insertKeys_reached {indices : List ℕ} {others : List Value}
    (within : ∀ value ∈ others, value ∈ items) (reached : Reached past items start state) :
    Reached past items start (insertKeys past indices others state).2 := by
  induction indices generalizing others state with
  | nil => exact reached
  | cons i indices ih =>
    unfold insertKeys
    cases found : others[i]? with
    | none => exact reached
    | some key =>
      have isKey := within key (mem_of_getElem? found)
      have shifts := shiftDown_reached isKey (j := i) within reached
      dsimp only
      generalize shiftDown past key i others state = outcome at shifts
      rcases outcome with ⟨failure | shifted, after⟩
      · exact shifts.1
      · exact ih (shifts.2 shifted rfl) shifts.1

section

variable (answers : Answers past shift items start)
include answers

theorem shiftDown_eq {key : Value} (isKey : key ∈ items) {front back : List Value} {hole : Value}
    (within : ∀ value ∈ front, value ∈ items) (reached : Reached past items start state) :
    (shiftDown past key front.length (front ++ hole :: back) state).1 =
      .ok (insertRight shift front key ++ back) := by
  induction front using List.reverseRecOn generalizing hole back state with
  | nil => rfl
  | append_singleton front prev ih =>
    have isPrev : prev ∈ items := within prev (by simp)
    have fewer : ∀ value ∈ front, value ∈ items :=
      fun value isIn => within value (mem_append_left _ isIn)
    have found : (front ++ [prev] ++ hole :: back)[front.length]? = some prev := by
      simp
    have answer := answers state reached prev isPrev key isKey
    have next := Reached.call reached isPrev isKey
    rw [length_append, length_singleton, shiftDown, found]
    dsimp only
    generalize past prev key state = outcome at answer next
    rcases outcome with ⟨_, after⟩
    obtain rfl := answer
    cases shifted : shift prev key with
    | true =>
      have moved : (front ++ [prev] ++ hole :: back).set (front.length + 1) prev =
          front ++ prev :: prev :: back := by
        simp
      rw [moved, ih fewer next]
      simp [insertRight, rdropWhile_concat_pos, rtakeWhile_concat_pos, shifted]
    | false =>
      have placed : (front ++ [prev] ++ hole :: back).set (front.length + 1) key =
          front ++ prev :: key :: back := by
        simp
      rw [placed]
      simp [insertRight, rdropWhile_concat_neg, rtakeWhile_concat_neg, shifted]

theorem insertKeys_eq {k m : ℕ} (whole : k + m = items.length)
    (reached : Reached past items start state) :
    (insertKeys past (List.range' k m) (insertAll shift (items.take k) ++ items.drop k) state).1 =
      .ok (insertAll shift items) := by
  induction m generalizing k state with
  | zero =>
    have done : items.length ≤ k := Nat.le_of_eq whole.symm
    rw [take_of_length_le done, drop_of_length_le done, append_nil]
    rfl
  | succ m ih =>
    have inRange : k < items.length := by
      omega
    have isKey : items[k] ∈ items := getElem_mem inRange
    have length : (insertAll shift (items.take k)).length = k := by
      rw [(perm_insertAll _).length_eq, length_take_of_le inRange.le]
    have within : ∀ value ∈ insertAll shift (items.take k), value ∈ items :=
      fun value isIn => mem_of_mem_take ((perm_insertAll _).subset isIn)
    have allWithin : ∀ value ∈ insertAll shift (items.take k) ++ items[k] :: items.drop (k + 1),
        value ∈ items := by
      rw [← drop_eq_getElem_cons inRange]
      intro value isIn
      exact (mem_append.1 isIn).elim (within value) mem_of_mem_drop
    have found : (insertAll shift (items.take k) ++ items[k] :: items.drop (k + 1))[k]? =
        some items[k] := by
      rw [List.getElem?_append_right length.le, length, Nat.sub_self]
      rfl
    have shifted : (shiftDown past items[k] (insertAll shift (items.take k)).length
        (insertAll shift (items.take k) ++ items[k] :: items.drop (k + 1)) state).1 =
        .ok (insertRight shift (insertAll shift (items.take k)) items[k] ++ items.drop (k + 1)) :=
      shiftDown_eq answers isKey within reached
    have next := (shiftDown_reached isKey (j := k) allWithin reached).1
    have inserted : insertRight shift (insertAll shift (items.take k)) items[k] =
        insertAll shift (items.take (k + 1)) := by
      rw [take_succ_eq_append_getElem inRange, insertAll, insertAll, foldl_concat]
    rw [drop_eq_getElem_cons inRange, List.range'_succ, insertKeys, found]
    rw [length, inserted] at shifted
    dsimp only
    generalize shiftDown past items[k] k _ state = outcome at shifted next
    rcases outcome with ⟨_, after⟩
    obtain rfl := shifted
    exact ih (by omega) next

theorem insertKeys_range' :
    (insertKeys past (List.range' 1 (items.length - 1)) items start).1 =
      .ok (insertAll shift items) := by
  cases items with
  | nil => rfl
  | cons head tail =>
    have whole : 1 + tail.length = (head :: tail).length := by
      rw [length_cons, Nat.add_comm]
    exact insertKeys_eq answers whole .start

end

section

variable {past : Past (World σ) ε} {world : World σ} {array : ℕ} {served : Bool}
  {before : Value → Value → Prop}

theorem items_pushArray (values : List Value) {other : ℕ}
    (exists_ : other < world.memory.objects.length) :
    (pushArray world values).memory.items other = world.memory.items other := by
  have taken := Arrays.items_take_of_lt world.sound values exists_
  rw [← taken]
  exact Arrays.items_push_of_lt _ exists_

theorem items_pushArray_length (values : List Value) :
    (pushArray world values).memory.items world.memory.objects.length = values := by
  have written : ((world.memory.write world.memory.used (values ++ [])).read
      ⟨world.memory.used, values.length⟩) = values :=
    Arrays.Memory.read_write values []
  rw [append_nil] at written
  have pushed : (pushArray world values).memory.items world.memory.objects.length =
      (world.memory.take values).read ⟨world.memory.used, values.length⟩ :=
    Arrays.items_push_length _
  exact pushed.trans written

/-- Unless memory runs out there is a new array, in which the items are stably ordered. -/
def Sorts (before : Value → Value → Prop) (items : List Value)
    (outcome : Except (SortFailure ε) ℕ × World σ) : Prop :=
  outcome.1 = .error .outOfMemory ∨
    ∃ result, outcome.1 = .ok result ∧ StablyOrdered before items (outcome.2.memory.items result)

/-- Sorting changes no array. Where code of the program is called, all are as it leaves them. -/
theorem items_sortWith (past : Past (World σ) ε) (world : World σ) (array : ℕ) (served : Bool) :
    ∃ after, Reached past (world.memory.items array) world after ∧
      ∀ other < after.memory.objects.length,
        (sortWith past world array served).2.memory.items other = after.memory.items other := by
  unfold sortWith
  split
  · exact ⟨world, .start, fun _ _ => rfl⟩
  · cases served with
    | false => exact ⟨world, .start, fun _ _ => rfl⟩
    | true =>
      have reached : Reached past (world.memory.items array) world (insertKeys past
          (List.range' 1 ((world.memory.items array).length - 1)) (world.memory.items array)
          world).2 :=
        insertKeys_reached (fun _ isIn => isIn) .start
      dsimp only
      generalize insertKeys past _ _ world = outcome at reached
      rcases outcome with ⟨failure | sorted, after⟩
      · exact ⟨after, reached, fun _ _ => rfl⟩
      · exact ⟨after, reached, fun other exists_ => items_pushArray sorted exists_⟩

/-- Where the answers are those of a relation, the items are inserted by it. -/
theorem sortWith_eq (exists_ : array < world.memory.objects.length)
    (answers : Answers past shift (world.memory.items array) world) :
    ∃ after, sortWith past world array true = (.ok after.memory.objects.length,
      pushArray after (insertAll shift (world.memory.items array))) := by
  have sorted := insertKeys_range' answers
  unfold sortWith
  rw [if_neg (Nat.not_le_of_lt exists_), if_pos rfl]
  dsimp only
  generalize insertKeys past _ _ world = outcome at sorted
  rcases outcome with ⟨_, after⟩
  obtain rfl := sorted
  exact ⟨after, rfl⟩

/-- Sorting gives a stable order exactly if inserting the items does. -/
theorem sorts_sortWith_iff (exists_ : array < world.memory.objects.length)
    (answers : Answers past shift (world.memory.items array) world) :
    Sorts before (world.memory.items array) (sortWith past world array served) ↔
      served = false ∨ StablyOrdered before (world.memory.items array)
        (insertAll shift (world.memory.items array)) := by
  cases served with
  | false =>
    have fails : (sortWith past world array false).1 = .error .outOfMemory := by
      simp [sortWith, Nat.not_le_of_lt exists_]
    exact ⟨fun _ => .inl rfl, fun _ => .inl fails⟩
  | true =>
    rcases sortWith_eq exists_ answers with ⟨after, gives⟩
    rw [gives]
    constructor
    · rintro (noMemory | ⟨result, isResult, stably⟩)
      · exact absurd noMemory (by simp)
      · rw [← Except.ok.inj isResult, items_pushArray_length] at stably
        exact .inr stably
    · rintro (noMemory | stably)
      · exact absurd noMemory (by simp)
      · refine .inr ⟨_, rfl, ?_⟩
        rwa [items_pushArray_length]

/-- A comparator that answers as an order does, however often it has been called with the items. -/
def OrdersBy (setting : Setting Value) (comparator : Value → Behaviour σ ε)
    (less : Value → Value → Bool) (items : List Value) (world : World σ) : Prop :=
  ∀ reached, Reached (pastComparator setting comparator) items world reached →
    ∀ x ∈ items, ∀ y ∈ items, ∃ answer, (comparator x).answer y reached = .ok answer ∧
      readsLess answer = some (less x y)

theorem OrdersBy.answers {setting : Setting Value} {comparator : Value → Behaviour σ ε}
    {less : Value → Value → Bool} {items : List Value}
    (ordersBy : OrdersBy setting comparator less items world) :
    Answers (pastComparator setting comparator) (fun x y => !less x y) items world := by
  intro state reached prev isPrev key isKey
  rcases ordersBy state reached prev isPrev key isKey with ⟨answer, answers, reads⟩
  simp only [pastComparator, callFunction, answers, reads]

variable {language : Language} {setting : Setting Value} {comparator : Value → Behaviour σ ε}
  {less : Value → Value → Bool}

section

variable (exists_ : array < world.memory.objects.length)
include exists_

theorem sorts_sortAsc_iff (comparable : (world.memory.items array).Pairwise (Comparable language)) :
    Sorts (Less language) (world.memory.items array)
        (sortAsc world array served : Except (SortFailure ε) ℕ × World σ) ↔
      served = false ∨ TagsAscend language (world.memory.items array) := by
  rw [← stablyOrdered_greater_iff comparable]
  exact sorts_sortWith_iff exists_ fun _ _ _ _ _ _ => rfl

theorem sorts_sortDesc_iff
    (comparable : (world.memory.items array).Pairwise (Comparable language)) :
    Sorts (fun x y => Less language y x) (world.memory.items array)
        (sortDesc world array served : Except (SortFailure ε) ℕ × World σ) ↔
      served = false ∨ TagsDescend language (world.memory.items array) := by
  rw [← stablyOrdered_less_iff comparable]
  exact sorts_sortWith_iff exists_ fun _ _ _ _ _ _ => rfl

theorem sorts_sortBy_iff
    (ordersBy : OrdersBy setting comparator less (world.memory.items array) world)
    (weak : StrictWeak less (world.memory.items array)) :
    Sorts (fun x y => less x y) (world.memory.items array)
        (sortBy setting comparator world array served) ↔
      served = false ∨ ∀ a ∈ world.memory.items array,
        ((world.memory.items array).filter (alike less a)).reverse =
          (world.memory.items array).filter (alike less a) := by
  rw [← stablyOrdered_not_iff weak]
  exact sorts_sortWith_iff exists_ ordersBy.answers

end

theorem items_sortWith_pastBy (shift : Value → Value → Bool) (world : World σ) (array : ℕ)
    (served : Bool) {other : ℕ} (isOther : other < world.memory.objects.length) :
    (sortWith (pastBy shift : Past (World σ) ε) world array served).2.memory.items other =
      world.memory.items other := by
  rcases items_sortWith (pastBy shift : Past (World σ) ε) world array served with
    ⟨after, reached, same⟩
  have unchanged : after = world := by
    clear same
    induction reached with
    | start => rfl
    | call _ _ _ ih => exact ih
  subst unchanged
  exact same other isOther

end

/-- When the sorting functions sort, and what they leave of the arrays. `asc` and `desc` sort what
the operator compares exactly if the tags are ordered as the operator orders the items; integers
alone and floats alone always are. `by` turns items around that the comparator does not separate,
so that they must read the same in both directions. -/
theorem sorts_iff (language : Language) (setting : Setting Value) (world : World σ) (array : ℕ)
    (served : Bool) (exists_ : array < world.memory.objects.length) :
    ((world.memory.items array).Pairwise (Comparable language) →
      (Sorts (Less language) (world.memory.items array)
          (sortAsc world array served : Except (SortFailure ε) ℕ × World σ) ↔
        served = false ∨ TagsAscend language (world.memory.items array)) ∧
      (Sorts (fun x y => Less language y x) (world.memory.items array)
          (sortDesc world array served : Except (SortFailure ε) ℕ × World σ) ↔
        served = false ∨ TagsDescend language (world.memory.items array))) ∧
    (∀ (comparator : Value → Behaviour σ ε) (less : Value → Value → Bool),
      OrdersBy setting comparator less (world.memory.items array) world →
      StrictWeak less (world.memory.items array) →
      (Sorts (fun x y => less x y) (world.memory.items array)
          (sortBy setting comparator world array served) ↔
        served = false ∨ ∀ a ∈ world.memory.items array,
          ((world.memory.items array).filter (alike less a)).reverse =
            (world.memory.items array).filter (alike less a))) ∧
    (∀ other < world.memory.objects.length,
      (sortAsc world array served : Except (SortFailure ε) ℕ × World σ).2.memory.items other =
        world.memory.items other ∧
      (sortDesc world array served : Except (SortFailure ε) ℕ × World σ).2.memory.items other =
        world.memory.items other) ∧
    ∀ comparator : Value → Behaviour σ ε, ∃ after,
      Reached (pastComparator setting comparator) (world.memory.items array) world after ∧
      ∀ other < after.memory.objects.length,
        (sortBy setting comparator world array served).2.memory.items other =
          after.memory.items other := by
  refine ⟨?_, ?_, ?_, ?_⟩
  · intro comparable
    exact ⟨sorts_sortAsc_iff exists_ comparable, sorts_sortDesc_iff exists_ comparable⟩
  · intro comparator less ordersBy weak
    exact sorts_sortBy_iff exists_ ordersBy weak
  · intro other isOther
    exact ⟨items_sortWith_pastBy _ world array served isOther,
      items_sortWith_pastBy _ world array served isOther⟩
  · intro comparator
    exact items_sortWith _ world array served

/-- An array of its own in a world without others. -/
def worldOf (items : List Value) : World Unit :=
  pushArray ⟨.empty Value.null, .empty Value.null, ()⟩ items

variable (items : List Value)

theorem items_worldOf : (worldOf items).memory.items 0 = items :=
  items_pushArray_length items

/-- A program with neither named types nor structs. -/
def Language.plain : Language :=
  ⟨fun _ _ => false, fun _ => false, fun _ _ => none⟩

/-- A comparator that separates nothing. -/
def indifferent : Value → Behaviour Unit Unit :=
  fun _ => ⟨fun _ _ => [], fun _ _ => .ok (.int 0), fun _ world => world.rest⟩

theorem indifferent_ordersBy (world : World Unit) :
    OrdersBy ⟨.null, 0⟩ indifferent (fun _ _ => false) items world :=
  fun _ _ _ _ _ _ => ⟨.int 0, rfl, rfl⟩

theorem strictWeak_false : StrictWeak (fun _ _ => false) items where
  irrefl := by simp
  trans := by simp
  split := by simp

/-- Integers are sorted, also by a comparator that does not separate equal ones. -/
theorem sorts_iff_ints :
    Sorts (Less .plain) [.int 2, .int 1] (sortAsc (worldOf [.int 2, .int 1]) 0 true :
      Except (SortFailure Unit) ℕ × World Unit) ∧
    Sorts (fun _ _ => (false : Prop)) [.int 1, .int 1]
      (sortBy ⟨.null, 0⟩ indifferent (worldOf [.int 1, .int 1]) 0 true) := by
  have exists_ : ∀ items, 0 < (worldOf items).memory.objects.length :=
    fun _ => Nat.one_pos
  have ints := sorts_iff (ε := Unit) .plain ⟨.null, 0⟩ (worldOf [.int 2, .int 1]) 0 true (exists_ _)
  have equals := sorts_iff (ε := Unit) .plain ⟨.null, 0⟩ (worldOf [.int 1, .int 1]) 0 true
    (exists_ _)
  rw [items_worldOf] at ints equals
  constructor
  · exact (ints.1 (by decide)).1.2 (.inr (by simp [TagsAscend, sameNumbers, Less, lessThan]))
  · refine (equals.2.1 indifferent _ (indifferent_ordersBy _ _) (strictWeak_false _)).2 (.inr ?_)
    simp [alike]

/-- The rune `b` stays before the rune `a`, and two integers that a comparator does not separate
are turned around. -/
theorem not_sorts :
    (([.rune 98, .rune 97] : List Value).Pairwise (Comparable .plain) ∧
      ¬Sorts (Less .plain) [.rune 98, .rune 97] (sortAsc (worldOf [.rune 98, .rune 97]) 0 true :
        Except (SortFailure Unit) ℕ × World Unit)) ∧
      ¬Sorts (fun _ _ => (false : Prop)) [.int 1, .int 2]
        (sortBy ⟨.null, 0⟩ indifferent (worldOf [.int 1, .int 2]) 0 true) := by
  have exists_ : ∀ items, 0 < (worldOf items).memory.objects.length :=
    fun _ => Nat.one_pos
  have comparable : ([.rune 98, .rune 97] : List Value).Pairwise (Comparable .plain) := by decide
  have isLess : Less .plain (.rune 97) (.rune 98) := by decide
  refine ⟨⟨comparable, ?_⟩, ?_⟩
  · intro sorts
    rw [← items_worldOf [.rune 98, .rune 97]] at comparable sorts
    rcases (sorts_sortAsc_iff (exists_ _) comparable).1 sorts with noMemory | ascend
    · exact absurd noMemory (by decide)
    · rw [items_worldOf, TagsAscend, pairwise_pair] at ascend
      exact absurd ((ascend.2 rfl).1 isLess) (by decide)
  · intro sorts
    rw [← items_worldOf [.int 1, .int 2]] at sorts
    rcases (sorts_sortBy_iff (exists_ _) (indifferent_ordersBy _ _) (strictWeak_false _)).1 sorts
      with noMemory | same
    · exact absurd noMemory (by decide)
    · rw [items_worldOf] at same
      have turned := same (.int 1) (by simp)
      simp [alike] at turned

end

end Gengo.Sorting
