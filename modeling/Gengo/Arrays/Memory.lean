import Gengo.Blocks.Relocation

/-!
# Arrays in memory

An array object is a slice of memory: of a literal, of a block of its own, of the slice that
another array shows, or of the beginning of a backing block with room for more. The cells of all
slices lie in one memory, so a write through one array is a write to every array that shows the
cell.
-/

namespace Gengo.Arrays

open Blocks List Nat
open Heap (Slice)

/-- The array kinds of `Object`. The backing of a growable array is the slice of an object of its
own, which no other code gets hold of. -/
inductive ArrayObject
  | array (items : Slice)
  | arrayManaged (items : Slice)
  | arrayView (items : Slice) (source : ℕ)
  | arrayCapacity (backing : Slice) (len : ℕ)
  deriving DecidableEq, Repr

/-- `asArraySlice`. -/
def ArrayObject.slice : ArrayObject → Slice
  | .array items => items
  | .arrayManaged items => items
  | .arrayView items _ => items
  | .arrayCapacity backing len => ⟨backing.ptr, len⟩

/-- A cell is one of the elements of the array. -/
def ArrayObject.Shows (object : ArrayObject) (cell : ℕ) : Prop :=
  object.slice.ptr ≤ cell ∧ cell < object.slice.ptr + object.slice.len

/-- The cells up to `used` have been handed out. -/
structure Memory (α : Type) where
  cells : ℕ → α
  used : ℕ
  objects : List ArrayObject

inductive Failure
  | typeError
  | indexOutOfBounds
  | outOfMemory
  deriving DecidableEq, Repr

variable {α : Type}

namespace Memory

/-- The elements that a slice shows. -/
def read (memory : Memory α) (slice : Slice) : List α :=
  elements (fun index => memory.cells (slice.ptr + index)) slice.len

/-- The elements of an array. -/
def items (memory : Memory α) (array : ℕ) : List α :=
  match memory.objects[array]? with
  | some object => memory.read object.slice
  | none => []

/-- `@memcpy` to the cells from `ptr` on. -/
def write (memory : Memory α) (ptr : ℕ) (values : List α) : Memory α :=
  { memory with
    cells := fun cell =>
      if ptr ≤ cell then values[cell - ptr]?.getD (memory.cells cell) else memory.cells cell }

/-- `vmAllocObject`, and what the object is set to. -/
def push (memory : Memory α) (object : ArrayObject) : Memory α :=
  { memory with objects := memory.objects ++ [object] }

/-- `vmAllocManagedSlice`, filled from the beginning. -/
def take (memory : Memory α) (values : List α) : Memory α :=
  { memory.write memory.used values with used := memory.used + values.length }

variable {memory memory' : Memory α} {slice : Slice} {ptr : ℕ} {values : List α}

@[simp]
theorem objects_push (object : ArrayObject) :
    (memory.push object).objects = memory.objects ++ [object] :=
  rfl

@[simp]
theorem read_push (object : ArrayObject) : (memory.push object).read slice = memory.read slice :=
  rfl

@[simp]
theorem length_read : (memory.read slice).length = slice.len :=
  length_elements _ _

theorem cells_write_before {cell : ℕ} (before : cell < ptr) :
    (memory.write ptr values).cells cell = memory.cells cell :=
  if_neg (Nat.not_le_of_lt before)

theorem cells_write_behind {cell : ℕ} (behind : ptr + values.length ≤ cell) :
    (memory.write ptr values).cells cell = memory.cells cell := by
  have outside : values.length ≤ cell - ptr := by
    omega
  simp only [write]
  rw [List.getElem?_eq_none outside, Option.getD_none, ite_self]

theorem cells_write_within {index : ℕ} (within : index < values.length) :
    (memory.write ptr values).cells (ptr + index) = values[index] := by
  simp only [write]
  rw [if_pos (Nat.le_add_right ptr index), Nat.add_sub_cancel_left,
    List.getElem?_eq_getElem within, Option.getD_some]

/-- A slice shows the same elements in two memories that agree on its cells. -/
theorem read_eq_read_iff :
    memory'.read slice = memory.read slice ↔
      ∀ index < slice.len,
        memory'.cells (slice.ptr + index) = memory.cells (slice.ptr + index) := by
  constructor
  · intro same index inRange
    have both := congrArg (·[index]?) same
    simp only [read, getElem?_elements _ inRange] at both
    exact Option.some.inj both
  · intro agree
    apply map_congr_left
    intro index inRange
    exact agree index (mem_range.1 inRange)

theorem read_write_of_outside
    (outside : slice.ptr + slice.len ≤ ptr ∨ ptr + values.length ≤ slice.ptr) :
    (memory.write ptr values).read slice = memory.read slice := by
  apply read_eq_read_iff.2
  intro index inRange
  rcases outside with before | behind
  · exact cells_write_before (by omega)
  · exact cells_write_behind (by omega)

theorem read_write (front back : List α) :
    (memory.write ptr (front ++ back)).read ⟨ptr, front.length⟩ = front := by
  apply ext_getElem
  · exact length_read
  · intro index inRange within
    have covered : index < (front ++ back).length := by
      rw [length_append]
      omega
    have written : (memory.write ptr (front ++ back)).cells (ptr + index) =
        (front ++ back)[index] :=
      cells_write_within covered
    rw [getElem_append_left within] at written
    rw [← written]
    simp [read, elements]

/-- A longer slice shows the elements of a shorter one and those behind them. -/
theorem read_add (ptr len more : ℕ) :
    memory.read ⟨ptr, len + more⟩ = memory.read ⟨ptr, len⟩ ++ memory.read ⟨ptr + len, more⟩ := by
  simp only [read, elements, range_add, map_append, map_map]
  congr 1
  apply map_congr_left
  intro index _
  simp only [Function.comp_apply, add_assoc]

theorem items_of_getElem? {array : ℕ} {object : ArrayObject}
    (found : memory.objects[array]? = some object) :
    memory.items array = memory.read object.slice := by
  rw [items, found]

/-- The slices of the arrays are in memory that has been handed out, those of growable ones inside
their backing. -/
structure Sound (memory : Memory α) : Prop where
  inside : ∀ object ∈ memory.objects, object.slice.ptr + object.slice.len ≤ memory.used
  backed : ∀ backing len, ArrayObject.arrayCapacity backing len ∈ memory.objects →
    len ≤ backing.len ∧ backing.ptr + backing.len ≤ memory.used

theorem Sound.empty (null : α) : (Memory.mk (fun _ => null) 0 []).Sound where
  inside := by simp
  backed := by simp

theorem Sound.push {object : ArrayObject} {cells : ℕ → α} {used : ℕ} (sound : memory.Sound)
    (grows : memory.used ≤ used) (inside : object.slice.ptr + object.slice.len ≤ used)
    (backed : ∀ backing len, object = .arrayCapacity backing len →
      len ≤ backing.len ∧ backing.ptr + backing.len ≤ used) :
    ((Memory.mk cells used memory.objects).push object).Sound where
  inside := by
    intro other isObject
    rcases mem_append.1 isObject with old | new
    · exact (sound.inside other old).trans grows
    · exact mem_singleton.1 new ▸ inside
  backed := by
    intro backing len isObject
    rcases mem_append.1 isObject with old | new
    · exact ⟨(sound.backed backing len old).1, (sound.backed backing len old).2.trans grows⟩
    · exact backed backing len (mem_singleton.1 new).symm

end Memory

/-- What a `null` is, and how many values the largest block of the heap holds. -/
structure Setting (α : Type) where
  null : α
  maxValues : ℕ

/-- A literal, or the result of native code: a block of its own. Memory may run out. -/
def makeArray (memory : Memory α) (managed : Bool) (values : List α) (served : Bool) :
    Except Failure ℕ × Memory α :=
  if served then
    let items : Slice := ⟨memory.used, values.length⟩
    let object := if managed then ArrayObject.arrayManaged items else .array items
    (.ok memory.objects.length, (memory.take values).push object)
  else
    (.error .outOfMemory, memory)

/-- `arrayWrite`. -/
def arrayWrite (memory : Memory α) (array index : ℕ) (value : α) : Except Failure Unit × Memory α :=
  match memory.objects[array]? with
  | none => (.error .typeError, memory)
  | some object =>
    if index < object.slice.len then
      (.ok (), memory.write (object.slice.ptr + index) [value])
    else
      (.error .indexOutOfBounds, memory)

/-- `arraySlice`. A view of a view keeps the source of the first one alive. -/
def arraySlice (memory : Memory α) (array : ℕ) (start? end? : Option ℕ) (served : Bool) :
    Except Failure ℕ × Memory α :=
  match memory.objects[array]? with
  | none => (.error .typeError, memory)
  | some object =>
    let start := start?.getD 0
    let stop := end?.getD object.slice.len
    if object.slice.len < start ∨ object.slice.len < stop ∨ stop < start then
      (.error .indexOutOfBounds, memory)
    else if served then
      let source := match object with
        | .arrayView _ source => source
        | _ => array
      let view := ArrayObject.arrayView ⟨object.slice.ptr + start, stop - start⟩ source
      (.ok memory.objects.length, memory.push view)
    else
      (.error .outOfMemory, memory)

/-- The slots of a new backing block. -/
def newCapacity (setting : Setting α) (newLen : ℕ) : ℕ :=
  let ideal := max (newLen * 2) (newLen + 4)
  if ideal ≤ setting.maxValues then ideal else max newLen setting.maxValues

/-- The slow path of `arrayAppend`: the elements are copied to a backing block of their own, whose
spare slots hold `null`. -/
def appendCopy (setting : Setting α) (memory : Memory α) (object : ArrayObject)
    (elems : List α) (served : Bool) : Except Failure ℕ × Memory α :=
  let newLen := object.slice.len + elems.length
  let newCap := newCapacity setting newLen
  if served then
    let values := memory.read object.slice ++ elems ++ List.replicate (newCap - newLen) setting.null
    let backing : Slice := ⟨memory.used, newCap⟩
    (.ok memory.objects.length, (memory.take values).push (.arrayCapacity backing newLen))
  else
    (.error .outOfMemory, memory)

/-- `arrayAppend`. With room behind the last element the new ones go there, before the new object
is asked for. -/
def arrayAppend (setting : Setting α) (memory : Memory α) (array : ℕ) (elems : List α)
    (served : Bool) : Except Failure ℕ × Memory α :=
  match memory.objects[array]? with
  | none => (.error .typeError, memory)
  | some (.arrayCapacity backing len) =>
    if len + elems.length ≤ backing.len then
      let written := memory.write (backing.ptr + len) elems
      if served then
        (.ok memory.objects.length, written.push (.arrayCapacity backing (len + elems.length)))
      else
        (.error .outOfMemory, written)
    else
      appendCopy setting memory (.arrayCapacity backing len) elems served
  | some object => appendCopy setting memory object elems served

/-- What a program does with arrays. -/
inductive Action (α : Type)
  | make (managed : Bool) (values : List α)
  | slice (array : ℕ) (start? end? : Option ℕ)
  | assign (array index : ℕ) (value : α)
  | append (array : ℕ) (elems : List α)

/-- An action, and whether the memory that it asks for is there. -/
structure Event (α : Type) where
  action : Action α
  served : Bool

/-- The memory after an event. -/
def step (setting : Setting α) (memory : Memory α) (event : Event α) : Memory α :=
  match event.action with
  | .make managed values => (makeArray memory managed values event.served).2
  | .slice array start? end? => (arraySlice memory array start? end? event.served).2
  | .assign array index value => (arrayWrite memory array index value).2
  | .append array elems => (arrayAppend setting memory array elems event.served).2

/-- No arrays yet. -/
def Memory.empty (null : α) : Memory α :=
  ⟨fun _ => null, 0, []⟩

/-- Where a new array comes from: it lies in memory that is handed out with it, or it shows a part
of an array there was, or it is a growable array and what was appended to it in place. -/
inductive Origin (memory : Memory α) (action : Action α) : ArrayObject → Prop
  | fresh {object : ArrayObject} (fresh : memory.used ≤ object.slice.ptr) :
      Origin memory action object
  | view {items : Slice} {source : ℕ} {old : ArrayObject} (isOld : old ∈ memory.objects)
      (within : ∀ cell, (ArrayObject.arrayView items source).Shows cell → old.Shows cell) :
      Origin memory action (.arrayView items source)
  | grown {array : ℕ} {elems : List α} {backing : Slice} {len : ℕ}
      (isAppend : action = .append array elems)
      (found : memory.objects[array]? = some (.arrayCapacity backing len))
      (room : len + elems.length ≤ backing.len) :
      Origin memory action (.arrayCapacity backing (len + elems.length))

/-- What an action makes of the memory: it adds at most one object, and more memory is handed out
for that object only. -/
structure Follows (memory : Memory α) (action : Action α) (after : Memory α) : Prop where
  grows : memory.used ≤ after.used
  objects : after.objects = memory.objects ∨ ∃ object, after.objects = memory.objects ++ [object] ∧
    Origin memory action object ∧ object.slice.ptr + object.slice.len ≤ after.used ∧
    ∀ backing len, object = .arrayCapacity backing len →
      len ≤ backing.len ∧ backing.ptr + backing.len ≤ after.used

variable {setting : Setting α} {memory after : Memory α} {action : Action α}

theorem Follows.refl : Follows memory action memory :=
  ⟨le_refl _, .inl rfl⟩

theorem le_newCapacity (setting : Setting α) (newLen : ℕ) :
    newLen ≤ newCapacity setting newLen := by
  simp only [newCapacity]
  split
  · omega
  · exact le_max_left _ _

theorem follows_makeArray (managed : Bool) (values : List α) (served : Bool) :
    Follows memory action (makeArray memory managed values served).2 := by
  cases served with
  | false => exact .refl
  | true =>
    refine ⟨Nat.le_add_right _ _, .inr ⟨_, rfl, .fresh ?_, ?_, ?_⟩⟩
    · cases managed with
      | false | true => exact le_refl _
    · cases managed with
      | false | true => exact le_refl _
    · intro backing len same
      cases managed with
      | false | true => exact absurd same (by simp)

theorem follows_arrayWrite (array index : ℕ) (value : α) :
    Follows memory action (arrayWrite memory array index value).2 := by
  unfold arrayWrite
  cases memory.objects[array]? with
  | none => exact .refl
  | some object =>
    dsimp only
    split
    · exact ⟨le_refl _, .inl rfl⟩
    · exact .refl

theorem follows_arraySlice (sound : memory.Sound) (array : ℕ) (start? end? : Option ℕ)
    (served : Bool) : Follows memory action (arraySlice memory array start? end? served).2 := by
  unfold arraySlice
  cases found : memory.objects[array]? with
  | none => exact .refl
  | some object =>
    have isObject := mem_of_getElem? found
    have inside := sound.inside object isObject
    dsimp only
    split
    · exact .refl
    · rename_i bounds
      cases served with
      | false => exact .refl
      | true =>
        refine ⟨le_refl _, .inr ⟨_, rfl, .view isObject ?_, ?_, ?_⟩⟩
        · intro cell shows_
          have first : object.slice.ptr + start?.getD 0 ≤ cell := shows_.1
          have last : cell < object.slice.ptr + start?.getD 0 +
            (end?.getD object.slice.len - start?.getD 0) := shows_.2
          constructor
          · omega
          · omega
        · change object.slice.ptr + start?.getD 0 +
            (end?.getD object.slice.len - start?.getD 0) ≤ memory.used
          omega
        · intro backing len same
          exact absurd same (by simp)

theorem length_copied (setting : Setting α) (memory : Memory α) (object : ArrayObject)
    (elems : List α) :
    (memory.read object.slice ++ elems ++
      List.replicate (newCapacity setting (object.slice.len + elems.length) -
        (object.slice.len + elems.length)) setting.null).length =
      newCapacity setting (object.slice.len + elems.length) := by
  have room := le_newCapacity setting (object.slice.len + elems.length)
  rw [length_append, length_append, Memory.length_read, length_replicate]
  omega

theorem follows_appendCopy (object : ArrayObject) (elems : List α) (served : Bool) :
    Follows memory action (appendCopy setting memory object elems served).2 := by
  cases served with
  | false => exact .refl
  | true =>
    have room := le_newCapacity setting (object.slice.len + elems.length)
    refine ⟨Nat.le_add_right _ _, .inr ⟨_, rfl, .fresh (le_refl _), ?_, ?_⟩⟩
    · change memory.used + (object.slice.len + elems.length) ≤ memory.used + _
      rw [length_copied]
      exact Nat.add_le_add_left room _
    · intro backing len same
      rcases ArrayObject.arrayCapacity.inj same with ⟨rfl, rfl⟩
      refine ⟨room, ?_⟩
      change memory.used + newCapacity setting _ ≤ memory.used + _
      rw [length_copied]

theorem follows_arrayAppend (sound : memory.Sound) (array : ℕ) (elems : List α)
    (served : Bool) :
    Follows memory (.append array elems) (arrayAppend setting memory array elems served).2 := by
  unfold arrayAppend
  cases found : memory.objects[array]? with
  | none => exact .refl
  | some object =>
    cases object with
    | array items | arrayManaged items | arrayView items source => exact follows_appendCopy _ _ _
    | arrayCapacity backing len =>
      dsimp only
      split
      · rename_i room
        have backed := sound.backed backing len (mem_of_getElem? found)
        cases served with
        | false => exact ⟨le_refl _, .inl rfl⟩
        | true =>
          refine ⟨le_refl _, .inr ⟨_, rfl, .grown rfl found room, ?_, ?_⟩⟩
          · change backing.ptr + (len + elems.length) ≤ memory.used
            omega
          · intro backing' len' same
            rcases ArrayObject.arrayCapacity.inj same with ⟨rfl, rfl⟩
            exact ⟨room, backed.2⟩
      · exact follows_appendCopy _ _ _

theorem follows_step (sound : memory.Sound) (event : Event α) :
    Follows memory event.action (step setting memory event) := by
  unfold step
  cases event.action with
  | make managed values => exact follows_makeArray _ _ _
  | slice array start? end? => exact follows_arraySlice sound _ _ _ _
  | assign array index value => exact follows_arrayWrite _ _ _
  | append array elems => exact follows_arrayAppend sound _ _ _

theorem Follows.sound (follows : Follows memory action after) (sound : memory.Sound) :
    after.Sound := by
  rcases follows.objects with same | ⟨object, objects, _, inside, backed⟩
  · refine ⟨?_, ?_⟩
    · intro object isObject
      exact (sound.inside object (same ▸ isObject)).trans follows.grows
    · intro backing len isObject
      have old := sound.backed backing len (same ▸ isObject)
      exact ⟨old.1, old.2.trans follows.grows⟩
  · have pushed : ((Memory.mk after.cells after.used memory.objects).push object).Sound :=
      sound.push follows.grows inside backed
    have same : (Memory.mk after.cells after.used memory.objects).push object = after := by
      rw [Memory.push, ← objects]
    exact same ▸ pushed

theorem Follows.getElem? (follows : Follows memory action after) {array : ℕ}
    {object : ArrayObject} (found : memory.objects[array]? = some object) :
    after.objects[array]? = some object := by
  rcases follows.objects with same | ⟨_, objects, _⟩
  · rw [same, found]
  · rw [objects, List.getElem?_append_left (List.getElem?_eq_some_iff.1 found).1, found]

theorem sound_step (sound : memory.Sound) (event : Event α) : (step setting memory event).Sound :=
  (follows_step sound event).sound sound

/-- An array that there is keeps its length, whatever a program does. -/
theorem length_items_step (sound : memory.Sound) (event : Event α) {array : ℕ}
    (exists_ : array < memory.objects.length) :
    ((step setting memory event).items array).length = (memory.items array).length := by
  have found := List.getElem?_eq_getElem exists_
  rw [Memory.items_of_getElem? found, Memory.length_read,
    Memory.items_of_getElem? ((follows_step sound event).getElem? found), Memory.length_read]

end Gengo.Arrays
