import Gengo.Arrays.Memory
import Gengo.Runs.Along

/-!
# Appends to arrays

An append to a growable array with room writes behind the last element of that array, whether or
not an earlier append to the same array did so already. It changes no other array exactly when
the cells it writes are in none, or hold there what is written anyway. Where every array is
appended to at most once, that is always so.
-/

namespace Gengo.Arrays

open Runs

variable {α : Type} {setting : Setting α} {memory : Memory α} {array : ℕ} {elems : List α}
  {served : Bool}

/-- The array that an append gives has the old elements and then the new ones, and the arrays that
there were have the elements they had. -/
structure Pure (setting : Setting α) (memory : Memory α) (array : ℕ) (elems : List α)
    (served : Bool) : Prop where
  result : ∀ new, (arrayAppend setting memory array elems served).1 = .ok new →
    (arrayAppend setting memory array elems served).2.items new = memory.items array ++ elems
  others : ∀ other < memory.objects.length,
    (arrayAppend setting memory array elems served).2.items other = memory.items other

/-- An append in place only writes to cells that no array has among its elements, or that hold
what is written. -/
def Unseen (memory : Memory α) (array : ℕ) (elems : List α) : Prop :=
  ∀ backing len, memory.objects[array]? = some (.arrayCapacity backing len) →
    len + elems.length ≤ backing.len →
      ∀ object ∈ memory.objects, ∀ index, ∀ within : index < elems.length,
        object.Shows (backing.ptr + len + index) →
          memory.cells (backing.ptr + len + index) = elems[index]

theorem items_push_length (object : ArrayObject) :
    (memory.push object).items memory.objects.length = memory.read object.slice := by
  have found : (memory.push object).objects[memory.objects.length]? = some object := by
    simp
  rw [Memory.items_of_getElem? found, Memory.read_push]

theorem items_push_of_lt (object : ArrayObject) {other : ℕ}
    (exists_ : other < memory.objects.length) :
    (memory.push object).items other = memory.items other := by
  have found := List.getElem?_eq_getElem exists_
  have kept : (memory.push object).objects[other]? = some memory.objects[other] := by
    rw [Memory.objects_push, List.getElem?_append_left exists_, found]
  rw [Memory.items_of_getElem? found, Memory.items_of_getElem? kept, Memory.read_push]

theorem items_take_of_lt (sound : memory.Sound) (values : List α) {other : ℕ}
    (exists_ : other < memory.objects.length) :
    (memory.take values).items other = memory.items other := by
  have found := List.getElem?_eq_getElem exists_
  have kept : (memory.take values).objects[other]? = some memory.objects[other] := found
  have inside := sound.inside memory.objects[other] (List.getElem_mem exists_)
  rw [Memory.items_of_getElem? found, Memory.items_of_getElem? kept]
  exact Memory.read_write_of_outside (.inl inside)

theorem pure_appendCopy (sound : memory.Sound) {object : ArrayObject}
    (found : memory.objects[array]? = some object)
    (copies : arrayAppend setting memory array elems served =
      appendCopy setting memory object elems served) :
    Pure setting memory array elems served := by
  cases served with
  | false =>
    constructor
    · intro new gives
      rw [copies] at gives
      exact absurd gives (by simp [appendCopy])
    · intro other _
      rw [copies]
      rfl
  | true =>
    constructor
    · intro new gives
      rw [copies] at gives ⊢
      have isNew : memory.objects.length = new := Except.ok.inj gives
      have length : object.slice.len + elems.length =
          (memory.read object.slice ++ elems).length := by
        rw [List.length_append, Memory.length_read]
      rw [← isNew, Memory.items_of_getElem? found]
      refine (items_push_length _).trans ?_
      change (memory.write memory.used _).read ⟨memory.used, object.slice.len + elems.length⟩ = _
      rw [length]
      exact Memory.read_write _ _
    · intro other exists_
      rw [copies]
      refine (items_push_of_lt _ ?_).trans (items_take_of_lt sound _ exists_)
      exact exists_

section InPlace

variable {backing : Heap.Slice} {len : ℕ}

theorem arrayAppend_inPlace (found : memory.objects[array]? = some (.arrayCapacity backing len))
    (room : len + elems.length ≤ backing.len) :
    arrayAppend setting memory array elems served =
      if served then
        (.ok memory.objects.length, (memory.write (backing.ptr + len) elems).push
          (.arrayCapacity backing (len + elems.length)))
      else (.error .outOfMemory, memory.write (backing.ptr + len) elems) := by
  simp only [arrayAppend, found, if_pos room]

/-- Every other array has its elements in what an append in place writes. -/
theorem items_inPlace (found : memory.objects[array]? = some (.arrayCapacity backing len))
    (room : len + elems.length ≤ backing.len) {other : ℕ}
    (exists_ : other < memory.objects.length) :
    (arrayAppend setting memory array elems served).2.items other =
      (memory.write (backing.ptr + len) elems).items other := by
  rw [arrayAppend_inPlace found room]
  cases served with
  | false => rfl
  | true => exact items_push_of_lt _ exists_

/-- A write keeps the elements of an array exactly if the cells of the array that it is made to
hold what is written. -/
theorem items_write_eq_iff {ptr : ℕ} {object : ArrayObject} {other : ℕ}
    (isOther : memory.objects[other]? = some object) :
    (memory.write ptr elems).items other = memory.items other ↔
      ∀ index, ∀ within : index < elems.length, object.Shows (ptr + index) →
        memory.cells (ptr + index) = elems[index] := by
  have kept : (memory.write ptr elems).objects[other]? = some object := isOther
  rw [Memory.items_of_getElem? isOther, Memory.items_of_getElem? kept, Memory.read_eq_read_iff]
  constructor
  · intro agree index within shows_
    have cell : object.slice.ptr + (ptr + index - object.slice.ptr) = ptr + index :=
      Nat.add_sub_of_le shows_.1
    have same := agree (ptr + index - object.slice.ptr) (by have := shows_.2; omega)
    rw [cell, Memory.cells_write_within within] at same
    exact same.symm
  · intro holds index inRange
    rcases Nat.lt_or_ge (object.slice.ptr + index) ptr with before | notBefore
    · exact Memory.cells_write_before before
    rcases Nat.lt_or_ge (object.slice.ptr + index) (ptr + elems.length) with within | behind
    · have cell : object.slice.ptr + index = ptr + (object.slice.ptr + index - ptr) :=
        (Nat.add_sub_of_le notBefore).symm
      have inElems : object.slice.ptr + index - ptr < elems.length := by
        omega
      have shows_ : object.Shows (ptr + (object.slice.ptr + index - ptr)) := by
        rw [← cell]
        exact ⟨Nat.le_add_right _ _, Nat.add_lt_add_left inRange _⟩
      rw [cell, Memory.cells_write_within inElems, holds _ inElems shows_]
    · exact Memory.cells_write_behind behind

theorem pure_inPlace_iff (found : memory.objects[array]? = some (.arrayCapacity backing len))
    (room : len + elems.length ≤ backing.len) :
    Pure setting memory array elems served ↔ Unseen memory array elems := by
  have unseen_iff : Unseen memory array elems ↔ ∀ other < memory.objects.length,
      (memory.write (backing.ptr + len) elems).items other = memory.items other := by
    constructor
    · intro unseen other exists_
      apply (items_write_eq_iff (List.getElem?_eq_getElem exists_)).2
      exact unseen backing len found room _ (List.getElem_mem exists_)
    · intro kept backing' len' found' room' object isObject
      have same := Option.some.inj (found.symm.trans found')
      rcases ArrayObject.arrayCapacity.inj same with ⟨rfl, rfl⟩
      rcases List.getElem?_of_mem isObject with ⟨other, isOther⟩
      have exists_ := (List.getElem?_eq_some_iff.1 isOther).1
      exact (items_write_eq_iff isOther).1 (kept other exists_)
  rw [unseen_iff]
  constructor
  · intro pure other exists_
    rw [← items_inPlace found room exists_, pure.others other exists_]
  · intro kept
    constructor
    · intro new gives
      rw [arrayAppend_inPlace found room] at gives ⊢
      cases served with
      | false => exact absurd gives (by simp)
      | true =>
        have isNew : memory.objects.length = new := Except.ok.inj gives
        have exists_ := (List.getElem?_eq_some_iff.1 found).1
        rw [← isNew, ← kept array exists_]
        have kept' : (memory.write (backing.ptr + len) elems).objects[array]? =
            some (.arrayCapacity backing len) := found
        rw [Memory.items_of_getElem? kept']
        refine (items_push_length _).trans ?_
        change Memory.read _ ⟨backing.ptr, len + elems.length⟩ =
          Memory.read _ ⟨backing.ptr, len⟩ ++ elems
        rw [Memory.read_add]
        congr 1
        have written : (memory.write (backing.ptr + len) (elems ++ [])).read
            ⟨backing.ptr + len, elems.length⟩ = elems :=
          Memory.read_write elems []
        rwa [List.append_nil] at written
    · intro other exists_
      rw [items_inPlace found room exists_, kept other exists_]

end InPlace

/-- An append is pure exactly if it does not write what is seen. -/
theorem pure_iff_unseen (sound : memory.Sound) :
    Pure setting memory array elems served ↔ Unseen memory array elems := by
  cases found : memory.objects[array]? with
  | none =>
    have fails : arrayAppend setting memory array elems served = (.error .typeError, memory) := by
      simp only [arrayAppend, found]
    constructor
    · intro _ backing len found'
      exact absurd (found.symm.trans found') (by simp)
    · intro _
      constructor
      · intro new gives
        rw [fails] at gives
        exact absurd gives (by simp)
      · intro other _
        rw [fails]
  | some object =>
    by_cases inPlace : ∃ backing len, object = .arrayCapacity backing len ∧
        len + elems.length ≤ backing.len
    · rcases inPlace with ⟨backing, len, rfl, room⟩
      exact pure_inPlace_iff found room
    · have copies : arrayAppend setting memory array elems served =
          appendCopy setting memory object elems served := by
        unfold arrayAppend
        rw [found]
        cases object with
        | array items => rfl
        | arrayManaged items => rfl
        | arrayView items source => rfl
        | arrayCapacity backing len =>
          exact if_neg fun room => inPlace ⟨backing, len, rfl, room⟩
      constructor
      · intro _ backing len found' room
        exact absurd ⟨backing, len, Option.some.inj (found.symm.trans found'), room⟩ inPlace
      · intro _
        exact pure_appendCopy sound found copies

/-- What a condition on appends asks of an event. -/
def OfAppend (condition : Memory α → ℕ → List α → Bool → Prop) (memory : Memory α)
    (event : Event α) : Prop :=
  match event.action with
  | .append array elems => condition memory array elems event.served
  | _ => True

/-- In every run of literals, slices, assignments and appends, all appends are pure exactly if
none of them writes what is seen. -/
theorem pure_along_iff (setting : Setting α) (events : List (Event α)) :
    Along (step setting) (OfAppend (Pure setting)) (.empty setting.null) events ↔
      Along (step setting) (OfAppend fun memory array elems _ => Unseen memory array elems)
        (.empty setting.null) events := by
  apply along_congr (Memory.Sound.empty setting.null)
  · intro memory event sound
    exact sound_step sound event
  · intro memory event sound
    unfold OfAppend
    cases event.action with
    | make _ _ | slice _ _ _ | assign _ _ _ => exact .rfl
    | append array elems => exact pure_iff_unseen sound

/-- An array is appended to, and then the result is twice: the second append to it overwrites
what the first one put there. -/
theorem not_pure_along :
    ¬Along (step ⟨0, 4096⟩) (OfAppend (Pure ⟨0, 4096⟩)) (.empty 0)
      [⟨.make false [1], true⟩, ⟨.append 0 [2], true⟩, ⟨.append 1 [3], true⟩,
        ⟨.append 1 [4], true⟩] := by
  intro along
  have second := along.2.2.2.1.others 2 (by decide)
  exact absurd second (by decide)

end Gengo.Arrays
