import Gengo.Messages.Copying
import Gengo.Tasks.Protocol
import Mathlib.Data.List.Perm.Subperm

/-!
# Messages are isolated

A message that may be sent is delivered as a copy of the same shape: with the same scalars
and strings, with the arrays, maps, structs, named values and variants shared within it as
in the original, and with no mutable object of the sender's in reach.
-/

namespace Gengo.Messages

open Fallible List Option

section Objects

variable {host : Host} {base : Heap} {message : Value} {start roots : ℕ}
  {clone : Value → CloneM Value}

theorem clones_cloneEntry {entry : MapEntry}
    (key : Clones host base message start roots (clone entry.key) fun later =>
      ValueAlike base later entry.key)
    (runsOut : Tasks.maxTempRoots ≤ roots → RootsRunOut base start message)
    (value : Clones host base message start (roots + 1) (clone entry.value) fun later =>
      ValueAlike base later entry.value) :
    Clones host base message start roots (cloneEntry clone entry) fun later =>
      EntryAlike base later entry := by
  refine (key.bind fun copiedKey => value.rooted (MapEntry.mk copiedKey) runsOut).mono ?_
  rintro later made ⟨copiedKey, keyAlike, copiedValue, valueAlike, rfl⟩
  exact ⟨keyAlike, valueAlike⟩

theorem clones_cloneField {field : MapEntry}
    (value : Clones host base message start roots (clone field.value) fun later =>
      ValueAlike base later field.value) :
    Clones host base message start roots (cloneField clone field) fun later =>
      FieldAlike base later field := by
  refine (value.bind fun copied => .pure_eq (MapEntry.mk field.key copied)).mono ?_
  rintro later made ⟨copied, alike, rfl⟩
  exact ⟨rfl, alike⟩

variable {obj : Object}

/-- A step that clones the parts of a container and puts them together. -/
theorem Clones.build {β : Type} {program : CloneM β} {result : Copied → β → Prop}
    {together : β → Object} (clones : Clones host base message start roots program result)
    (alike : ∀ later copies, result later copies → Alike base later obj (together copies)) :
    Clones host base message start roots
      (do let copies ← program; return together copies : CloneM Object)
      fun later copy => Alike base later obj copy := by
  refine (clones.bind fun copies => .pure_eq (together copies)).mono ?_
  rintro later made ⟨copies, holds, rfl⟩
  exact alike later copies holds

variable {state : CloneState} {src : Ref}

/-- The heap may have grown since the start, but the array is the one it was. -/
theorem asArraySlice_eq (wellFormed : WellFormed base) (cloning : Cloning base message roots state)
    (inside : src < base.size) :
    asArraySlice state.heap (base.objects src) = asArraySlice base (base.objects src) := by
  have linked := wellFormed.links src inside
  generalize base.objects src = obj at linked
  cases obj with
  | arrayCapacity backing len =>
    have backingInside : backing < base.size := linked _ mem_cons_self backing rfl
    rw [asArraySlice, asArraySlice, cloning.objects backing backingInside]
  | _ => rfl

/-- What is known of an object when it is met for the first time. -/
structure First (base : Heap) (message : Value) (start roots : ℕ) (clone : Value → CloneM Value)
    (host : Host) (state : CloneState) (src : Ref) (obj : Object) : Prop where
  cloning : Cloning base message roots state
  inside : src < base.size
  objEq : base.objects src = obj
  isPart : ∃ depth, Part base message depth (.object src)
  isHeld : HeldAt base message start roots (.object src)
  unvisited : src ∉ state.visits.map Prod.fst
  each : ∀ held ∈ heldParts base obj,
    Clones host base message start (roots + held.1) (clone held.2) fun later =>
      ValueAlike base later held.2

section

variable (first : First base message start roots clone host state src obj)
include first

theorem First.runsOut (rooted : obj.rooted) (full : Tasks.maxTempRoots ≤ roots) :
    RootsRunOut base start message := by
  refine first.isHeld.rootsRunOut ?_ full
  rw [Value.rooted, first.objEq]
  exact rooted

theorem First.container {placeholder : Object} {cloneParts : CloneM Object}
    (container : obj.Container)
    (cloned : Clones host base message start (roots + 1) cloneParts fun later copy =>
      Alike base later obj copy) :
    ClonesAt host base message start roots (cloneContainer host src placeholder cloneParts)
      (fun later => ValueAlike base later (.object src)) state := by
  have rooted : obj.rooted := by
    cases obj <;> first | rfl | exact absurd container id
  have runsOut := first.runsOut rooted
  have objEq := first.objEq
  subst objEq
  exact clonesAt_container first.cloning first.inside container first.isPart runsOut
    first.unvisited cloned

/-- The parts are cloned while the copy of their container is a temporary root. -/
theorem First.part {part : Value} (mem : (1, part) ∈ heldParts base obj) :
    Clones host base message start (roots + 1) (clone part) fun later =>
      ValueAlike base later part :=
  first.each (1, part) mem

theorem First.array {items : List Value} (isArray : asArraySlice base obj = some items)
    (partsEq : heldParts base obj = items.map fun item => (1, item)) (container : obj.Container) :
    ClonesAt host base message start roots
      (cloneContainer host src (.array []) do
        let items ← items.mapM clone
        return .arrayManaged items)
      (fun later => ValueAlike base later (.object src)) state := by
  have cloned := Clones.mapM fun item (listed : item ∈ items) =>
    first.part (partsEq ▸ mem_map_of_mem listed)
  exact first.container container (cloned.build fun later copies alike => .array isArray alike)

theorem First.map {entries : List MapEntry} (isMap : asMapSlice obj = some entries)
    (partsEq : heldParts base obj =
      entries.flatMap fun entry => [(1, entry.key), (2, entry.value)])
    (container : obj.Container) :
    ClonesAt host base message start roots
      (cloneContainer host src (.map []) do
        let entries ← entries.mapM (cloneEntry clone)
        return .map entries)
      (fun later => ValueAlike base later (.object src)) state := by
  have each : ∀ entry ∈ entries, Clones host base message start (roots + 1)
      (cloneEntry clone entry) fun later => EntryAlike base later entry := by
    intro entry listed
    have heldOf : ∀ held ∈ [(1, entry.key), (2, entry.value)], held ∈ heldParts base obj := by
      intro held isHeld
      rw [partsEq]
      exact mem_flatMap.mpr ⟨entry, listed, isHeld⟩
    have value := heldOf (2, entry.value) (by simp)
    apply clones_cloneEntry
    · exact first.part (heldOf _ (by simp))
    · intro full
      obtain ⟨held, rfl, isHeld⟩ := first.isHeld
      have objEq := first.objEq
      subst objEq
      exact ⟨_, entry.value, isHeld.inside value, by omega⟩
    · exact first.each _ value
  exact first.container container
    ((Clones.mapM each).build fun later copies alike => .map isMap alike)

theorem First.leaf {copy : Object}
    (leaf : ∀ later dst, Fresh base later dst copy → LeafAlike base later src dst obj) :
    ClonesAt host base message start roots
      (do let ref ← allocObject host copy; return Value.object ref : CloneM Value)
      (fun later => ValueAlike base later (.object src)) state := by
  refine (clonesAt_leaf first.cloning copy).mono ?_
  rintro later made ⟨ref, rfl, fresh⟩
  refine .leaf ?_
  rw [first.objEq]
  exact leaf later ref fresh

theorem First.rootedLeaf {copy : Object} (rooted : obj.rooted)
    (leaf : ∀ later dst, Fresh base later dst copy → LeafAlike base later src dst obj) :
    ClonesAt host base message start roots (allocLeaf host copy)
      (fun later => ValueAlike base later (.object src)) state := by
  refine (clonesAt_allocLeaf first.cloning copy (first.runsOut rooted)).mono ?_
  rintro later made ⟨ref, rfl, fresh⟩
  refine .leaf ?_
  rw [first.objEq]
  exact leaf later ref fresh

/-- An object that has no copy yet: a container is paired with its copy, another object is
copied, or shared. -/
theorem First.cloneNew (backed : Backed base obj)
    (sliceEq : asArraySlice state.heap obj = asArraySlice base obj) (sendable : ¬obj.Unsendable) :
    ClonesAt host base message start roots (cloneNew host clone src state.heap obj)
      (fun later => ValueAlike base later (.object src)) state := by
  cases obj with
  | array items | arrayManaged items | arrayView items source => exact first.array rfl rfl trivial
  | arrayCapacity backing len =>
    obtain ⟨items, backingEq, -⟩ := backed
    have isArray : asArraySlice base (.arrayCapacity backing len) = some (items.take len) := by
      rw [asArraySlice, backingEq]
    have partsEq : parts base (.arrayCapacity backing len) = items.take len := by
      rw [parts, isArray, getD_some]
    rw [Messages.cloneNew, sliceEq, isArray]
    exact first.array isArray (congrArg (List.map fun part => (1, part)) partsEq) trivial
  | map entries | mapManaged entries | mapHashed entries len => exact first.map rfl rfl trivial
  | dynString bytes | stringView bytes source => exact first.rootedLeaf rfl fun _ _ fresh => fresh
  | enumValue typ name ordinal | namedErrorValue typ msg => exact first.leaf fun _ _ fresh => fresh
  | stringBuilder bytes =>
    exact first.rootedLeaf rfl fun _ _ fresh => ⟨_, length_mapIdx, fresh⟩
  | function | closure _ _ | cell _ | iterator _ _ _ => exact absurd trivial sendable
  | namedValue typ value =>
    refine first.container trivial ?_
    exact (first.part mem_cons_self).build fun later copy alike => .namedValue alike
  | structInstance typ fields =>
    have each : ∀ field ∈ fields, Clones host base message start (roots + 1)
        (cloneField clone field) fun later => FieldAlike base later field := fun field listed =>
      clones_cloneField (first.part (mem_map_of_mem (mem_map_of_mem listed)))
    exact first.container trivial
      ((Clones.mapM each).build fun later copies alike => .structInstance alike)
  | smallStructInstance typ values =>
    have each := Clones.mapM fun value (listed : value ∈ values) =>
      first.part (mem_map_of_mem listed)
    exact first.container trivial (each.build fun later copies alike => .smallStructInstance alike)
  | variantValue typ tag ordinal payload sharedValues armFields =>
    have sharedCloned := Clones.mapM fun item (listed : item ∈ sharedValues) =>
      first.part (mem_map_of_mem (mem_cons_of_mem _ (mem_append_left _ listed)))
    have armCloned := Clones.mapM fun item (listed : item ∈ armFields) =>
      first.part (mem_map_of_mem (mem_cons_of_mem _ (mem_append_right _ listed)))
    have payloadCloned := first.part (mem_map_of_mem mem_cons_self)
    refine first.container trivial ((sharedCloned.bind fun sharedCopies =>
      armCloned.bind fun armCopies => payloadCloned.bind fun copy =>
        .pure_eq (Object.variantValue typ tag ordinal copy sharedCopies armCopies)).mono ?_)
    rintro later made ⟨sharedCopies, sharedAlike, armCopies, armAlike, copy, payloadAlike, rfl⟩
    exact .variantValue sharedAlike armAlike payloadAlike
  | shared kind =>
    refine Clones.of_pure (fun later => ValueAlike.leaf ?_) state first.cloning
    rw [first.objEq]
    rfl

end

theorem clones_cloneObject (wellFormed : WellFormed base) (inside : src < base.size)
    (isPart : ∃ depth, Part base message depth (.object src))
    (isHeld : HeldAt base message start roots (.object src))
    (sendable : ¬(base.objects src).Unsendable)
    (each : ∀ held ∈ heldParts base (base.objects src),
      Clones host base message start (roots + held.1) (clone held.2) fun later =>
        ValueAlike base later held.2) :
    Clones host base message start roots (cloneObject host clone src) fun later =>
      ValueAlike base later (.object src) := by
  intro state cloning
  cases found : cloneFindExisting src state.visits with
  | some dst =>
    have runs : cloneObject host clone src state = .ok (.object dst, state) := by
      rw [cloneObject, found]
    have paired := cloneFindExisting_eq_some found
    refine Meets.of_ok runs ⟨cloning, Grown.refl _, fun later keeps => ?_⟩
    exact .container (cloning.visited.src _ paired).2.1 (keeps.visits _ paired)
  | none =>
    have runs : cloneObject host clone src state =
        cloneNew host clone src state.heap (base.objects src) state := by
      rw [cloneObject, found, cloning.objects src inside]
    have first : First base message start roots clone host state src (base.objects src) :=
      ⟨cloning, inside, rfl, isPart, isHeld, cloneFindExisting_eq_none found, each⟩
    exact Meets.of_eq (first.cloneNew (wellFormed.backed src inside)
      (asArraySlice_eq wellFormed cloning inside) sendable) runs

theorem mem_parts_of_mem_heldParts {held : ℕ × Value} (mem : held ∈ heldParts base obj) :
    held.2 ∈ parts base obj := by
  cases obj with
  | map | mapManaged | mapHashed =>
    obtain ⟨entry, listed, mem⟩ := mem_flatMap.mp mem
    refine mem_flatMap.mpr ⟨entry, listed, ?_⟩
    rcases mem_cons.mp mem with rfl | mem
    · exact mem_cons_self
    · rw [mem_singleton.mp mem]
      exact mem_cons_of_mem _ mem_cons_self
  | _ =>
    obtain ⟨part, listed, rfl⟩ := mem_map.mp mem
    exact listed

/-- A part that may be sent is cloned; the levels that `isSendable` has left bound the
recursion. -/
theorem clones_cloneValue (wellFormed : WellFormed base) {levels bound : ℕ}
    (enough : levels ≤ bound) {value : Value} (inHeap : InHeap base value)
    (isPart : ∃ depth, Part base message depth value)
    (isHeld : HeldAt base message start roots value) (sendable : isSendable base levels value) :
    Clones host base message start roots (cloneValue host bound value) fun later =>
      ValueAlike base later value := by
  induction levels generalizing bound value roots with
  | zero => cases sendable
  | succ levels ih =>
    cases bound with
    | zero => cases enough
    | succ bound =>
      cases value with
      | object ref =>
        have inside := inHeap ref rfl
        rw [isSendable, objectSendable_iff (wellFormed.backed ref inside)] at sendable
        obtain ⟨depth, isPart⟩ := isPart
        refine clones_cloneObject wellFormed inside ⟨depth, isPart⟩ isHeld sendable.1 ?_
        intro held mem
        have inner := mem_parts_of_mem_heldParts mem
        obtain ⟨around, rfl, isHeld⟩ := isHeld
        exact ih (Nat.le_of_succ_le_succ enough)
          (wellFormed.parts inside held.2 inner) ⟨_, isPart.trans_parts inner⟩
          ⟨around + held.1, Nat.add_assoc .., isHeld.inside mem⟩ (sendable.2 held.2 inner)
      | string bytes =>
        intro state cloning
        refine (clonesAt_allocLeaf cloning (.dynString bytes) (isHeld.rootsRunOut rfl)).mono ?_
        rintro later made ⟨ref, rfl, fresh⟩
        exact .string fresh
      | _ => exact .of_pure fun _ => .scalar (by rintro _ ⟨⟩) (by rintro _ ⟨⟩)

end Objects

/-- A message and what has been delivered for it, with the pairs of containers and copies. -/
structure Paired (base after : Heap) (message copy : Value) (pairs : List (Ref × Ref)) : Prop where
  /-- No container has two copies, and none is the copy of two containers. -/
  srcNodup : (pairs.map Prod.fst).Nodup
  dstNodup : (pairs.map Prod.snd).Nodup
  fresh : ∀ pair ∈ pairs, pair.1 < base.size ∧ base.size ≤ pair.2
  alike : ∀ pair ∈ pairs, Alike base ⟨after, pairs⟩ (base.objects pair.1) (after.objects pair.2)
  message : ValueAlike base ⟨after, pairs⟩ message copy

/-- The delivered value has the shape of the message. -/
def Isomorphic (base after : Heap) (message copy : Value) : Prop :=
  ∃ pairs, Paired base after message copy pairs

theorem forall₂_entries {base : Heap} {state : Copied} {entries copies : List MapEntry}
    (alike : List.Forall₂ (EntryAlike base state) entries copies) :
    List.Forall₂ (ValueAlike base state) (entries.flatMap fun entry => [entry.key, entry.value])
      (copies.flatMap fun entry => [entry.key, entry.value]) := by
  induction alike with
  | nil => exact .nil
  | cons head _ ih =>
    rw [flatMap_cons, flatMap_cons]
    exact .cons head.1 (.cons head.2 ih)

theorem forall₂_fields {base : Heap} {state : Copied} {fields copies : List MapEntry}
    (alike : List.Forall₂ (FieldAlike base state) fields copies) :
    List.Forall₂ (ValueAlike base state) (fields.map MapEntry.value)
      (copies.map MapEntry.value) := by
  rw [List.forall₂_map_left_iff, List.forall₂_map_right_iff]
  exact alike.imp fun _ _ fieldAlike => fieldAlike.2

variable {obj : Object}

theorem Alike.parts {base : Heap} {state : Copied} {copy : Object}
    (alike : Alike base state obj copy) (after : Heap) :
    List.Forall₂ (ValueAlike base state) (parts base obj) (parts after copy) := by
  cases alike with
  | array isArray alike =>
    rename_i items copies
    have partsEq : Messages.parts base obj = items := by
      cases obj with
      | array | arrayManaged | arrayView | arrayCapacity =>
        rw [Messages.parts, isArray, getD_some]
      | _ => cases isArray
    rw [partsEq]
    exact alike
  | map isMap alike =>
    rename_i entries copies
    have partsEq : Messages.parts base obj =
        entries.flatMap fun entry => [entry.key, entry.value] := by
      cases obj with
      | map | mapManaged | mapHashed => rw [Messages.parts, isMap, getD_some]
      | _ => cases isMap
    rw [partsEq]
    exact forall₂_entries alike
  | namedValue alike => exact .cons alike .nil
  | structInstance alike => exact forall₂_fields alike
  | smallStructInstance alike => exact alike
  | variantValue sharedAlike armAlike payloadAlike =>
    exact .cons payloadAlike (rel_append sharedAlike armAlike)

theorem exists_left {α β : Type} {related : α → β → Prop} {items : List α} {copies : List β}
    (all : List.Forall₂ related items copies) {copy : β} (listed : copy ∈ copies) :
    ∃ item ∈ items, related item copy := by
  induction all with
  | nil => cases listed
  | cons head _ ih =>
    rcases mem_cons.mp listed with rfl | listed
    · exact ⟨_, mem_cons_self, head⟩
    · obtain ⟨item, isItem, itemRelated⟩ := ih listed
      exact ⟨item, mem_cons_of_mem _ isItem, itemRelated⟩

variable {heap : Heap}

theorem container_of_part {part : Value} (isPart : part ∈ parts heap obj) : obj.Container := by
  cases obj with
  | dynString | stringView | stringBuilder | function | closure | cell | iterator | enumValue
  | namedErrorValue | shared => cases isPart
  | _ => trivial

variable {after : Heap} {copy : Value} {pairs : List (Ref × Ref)}

theorem Paired.paired {base : Heap} {message : Value}
    (paired : Paired base after message copy pairs) {depth : ℕ} {value part : Value}
    (isPart : Part base value depth part) :
    ∀ {made : Value}, ValueAlike base ⟨after, pairs⟩ value made → ∀ ref, part = .object ref →
      (base.objects ref).Container → ∃ dst, (ref, dst) ∈ pairs := by
  induction isPart with
  | self value =>
    rintro made alike ref rfl container
    cases alike with
    | scalar _ notObject => exact absurd rfl (notObject ref)
    | container _ isPair => exact ⟨_, isPair⟩
    | leaf leaf =>
      generalize base.objects ref = obj at leaf container
      cases obj with
      | dynString | stringView | stringBuilder | enumValue | namedErrorValue | shared =>
        exact absurd container id
      | _ => exact absurd leaf id
  | inside isPart _ ih =>
    intro made alike ref partEq container
    cases alike with
    | scalar _ notObject => exact absurd rfl (notObject _)
    | container _ isPair =>
      obtain ⟨made', _, alike'⟩ := exists_left ((paired.alike _ isPair).parts after).flip isPart
      exact ih alike' ref partEq container
    | leaf leaf =>
      have isContainer := container_of_part isPart
      revert leaf isContainer
      cases base.objects _ <;> simp [LeafAlike, Object.Container]

/-- The objects that a value reaches, types apart. -/
inductive Reaches (heap : Heap) : Value → Ref → Prop
  | self (ref : Ref) : Reaches heap (.object ref) ref
  | inside {ref target : Ref} {link : Value} :
      link ∈ links (heap.objects ref) → Reaches heap link target → Reaches heap (.object ref) target

/-- The objects that a program can change. -/
def Object.Mutable : Object → Prop
  | .array _ | .arrayManaged _ | .arrayView .. | .arrayCapacity .. | .map _ | .mapManaged _
  | .mapHashed .. | .structInstance .. | .smallStructInstance .. | .variantValue .. | .cell _
  | .stringBuilder _ | .iterator .. => True
  | _ => False

/-- What the delivered value and the sender both reach does not change. -/
structure Isolated (base after : Heap) (copy : Value) : Prop where
  /-- The sender's objects are as they were. -/
  objects : ∀ ref, ref < base.size → after.objects ref = base.objects ref
  disjoint : ∀ root ref, InHeap base root → Reaches after root ref → Reaches after copy ref →
    ¬(after.objects ref).Mutable

theorem Reaches.inHeap {base : Heap} (wellFormed : WellFormed base)
    (objects : ∀ ref, ref < base.size → after.objects ref = base.objects ref) {root : Value}
    {ref : Ref} (reaches : Reaches after root ref) (inHeap : InHeap base root) :
    ref < base.size := by
  induction reaches with
  | self ref => exact inHeap ref rfl
  | inside isLink _ ih =>
    have inside := inHeap _ rfl
    rw [objects _ inside] at isLink
    exact ih (wellFormed.links _ inside _ isLink)

theorem Alike.links {base : Heap} {state : Copied} {copy : Object}
    (alike : Alike base state obj copy) (constantKeys : ConstantKeys obj) {target : Ref}
    (isLink : .object target ∈ links copy) :
    ∃ part ∈ Messages.parts base obj, ValueAlike base state part (.object target) := by
  cases alike with
  | structInstance alike =>
    rename_i typ fields copies
    obtain ⟨field, listed, isLink⟩ := mem_flatMap.mp isLink
    obtain ⟨original, isOriginal, keyEq, valueAlike⟩ := exists_left alike listed
    rcases mem_cons.mp isLink with isKey | isValue
    · exact absurd (keyEq.symm.trans isKey.symm) (constantKeys original isOriginal target)
    · rw [mem_singleton.mp isValue]
      exact ⟨_, mem_map_of_mem isOriginal, valueAlike⟩
  | array isArray alike => exact exists_left ((Alike.array isArray alike).parts base) isLink
  | map isMap alike => exact exists_left ((Alike.map isMap alike).parts base) isLink
  | namedValue alike => exact exists_left (.cons alike .nil) isLink
  | smallStructInstance alike => exact exists_left alike isLink
  | variantValue sharedAlike armAlike payloadAlike =>
    exact exists_left (List.Forall₂.cons payloadAlike (rel_append sharedAlike armAlike)) isLink

/-- An object that a delivered value reaches is new, or is shared because it never changes. -/
theorem Paired.delivered {base : Heap} {message : Value}
    (paired : Paired base after message copy pairs) (wellFormed : WellFormed base)
    (objects : ∀ ref, ref < base.size → after.objects ref = base.objects ref) {made : Value}
    {target : Ref} (reaches : Reaches after made target) :
    ∀ {value : Value}, InHeap base value → ValueAlike base ⟨after, pairs⟩ value made →
      base.size ≤ target ∨ ∃ kind, after.objects target = .shared kind := by
  induction reaches with
  | self ref =>
    intro value inHeap alike
    cases alike with
    | scalar _ notObject => exact absurd rfl (notObject ref)
    | string fresh => exact .inl fresh.1
    | container _ isPair => exact .inl (paired.fresh _ isPair).2
    | leaf leaf =>
      rename_i src
      cases objEq : base.objects src with
      | shared kind =>
        rw [objEq] at leaf
        obtain rfl : ref = src := leaf
        exact .inr ⟨kind, (objects ref (inHeap ref rfl)).trans objEq⟩
      | dynString | stringView | enumValue | namedErrorValue =>
        rw [objEq] at leaf
        exact .inl leaf.1
      | stringBuilder =>
        rw [objEq] at leaf
        obtain ⟨copied, _, fresh⟩ := leaf
        exact .inl fresh.1
      | _ =>
        rw [objEq] at leaf
        exact absurd leaf id
  | inside isLink reaches ih =>
    rename_i ref target link
    intro value inHeap alike
    cases alike with
    | scalar _ notObject => exact absurd rfl (notObject ref)
    | string fresh =>
      rw [show after.objects ref = _ from fresh.2] at isLink
      cases isLink
    | container _ isPair =>
      obtain ⟨inside, -⟩ := paired.fresh _ isPair
      cases reaches
      all_goals
        obtain ⟨part, isPart, partAlike⟩ :=
          (paired.alike _ isPair).links (wellFormed.constantKeys _ inside) isLink
        exact ih (wellFormed.parts inside part isPart) partAlike
    | leaf leaf =>
      rename_i src
      cases objEq : base.objects src with
      | shared kind =>
        rw [objEq] at leaf
        obtain rfl : ref = src := leaf
        rw [objects ref (inHeap ref rfl), objEq] at isLink
        cases isLink
      | dynString | stringView | enumValue | namedErrorValue =>
        rw [objEq] at leaf
        rw [show after.objects ref = _ from leaf.2] at isLink
        cases isLink
      | stringBuilder =>
        rw [objEq] at leaf
        obtain ⟨copied, _, fresh⟩ := leaf
        rw [show after.objects ref = _ from fresh.2] at isLink
        cases isLink
      | _ =>
        rw [objEq] at leaf
        exact absurd leaf id

theorem Paired.isolated {base : Heap} {message : Value}
    (paired : Paired base after message copy pairs) (wellFormed : WellFormed base)
    (objects : ∀ ref, ref < base.size → after.objects ref = base.objects ref)
    (inHeap : InHeap base message) : Isolated base after copy := by
  refine ⟨objects, fun root ref rootInHeap fromRoot fromCopy => ?_⟩
  have older := fromRoot.inHeap wellFormed objects rootInHeap
  rcases paired.delivered wellFormed objects fromCopy inHeap paired.message with newer | ⟨kind, eq⟩
  · exact absurd older (Nat.not_lt.mpr newer)
  · rw [eq]
    exact id

section Memory

variable {host : Host} {β γ : Type}

/-- The same host with all the memory that is asked for. -/
def Host.granting (host : Host) : Host :=
  { host with grants := fun _ => true }

/-- A step of one host, and the step of another that has all the memory: they go apart only where
an object is refused, and then the other's heap has that object if it comes to an end. -/
structure Follows (host : Host) (program granted : CloneM β) : Prop where
  grows : ∀ state made after, granted state = .ok (made, after) →
    state.heap.size ≤ after.heap.size
  follows : ∀ state, program state = granted state ∨
    program state = .error .outOfMemory ∧ ∃ ref, host.grants ref = false ∧
      state.heap.size ≤ ref ∧
      ∀ made after, granted state = .ok (made, after) → ref < after.heap.size

namespace Follows

theorem same {program : CloneM β} (grows : ∀ state made after, program state = .ok (made, after) →
    state.heap.size ≤ after.heap.size) : Follows host program program :=
  ⟨grows, fun _ => .inl rfl⟩

theorem pure (made : β) : Follows host (pure made) (pure made) := by
  apply same
  rintro state made after ⟨⟩
  exact Nat.le_refl _

theorem throw (err : CloneError) : Follows host (throw err : CloneM β) (throw err) := by
  apply same
  rintro state made after ⟨⟩

theorem bind {program granted : CloneM β} {next next' : β → CloneM γ}
    (first : Follows host program granted) (rest : ∀ made, Follows host (next made) (next' made)) :
    Follows host (program >>= next) (granted >>= next') := by
  have runs (steps : CloneM β) (later : β → CloneM γ) (state : CloneState) :
      (steps >>= later) state = steps state >>= fun made => later made.1 made.2 := rfl
  constructor
  · intro state last after ends
    rw [runs] at ends
    obtain ⟨⟨made, middle⟩, firstEnds, restEnds⟩ := bind_eq_ok.mp ends
    exact Nat.le_trans (first.grows _ _ _ firstEnds) ((rest made).grows _ _ _ restEnds)
  · intro state
    rw [runs, runs]
    rcases first.follows state with same | ⟨fails, ref, refused, low, within⟩
    · rw [same]
      cases ends : granted state with
      | error err => exact .inl rfl
      | ok found =>
        rcases (rest found.1).follows found.2 with same | ⟨fails, ref, refused, low, within⟩
        · exact .inl same
        · exact .inr ⟨fails, ref, refused, Nat.le_trans (first.grows _ _ _ ends) low, within⟩
    · refine .inr ⟨by rw [fails]; rfl, ref, refused, low, fun last after ends => ?_⟩
      obtain ⟨⟨made, middle⟩, firstEnds, restEnds⟩ := bind_eq_ok.mp ends
      exact Nat.lt_of_lt_of_le (within _ _ firstEnds) ((rest made).grows _ _ _ restEnds)

theorem mapM {α : Type} {items : List α} {step step' : α → CloneM β}
    (each : ∀ item, Follows host (step item) (step' item)) :
    Follows host (items.mapM step) (items.mapM step') := by
  induction items with
  | nil => exact pure []
  | cons item items ih =>
    rw [mapM_cons, mapM_cons]
    exact (each item).bind fun made => ih.bind fun others => pure (made :: others)

theorem allocObject (obj : Object) :
    Follows host (allocObject host obj) (allocObject host.granting obj) := by
  constructor
  · rintro state made after ⟨⟩
    exact Nat.le_succ _
  · intro state
    by_cases granted : host.grants state.heap.size
    · left
      rw [Messages.allocObject, if_pos granted]
      rfl
    · refine .inr ⟨by rw [Messages.allocObject, if_neg granted], _, eq_false_of_ne_true granted,
        Nat.le_refl _, ?_⟩
      rintro made after ⟨⟩
      exact Nat.lt_succ_self _

theorem pushTempRoot : Follows host pushTempRoot pushTempRoot := by
  apply same
  intro state made after ends
  rw [Messages.pushTempRoot] at ends
  split at ends
  · cases ends
  · cases ends
    exact Nat.le_refl _

theorem popTempRoot : Follows host popTempRoot popTempRoot := by
  apply same
  rintro state made after ⟨⟩
  exact Nat.le_refl _

theorem cloneRemember (src dst : Ref) :
    Follows host (cloneRemember src dst) (cloneRemember src dst) := by
  apply same
  intro state made after ends
  rw [Messages.cloneRemember] at ends
  split at ends
  · cases ends
  · cases ends
    exact Nat.le_refl _

theorem setObject (ref : Ref) (obj : Object) :
    Follows host (setObject ref obj) (setObject ref obj) := by
  apply same
  rintro state made after ⟨⟩
  exact Nat.le_refl _

theorem leaf (obj : Object) :
    Follows host (do let ref ← Messages.allocObject host obj; return Value.object ref)
      (do let ref ← Messages.allocObject host.granting obj; return Value.object ref) :=
  (allocObject obj).bind fun ref => pure (Value.object ref)

theorem allocLeaf (obj : Object) :
    Follows host (allocLeaf host obj) (allocLeaf host.granting obj) :=
  (allocObject obj).bind fun ref => pushTempRoot.bind fun _ => popTempRoot.bind fun _ =>
    pure (Value.object ref)

variable {clone clone' : Value → CloneM Value} {src : Ref}

theorem cloneContainer {placeholder : Object} {cloneParts cloneParts' : CloneM Object}
    (parts : Follows host cloneParts cloneParts') :
    Follows host (cloneContainer host src placeholder cloneParts)
      (cloneContainer host.granting src placeholder cloneParts') :=
  (allocObject placeholder).bind fun dst => pushTempRoot.bind fun _ =>
    (cloneRemember src dst).bind fun _ => parts.bind fun copy => (setObject dst copy).bind fun _ =>
      popTempRoot.bind fun _ => pure (Value.object dst)

section

variable (each : ∀ value, Follows host (clone value) (clone' value))
include each

theorem cloneEntry (entry : MapEntry) :
    Follows host (cloneEntry clone entry) (cloneEntry clone' entry) :=
  (each entry.key).bind fun key => pushTempRoot.bind fun _ => (each entry.value).bind fun value =>
    popTempRoot.bind fun _ => pure (MapEntry.mk key value)

theorem cloneField (field : MapEntry) :
    Follows host (cloneField clone field) (cloneField clone' field) :=
  (each field.value).bind fun value => pure (MapEntry.mk field.key value)

theorem cloneNew (heap : Heap) (obj : Object) :
    Follows host (cloneNew host clone src heap obj)
      (cloneNew host.granting clone' src heap obj) := by
  cases obj with
  | array | arrayManaged | arrayView | arrayCapacity =>
    rw [Messages.cloneNew, Messages.cloneNew]
    cases asArraySlice heap _ with
    | none => exact throw _
    | some items =>
      exact cloneContainer ((mapM each).bind fun items => pure (Object.arrayManaged items))
  | map | mapManaged | mapHashed =>
    rw [Messages.cloneNew, Messages.cloneNew]
    cases asMapSlice _ with
    | none => exact throw _
    | some entries =>
      exact cloneContainer ((mapM (cloneEntry each)).bind fun entries => pure (Object.map entries))
  | dynString | stringView => exact allocLeaf _
  | stringBuilder =>
    constructor
    · exact fun state => (allocLeaf _).grows state
    · exact fun state => (allocLeaf _).follows state
  | function | closure | cell | iterator | shared => exact pure _
  | enumValue | namedErrorValue => exact leaf _
  | namedValue typ value =>
    exact cloneContainer ((each value).bind fun value => pure (Object.namedValue typ value))
  | structInstance typ fields =>
    exact cloneContainer
      ((mapM (cloneField each)).bind fun fields => pure (Object.structInstance typ fields))
  | smallStructInstance typ values =>
    exact cloneContainer
      ((mapM each).bind fun values => pure (Object.smallStructInstance typ values))
  | variantValue typ tag ordinal payload sharedValues armFields =>
    exact cloneContainer ((mapM each).bind fun sharedValues => (mapM each).bind fun armFields =>
      (each payload).bind fun payload =>
        pure (Object.variantValue typ tag ordinal payload sharedValues armFields))

theorem cloneObject : Follows host (cloneObject host clone src)
    (cloneObject host.granting clone' src) := by
  constructor
  · intro state made after ends
    rw [Messages.cloneObject] at ends
    split at ends
    · cases ends
      exact Nat.le_refl _
    · exact (cloneNew each _ _).grows _ _ _ ends
  · intro state
    rw [Messages.cloneObject, Messages.cloneObject]
    cases cloneFindExisting src state.visits with
    | some dst => exact .inl rfl
    | none => exact (cloneNew each _ _).follows state

end

theorem cloneValue (bound : ℕ) (value : Value) :
    Follows host (cloneValue host bound value) (cloneValue host.granting bound value) := by
  induction bound generalizing value with
  | zero => exact throw _
  | succ bound ih =>
    cases value with
    | string bytes => exact allocLeaf _
    | object ref => exact cloneObject ih
    | _ => exact pure _

end Follows

end Memory

/-- The copy of a message that a send puts into a mailbox: it is rooted when it has been made. -/
def sendCopy (host : Host) (heap : Heap) (tempRoots bound : ℕ) (message : Value) : Option Value :=
  if Tasks.maxTempRoots ≤ tempRoots then none
  else (checkSendableAndClone host heap tempRoots message bound).toOption.map Prod.fst

/-- There is no memory for one of the objects that the copy has. -/
def Host.Refuses (host : Host) (heap : Heap) (tempRoots : ℕ) (message : Value) (bound : ℕ) : Prop :=
  ∃ copy after ref,
    checkSendableAndClone host.granting heap tempRoots message bound = .ok (copy, after) ∧
      heap.size ≤ ref ∧ ref < after.size ∧ host.grants ref = false

/-- What the check and the copy of a message come to. -/
structure Delivery (host : Host) (heap : Heap) (tempRoots : ℕ) (message : Value) (bound : ℕ) :
    Prop where
  /-- A message is refused exactly when a part is of an unsendable kind or lies too deep. -/
  refused : checkSendableAndClone host heap tempRoots message bound = .error .notSendable ↔
    ∃ depth part, Part heap message depth part ∧ (maxSendDepth ≤ depth ∨ Unsendable heap part)
  /-- Otherwise only the memory for its copy, the table of copies or the table of temporary roots
  runs out. -/
  failed : ∀ err, checkSendableAndClone host heap tempRoots message bound = .error err →
    err = .notSendable ∨ host.Refuses heap tempRoots message bound ∨ TooMany heap message ∨
      RootsRunOut heap tempRoots message
  /-- A send that fails changes no mailbox. -/
  mailboxes : sendCopy host heap tempRoots bound message = none →
    ∀ (tasks : Tasks.State Value) (target : Tasks.ActorRef) (grants : Tasks.State.Grants),
      (tasks.send (sendCopy host heap tempRoots bound) target message grants).2 = tasks
  delivered : ∀ copy after,
    checkSendableAndClone host heap tempRoots message bound = .ok (copy, after) →
      ¬TooMany heap message ∧ Isomorphic heap after message copy ∧ Isolated heap after copy

theorem cloning_start (heap : Heap) (message : Value) (tempRoots : ℕ) :
    Cloning heap message tempRoots ⟨⟨heap, []⟩, tempRoots⟩ := by
  refine ⟨rfl, Nat.le_refl _, fun _ _ => rfl, ⟨?_, ?_, .nil, .nil, Nat.zero_le _⟩⟩
  · exact fun _ listed => absurd listed not_mem_nil
  · exact fun _ listed => absurd listed not_mem_nil

/-- The table of copies at the end, when the message has been cloned. -/
theorem paired_of_cloned {message : Value} {tempRoots : ℕ} {state : CloneState}
    (cloning : Cloning heap message tempRoots state)
    (grown : Grown heap ⟨heap, []⟩ state.toCopied)
    (alike : ∀ later, Keeps heap ⟨heap, []⟩ state.toCopied later →
      ValueAlike heap later message copy) :
    Paired heap state.heap message copy state.visits := by
  have keeps : Keeps heap ⟨heap, []⟩ state.toCopied state.toCopied :=
    ⟨fun _ _ _ => rfl, cloning.objects, fun _ listed => listed⟩
  refine ⟨cloning.visited.srcNodup, cloning.visited.dstNodup, ?_, ?_, alike _ keeps⟩
  · exact fun pair isPair =>
      ⟨(cloning.visited.src pair isPair).1, (cloning.visited.dst pair isPair).1⟩
  · exact fun pair isPair => grown.alike _ keeps pair isPair (not_mem_nil)

theorem Paired.not_tooMany {message : Value} (paired : Paired heap after message copy pairs)
    (few : pairs.length ≤ maxDeepVisits) : ¬TooMany heap message := by
  rintro ⟨refs, nodup, many, all⟩
  have contained : refs ⊆ pairs.map Prod.fst := by
    intro ref listed
    obtain ⟨container, depth, isPart⟩ := all ref listed
    obtain ⟨dst, isPair⟩ := paired.paired isPart paired.message ref rfl container
    exact mem_map_of_mem isPair
  have bounded := (subperm_of_subset nodup contained).length_le
  rw [length_map] at bounded
  exact absurd (Nat.le_trans bounded few) (Nat.not_le.mpr many)

/-- A message that may be sent is cloned, unless memory or a table runs out. -/
theorem cloneValue_of_sendable (host : Host) {message : Value} {bound : ℕ} (tempRoots : ℕ)
    (wellFormed : WellFormed heap) (inHeap : InHeap heap message) (enough : maxSendDepth ≤ bound)
    (sendable : isSendable heap maxSendDepth message) :
    Meets (cloneValue host bound message) ⟨⟨heap, []⟩, tempRoots⟩
      (fun copy state => ¬TooMany heap message ∧ Isomorphic heap state.heap message copy ∧
        Isolated heap state.heap copy)
      (Fails host heap message tempRoots) := by
  have isPart : ∃ depth, Part heap message depth message := ⟨0, .self message⟩
  have cloned : Clones host heap message tempRoots tempRoots (cloneValue host bound message)
      fun later => ValueAlike heap later message :=
    clones_cloneValue wellFormed enough inHeap isPart ⟨0, rfl, .self⟩ sendable
  refine Meets.mono (cloned _ (cloning_start heap message tempRoots))
    fun copy state ⟨cloning, grown, alike⟩ => ?_
  have paired := paired_of_cloned cloning grown alike
  exact ⟨paired.not_tooMany cloning.visited.few, ⟨_, paired⟩,
    paired.isolated wellFormed cloning.objects inHeap⟩

theorem send_of_none {host : Host} {message : Value} {tempRoots bound : ℕ}
    (none_ : sendCopy host heap tempRoots bound message = none)
    (tasks : Tasks.State Value) (target : Tasks.ActorRef) (grants : Tasks.State.Grants) :
    (tasks.send (sendCopy host heap tempRoots bound) target message grants).2 = tasks := by
  apply Tasks.send_dropped
  rintro ⟨idx, cloned, -, isCloned, -⟩
  rw [none_] at isCloned
  cases isCloned

theorem checkSendableAndClone_of_sendable (host : Host) {message : Value} (tempRoots bound : ℕ)
    (sendable : isSendable heap maxSendDepth message) :
    checkSendableAndClone host heap tempRoots message bound =
      (cloneValue host bound message ⟨⟨heap, []⟩, tempRoots⟩).map fun made =>
        (made.1, made.2.heap) := by
  rw [checkSendableAndClone, if_neg (not_not.mpr sendable)]
  cases cloneValue host bound message ⟨⟨heap, []⟩, tempRoots⟩ <;> rfl

/-- If the copying of a message fails that may be sent, there is no memory for one of the objects
that the copy has, or a table is too small. -/
theorem failed_of_sendable {host : Host} {message : Value} {tempRoots bound : ℕ} {err : CloneError}
    (wellFormed : WellFormed heap) (inHeap : InHeap heap message) (enough : maxSendDepth ≤ bound)
    (sendable : isSendable heap maxSendDepth message)
    (fails : cloneValue host bound message ⟨⟨heap, []⟩, tempRoots⟩ = .error err) :
    host.Refuses heap tempRoots message bound ∨ TooMany heap message ∨
      RootsRunOut heap tempRoots message := by
  have cloned := cloneValue_of_sendable host.granting tempRoots wellFormed inHeap enough sendable
  have ofGranted : ∀ err', cloneValue host.granting bound message ⟨⟨heap, []⟩, tempRoots⟩ =
      .error err' → TooMany heap message ∨ RootsRunOut heap tempRoots message := by
    intro err' fails'
    rcases cloned.failure_of_error fails' with ⟨-, ⟨ref, refused⟩ | tooMany⟩ | ⟨-, runsOut⟩
    · exact absurd rfl refused
    · exact .inl tooMany
    · exact .inr runsOut
  rcases (Follows.cloneValue bound message).follows ⟨⟨heap, []⟩, tempRoots⟩ with
    same | ⟨-, ref, refused, low, within⟩
  · exact .inr (ofGranted err (same ▸ fails))
  · cases granted : cloneValue host.granting bound message ⟨⟨heap, []⟩, tempRoots⟩ with
    | error err' => exact .inr (ofGranted err' granted)
    | ok made =>
      refine .inl ⟨made.1, made.2.heap, ref, ?_, low, within _ _ granted, refused⟩
      rw [checkSendableAndClone_of_sendable _ _ _ sendable, granted]
      rfl

/-- Every message in every heap is delivered so; the recursion needs no more levels than
the check allows. -/
theorem delivery_checkSendableAndClone {host : Host} {heap : Heap} {tempRoots : ℕ}
    {message : Value} {bound : ℕ} (wellFormed : WellFormed heap) (inHeap : InHeap heap message)
    (enough : maxSendDepth ≤ bound) : Delivery host heap tempRoots message bound := by
  have sendableIff : isSendable heap maxSendDepth message ↔ _ := isSendable_iff wellFormed inHeap
  by_cases sendable : isSendable heap maxSendDepth message
  · have cloned := cloneValue_of_sendable host tempRoots wellFormed inHeap enough sendable
    have allSendable := sendableIff.mp sendable
    have notRefused : ¬∃ depth part, Part heap message depth part ∧
        (maxSendDepth ≤ depth ∨ Unsendable heap part) := by
      rintro ⟨depth, part, isPart, tooDeep | unsendable⟩
      · exact absurd (allSendable depth part isPart).1 (Nat.not_lt.mpr tooDeep)
      · exact (allSendable depth part isPart).2 unsendable
    have runs := checkSendableAndClone_of_sendable host tempRoots bound sendable
    cases cloneEq : cloneValue host bound message ⟨⟨heap, []⟩, tempRoots⟩ with
    | error err =>
      rw [cloneEq] at runs
      constructor
      · refine iff_of_false (fun isNotSendable => ?_) notRefused
        rw [runs] at isNotSendable
        cases isNotSendable
        rcases cloned.failure_of_error cloneEq with ⟨wrong, -⟩ | ⟨wrong, -⟩ <;> cases wrong
      · exact fun _ _ => .inr (failed_of_sendable wellFormed inHeap enough sendable cloneEq)
      · exact send_of_none
      · intro copy after succeeds
        rw [runs] at succeeds
        cases succeeds
    | ok made =>
      rw [cloneEq] at runs
      constructor
      · refine iff_of_false (fun isNotSendable => ?_) notRefused
        rw [runs] at isNotSendable
        cases isNotSendable
      · intro err fails
        rw [runs] at fails
        cases fails
      · exact send_of_none
      · intro copy after succeeds
        rw [runs] at succeeds
        cases succeeds
        exact cloned.post_of_ok cloneEq
  · have runs : checkSendableAndClone host heap tempRoots message bound = .error .notSendable := by
      rw [checkSendableAndClone, if_pos sendable]
    constructor
    · refine iff_of_true runs ?_
      by_contra none
      refine sendable (sendableIff.mpr fun depth part isPart => ⟨?_, fun unsendable => ?_⟩)
      · exact Nat.lt_of_not_le fun tooDeep => none ⟨depth, part, isPart, .inl tooDeep⟩
      · exact none ⟨depth, part, isPart, .inr unsendable⟩
    · intro err fails
      rw [runs] at fails
      cases fails
      exact .inl rfl
    · exact send_of_none
    · intro copy after succeeds
      rw [runs] at succeeds
      cases succeeds

/-- A host with all the memory that is asked for, where no block moves. -/
def roomy : Host :=
  ⟨fun _ => true, fun _ _ byte => byte⟩

/-- A heap with an array of a string and of a builder. -/
def smallHeap : Heap where
  objects ref := if ref = 0 then .array [.string [104, 105], .object 1] else .stringBuilder [33]
  size := 2

theorem delivery_smallHeap : Delivery roomy smallHeap 0 (.object 0) maxSendDepth := by
  refine delivery_checkSendableAndClone ⟨?_, ?_, ?_⟩ ?_ (Nat.le_refl _)
  · rintro (_ | _ | ref) less link isLink
    · rintro ref rfl
      obtain rfl : ref = 1 := by simpa [smallHeap, links] using isLink
      decide
    · cases isLink
    · cases isLink
  · rintro (_ | _ | ref) _ <;> trivial
  · rintro (_ | _ | ref) _ <;> trivial
  · rintro ref ⟨⟩
    decide

/-- Messages are isolated, and only those with a part of an unsendable kind are refused. -/
def MessagesIsolated : Prop :=
  ∀ (host : Host) (heap : Heap) (tempRoots : ℕ) (message : Value) (bound : ℕ), WellFormed heap →
    InHeap heap message → maxSendDepth ≤ bound → ¬host.Scarce →
      (∀ copy after, checkSendableAndClone host heap tempRoots message bound = .ok (copy, after) →
        Isomorphic heap after message copy ∧ Isolated heap after copy) ∧
      ((∃ err, checkSendableAndClone host heap tempRoots message bound = .error err) ↔
        ∃ depth part, Part heap message depth part ∧ Unsendable heap part)

/-- Arrays within one another, as deep as the check goes. -/
def deepHeap : Heap where
  objects ref := if ref < maxSendDepth then .array [.object (ref + 1)] else .array []
  size := maxSendDepth + 1

theorem wellFormed_deepHeap : WellFormed deepHeap := by
  constructor
  · intro ref less link isLink target targetEq
    rw [deepHeap] at isLink
    dsimp only at isLink
    split at isLink
    · rename_i inner
      rw [links, mem_singleton] at isLink
      rw [isLink] at targetEq
      cases targetEq
      exact Nat.succ_lt_succ inner
    · cases isLink
  · intro ref less
    rw [deepHeap]
    dsimp only
    split <;> trivial
  · intro ref less
    rw [deepHeap]
    dsimp only
    split <;> trivial

/-- Arrays alone are refused when they lie too deep. -/
theorem not_messagesIsolated : ¬MessagesIsolated := by
  intro isolated
  have refused : checkSendableAndClone roomy deepHeap 0 (.object 0) maxSendDepth =
      .error .notSendable := rfl
  have inHeap : InHeap deepHeap (.object 0) := by
    rintro ref ⟨⟩
    decide
  have granted : ¬roomy.Scarce := fun ⟨_, refuses⟩ => refuses rfl
  obtain ⟨-, fails⟩ := isolated roomy deepHeap 0 (.object 0) maxSendDepth wellFormed_deepHeap
    inHeap (Nat.le_refl _) granted
  obtain ⟨depth, part, -, unsendable⟩ := fails.mp ⟨_, refused⟩
  cases part with
  | object ref =>
    rw [Unsendable, deepHeap] at unsendable
    dsimp only at unsendable
    split at unsendable <;> exact unsendable
  | _ => exact unsendable

end Gengo.Messages
