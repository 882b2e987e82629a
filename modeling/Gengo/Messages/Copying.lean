import Gengo.Fallible.Sequencing
import Gengo.Messages.Sendable
import Mathlib.Data.List.Nodup

/-!
# What a copy is

A copy is told by the pairs of containers and their copies: their parts correspond, in
order. Cloning a part of a message keeps the objects there are, and pairs the containers
that it copies; nothing that is done to other objects afterwards undoes that.
-/

namespace Gengo.Messages

open Fallible List Function Nat

/-- The objects whose copies are remembered. -/
def Object.Container : Object → Prop
  | .array _ | .arrayManaged _ | .arrayView .. | .arrayCapacity .. | .map _ | .mapManaged _
  | .mapHashed .. | .namedValue .. | .structInstance .. | .smallStructInstance ..
  | .variantValue .. => True
  | _ => False

section Correspondence

variable (base : Heap) (state : Copied)

/-- An object that has been allocated since. -/
def Fresh (ref : Ref) (obj : Object) : Prop :=
  base.size ≤ ref ∧ state.heap.objects ref = obj

/-- An object that is not a container, and its copy. -/
def LeafAlike (src dst : Ref) : Object → Prop
  | .dynString bytes => Fresh base state dst (.dynString bytes)
  | .stringView bytes _ => Fresh base state dst (.dynString bytes)
  | .stringBuilder bytes =>
    ∃ copied, copied.length = bytes.length ∧ Fresh base state dst (.stringBuilder copied)
  | .enumValue typ name ordinal => Fresh base state dst (.enumValue typ name ordinal)
  | .namedErrorValue typ msg => Fresh base state dst (.namedErrorValue typ msg)
  | .shared _ => dst = src
  | _ => False

/-- A value and its copy: the same scalar, the same string, a container and the copy that it
is paired with, or another object and its own copy. -/
inductive ValueAlike : Value → Value → Prop
  | scalar {value : Value} (notString : ∀ bytes, value ≠ .string bytes)
      (notObject : ∀ ref, value ≠ .object ref) : ValueAlike value value
  | string {bytes : List UInt8} {dst : Ref} (fresh : Fresh base state dst (.dynString bytes)) :
      ValueAlike (.string bytes) (.object dst)
  | container {src dst : Ref} (container : (base.objects src).Container)
      (paired : (src, dst) ∈ state.visits) : ValueAlike (.object src) (.object dst)
  | leaf {src dst : Ref} (leaf : LeafAlike base state src dst (base.objects src)) :
      ValueAlike (.object src) (.object dst)

def EntryAlike (entry copy : MapEntry) : Prop :=
  ValueAlike base state entry.key copy.key ∧ ValueAlike base state entry.value copy.value

def FieldAlike (field copy : MapEntry) : Prop :=
  copy.key = field.key ∧ ValueAlike base state field.value copy.value

/-- A container and its copy. -/
inductive Alike : Object → Object → Prop
  | array {obj : Object} {items copies : List Value} (isArray : asArraySlice base obj = some items)
      (alike : List.Forall₂ (ValueAlike base state) items copies) :
      Alike obj (.arrayManaged copies)
  | map {obj : Object} {entries copies : List MapEntry} (isMap : asMapSlice obj = some entries)
      (alike : List.Forall₂ (EntryAlike base state) entries copies) : Alike obj (.map copies)
  | namedValue {typ : Ref} {value copy : Value} (alike : ValueAlike base state value copy) :
      Alike (.namedValue typ value) (.namedValue typ copy)
  | structInstance {typ : Ref} {fields copies : List MapEntry}
      (alike : List.Forall₂ (FieldAlike base state) fields copies) :
      Alike (.structInstance typ fields) (.structInstance typ copies)
  | smallStructInstance {typ : Ref} {values copies : List Value}
      (alike : List.Forall₂ (ValueAlike base state) values copies) :
      Alike (.smallStructInstance typ values) (.smallStructInstance typ copies)
  | variantValue {typ : Ref} {tag : List UInt8} {ordinal : ℕ} {payload copy : Value}
      {sharedValues sharedCopies armFields armCopies : List Value}
      (sharedAlike : List.Forall₂ (ValueAlike base state) sharedValues sharedCopies)
      (armAlike : List.Forall₂ (ValueAlike base state) armFields armCopies)
      (payloadAlike : ValueAlike base state payload copy) :
      Alike (.variantValue typ tag ordinal payload sharedValues armFields)
        (.variantValue typ tag ordinal copy sharedCopies armCopies)

end Correspondence

/-- More distinct containers in a message than can be remembered. -/
def TooMany (heap : Heap) (message : Value) : Prop :=
  ∃ refs : List Ref, refs.Nodup ∧ maxDeepVisits < refs.length ∧
    ∀ ref ∈ refs, (heap.objects ref).Container ∧ ∃ depth, Part heap message depth (.object ref)

/-- There is memory for some objects only. -/
def Host.Scarce (host : Host) : Prop :=
  ∃ ref, ¬host.grants ref

section Cloning

variable (host : Host) (base : Heap) (message : Value) (start roots : ℕ)

/-- What has been paired so far. -/
structure Visited (visits : List (Ref × Ref)) (size : ℕ) : Prop where
  src : ∀ visit ∈ visits, visit.1 < base.size ∧ (base.objects visit.1).Container ∧
    ∃ depth, Part base message depth (.object visit.1)
  dst : ∀ visit ∈ visits, base.size ≤ visit.2 ∧ visit.2 < size
  srcNodup : (visits.map Prod.fst).Nodup
  dstNodup : (visits.map Prod.snd).Nodup
  few : visits.length ≤ maxDeepVisits

/-- The heap is an extension of the one at the start, and there are so many temporary roots. -/
structure Cloning (state : CloneState) : Prop where
  tempRoots : state.tempRoots = roots
  size : base.size ≤ state.heap.size
  objects : ∀ ref, ref < base.size → state.heap.objects ref = base.objects ref
  visited : Visited base message state.visits state.heap.size

/-- A later state keeps what has been made between two states. -/
structure Keeps (before after later : Copied) : Prop where
  made : ∀ ref, before.heap.size ≤ ref → ref < after.heap.size →
    later.heap.objects ref = after.heap.objects ref
  objects : ∀ ref, ref < base.size → later.heap.objects ref = base.objects ref
  visits : ∀ visit ∈ after.visits, visit ∈ later.visits

/-- Only new objects are written, and the containers paired since then have their copies. -/
structure Grown (before after : Copied) : Prop where
  size : before.heap.size ≤ after.heap.size
  objects : ∀ ref, ref < before.heap.size → after.heap.objects ref = before.heap.objects ref
  visits : ∀ visit ∈ before.visits, visit ∈ after.visits
  alike : ∀ later, Keeps base before after later → ∀ visit ∈ after.visits,
    visit ∉ before.visits → Alike base later (base.objects visit.1) (later.heap.objects visit.2)

/-- The errors there can be. -/
def Fails (err : CloneError) : Prop :=
  err = .outOfMemory ∧ (host.Scarce ∨ TooMany base message) ∨
    err = .badTempRootDiscipline ∧ RootsRunOut base start message

/-- What cloning a part ensures when it starts in a state with so many temporary roots. -/
def ClonesAt {β : Type} (program : CloneM β) (result : Copied → β → Prop)
    (state : CloneState) : Prop :=
  Meets program state
    (fun made after => Cloning base message roots after ∧ Grown base state.toCopied after.toCopied ∧
      ∀ later, Keeps base state.toCopied after.toCopied later → result later made)
    (Fails host base message start)

/-- What cloning a part ensures. -/
def Clones {β : Type} (program : CloneM β) (result : Copied → β → Prop) : Prop :=
  ∀ state, Cloning base message roots state →
    ClonesAt host base message start roots program result state

end Cloning

section Rules

variable {host : Host} {base : Heap} {message : Value} {start roots : ℕ}

theorem Grown.refl (copied : Copied) : Grown base copied copied := by
  constructor
  · exact Nat.le_refl _
  · exact fun _ _ => rfl
  · exact fun _ listed => listed
  · exact fun _ _ visit listed unlisted => absurd listed unlisted

theorem Keeps.trans_left {before middle after later : Copied}
    (second : Grown base middle after) (keeps : Keeps base before after later) :
    Keeps base before middle later := by
  constructor
  · intro ref low high
    rw [keeps.made ref low (Nat.lt_of_lt_of_le high second.size), second.objects ref high]
  · exact keeps.objects
  · exact fun visit listed => keeps.visits visit (second.visits visit listed)

theorem Keeps.trans_right {before middle after later : Copied}
    (first : Grown base before middle) (keeps : Keeps base before after later) :
    Keeps base middle after later := by
  constructor
  · exact fun ref low high => keeps.made ref (Nat.le_trans first.size low) high
  · exact keeps.objects
  · exact keeps.visits

theorem Grown.trans {before middle after : Copied} (first : Grown base before middle)
    (second : Grown base middle after) : Grown base before after := by
  constructor
  · exact Nat.le_trans first.size second.size
  · intro ref less
    rw [second.objects ref (Nat.lt_of_lt_of_le less first.size), first.objects ref less]
  · exact fun visit listed => second.visits visit (first.visits visit listed)
  · intro later keeps visit listed unlisted
    by_cases between : visit ∈ middle.visits
    · exact first.alike later (keeps.trans_left second) visit between unlisted
    · exact second.alike later (keeps.trans_right first) visit listed between

theorem Clones.of_pure {β : Type} {made : β} {result : Copied → β → Prop}
    (holds : ∀ state, result state made) :
    Clones host base message start roots (pure made) result :=
  fun _ cloning => Meets.of_pure ⟨cloning, Grown.refl _, fun later _ => holds later⟩

theorem Clones.pure_eq {β : Type} (made : β) :
    Clones host base message start roots (pure made) fun _ result => result = made :=
  .of_pure fun _ => rfl

theorem ClonesAt.bind {β γ : Type} {program : CloneM β} {next : β → CloneM γ}
    {result : Copied → β → Prop} {result' : β → Copied → γ → Prop} {state : CloneState}
    (clones : ClonesAt host base message start roots program result state)
    (step : ∀ made, Clones host base message start roots (next made) (result' made)) :
    ClonesAt host base message start roots (program >>= next)
      (fun later last => ∃ made, result later made ∧ result' made later last) state := by
  refine Meets.bind clones fun made middle ⟨cloning, grown, holds⟩ => ?_
  refine (step made middle cloning).mono fun last after ⟨cloning', grown', holds'⟩ => ?_
  refine ⟨cloning', grown.trans grown', fun later keeps => ⟨made, ?_, ?_⟩⟩
  · exact holds later (keeps.trans_left grown')
  · exact holds' later (keeps.trans_right grown)

theorem Clones.bind {β γ : Type} {program : CloneM β} {next : β → CloneM γ}
    {result : Copied → β → Prop} {result' : β → Copied → γ → Prop}
    (clones : Clones host base message start roots program result)
    (step : ∀ made, Clones host base message start roots (next made) (result' made)) :
    Clones host base message start roots (program >>= next)
      fun later last => ∃ made, result later made ∧ result' made later last :=
  fun state cloning => (clones state cloning).bind step

theorem ClonesAt.mono {β : Type} {program : CloneM β} {result result' : Copied → β → Prop}
    {state : CloneState} (clones : ClonesAt host base message start roots program result state)
    (weaker : ∀ later made, result later made → result' later made) :
    ClonesAt host base message start roots program result' state :=
  Meets.mono clones fun made _ ⟨cloning', grown, holds⟩ =>
    ⟨cloning', grown, fun later keeps => weaker later made (holds later keeps)⟩

theorem Clones.mono {β : Type} {program : CloneM β} {result result' : Copied → β → Prop}
    (clones : Clones host base message start roots program result)
    (weaker : ∀ later made, result later made → result' later made) :
    Clones host base message start roots program result' :=
  fun state cloning => (clones state cloning).mono weaker

theorem Clones.mapM {α β : Type} {items : List α} {step : α → CloneM β}
    {result : Copied → α → β → Prop}
    (each : ∀ item ∈ items, Clones host base message start roots (step item) fun later =>
      result later item) :
    Clones host base message start roots (items.mapM step) fun later =>
      List.Forall₂ (result later) items := by
  induction items with
  | nil =>
    rw [mapM_nil]
    exact .of_pure fun _ => .nil
  | cons item items ih =>
    have rest := ih fun other listed => each other (mem_cons_of_mem _ listed)
    rw [mapM_cons]
    refine Clones.mono ((each item mem_cons_self).bind fun made =>
      rest.bind fun others => .pure_eq (made :: others)) ?_
    rintro later all ⟨made, holds, others, holdsRest, rfl⟩
    exact .cons holds holdsRest

/-- What has been copied with an object that has been allocated. -/
def Copied.allocated (copied : Copied) (obj : Object) : Copied :=
  { copied with
    heap := ⟨Function.update copied.heap.objects copied.heap.size obj, copied.heap.size + 1⟩ }

theorem Copied.objects_allocated_self (copied : Copied) (obj : Object) :
    (copied.allocated obj).heap.objects copied.heap.size = obj :=
  update_self _ _ _

variable {obj : Object}

theorem Copied.objects_allocated {copied : Copied} {ref : Ref} (less : ref < copied.heap.size) :
    (copied.allocated obj).heap.objects ref = copied.heap.objects ref :=
  update_of_ne (Nat.ne_of_lt less) _ _

theorem allocObject_eq_ok {state : CloneState} (granted : host.grants state.heap.size) :
    allocObject host obj state =
      .ok (state.heap.size, ⟨state.toCopied.allocated obj, state.tempRoots⟩) := by
  rw [allocObject, if_pos granted]
  rfl

theorem allocObject_eq_error {state : CloneState} (refused : ¬host.grants state.heap.size) :
    allocObject host obj state = .error .outOfMemory := by
  rw [allocObject, if_neg refused]

section

variable {γ : Type} (next : CloneM γ) {state : CloneState}

theorem pushTempRoot_then (room : ¬Tasks.maxTempRoots ≤ state.tempRoots) :
    (do pushTempRoot; next : CloneM γ) state = next ⟨state.toCopied, state.tempRoots + 1⟩ := by
  change (pushTempRoot state >>= fun made => next made.2) = _
  rw [pushTempRoot, if_neg room]
  rfl

theorem pushTempRoot_then_error (full : Tasks.maxTempRoots ≤ state.tempRoots) :
    (do pushTempRoot; next : CloneM γ) state = .error .badTempRootDiscipline := by
  change (pushTempRoot state >>= fun made => next made.2) = _
  rw [pushTempRoot, if_pos full]
  rfl

end

theorem Cloning.withRoots {state : CloneState} (cloning : Cloning base message roots state)
    (others : ℕ) : Cloning base message others ⟨state.toCopied, others⟩ :=
  ⟨rfl, cloning.size, cloning.objects, cloning.visited⟩

theorem Cloning.allocated {state : CloneState} (cloning : Cloning base message roots state)
    (obj : Object) (others : ℕ) :
    Cloning base message others ⟨state.toCopied.allocated obj, others⟩ := by
  constructor
  · rfl
  · exact le_succ_of_le cloning.size
  · intro ref less
    rw [Copied.objects_allocated (Nat.lt_of_lt_of_le less cloning.size)]
    exact cloning.objects ref less
  · obtain ⟨src, dst, srcNodup, dstNodup, few⟩ := cloning.visited
    refine ⟨src, fun visit listed => ?_, srcNodup, dstNodup, few⟩
    exact ⟨(dst visit listed).1, lt_succ_of_lt (dst visit listed).2⟩

theorem Grown.allocated (copied : Copied) (obj : Object) :
    Grown base copied (copied.allocated obj) := by
  constructor
  · exact le_succ _
  · exact fun ref less => Copied.objects_allocated less
  · exact fun _ listed => listed
  · exact fun _ _ visit listed unlisted => absurd listed unlisted

/-- A part of the message that is cloned when there are so many temporary roots. -/
def HeldAt (base : Heap) (message : Value) (start roots : ℕ) (part : Value) : Prop :=
  ∃ held, roots = start + held ∧ Held base message held part

/-- A part that takes a temporary root where there is none any more. -/
theorem HeldAt.rootsRunOut {part : Value} (isHeld : HeldAt base message start roots part)
    (rooted : part.rooted base) (full : Tasks.maxTempRoots ≤ roots) :
    RootsRunOut base start message := by
  obtain ⟨held, rfl, isHeld⟩ := isHeld
  refine ⟨held, part, isHeld, ?_⟩
  rw [rooted]
  exact lt_succ_of_le full

theorem clonesAt_allocObject {state : CloneState} (cloning : Cloning base message roots state)
    (obj : Object) :
    ClonesAt host base message start roots (allocObject host obj)
      (fun later ref => Fresh base later ref obj) state := by
  by_cases granted : host.grants state.heap.size
  · refine Meets.of_ok (allocObject_eq_ok granted)
      ⟨cloning.tempRoots ▸ cloning.allocated obj _, Grown.allocated _ obj,
        fun later keeps => ⟨cloning.size, ?_⟩⟩
    rw [keeps.made _ (Nat.le_refl _) (lt_succ_self _)]
    exact state.objects_allocated_self obj
  · exact Meets.of_error (allocObject_eq_error granted) (.inl ⟨rfl, .inl ⟨_, granted⟩⟩)

theorem clonesAt_leaf {state : CloneState} (cloning : Cloning base message roots state)
    (obj : Object) :
    ClonesAt host base message start roots
      (do let ref ← allocObject host obj; return Value.object ref : CloneM Value)
      (fun later made => ∃ ref, made = .object ref ∧ Fresh base later ref obj) state := by
  refine ((clonesAt_allocObject cloning obj).bind fun ref => .pure_eq (Value.object ref)).mono ?_
  rintro later made ⟨ref, fresh, rfl⟩
  exact ⟨ref, rfl, fresh⟩

/-- A temporary root around a step. -/
theorem Clones.rooted {β γ : Type} {program : CloneM β} {result : Copied → β → Prop}
    (clones : Clones host base message start (roots + 1) program result) (f : β → γ)
    (runsOut : Tasks.maxTempRoots ≤ roots → RootsRunOut base start message) :
    Clones host base message start roots
      (do
        pushTempRoot
        let made ← program
        popTempRoot
        return f made)
      fun later last => ∃ made, result later made ∧ last = f made := by
  intro state cloning
  have roots_eq := cloning.tempRoots
  by_cases full : Tasks.maxTempRoots ≤ state.tempRoots
  · exact Meets.of_error (pushTempRoot_then_error _ full) (.inr ⟨rfl, runsOut (roots_eq ▸ full)⟩)
  · have opens := pushTempRoot_then
      (do
        let made ← program
        popTempRoot
        return f made : CloneM γ) full
    have within := clones _ (cloning.withRoots (roots + 1))
    rw [← roots_eq] at within
    refine Meets.of_eq (Meets.bind within fun made after ⟨cloning', grown, holds⟩ => ?_) opens
    have pops : (do
        popTempRoot
        return f made : CloneM γ) after = .ok (f made, ⟨after.toCopied, after.tempRoots - 1⟩) := rfl
    refine Meets.of_ok pops ⟨?_, grown, fun later keeps => ⟨made, holds later keeps, rfl⟩⟩
    rw [cloning'.tempRoots, Nat.add_sub_cancel, roots_eq]
    exact cloning'.withRoots roots

theorem clonesAt_allocLeaf {state : CloneState} (cloning : Cloning base message roots state)
    (obj : Object) (runsOut : Tasks.maxTempRoots ≤ roots → RootsRunOut base start message) :
    ClonesAt host base message start roots (allocLeaf host obj)
      (fun later made => ∃ ref, made = .object ref ∧ Fresh base later ref obj) state := by
  have rooted : ∀ ref, Clones host base message start roots
      (do
        pushTempRoot
        popTempRoot
        return Value.object ref)
      fun _ made => made = .object ref := by
    intro ref
    have empty : Clones host base message start (roots + 1) (pure ()) fun _ made => made = () :=
      .pure_eq ()
    exact (empty.rooted (fun _ => Value.object ref) runsOut).mono fun _ _ ⟨_, _, same⟩ => same
  refine ((clonesAt_allocObject cloning obj).bind rooted).mono ?_
  rintro later made ⟨ref, fresh, rfl⟩
  exact ⟨ref, rfl, fresh⟩

variable {src : Ref}

theorem cloneFindExisting_eq_some {dst : Ref} {visits : List (Ref × Ref)}
    (found : cloneFindExisting src visits = some dst) : (src, dst) ∈ visits := by
  rw [cloneFindExisting, Option.map_eq_some_iff] at found
  obtain ⟨visit, isFound, rfl⟩ := found
  have same : visit.1 = src := by simpa using List.find?_some isFound
  rw [← same]
  exact mem_of_find?_eq_some isFound

theorem cloneFindExisting_eq_none {visits : List (Ref × Ref)}
    (missing : cloneFindExisting src visits = none) : src ∉ visits.map Prod.fst := by
  rw [cloneFindExisting, Option.map_eq_none_iff, List.find?_eq_none] at missing
  intro listed
  obtain ⟨visit, isVisit, rfl⟩ := mem_map.mp listed
  exact missing visit isVisit (by simp)

/-- What has been copied with a container that has been paired with the last object. -/
def Copied.opened (copied : Copied) (src : Ref) (placeholder : Object) : Copied :=
  { copied.allocated placeholder with visits := copied.visits ++ [(src, copied.heap.size)] }

section

variable {state : CloneState} (cloning : Cloning base message roots state)
include cloning

theorem Cloning.opened (inside : src < base.size) (container : (base.objects src).Container)
    (isPart : ∃ depth, Part base message depth (.object src))
    (unvisited : src ∉ state.visits.map Prod.fst) (room : state.visits.length < maxDeepVisits)
    (placeholder : Object) (others : ℕ) :
    Cloning base message others ⟨state.toCopied.opened src placeholder, others⟩ := by
  have allocated := cloning.allocated placeholder others
  obtain ⟨visitSrc, visitDst, srcNodup, dstNodup, few⟩ := cloning.visited
  refine ⟨rfl, allocated.size, allocated.objects, ?_, ?_, ?_, ?_, ?_⟩
  · intro visit listed
    rcases mem_append.mp listed with listed | listed
    · exact visitSrc visit listed
    · obtain rfl := mem_singleton.mp listed
      exact ⟨inside, container, isPart⟩
  · intro visit listed
    rcases mem_append.mp listed with listed | listed
    · exact ⟨(visitDst visit listed).1, lt_succ_of_lt (visitDst visit listed).2⟩
    · obtain rfl := mem_singleton.mp listed
      exact ⟨cloning.size, lt_succ_self _⟩
  · rw [Copied.opened, map_append, map_cons, map_nil, ← concat_eq_append]
    exact srcNodup.concat unvisited
  · rw [Copied.opened, map_append, map_cons, map_nil, ← concat_eq_append]
    refine dstNodup.concat fun listed => ?_
    obtain ⟨visit, isVisit, same⟩ := mem_map.mp listed
    exact absurd (visitDst visit isVisit).2 (by rw [same]; exact Nat.lt_irrefl _)
  · rw [Copied.opened, length_append]
    exact room

/-- A container that does not fit into the table any more. -/
theorem tooMany_of_full (container : (base.objects src).Container)
    (isPart : ∃ depth, Part base message depth (.object src))
    (unvisited : src ∉ state.visits.map Prod.fst) (full : maxDeepVisits ≤ state.visits.length) :
    TooMany base message := by
  refine ⟨src :: state.visits.map Prod.fst, ?_, ?_, ?_⟩
  · exact nodup_cons.mpr ⟨unvisited, cloning.visited.srcNodup⟩
  · rw [length_cons, length_map]
    exact lt_succ_of_le full
  · intro ref listed
    rcases mem_cons.mp listed with rfl | listed
    · exact ⟨container, isPart⟩
    · obtain ⟨visit, isVisit, rfl⟩ := mem_map.mp listed
      exact (cloning.visited.src visit isVisit).2

/-- What has been copied with the contents of the object that has been opened. -/
def Copied.filled (copied : Copied) (dst : Ref) (obj : Object) : Copied :=
  { copied with heap := { copied.heap with
    objects := Function.update copied.heap.objects dst obj } }

theorem Cloning.filled {dst : Ref} (newer : base.size ≤ dst) (obj : Object) (others : ℕ) :
    Cloning base message others ⟨state.toCopied.filled dst obj, others⟩ := by
  refine ⟨rfl, cloning.size, fun ref less => ?_, cloning.visited⟩
  have other : ref ≠ dst := Nat.ne_of_lt (Nat.lt_of_lt_of_le less newer)
  exact (update_of_ne other _ _).trans (cloning.objects ref less)

end

/-- The container that is opened in a state is paired when its copy is filled in. -/
theorem Grown.filled {copied after : Copied} {placeholder : Object}
    (grown : Grown base (copied.opened src placeholder) after)
    (alike : ∀ later, Keeps base (copied.opened src placeholder) after later →
      Alike base later (base.objects src) obj) :
    Grown base copied (after.filled copied.heap.size obj) := by
  have opens : copied.heap.size < after.heap.size := grown.size
  have keptBy : ∀ later, Keeps base copied (after.filled copied.heap.size obj) later →
      Keeps base (copied.opened src placeholder) after later := by
    intro later keeps
    refine ⟨fun ref low high => ?_, keeps.objects, keeps.visits⟩
    rw [keeps.made ref (le_of_succ_le low) high]
    exact update_of_ne (Nat.ne_of_gt low) _ _
  refine ⟨Nat.le_of_lt opens, fun ref less => ?_, fun visit listed => ?_, ?_⟩
  · refine (update_of_ne (Nat.ne_of_lt less) _ _).trans ?_
    rw [grown.objects ref (lt_succ_of_lt less)]
    exact Copied.objects_allocated less
  · exact grown.visits visit (mem_append_left _ listed)
  · intro later keeps visit listed unlisted
    by_cases opened : visit = (src, copied.heap.size)
    · subst opened
      have filled : later.heap.objects copied.heap.size = obj :=
        (keeps.made _ (Nat.le_refl _) opens).trans (update_self _ _ _)
      rw [filled]
      exact alike later (keptBy later keeps)
    · refine grown.alike later (keptBy later keeps) visit listed fun before => ?_
      rcases mem_append.mp before with before | before
      · exact unlisted before
      · exact opened (mem_singleton.mp before)

/-- A container is paired with a copy whose parts are the copies of its parts. -/
theorem clonesAt_container {state : CloneState} (cloning : Cloning base message roots state)
    (inside : src < base.size) (container : (base.objects src).Container)
    (isPart : ∃ depth, Part base message depth (.object src))
    (runsOut : Tasks.maxTempRoots ≤ roots → RootsRunOut base start message)
    (unvisited : src ∉ state.visits.map Prod.fst) {placeholder : Object}
    {cloneParts : CloneM Object}
    (cloned : Clones host base message start (roots + 1) cloneParts fun later copy =>
      Alike base later (base.objects src) copy) :
    ClonesAt host base message start roots (cloneContainer host src placeholder cloneParts)
      (fun later made => ValueAlike base later (.object src) made) state := by
  have roots_eq := cloning.tempRoots
  by_cases granted : host.grants state.heap.size
  · by_cases full : Tasks.maxTempRoots ≤ state.tempRoots
    · refine Meets.of_error ?_ (.inr ⟨rfl, runsOut (roots_eq ▸ full)⟩)
      simp [cloneContainer, bind, StateT.bind, Except.bind, allocObject_eq_ok granted,
        pushTempRoot, full]
    · by_cases room : state.visits.length < maxDeepVisits
      · have opened :=
          cloning.opened inside container isPart unvisited room placeholder (roots + 1)
        have opens : cloneContainer host src placeholder cloneParts state =
            (do
              let copy ← cloneParts
              setObject state.heap.size copy
              popTempRoot
              return Value.object state.heap.size : CloneM Value)
              ⟨state.toCopied.opened src placeholder, roots + 1⟩ := by
          rw [← roots_eq]
          simp [cloneContainer, bind, StateT.bind, Except.bind, allocObject_eq_ok granted,
            pushTempRoot, full, cloneRemember, Nat.not_le.mpr room, Copied.opened,
            Copied.allocated]
        refine Meets.of_eq (Meets.bind (cloned _ opened) fun copy after holds => ?_) opens
        obtain ⟨cloning', grown, alike⟩ := holds
        have filled := grown.filled alike
        have fills : (do
            setObject state.heap.size copy
            popTempRoot
            return Value.object state.heap.size : CloneM Value) after =
              .ok (.object state.heap.size,
                ⟨after.toCopied.filled state.heap.size copy, after.tempRoots - 1⟩) := rfl
        have popped : after.tempRoots - 1 = roots := by rw [cloning'.tempRoots, Nat.add_sub_cancel]
        rw [popped] at fills
        refine Meets.of_ok fills ⟨cloning'.filled cloning.size copy roots, filled,
          fun later keeps => .container container ?_⟩
        exact keeps.visits _ (grown.visits _ (mem_append_right _ mem_cons_self))
      · have tooMany :=
          tooMany_of_full cloning container isPart unvisited (Nat.le_of_not_lt room)
        refine Meets.of_error ?_ (.inl ⟨rfl, .inr tooMany⟩)
        simp [cloneContainer, bind, StateT.bind, Except.bind, allocObject_eq_ok granted,
          pushTempRoot, full, cloneRemember, Nat.le_of_not_lt room, Copied.allocated]
  · refine Meets.of_error ?_ (.inl ⟨rfl, .inl ⟨_, granted⟩⟩)
    simp [cloneContainer, bind, StateT.bind, Except.bind, allocObject_eq_error granted]

end Rules

end Gengo.Messages
