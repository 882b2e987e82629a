import Gengo.Dataflow.Marking
import Gengo.Tasks.Scheduler

/-!
# The collector

The objects with what they refer to, the roots of the running program, and
`collectGarbage`. Numbers, booleans and the strings of the constant pool refer to nothing
and are not told apart. The bytes that objects own are left out, as is the pool's free list:
an object that is not live can be allocated again.
-/

namespace Gengo.Gc

open Dataflow
open Tasks (TaskStatus maxTasks)

/-- An object: an index into the pool, or past its end for an object outside of it, which is
never collected. -/
abbrev Ref :=
  ℕ

inductive Value
  | scalar
  | object (ref : Ref)
  /-- A variant without an object of its own, and the index of its type. -/
  | inlineVariant (typIdx : Ref)
  deriving DecidableEq

/-- What `markValue` marks. -/
def Value.ref : Value → Option Ref
  | .scalar => none
  | .object ref => some ref
  | .inlineVariant typIdx => some typIdx

structure MapEntry where
  key : Value
  value : Value
  deriving DecidableEq

inductive IterKind
  | array
  | string
  | map
  | range
  deriving DecidableEq

inductive Object
  | array (items : List Value)
  | arrayManaged (items : List Value)
  | arrayView (items : List Value) (source : Ref)
  | arrayCapacity (backing : Ref) (len : ℕ)
  | map (entries : List MapEntry)
  | mapManaged (entries : List MapEntry)
  | mapHashed (entries : List MapEntry) (len : ℕ)
  | dynString
  | function (defaults : List Value)
  | closure (func : Ref) (upvalues : List Ref)
  | cell (value : Value)
  | nativeFunction
  | hostModuleFunction
  | structType
  | interfaceType
  | namedType (parentObj predicate : Option Ref) (defaultVal : Value)
  | namedValue (typ : Ref) (value : Value)
  | enumType (parent : Option Ref)
  | enumValue (typ : Ref)
  | enumTypeFn (typ : Ref)
  | structInstance (typ : Ref) (fields : List MapEntry)
  | smallStructInstance (typ : Ref) (values : List Value)
  | iterator (kind : IterKind) (array : List Value) (map : List MapEntry) (source : Option Ref)
  | variantType
  | variantValue (typ : Ref) (payload : Value) (sharedValues armFields : List Value)
  | variantCtor (typ : Ref)
  | namedTypeFn (typ : Ref)
  | stringBuilder
  | stringView (source : Option Ref)
  | bigint
  | namedErrorType
  | namedErrorValue (typ : Ref)
  | taskType (behavior : Ref)
  deriving DecidableEq

/-- What `markValue` marks of some values. -/
def valueRefs (values : List Value) : List Ref :=
  values.filterMap Value.ref

def entryRefs (entries : List MapEntry) : List Ref :=
  valueRefs (entries.flatMap fun entry => [entry.key, entry.value])

/-- What `drainMarkQueue` queues for an object. A view's elements are its source's, and the
defaults of functions and named types are literals. -/
def markChildren : Object → List Ref
  | .array items | .arrayManaged items => valueRefs items
  | .arrayView _ source => [source]
  | .arrayCapacity backing _ => [backing]
  | .map entries | .mapManaged entries => entryRefs entries
  | .mapHashed entries len => entryRefs (entries.take len)
  | .closure func upvalues => func :: upvalues
  | .cell value => valueRefs [value]
  | .structInstance typ fields => typ :: entryRefs fields
  | .smallStructInstance typ values => typ :: valueRefs values
  | .namedValue typ value => typ :: valueRefs [value]
  | .iterator kind array map source =>
    source.toList ++
      match kind with
      | .array => valueRefs array
      | .map => entryRefs map
      | .string | .range => []
  | .enumValue typ => [typ]
  | .variantType => []
  | .variantValue typ payload sharedValues armFields =>
    typ :: valueRefs [payload] ++ valueRefs sharedValues ++ valueRefs armFields
  | .variantCtor typ => [typ]
  | .namedTypeFn typ => [typ]
  | .enumTypeFn typ => [typ]
  | .namedType parentObj predicate _ => parentObj.toList ++ predicate.toList
  | .enumType parent => parent.toList
  | .stringView source => source.toList
  | .namedErrorType => []
  | .namedErrorValue typ => [typ]
  | .taskType behavior => [behavior]
  | .dynString | .function _ | .nativeFunction | .hostModuleFunction | .structType
  | .interfaceType | .stringBuilder | .bigint => []

/-- What a task's execution state holds. -/
structure VmState where
  stack : List Value
  /-- The functions and closures of its frames. -/
  callees : List Ref
  tempRoots : List Value
  deferStack : List Value
  panicValue : Value
  pendingPanicValue : Value
  stdModule : Option Ref

/-- What `markVMStateRoots` marks. -/
def VmState.roots (vs : VmState) : List Ref :=
  valueRefs vs.stack ++ vs.callees ++ valueRefs vs.tempRoots ++ valueRefs vs.deferStack ++
    valueRefs [vs.panicValue] ++ valueRefs [vs.pendingPanicValue] ++ vs.stdModule.toList

structure TaskSlot where
  status : TaskStatus
  vs : Option VmState
  mailbox : List Value

/-- The task of the slot has not finished. -/
def TaskSlot.Alive (slot : TaskSlot) : Prop :=
  slot.status ≠ .empty ∧ slot.status ≠ .dead

instance (slot : TaskSlot) : Decidable slot.Alive :=
  inferInstanceAs (Decidable (_ ∧ _))

def TaskSlot.vsRoots (slot : TaskSlot) : List Ref :=
  (slot.vs.map VmState.roots).getD []

structure Runtime where
  poolSize : ℕ
  objects : Ref → Object
  /-- The objects of the pool that are in use. -/
  live : Finset Ref
  live_lt : ∀ ref ∈ live, ref < poolSize
  slots : ℕ → TaskSlot
  current : ℕ
  globals : List Value
  constants : List Value

namespace Runtime

variable (runtime : Runtime)

/-- The roots that the loop over the task table marks: those of the other tasks. -/
def otherRoots : List Ref :=
  (List.range maxTasks).flatMap fun idx =>
    let slot := runtime.slots idx
    if ¬slot.Alive then []
    else if idx = runtime.current then []
    else slot.vsRoots ++ valueRefs slot.mailbox

/-- The roots that `collectGarbage` marks when it is called with an execution state. -/
def markedRoots (vs : VmState) : List Ref :=
  vs.roots ++ valueRefs runtime.globals ++ valueRefs runtime.constants ++ runtime.otherRoots ++
    valueRefs (runtime.slots runtime.current).mailbox

/-- The objects that are marked when the worklist is empty; no object is marked before, for
the sweep clears the marks. -/
def marked (vs : VmState) : Finset Ref :=
  ((Marks.none.pushAll (fun ref => ref ∈ runtime.live) (runtime.markedRoots vs)).drain
    (fun ref => ref ∈ runtime.live) (fun ref => markChildren (runtime.objects ref))
    runtime.live.card).marked

/-- `collectGarbage`: what is not marked is swept. -/
def collectGarbage (vs : VmState) : Runtime :=
  { runtime with
    live := runtime.live.filter fun ref => ref ∈ runtime.marked vs
    live_lt := fun ref isLive => runtime.live_lt ref (Finset.mem_of_mem_filter ref isLive) }

end Runtime

/-!
# The collector is safe

In every run in which garbage is collected with the execution state of the current task,
everything is live that the tasks, the mailboxes, the globals and the constants reach. A
spawn that enters the frame of the new task can allocate, and then collects with the
execution state of the new task.
-/

open List

/-- Everything that an object refers to. -/
def refs : Object → List Ref
  | .arrayView items source => source :: valueRefs items
  | .function defaults => valueRefs defaults
  | .namedType parentObj predicate defaultVal =>
    parentObj.toList ++ predicate.toList ++ valueRefs [defaultVal]
  | .iterator _ array map source => source.toList ++ valueRefs array ++ entryRefs map
  | obj => markChildren obj

namespace Runtime

variable (runtime : Runtime)

/-- The roots of the program: those of the live tasks, their mailboxes, the globals and the
constants. -/
inductive Root : Ref → Prop
  | vs {idx : ℕ} {ref : Ref} (bounded : idx < Tasks.maxTasks) (alive : (runtime.slots idx).Alive)
      (isRoot : ref ∈ (runtime.slots idx).vsRoots) : Root ref
  | mailbox {idx : ℕ} {ref : Ref} (bounded : idx < Tasks.maxTasks)
      (alive : (runtime.slots idx).Alive) (isRoot : ref ∈ valueRefs (runtime.slots idx).mailbox) :
      Root ref
  | global {ref : Ref} (isRoot : ref ∈ valueRefs runtime.globals) : Root ref
  | constant {ref : Ref} (isRoot : ref ∈ valueRefs runtime.constants) : Root ref

inductive Reached : Ref → Prop
  | root {ref : Ref} (isRoot : runtime.Root ref) : Reached ref
  | inside {ref inner : Ref} (reached : Reached ref)
      (refers : inner ∈ refs (runtime.objects ref)) : Reached inner

/-- Whatever is reached in the pool is live: it is neither freed nor swept. -/
def Safe : Prop :=
  ∀ ref, runtime.Reached ref → ref < runtime.poolSize → ref ∈ runtime.live

end Runtime

/-- The elements of an array that views are taken of. -/
def elements (objects : Ref → Object) : Object → List Value
  | .array items => items
  | .arrayManaged items => items
  | .arrayCapacity backing len =>
    match objects backing with
    | .arrayManaged items => items.take len
    | _ => []
  | _ => []

/-- The form of an object: a view shows elements of its source, an iterator holds what its
kind has, and the defaults of functions and named types are literals. -/
def WellFormed (objects : Ref → Object) : Object → Prop
  | .arrayView items source => ∀ item ∈ items, item ∈ elements objects (objects source)
  | .function defaults => valueRefs defaults = []
  | .namedType _ _ defaultVal => defaultVal.ref = none
  | .iterator kind array map _ => (kind ≠ .array → array = []) ∧ (kind ≠ .map → map = [])
  | _ => True

/-- The objects have their form, and those outside of the pool refer to none inside. -/
structure Runtime.Formed (runtime : Runtime) : Prop where
  wellFormed : ∀ ref, WellFormed runtime.objects (runtime.objects ref)
  immortal : ∀ ref, runtime.poolSize ≤ ref → ∀ inner ∈ refs (runtime.objects ref),
    runtime.poolSize ≤ inner

section Collection

variable {runtime : Runtime} {vs : VmState}

theorem mem_valueRefs_of_mem {value : Value} {values : List Value} {ref : Ref}
    (listed : value ∈ values) (isRef : value.ref = some ref) : ref ∈ valueRefs values :=
  mem_filterMap.mpr ⟨value, listed, isRef⟩

/-- The collector has the execution state of the current task, if that has not finished. -/
def CollectsCurrent (runtime : Runtime) (vs : VmState) : Prop :=
  (runtime.slots runtime.current).Alive → (runtime.slots runtime.current).vs = some vs

theorem mem_otherRoots {idx : ℕ} {ref : Ref} (bounded : idx < Tasks.maxTasks)
    (alive : (runtime.slots idx).Alive) (other : idx ≠ runtime.current)
    (isRoot : ref ∈ (runtime.slots idx).vsRoots ++ valueRefs (runtime.slots idx).mailbox) :
    ref ∈ runtime.otherRoots := by
  refine mem_flatMap.mpr ⟨idx, mem_range.mpr bounded, ?_⟩
  simpa [alive, other] using isRoot

/-- Every root of the program is marked, if the execution state is the current task's. -/
theorem mem_markedRoots (current : CollectsCurrent runtime vs) {ref : Ref}
    (isRoot : runtime.Root ref) : ref ∈ runtime.markedRoots vs := by
  simp only [Runtime.markedRoots, mem_append]
  cases isRoot with
  | vs bounded alive isRoot =>
    rename_i idx
    by_cases same : idx = runtime.current
    · subst same
      rw [TaskSlot.vsRoots, current alive] at isRoot
      exact .inl (.inl (.inl (.inl isRoot)))
    · have marked := mem_otherRoots bounded alive same (mem_append_left _ isRoot)
      exact .inl (.inr marked)
  | mailbox bounded alive isRoot =>
    rename_i idx
    by_cases same : idx = runtime.current
    · subst same
      exact .inr isRoot
    · have marked := mem_otherRoots bounded alive same (mem_append_right _ isRoot)
      exact .inl (.inr marked)
  | global isRoot => exact .inl (.inl (.inl (.inr isRoot)))
  | constant isRoot => exact .inl (.inl (.inr isRoot))

theorem mem_marked_of_root {ref : Ref} (isRoot : ref ∈ runtime.markedRoots vs)
    (isLive : ref ∈ runtime.live) : ref ∈ runtime.marked vs := by
  have pooled : ∀ ref, decide (ref ∈ runtime.live) → ref ∈ runtime.live := fun ref isLive => by
    simpa using isLive
  exact (Marks.closed_of_roots pooled (runtime.markedRoots vs)).1 ref isRoot (by simpa using isLive)

theorem mem_marked_of_child {ref inner : Ref} (isMarked : ref ∈ runtime.marked vs)
    (isChild : inner ∈ markChildren (runtime.objects ref)) (isLive : inner ∈ runtime.live) :
    inner ∈ runtime.marked vs := by
  have pooled : ∀ ref, decide (ref ∈ runtime.live) → ref ∈ runtime.live := fun ref isLive => by
    simpa using isLive
  exact (Marks.closed_of_roots pooled (runtime.markedRoots vs)).2 ref isMarked inner isChild
    (by simpa using isLive)

/-- An object that is outside of the pool, or has been marked. -/
def Kept (runtime : Runtime) (vs : VmState) (ref : Ref) : Prop :=
  ref < runtime.poolSize → ref ∈ runtime.marked vs

/-- What is reached from a kept object by an edge that the marker follows is kept. -/
theorem Kept.child {ref inner : Ref} (kept : Kept runtime vs ref) (formed : runtime.Formed)
    (safe : runtime.Safe) (reached : runtime.Reached ref)
    (refers : inner ∈ refs (runtime.objects ref))
    (isChild : inner ∈ markChildren (runtime.objects ref)) : Kept runtime vs inner := by
  intro inside
  by_cases outside : runtime.poolSize ≤ ref
  · exact absurd inside (Nat.not_lt.mpr (formed.immortal ref outside inner refers))
  · have isLive := safe inner (.inside reached refers) inside
    exact mem_marked_of_child (kept (Nat.lt_of_not_le outside)) isChild isLive

theorem Kept.element {source inner : Ref} {item : Value} (kept : Kept runtime vs source)
    (formed : runtime.Formed) (safe : runtime.Safe) (reached : runtime.Reached source)
    (listed : item ∈ elements runtime.objects (runtime.objects source))
    (isRef : item.ref = some inner) : Kept runtime vs inner := by
  cases objEq : runtime.objects source with
  | array _ | arrayManaged _ =>
    rw [objEq] at listed
    have isItem := mem_valueRefs_of_mem listed isRef
    exact kept.child formed safe reached (by rw [objEq]; exact isItem) (by rw [objEq]; exact isItem)
  | arrayCapacity backing len =>
    have refers : backing ∈ refs (runtime.objects source) := by
      rw [objEq]
      exact mem_cons_self
    have keptBacking : Kept runtime vs backing :=
      kept.child formed safe reached refers (by rw [objEq]; exact mem_cons_self)
    rw [objEq, elements] at listed
    cases backingEq : runtime.objects backing with
    | arrayManaged items =>
      rw [backingEq] at listed
      have isItem := mem_valueRefs_of_mem (mem_of_mem_take listed) isRef
      exact keptBacking.child formed safe (.inside reached refers)
        (by rw [backingEq]; exact isItem) (by rw [backingEq]; exact isItem)
    | _ =>
      rw [backingEq] at listed
      cases listed
  | _ =>
    rw [objEq] at listed
    cases listed

theorem kept_of_reached (formed : runtime.Formed) (safe : runtime.Safe)
    (current : CollectsCurrent runtime vs) {ref : Ref} (reached : runtime.Reached ref) :
    Kept runtime vs ref := by
  induction reached with
  | root isRoot =>
    intro inside
    exact mem_marked_of_root (mem_markedRoots current isRoot) (safe _ (.root isRoot) inside)
  | inside reached refers kept =>
    rename_i ref inner
    have follow := kept.child formed safe reached refers
    have wellFormed := formed.wellFormed ref
    cases objEq : runtime.objects ref with
    | arrayView items source =>
      rw [objEq] at follow wellFormed refers
      rcases mem_cons.mp refers with rfl | isItem
      · exact follow mem_cons_self
      · obtain ⟨item, listed, isRef⟩ := mem_filterMap.mp isItem
        have refersSource : source ∈ refs (runtime.objects ref) := by
          rw [objEq]
          exact mem_cons_self
        have keptSource : Kept runtime vs source :=
          kept.child formed safe reached refersSource (by rw [objEq]; exact mem_cons_self)
        exact keptSource.element formed safe (.inside reached refersSource)
          (wellFormed item listed) isRef
    | function defaults =>
      rw [objEq] at refers wellFormed
      rw [refs, show valueRefs defaults = [] from wellFormed] at refers
      cases refers
    | namedType parentObj predicate defaultVal =>
      rw [objEq] at follow refers wellFormed
      have literal : valueRefs [defaultVal] = [] := by
        rw [valueRefs, filterMap_cons_none wellFormed, filterMap_nil]
      rw [refs, literal, append_nil] at refers
      exact follow refers
    | iterator kind array map source =>
      rw [objEq] at follow refers wellFormed
      obtain ⟨noArray, noMap⟩ := wellFormed
      refine follow ?_
      cases kind with
      | array =>
        rw [refs, noMap nofun] at refers
        simpa [markChildren, entryRefs, valueRefs] using refers
      | map =>
        rw [refs, noArray nofun] at refers
        simpa [markChildren, valueRefs] using refers
      | string | range =>
        rw [refs, noArray nofun, noMap nofun] at refers
        simpa [markChildren, entryRefs, valueRefs] using refers
    | _ =>
      rw [objEq] at follow refers
      exact follow refers

theorem reached_of_collectGarbage {ref : Ref}
    (reached : (runtime.collectGarbage vs).Reached ref) : runtime.Reached ref := by
  induction reached with
  | root isRoot =>
    cases isRoot with
    | vs bounded alive isRoot => exact .root (.vs bounded alive isRoot)
    | mailbox bounded alive isRoot => exact .root (.mailbox bounded alive isRoot)
    | global isRoot => exact .root (.global isRoot)
    | constant isRoot => exact .root (.constant isRoot)
  | inside _ refers ih => exact .inside ih refers

theorem safe_collectGarbage (formed : runtime.Formed) (safe : runtime.Safe)
    (current : CollectsCurrent runtime vs) : (runtime.collectGarbage vs).Safe := by
  intro ref reached inside
  have before := reached_of_collectGarbage reached
  refine Finset.mem_filter.mpr ⟨safe ref before inside, ?_⟩
  exact kept_of_reached formed safe current before inside

/-- The objects that the marked roots lead to, along what the marker follows. -/
abbrev Leads (runtime : Runtime) (vs : VmState) : Ref → Prop :=
  Dataflow.Leads (fun ref => ref ∈ runtime.live) (fun ref => markChildren (runtime.objects ref))
    (runtime.markedRoots vs)

theorem mem_live_collectGarbage_iff {ref : Ref} :
    ref ∈ (runtime.collectGarbage vs).live ↔ Leads runtime vs ref := by
  have pooled : ∀ ref, decide (ref ∈ runtime.live) → ref ∈ runtime.live := fun ref isLive => by
    simpa using isLive
  have marks : ref ∈ runtime.marked vs ↔ Leads runtime vs ref := Marks.mem_marked_iff pooled
  refine Finset.mem_filter.trans (.trans ⟨And.right, fun isMarked => ⟨?_, isMarked⟩⟩ marks)
  cases marks.mp isMarked with
  | root _ isLive | child _ _ isLive => simpa using isLive

/-- A collection keeps what its roots lead to and nothing else, and a second one frees nothing. -/
theorem collectGarbage_exact (runtime : Runtime) (vs : VmState) (ref : Ref) :
    (ref ∈ (runtime.collectGarbage vs).live ↔ Leads runtime vs ref) ∧
      ((runtime.collectGarbage vs).collectGarbage vs).live = (runtime.collectGarbage vs).live := by
  refine ⟨mem_live_collectGarbage_iff, Finset.Subset.antisymm (Finset.filter_subset _ _) ?_⟩
  intro kept isKept
  rw [mem_live_collectGarbage_iff] at isKept ⊢
  induction isKept with
  | root isRoot isLive =>
    exact .root isRoot (by simpa using mem_live_collectGarbage_iff.mpr (.root isRoot isLive))
  | child leads isChild isLive ih =>
    exact ih.child isChild
      (by simpa using mem_live_collectGarbage_iff.mpr (leads.child isChild isLive))

theorem formed_collectGarbage (formed : runtime.Formed) : (runtime.collectGarbage vs).Formed :=
  ⟨formed.wellFormed, formed.immortal⟩

end Collection

/-- What happens between two collections, in whatever task: objects are allocated, written
and referred to that have been reached before or are new. -/
structure Mutates (before after : Runtime) : Prop where
  poolSize : after.poolSize = before.poolSize
  live : before.live ⊆ after.live
  formed : after.Formed
  reached : ∀ ref, after.Reached ref → ref < after.poolSize →
    before.Reached ref ∨ ref ∉ before.live ∧ ref ∈ after.live

/-- Before anything is run: a pool that is empty, and nothing that refers to it. -/
def start (poolSize : ℕ) : Runtime where
  poolSize := poolSize
  objects _ := .bigint
  live := ∅
  live_lt _ isLive := absurd isLive (Finset.notMem_empty _)
  slots _ := ⟨.empty, none, []⟩
  current := 0
  globals := []
  constants := []

/-- The states of the runs whose collections meet a condition. -/
inductive Run (condition : Runtime → VmState → Prop) : Runtime → Prop
  | start (poolSize : ℕ) : Run condition (start poolSize)
  | mutate {before after : Runtime} : Run condition before → Mutates before after →
      Run condition after
  | collect {runtime : Runtime} {vs : VmState} : Run condition runtime → condition runtime vs →
      Run condition (runtime.collectGarbage vs)

theorem Mutates.safe {before after : Runtime} (mutates : Mutates before after)
    (safe : before.Safe) : after.Safe := by
  intro ref reached inside
  rcases mutates.reached ref reached inside with older | ⟨-, isNew⟩
  · exact mutates.live (safe ref older (mutates.poolSize ▸ inside))
  · exact isNew

theorem formed_start (poolSize : ℕ) : (start poolSize).Formed :=
  ⟨fun _ => trivial, fun _ _ _ refers => absurd refers not_mem_nil⟩

theorem safe_start (poolSize : ℕ) : (start poolSize).Safe := by
  intro ref reached
  have unreached : ∀ ref, (start poolSize).Reached ref → False := by
    intro ref reached
    induction reached with
    | root isRoot =>
      cases isRoot with
      | vs _ alive | mailbox _ alive => exact alive.1 rfl
      | global isRoot => cases isRoot
      | constant isRoot => cases isRoot
    | inside _ _ ih => exact ih
  exact absurd reached (unreached ref)

/-- In every state of such a run, whatever is reached is live. -/
theorem safe_of_run {runtime : Runtime} (run : Run CollectsCurrent runtime) : runtime.Safe := by
  have both : runtime.Formed ∧ runtime.Safe := by
    induction run with
    | start poolSize => exact ⟨formed_start poolSize, safe_start poolSize⟩
    | mutate _ mutates ih =>
      exact ⟨mutates.formed, mutates.safe ih.2⟩
    | collect _ current ih =>
      obtain ⟨formed, safe⟩ := ih
      exact ⟨formed_collectGarbage formed, safe_collectGarbage formed safe current⟩
  exact both.2

/-- An execution state with some values on its stack. -/
def holding (stack : List Value) : VmState :=
  ⟨stack, [], [], [], .scalar, .scalar, none⟩

/-- The main program, with an array on its stack, has claimed a slot for a new task. -/
def spawning : Runtime where
  poolSize := 1
  objects _ := .array []
  live := {0}
  live_lt ref isLive := by
    rw [Finset.mem_singleton.mp isLive]
    decide
  slots idx :=
    if idx = 1 then ⟨.running, some (holding [.object 0]), []⟩
    else if idx = 2 then ⟨.ready, some (holding []), []⟩
    else ⟨.empty, none, []⟩
  current := 1
  globals := []
  constants := []

theorem mutates_spawning : Mutates (start 1) spawning := by
  refine ⟨rfl, Finset.empty_subset _, ⟨fun _ => trivial, ?_⟩, fun ref _ inside => .inr ?_⟩
  · exact fun _ _ _ refers => absurd refers not_mem_nil
  · exact ⟨Finset.notMem_empty ref, Finset.mem_singleton.mpr (Nat.lt_one_iff.mp inside)⟩

/-- The main program allocates. -/
theorem safe_spawning : (spawning.collectGarbage (holding [.object 0])).Safe :=
  safe_of_run (.collect (.mutate (.start 1) mutates_spawning) fun _ => rfl)

/-- Every run is safe. -/
def CollectionSafe : Prop :=
  ∀ runtime : Runtime, Run (fun _ _ => True) runtime → runtime.Safe

/-- The frame of the new task is entered, and its extra arguments are put into an array. -/
theorem not_collectionSafe : ¬CollectionSafe := by
  intro safe
  have run : Run (fun _ _ => True) (spawning.collectGarbage (holding [])) :=
    .collect (.mutate (.start 1) mutates_spawning) trivial
  have reached : (spawning.collectGarbage (holding [])).Reached 0 :=
    .root (.vs (show 1 < Tasks.maxTasks by decide) ⟨by decide, by decide⟩ (by decide))
  have isLive := safe _ run 0 reached (by decide)
  exact absurd isLive (by decide)

end Gengo.Gc
