import Mathlib.Algebra.GroupWithZero.Nat
import Mathlib.Data.List.Basic

/-!
# The task table

The slots of the tasks, the ready queue and the operations on them. What the host's
allocator does is an argument of the operations that depend on it; a task's execution state
is left out but for whether the slot has one.
-/

namespace Gengo.Tasks

/-- `MaxTasks`. -/
def maxTasks : ℕ :=
  64

inductive TaskStatus
  /-- Never used, or reclaimed after death. -/
  | empty
  /-- In the ready queue, waiting for a turn. -/
  | ready
  /-- The active task. -/
  | running
  /-- Parked in `receive()` with an empty mailbox. -/
  | blockedReceive
  /-- Parked in `std.time.sleep()`. -/
  | sleeping
  /-- Finished; the generation still matches until the slot is reused. -/
  | dead
  deriving DecidableEq, Repr

/-- A slot of the table, for messages of type `ν`. -/
structure TaskSlot (ν : Type*) where
  generation : UInt32
  status : TaskStatus
  /-- The slot has an execution state. -/
  hasVs : Bool
  /-- The table owns it: false for the main program. -/
  ownsVs : Bool
  mailbox : List ν

/-- `TaskSlot.clear`: all but the generation. -/
def TaskSlot.clear {ν : Type*} (slot : TaskSlot ν) : TaskSlot ν :=
  ⟨slot.generation, .empty, false, false, []⟩

/-- `ActorRefValue`. -/
structure ActorRef where
  index : ℕ
  generation : UInt32
  deriving DecidableEq

/-- The next generation of a slot; 0 is the null reference's. -/
def nextGeneration (generation : UInt32) : UInt32 :=
  if generation + 1 = 0 then 1 else generation + 1

inductive TaskError
  | outOfMemory
  | tooManyTasks
  | notSendable
  /-- The behavior's frame could not be entered, as for a wrong number of arguments. -/
  | notEntered
  deriving DecidableEq, Repr

/-- `task_state.State`. -/
structure State (ν : Type*) where
  slots : ℕ → TaskSlot ν
  readyQueue : List ℕ
  current : ℕ

namespace State

variable {ν : Type*} (state : State ν)

def setSlot (idx : ℕ) (slot : TaskSlot ν) : State ν :=
  { state with slots := Function.update state.slots idx slot }

def setStatus (idx : ℕ) (status : TaskStatus) : State ν :=
  state.setSlot idx { state.slots idx with status := status }

section

variable (idx : ℕ) (slot : TaskSlot ν)
include idx slot

@[simp]
theorem slots_setSlot : (state.setSlot idx slot).slots = Function.update state.slots idx slot :=
  rfl

@[simp]
theorem readyQueue_setSlot : (state.setSlot idx slot).readyQueue = state.readyQueue :=
  rfl

@[simp]
theorem current_setSlot : (state.setSlot idx slot).current = state.current :=
  rfl

end

/-- The slot that `claimSlot` takes. -/
def freeSlot : Option ℕ :=
  (List.range' 1 (maxTasks - 1)).find? fun idx =>
    (state.slots idx).status = .empty ∨ (state.slots idx).status = .dead

variable {state} in
theorem freeSlot_eq_some {idx : ℕ} (free : state.freeSlot = some idx) :
    (state.slots idx).status = .empty ∨ (state.slots idx).status = .dead := by
  simpa using List.find?_some free

/-- The claimed slot before its execution state is created. -/
def claimed (idx : ℕ) : TaskSlot ν :=
  let slot := state.slots idx
  let reclaimed := if slot.status = .dead then slot.clear else slot
  { reclaimed with generation := nextGeneration reclaimed.generation }

/-- `claimSlot`; `creates` says whether the execution state can be allocated. -/
def claimSlot (creates : Bool) : Except TaskError ActorRef × State ν :=
  match state.freeSlot with
  | none => (.error .tooManyTasks, state)
  | some idx =>
    let slot := state.claimed idx
    if creates then
      (.ok ⟨idx, slot.generation⟩,
        state.setSlot idx { slot with status := .ready, hasVs := true, ownsVs := true })
    else (.error .outOfMemory, state.setSlot idx slot)

/-- The slot of the main program. -/
def mainIdx : ℕ :=
  1

/-- `claimMainSlot`. -/
def claimMainSlot : State ν :=
  let slot := state.slots mainIdx
  { state.setSlot mainIdx { slot with
        generation := nextGeneration slot.generation
        status := .ready
        hasVs := true
        ownsVs := false } with
    current := mainIdx }

/-- `resolveSameGeneration`. -/
def resolveSameGeneration (id : ActorRef) : Option ℕ :=
  if id.index = 0 ∨ maxTasks ≤ id.index then none
  else if (state.slots id.index).generation ≠ id.generation then none
  else some id.index

/-- `isAlive`. -/
def isAlive (idx : ℕ) : Bool :=
  (state.slots idx).status ≠ .empty ∧ (state.slots idx).status ≠ .dead

variable {state} in
theorem isAlive_iff {idx : ℕ} : state.isAlive idx = true ↔
    (state.slots idx).status ≠ .empty ∧ (state.slots idx).status ≠ .dead := by
  rw [isAlive, decide_eq_true_iff]

/-- `enqueueReady`; `appends` says whether the queue can grow. -/
def enqueueReady (idx : ℕ) (appends : Bool) : Except TaskError Unit × State ν :=
  let ready := state.setStatus idx .ready
  if appends then (.ok (), { ready with readyQueue := ready.readyQueue ++ [idx] })
  else (.error .outOfMemory, ready)

/-- `popReady`. -/
def popReady : Option (ℕ × State ν) :=
  match state.readyQueue with
  | [] => none
  | idx :: rest => some (idx, { state with readyQueue := rest })

/-- What the host's allocator grants a send. -/
structure Grants where
  mailbox : Bool
  queue : Bool

/-- `vm_task.send`; `clone` is `checkSendableAndClone`. -/
def send (clone : ν → Option ν) (target : ActorRef) (payload : ν) (grants : Grants) :
    Except TaskError Unit × State ν :=
  match state.resolveSameGeneration target with
  | none => (.ok (), state)
  | some idx =>
    if ¬state.isAlive idx then (.ok (), state)
    else
      match clone payload with
      | none => (.error .notSendable, state)
      | some cloned =>
        if grants.mailbox then
          let slot := state.slots idx
          let delivered := state.setSlot idx { slot with mailbox := slot.mailbox ++ [cloned] }
          if slot.status = .blockedReceive then delivered.enqueueReady idx grants.queue
          else (.ok (), delivered)
        else (.error .outOfMemory, state)

/-- How far a spawn gets. -/
inductive SpawnFate
  /-- An argument is not sendable. -/
  | notSendable
  /-- There is no memory for an execution state. -/
  | notCreated
  /-- The frame of the behavior is not entered. -/
  | notEntered
  /-- The ready queue cannot grow. -/
  | notQueued
  | spawned
  deriving DecidableEq, Repr

/-- `spawnTask`, from the check of its arguments on. -/
def spawnTask (fate : SpawnFate) : Except TaskError ActorRef × State ν :=
  if fate = .notSendable then (.error .notSendable, state)
  else
    match state.claimSlot (fate ≠ .notCreated) with
    | (.error err, after) => (.error err, after)
    | (.ok id, after) =>
      if fate = .notEntered then (.error .notEntered, after)
      else
        match after.enqueueReady id.index (fate ≠ .notQueued) with
        | (.error err, after) => (.error err, after)
        | (.ok (), after) => (.ok id, after)

end State

/-!
# The scheduler

The loop of `driveTaskScheduler`, one event of the running task at a time. A slice ends
when its task finishes, dies, blocks in `receive()` or is suspended on the host. The
number of times a slot has been claimed, and the messages sent to and received by its
occupant, are recorded beside the table.
-/

open State

/-- How a slice ends: what `runUntilSuspend` reports. -/
inductive SliceEnd
  | completed
  | suspended
  | taskYielded
  | failed
  deriving DecidableEq, Repr

/-- How a run ends: `TaskDeadlock` is an error, and `failed` passes on main's. -/
inductive DriveResult
  | completed
  | suspended
  | deadlock
  | failed
  deriving DecidableEq, Repr

section Loop

variable {ν : Type*} (state : State ν)

/-- The next ready task becomes the current one. -/
def next (otherwise : DriveResult) : Except DriveResult (State ν) :=
  match state.popReady with
  | none => .error otherwise
  | some (idx, popped) => .ok { popped with current := idx }

/-- `driveTaskScheduler` after a slice. -/
def afterSlice : SliceEnd → Except DriveResult (State ν)
  | .failed =>
    if state.current = mainIdx then .error .failed
    else next (state.setStatus state.current .dead) .completed
  | .suspended => .error .suspended
  | .taskYielded => next state .deadlock
  | .completed =>
    if state.current = mainIdx then .error .completed
    else next (state.setStatus state.current .dead) .completed

/-- The start of a slice. -/
def startSlice : State ν :=
  state.setStatus state.current .running

end Loop

/-- The table with what is recorded beside it. -/
structure System (ν : Type*) where
  tasks : State ν
  /-- The running task has blocked in a nested interpreter loop (`task_yield`). -/
  yieldPending : Bool
  /-- How often each slot has been claimed. -/
  claims : ℕ → ℕ
  /-- The messages sent to, and received by, the occupant of each slot. -/
  sent : ℕ → List ν
  received : ℕ → List ν

/-- The interpreter loop in which a task blocks: the slice's own, one that the recovery of
a panic has started, or one nested in a deferred call or a native's callback. -/
inductive LoopKind
  | outermost
  | recovered
  | nested
  deriving DecidableEq, Repr

/-- What the running task does. -/
inductive Event (ν : Type*)
  | spawn (fate : SpawnFate)
  | send (target : ActorRef) (payload : ν) (grants : Grants)
  /-- `receive()`, with a message in the mailbox. -/
  | receive
  /-- `receive()`, with an empty mailbox. -/
  | block (loop : LoopKind)
  /-- The instruction whose nested loop has blocked is over. -/
  | yield
  | finish
  | die
  | suspend

namespace System

variable {ν : Type*} (system : System ν)

def withTasks (tasks : State ν) : System ν :=
  { system with tasks := tasks }

/-- The system when the next slice has started. -/
def nextSlice (tasks : State ν) : System ν :=
  { system with tasks := startSlice tasks, yieldPending := false }

/-- A spawn, with a fresh record for the slot it claims. -/
def spawn (fate : SpawnFate) : System ν :=
  let spawned := system.withTasks (system.tasks.spawnTask fate).2
  match system.tasks.freeSlot with
  | none => spawned
  | some idx =>
    if fate = .notSendable then spawned
    else
      { spawned with
        claims := Function.update system.claims idx (system.claims idx + 1)
        sent := Function.update system.sent idx []
        received := Function.update system.received idx [] }

/-- A send, recorded for the slot whose mailbox gets the message. -/
def send (clone : ν → Option ν) (target : ActorRef) (payload : ν) (grants : Grants) : System ν :=
  let result := system.withTasks (system.tasks.send clone target payload grants).2
  match system.tasks.resolveSameGeneration target, clone payload with
  | some idx, some cloned =>
    if system.tasks.isAlive idx ∧ grants.mailbox then
      { result with sent := Function.update system.sent idx (system.sent idx ++ [cloned]) }
    else result
  | _, _ => result

/-- The mailbox of the running task. -/
def mailbox : List ν :=
  (system.tasks.slots system.tasks.current).mailbox

/-- `task_receive`, with a message in the mailbox. -/
def receive : System ν :=
  let current := system.tasks.current
  let slot := system.tasks.slots current
  match slot.mailbox with
  | [] => system
  | message :: rest =>
    { system with
      tasks := system.tasks.setSlot current { slot with mailbox := rest }
      yieldPending := false
      received := Function.update system.received current (system.received current ++ [message]) }

/-- `task_receive`, with an empty mailbox. -/
def blocked : State ν :=
  system.tasks.setStatus system.tasks.current .blockedReceive

end System

namespace Event

variable {ν : Type*}

/-- The events that can happen. -/
def Enabled (system : System ν) : Event ν → Prop
  | receive => system.mailbox ≠ []
  | block _ => system.mailbox = []
  | yield => system.yieldPending
  | _ => True

/-- The system after an event, or how the run ends with it. The loop that a recovery has
started loses the yield: its slice is reported as completed. -/
def apply (clone : ν → Option ν) (system : System ν) : Event ν → Except DriveResult (System ν)
  | spawn fate => .ok (system.spawn fate)
  | send target payload grants => .ok (system.send clone target payload grants)
  | receive => .ok system.receive
  | block .outermost => (afterSlice system.blocked .taskYielded).map system.nextSlice
  | block .recovered => (afterSlice system.blocked .completed).map system.nextSlice
  | block .nested => .ok { system.withTasks system.blocked with yieldPending := true }
  | yield => (afterSlice system.tasks .taskYielded).map system.nextSlice
  | finish => (afterSlice system.tasks .completed).map system.nextSlice
  | die => (afterSlice system.tasks .failed).map system.nextSlice
  | suspend => (afterSlice system.tasks .suspended).map system.nextSlice

end Event

/-- The generation of a slot that has been claimed so often. -/
def generationAfter : ℕ → UInt32
  | 0 => 0
  | claims + 1 => nextGeneration (generationAfter claims)

/-- A run starts from a table that has been reset: its slots are empty but keep their
generations. The main program's slice is the first. -/
def start {ν : Type*} (claims : ℕ → ℕ) : System ν where
  tasks := startSlice (State.claimMainSlot
    ⟨fun idx => ⟨generationAfter (claims idx), .empty, false, false, []⟩, [], 0⟩)
  yieldPending := false
  claims := Function.update claims mainIdx (claims mainIdx + 1)
  sent _ := []
  received _ := []

/-- The states of the runs whose events meet a condition. -/
inductive Run {ν : Type*} (clone : ν → Option ν) (condition : System ν → Event ν → Prop) :
    System ν → Prop
  | start (claims : ℕ → ℕ) (bounded : ∀ idx, claims idx + 1 < 2 ^ 32) :
      Run clone condition (start claims)
  | step {system after : System ν} {event : Event ν} : Run clone condition system →
      event.Enabled system → condition system event → event.apply clone system = .ok after →
      Run clone condition after

end Gengo.Tasks
