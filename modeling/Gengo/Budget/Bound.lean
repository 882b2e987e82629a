import Gengo.Tasks.Scheduler
import Mathlib.Data.UInt

/-!
# The instruction budget

Each execution state has its own counter. An interpreter loop counts down its gas before
each instruction, and when the gas is used up `dispatchTick` charges the counter. Sleeping
is charged as well. Of an execution state only what the budget depends on is kept.
-/

namespace Gengo.Budget

open Nat
open Tasks.State (mainIdx)

/-- `maxInt(u64)`: there is no budget. -/
def unlimited : UInt64 :=
  18446744073709551615

/-- The fields of `Policy` that set the counter. -/
structure Policy where
  maxOps : Option UInt64
  profileMode : Bool
  deriving DecidableEq

inductive ExecutionError
  | instructionBudgetExceeded
  | sleepNotAllowed
  deriving DecidableEq, Repr

/-- The part of `vm_state.State` that the budget depends on. -/
structure Vs where
  policy : Policy
  opsBudgetRemaining : UInt64
  /-- None stands for `maxInt(usize)`, the target of the outermost loop. -/
  callDepthTarget : Option ℕ
  isPanicking : Bool
  /-- `sleep_deadline_ns` is set. -/
  suspended : Bool
  deriving DecidableEq

namespace Vs

variable (vs : Vs)

/-- A state that has been initialized. -/
def fresh : Vs :=
  ⟨⟨none, false⟩, unlimited, none, false, false⟩

def resetExec : Vs :=
  { vs with
    opsBudgetRemaining := unlimited
    callDepthTarget := none
    isPanicking := false
    suspended := false }

def setPolicy (policy : Policy) : Vs :=
  { vs with
    policy := policy
    opsBudgetRemaining :=
      policy.maxOps.getD (if policy.profileMode then unlimited - 1 else unlimited) }

/-- What sleeping costs, a unit for each nanosecond; `none` when it overflows. -/
def sleepCost (ms : UInt64) : Option UInt64 :=
  if ms.toNat * 1000000 < 2 ^ 64 then some (ms * 1000000) else none

/-- `requestSleep`. -/
def requestSleep (ms : UInt64) : Except ExecutionError Vs :=
  if vs.callDepthTarget ≠ none ∨ vs.isPanicking then .error .sleepNotAllowed
  else if ms = 0 then .ok vs
  else
    match sleepCost ms with
    | none => .error .instructionBudgetExceeded
    | some cost =>
      if vs.opsBudgetRemaining ≠ unlimited then
        if vs.opsBudgetRemaining ≤ cost then .error .instructionBudgetExceeded
        else
          .ok { vs with
            opsBudgetRemaining := vs.opsBudgetRemaining - cost, suspended := true }
      else .ok { vs with suspended := true }

/-- `DispatchHeartbeat`. -/
def dispatchHeartbeat : ℕ :=
  4194304

/-- `dispatchGasInterval`. -/
def dispatchGasInterval (traceActive : Bool) : ℕ :=
  if traceActive ∨ vs.opsBudgetRemaining ≠ unlimited then 1 else dispatchHeartbeat

/-- `dispatchTick`: the gas for the next instructions. -/
def dispatchTick (traceActive : Bool) : Except ExecutionError (ℕ × Vs) :=
  if vs.opsBudgetRemaining ≠ unlimited then
    if vs.opsBudgetRemaining = 0 then .error .instructionBudgetExceeded
    else
      let charged : Vs := { vs with opsBudgetRemaining := vs.opsBudgetRemaining - 1 }
      .ok (charged.dispatchGasInterval traceActive, charged)
  else .ok (vs.dispatchGasInterval traceActive, vs)

end Vs

/-- An interpreter loop: its gas, and the call depth target that is restored after it. -/
structure Loop where
  gas : ℕ
  outerTarget : Option ℕ
  deriving DecidableEq

/-- A task, with the innermost of its interpreter loops first. -/
structure Task where
  vs : Vs
  loops : List Loop
  deriving DecidableEq

namespace Task

variable (task : Task)

/-- A loop starts: `runInner` after its caller has set the target. -/
def enter (traceActive : Bool) (target : Option ℕ) : Task where
  vs := { task.vs with callDepthTarget := target }
  loops := ⟨task.vs.dispatchGasInterval traceActive, task.vs.callDepthTarget⟩ :: task.loops

/-- The innermost loop ends, by returning or by an error. -/
def leave : Task :=
  match task.loops with
  | [] => task
  | loop :: outer => ⟨{ task.vs with callDepthTarget := loop.outerTarget }, outer⟩

/-- What the innermost loop does before it executes an instruction. -/
def countdown (traceActive : Bool) : Except ExecutionError Task :=
  match task.loops with
  | [] => .ok task
  | loop :: outer =>
    if loop.gas - 1 = 0 then
      (task.vs.dispatchTick traceActive).map fun ticked =>
        ⟨ticked.2, { loop with gas := ticked.1 } :: outer⟩
    else .ok ⟨task.vs, { loop with gas := loop.gas - 1 } :: outer⟩

end Task

/-- The tasks of a run, the instructions that they have executed and the units that they
have been charged for sleeping. -/
structure System where
  /-- The runtime's own policy. -/
  policy : Policy
  tasks : ℕ → Option Task
  current : ℕ
  traceActive : Bool
  executed : ℕ
  slept : ℕ

/-- What the running task, or the host, does. -/
inductive Event
  /-- The innermost loop executes its next instruction. -/
  | instruction
  /-- The innermost loop executes a back edge whose target is a `get_global` with a warm cache:
  that is executed with it. -/
  | backEdge
  /-- A loop starts: of a slice, after a recovery, or nested in a deferred call, a predicate,
  a native's callback or a call by the host. -/
  | enter (target : Option ℕ)
  | leave
  /-- `is_panicking` is set or cleared. -/
  | panicking (flag : Bool)
  | sleep (ms : UInt64)
  /-- A spawn, with the slot that has been claimed, if it succeeds. -/
  | spawn (claimed : Option ℕ)
  /-- The scheduler, or the host's resumption of the main program, starts a slice. -/
  | slice (idx : ℕ)
  /-- The host's trace hook is set or cleared. -/
  | trace (active : Bool)
  /-- A host function that the script has called calls the engine. -/
  | reenter

namespace System

variable (system : System)

def setTask (idx : ℕ) (task : Task) : System :=
  { system with tasks := Function.update system.tasks idx (some task) }

/-- The next instruction of the running task, when its loop has one. -/
def instruction (task : Task) : Except ExecutionError System :=
  (task.countdown system.traceActive).map fun counted =>
    { system.setTask system.current counted with executed := system.executed + 1 }

/-- `spawnTask` in the slot that it has claimed: of the execution state the new task gets
its policy. -/
def spawn (idx : ℕ) (task : Task) : System :=
  system.setTask idx ⟨{ Vs.fresh with policy := task.vs.policy, callDepthTarget := some 0 }, []⟩

/-- A slice of a task. -/
def slice (idx : ℕ) : System :=
  match system.tasks idx with
  | none => system
  | some next =>
    let awake : Task := { next with vs := { next.vs with suspended := false } }
    { system.setTask idx (awake.enter system.traceActive next.vs.callDepthTarget) with
      current := idx }

/-- `std.time.sleep`. -/
def sleep (ms : UInt64) (task : Task) : System :=
  match task.vs.requestSleep ms with
  | .error _ => system
  | .ok vs =>
    { system.setTask system.current { task with vs := vs } with
      slept := system.slept + (task.vs.opsBudgetRemaining - vs.opsBudgetRemaining).toNat }

/-- `Runtime.callGlobal` before its call: the main program's state is armed again. -/
def reenter : System :=
  match system.tasks mainIdx with
  | none => system
  | some main =>
    if main.vs.suspended then system
    else system.setTask mainIdx { main with vs := main.vs.setPolicy system.policy }

end System

namespace Event

/-- The events that can happen while a task is the running one. -/
def Enabled (system : System) (task : Task) : Event → Prop
  | instruction | backEdge => task.loops ≠ [] ∧ ¬task.vs.suspended
  | leave | sleep _ | reenter | spawn none => task.loops ≠ []
  | spawn (some idx) => task.loops ≠ [] ∧ idx ≠ mainIdx
  | slice idx => task.loops = [] ∧ ∃ next, system.tasks idx = some next ∧ next.loops = []
  | enter _ | panicking _ | trace _ => True

/-- The system after an event. -/
def apply (system : System) (task : Task) : Event → System
  | instruction =>
    match system.instruction task with
    | .error _ => system.setTask system.current task.leave
    | .ok after => after
  | backEdge =>
    match system.instruction task with
    | .error _ => system.setTask system.current task.leave
    -- `tryInlineGetGlobal` does not count down.
    | .ok after => { after with executed := after.executed + 1 }
  | enter target => system.setTask system.current (task.enter system.traceActive target)
  | leave => system.setTask system.current task.leave
  | panicking flag =>
    system.setTask system.current { task with vs := { task.vs with isPanicking := flag } }
  | sleep ms => system.sleep ms task
  | spawn none => system
  | spawn (some idx) => system.spawn idx task
  | slice idx => system.slice idx
  | trace active => { system with traceActive := active }
  | reenter => system.reenter

end Event

/-- How a run starts. -/
inductive Entry
  /-- `runPathWithProvider` and `runFromGbc`. -/
  | program
  /-- `callGlobal`. -/
  | call
  /-- `runIncremental`. -/
  | line
  deriving DecidableEq, Repr

namespace Entry

/-- The main program's state when a run starts, from what an earlier run has left. -/
def arm (policy : Policy) (vs : Vs) : Entry → Vs
  | program => vs.resetExec.setPolicy policy
  | call => vs.setPolicy policy
  | line => (vs.setPolicy policy).resetExec

end Entry

/-- The start of a run, before its first loop. -/
def start (entry : Entry) (policy : Policy) (vs : Vs) (traceActive : Bool) : System where
  policy := policy
  tasks := Function.update (fun _ => none) mainIdx (some ⟨entry.arm policy vs, []⟩)
  current := mainIdx
  traceActive := traceActive
  executed := 0
  slept := 0

/-- The states of the runs whose events meet a condition. -/
inductive Run (entry : Entry) (policy : Policy) (condition : Event → Prop) : System → Prop
  | start (vs : Vs) (traceActive : Bool) :
      Run entry policy condition (start entry policy vs traceActive)
  | step {system : System} {task : Task} : Run entry policy condition system →
      ∀ event : Event, system.tasks system.current = some task → event.Enabled system task →
      condition event → Run entry policy condition (event.apply system task)

/-!
# The instruction budget as a bound

While only the main program runs, and its counter is set once, what the counter has left
and what has been charged add up to the budget. A spawned task starts without a budget, a
call by a host function sets the counter again, a line of the REPL clears it, and a back edge
executes a `get_global` that is not charged.
-/

open List Function

/-- The next instruction of a task fails, in the loop that it runs and in every loop that it
could start. -/
structure Task.Denied (task : Task) : Prop where
  running : ∀ traceActive, task.loops ≠ [] →
    task.countdown traceActive = .error .instructionBudgetExceeded
  starting : ∀ traceActive active target,
    (task.enter traceActive target).countdown active = .error .instructionBudgetExceeded

/-- A run has stayed within its budget, and once the budget is used up every task's next
instruction fails. -/
structure System.Bounded (budget : ℕ) (system : System) : Prop where
  charged_le : system.executed + system.slept ≤ budget
  denied : system.executed + system.slept = budget → ∀ idx task,
    system.tasks idx = some task → task.Denied

/-- The events that neither create a counter nor set one, and execute nothing beside it. -/
def Event.KeepsCounter : Event → Prop
  | spawn (some _) | reenter | backEdge => False
  | _ => True

namespace Vs

variable {vs : Vs} {remaining : ℕ}

/-- A budget is set, and so much of it is left. -/
structure Holds (vs : Vs) (remaining : ℕ) : Prop where
  limited : vs.opsBudgetRemaining ≠ unlimited
  left : vs.opsBudgetRemaining.toNat = remaining

theorem toNat_unlimited : unlimited.toNat = 2 ^ 64 - 1 :=
  rfl

theorem ne_unlimited_of_le {counter counter' : UInt64} (limited : counter ≠ unlimited)
    (le : counter'.toNat ≤ counter.toNat) : counter' ≠ unlimited := by
  rintro rfl
  apply limited
  apply UInt64.toNat.inj
  have below := counter.toNat_lt
  rw [toNat_unlimited] at le ⊢
  omega

theorem Holds.dispatchGasInterval (holds : vs.Holds remaining) (traceActive : Bool) :
    vs.dispatchGasInterval traceActive = 1 := by
  rw [Vs.dispatchGasInterval, if_pos (.inr holds.limited)]

theorem Holds.dispatchTick_zero (holds : vs.Holds 0) (traceActive : Bool) :
    vs.dispatchTick traceActive = .error .instructionBudgetExceeded := by
  have empty : vs.opsBudgetRemaining = 0 := UInt64.toNat.inj holds.left
  rw [Vs.dispatchTick, if_pos holds.limited, if_pos empty]

theorem Holds.charge (holds : vs.Holds remaining) {cost : UInt64}
    (le : cost ≤ vs.opsBudgetRemaining) (suspended : Bool) :
    ({ vs with opsBudgetRemaining := vs.opsBudgetRemaining - cost, suspended := suspended } :
      Vs).Holds (remaining - cost.toNat) := by
  have difference := UInt64.toNat_sub_of_le _ _ le
  constructor
  · apply ne_unlimited_of_le holds.limited
    simp only [difference]
    omega
  · simp only [difference, holds.left]

theorem Holds.dispatchTick_succ (holds : vs.Holds (remaining + 1)) (traceActive : Bool) :
    ∃ charged : Vs, vs.dispatchTick traceActive = .ok (1, charged) ∧ charged.Holds remaining := by
  have positive : vs.opsBudgetRemaining ≠ 0 := by
    intro empty
    have left := holds.left
    rw [empty] at left
    cases left
  have one : (1 : UInt64) ≤ vs.opsBudgetRemaining := by
    rw [UInt64.le_iff_toNat_le, holds.left]
    exact le_add_left 1 remaining
  have charged : ({ vs with opsBudgetRemaining := vs.opsBudgetRemaining - 1 } :
      Vs).Holds remaining := holds.charge one vs.suspended
  refine ⟨_, ?_, charged⟩
  rw [Vs.dispatchTick, if_pos holds.limited, if_neg positive]
  simp only [charged.dispatchGasInterval]

theorem Holds.requestSleep (holds : vs.Holds remaining) {ms : UInt64} {after : Vs}
    (slept : vs.requestSleep ms = .ok after) :
    (vs.opsBudgetRemaining - after.opsBudgetRemaining).toNat ≤ remaining ∧
      after.Holds (remaining - (vs.opsBudgetRemaining - after.opsBudgetRemaining).toNat) := by
  rw [Vs.requestSleep] at slept
  by_cases nested : vs.callDepthTarget ≠ none ∨ vs.isPanicking
  · rw [if_pos nested] at slept
    cases slept
  · rw [if_neg nested] at slept
    by_cases none : ms = 0
    · rw [if_pos none] at slept
      cases slept
      simpa using holds
    · rw [if_neg none] at slept
      rcases costEq : sleepCost ms with _ | cost
      · simp only [costEq] at slept
        cases slept
      · simp only [costEq, if_pos holds.limited] at slept
        by_cases tooMuch : vs.opsBudgetRemaining ≤ cost
        · rw [if_pos tooMuch] at slept
          cases slept
        · rw [if_neg tooMuch] at slept
          cases slept
          have le : cost ≤ vs.opsBudgetRemaining := UInt64.le_of_lt (UInt64.not_le.mp tooMuch)
          have charge : vs.opsBudgetRemaining - (vs.opsBudgetRemaining - cost) = cost := by
            simp
          simp only [charge]
          constructor
          · rw [← holds.left]
            exact UInt64.le_iff_toNat_le.mp le
          · exact holds.charge le true

end Vs

namespace Task

variable {task : Task} {remaining : ℕ}

/-- A budget is set, and every loop of the task looks at it before each instruction. -/
structure Metered (task : Task) (remaining : ℕ) : Prop where
  holds : task.vs.Holds remaining
  gas : ∀ loop ∈ task.loops, loop.gas = 1

theorem Metered.enter (metered : task.Metered remaining) (traceActive : Bool)
    (target : Option ℕ) : (task.enter traceActive target).Metered remaining where
  holds := ⟨metered.holds.limited, metered.holds.left⟩
  gas := by
    intro loop member
    rcases mem_cons.mp member with rfl | outer
    · exact metered.holds.dispatchGasInterval traceActive
    · exact metered.gas loop outer

theorem Metered.leave (metered : task.Metered remaining) : task.leave.Metered remaining := by
  rcases task with ⟨vs, loops⟩
  cases loops with
  | nil => exact metered
  | cons loop outer =>
    exact ⟨⟨metered.holds.limited, metered.holds.left⟩,
      fun loop member => metered.gas loop (mem_cons_of_mem _ member)⟩

theorem Metered.countdown_zero (metered : task.Metered 0) (traceActive : Bool)
    (runs : task.loops ≠ []) :
    task.countdown traceActive = .error .instructionBudgetExceeded := by
  rcases task with ⟨vs, loops⟩
  cases loops with
  | nil => exact absurd rfl runs
  | cons loop outer =>
    have gas : loop.gas = 1 := metered.gas loop mem_cons_self
    simp only [countdown, gas, Nat.sub_self, if_true, metered.holds.dispatchTick_zero traceActive]
    rfl

theorem Metered.countdown_succ (metered : task.Metered (remaining + 1)) (traceActive : Bool)
    (runs : task.loops ≠ []) :
    ∃ counted, task.countdown traceActive = .ok counted ∧ counted.Metered remaining := by
  rcases task with ⟨vs, loops⟩
  cases loops with
  | nil => exact absurd rfl runs
  | cons loop outer =>
    have gas : loop.gas = 1 := metered.gas loop mem_cons_self
    rcases metered.holds.dispatchTick_succ traceActive with ⟨charged, tickEq, holds⟩
    refine ⟨⟨charged, { loop with gas := 1 } :: outer⟩, ?_, holds, ?_⟩
    · simp only [countdown, gas, Nat.sub_self, if_true, tickEq]
      rfl
    · intro counted member
      rcases mem_cons.mp member with rfl | outer
      · rfl
      · exact metered.gas counted (mem_cons_of_mem _ outer)

theorem Metered.denied (metered : task.Metered 0) : task.Denied where
  running traceActive runs := metered.countdown_zero traceActive runs
  starting traceActive active target :=
    (metered.enter traceActive target).countdown_zero active (cons_ne_nil _ _)

end Task

namespace System

variable {system after : System} {budget : ℕ}

/-- Only the main program runs, and it has left what has not been charged. -/
structure Metered (budget : ℕ) (system : System) : Prop where
  charged_le : system.executed + system.slept ≤ budget
  task : ∀ idx task, system.tasks idx = some task →
    idx = mainIdx ∧ task.Metered (budget - (system.executed + system.slept))

section

variable (metered : system.Metered budget)
include metered

theorem Metered.bounded : system.Bounded budget where
  charged_le := metered.charged_le
  denied used idx task live := by
    have left := (metered.task idx task live).2
    rw [used, Nat.sub_self] at left
    exact left.denied

/-- A change of the main program's task alone. -/
theorem Metered.update {task : Task}
    (tasks : after.tasks = Function.update system.tasks mainIdx (some task))
    (charged_le : after.executed + after.slept ≤ budget)
    (taskMetered : task.Metered (budget - (after.executed + after.slept))) :
    after.Metered budget := by
  refine ⟨charged_le, fun idx next live => ?_⟩
  rw [tasks] at live
  by_cases main : idx = mainIdx
  · rw [main, update_self] at live
    cases live
    exact ⟨main, taskMetered⟩
  · rw [update_of_ne main] at live
    exact absurd (metered.task idx next live).1 main

theorem Metered.setTask {idx : ℕ} {old task : Task} (live : system.tasks idx = some old)
    (taskMetered : task.Metered (budget - (system.executed + system.slept))) :
    (system.setTask idx task).Metered budget := by
  have main := (metered.task idx old live).1
  subst main
  exact metered.update rfl metered.charged_le taskMetered

/-- An instruction of the running task, whether it is executed or denied. -/
theorem Metered.instruction {task : Task} (live : system.tasks system.current = some task)
    (runs : task.loops ≠ []) : (Event.instruction.apply system task).Metered budget := by
  have taskMetered := (metered.task _ task live).2
  have main := (metered.task _ task live).1
  have bound := metered.charged_le
  rw [Event.apply, System.instruction]
  rcases leftEq : budget - (system.executed + system.slept) with _ | left
  · rw [leftEq] at taskMetered
    rw [taskMetered.countdown_zero system.traceActive runs]
    apply metered.setTask live
    rw [leftEq]
    exact taskMetered.leave
  · rw [leftEq] at taskMetered
    rcases taskMetered.countdown_succ system.traceActive runs with
      ⟨counted, countedEq, countedMetered⟩
    rw [countedEq, main]
    have rest : budget - (system.executed + 1 + system.slept) = left := by omega
    refine metered.update rfl ?_ ?_
    · show system.executed + 1 + system.slept ≤ budget
      omega
    · show counted.Metered (budget - (system.executed + 1 + system.slept))
      rwa [rest]

theorem Metered.sleep {task : Task} (live : system.tasks system.current = some task) (ms : UInt64) :
    (system.sleep ms task).Metered budget := by
  have taskMetered := (metered.task _ task live).2
  have main := (metered.task _ task live).1
  have bound := metered.charged_le
  rw [System.sleep]
  rcases sleptEq : task.vs.requestSleep ms with _ | vs
  · exact metered
  · rcases taskMetered.holds.requestSleep sleptEq with ⟨le, holds⟩
    rw [main]
    refine metered.update rfl ?_ ⟨?_, taskMetered.gas⟩
    · show system.executed + (system.slept + _) ≤ budget
      omega
    · show vs.Holds (budget - (system.executed + (system.slept + _)))
      rwa [← add_assoc, sub_add_eq]

theorem Metered.slice (idx : ℕ) : (system.slice idx).Metered budget := by
  rw [System.slice]
  rcases nextEq : system.tasks idx with _ | next
  · exact metered
  · have nextMetered := (metered.task idx next nextEq).2
    have awake : ({ next with vs := { next.vs with suspended := false } } :
        Task).Metered (budget - (system.executed + system.slept)) :=
      ⟨⟨nextMetered.holds.limited, nextMetered.holds.left⟩, nextMetered.gas⟩
    have set := metered.setTask nextEq (awake.enter system.traceActive next.vs.callDepthTarget)
    exact ⟨set.charged_le, set.task⟩

/-- Every event that keeps the counter keeps the account. -/
theorem Metered.apply {task : Task} {event : Event}
    (live : system.tasks system.current = some task) (enabled : event.Enabled system task)
    (keeps : event.KeepsCounter) : (event.apply system task).Metered budget := by
  have taskMetered := (metered.task _ task live).2
  cases event with
  | instruction => exact metered.instruction live enabled.1
  | backEdge => exact keeps.elim
  | enter target => exact metered.setTask live (taskMetered.enter system.traceActive target)
  | leave => exact metered.setTask live taskMetered.leave
  | panicking flag =>
    exact metered.setTask live
      ⟨⟨taskMetered.holds.limited, taskMetered.holds.left⟩, taskMetered.gas⟩
  | sleep ms => exact metered.sleep live ms
  | spawn claimed =>
    cases claimed with
    | none => exact metered
    | some idx => exact keeps.elim
  | slice idx => exact metered.slice idx
  | trace active => exact ⟨metered.charged_le, metered.task⟩
  | reenter => exact keeps.elim

end

end System

/-- The start of a program's run, or of a call by the host, under a budget. -/
theorem metered_start {entry : Entry} (arms : entry ≠ .line) {policy : Policy}
    {budget : UInt64} (maxOps : policy.maxOps = some budget) (finite : budget ≠ unlimited)
    (vs : Vs) (traceActive : Bool) :
    (start entry policy vs traceActive).Metered budget.toNat := by
  have holds : (entry.arm policy vs).Holds budget.toNat := by
    cases entry with
    | line => exact absurd rfl arms
    | program | call => constructor <;> simp [Entry.arm, Vs.setPolicy, maxOps, finite]
  refine ⟨zero_le _, fun idx task live => ?_⟩
  by_cases main : idx = mainIdx
  · subst main
    cases live
    exact ⟨rfl, holds, fun loop member => absurd member not_mem_nil⟩
  · simp only [start, update_of_ne main] at live
    cases live

/-- A run that spawns no task, in which no host function calls the engine and no back edge
executes the instruction behind it, stays within its budget. -/
theorem bounded_of_run {entry : Entry} {policy : Policy} {budget : UInt64} {system : System}
    (arms : entry ≠ .line) (maxOps : policy.maxOps = some budget) (finite : budget ≠ unlimited)
    (run : Run entry policy Event.KeepsCounter system) : system.Bounded budget.toNat := by
  have metered : system.Metered budget.toNat := by
    induction run with
    | start vs traceActive => exact metered_start arms maxOps finite vs traceActive
    | step _ event live enabled keeps ih =>
      exact ih.apply live enabled keeps
  exact metered.bounded

/-- The condition can be met: a run of one instruction under a budget of two. -/
theorem bounded_of_run_one : ∃ system : System, system.executed = 1 ∧ system.Bounded 2 := by
  have begun : Run .program ⟨some 2, false⟩ Event.KeepsCounter
      (start .program ⟨some 2, false⟩ Vs.fresh false) := .start Vs.fresh false
  have entered := begun.step (.enter none) rfl trivial trivial
  have ran := entered.step .instruction rfl ⟨cons_ne_nil _ _, by decide⟩ trivial
  have bounded : System.Bounded (2 : UInt64).toNat _ :=
    bounded_of_run (by decide) rfl (by decide) ran
  exact ⟨_, rfl, bounded⟩

/-- A task that runs a loop without a budget. -/
structure Task.Unmetered (task : Task) : Prop where
  counter : task.vs.opsBudgetRemaining = unlimited
  runs : task.loops ≠ []
  awake : ¬task.vs.suspended

theorem Task.Unmetered.countdown {task : Task} (unmetered : task.Unmetered)
    (traceActive : Bool) :
    ∃ counted, task.countdown traceActive = .ok counted ∧ counted.Unmetered := by
  rcases task with ⟨vs, loops⟩
  cases loops with
  | nil => exact absurd rfl unmetered.runs
  | cons loop outer =>
    have unlimitedTick : vs.dispatchTick traceActive =
        .ok (vs.dispatchGasInterval traceActive, vs) := by
      rw [Vs.dispatchTick, if_neg (not_not.mpr unmetered.counter)]
    by_cases due : loop.gas - 1 = 0
    · refine ⟨⟨vs, { loop with gas := vs.dispatchGasInterval traceActive } :: outer⟩, ?_,
        unmetered.counter, cons_ne_nil _ _, unmetered.awake⟩
      simp only [Task.countdown, if_pos due, unlimitedTick]
      rfl
    · refine ⟨⟨vs, { loop with gas := loop.gas - 1 } :: outer⟩, ?_,
        unmetered.counter, cons_ne_nil _ _, unmetered.awake⟩
      simp only [Task.countdown, if_neg due]

section Exceeding

variable {entry : Entry} {policy : Policy} {system : System} {task : Task}

section

variable (run : Run entry policy (fun _ => True) system)
    (live : system.tasks system.current = some task)
include run live

/-- A task without a budget can execute any number of instructions. -/
theorem Run.instructions (unmetered : task.Unmetered) (count : ℕ) :
    ∃ after, Run entry policy (fun _ => True) after ∧ count ≤ after.executed := by
  suffices strong : ∃ after task, Run entry policy (fun _ => True) after ∧
      after.tasks after.current = some task ∧ task.Unmetered ∧ count ≤ after.executed by
    rcases strong with ⟨after, _, ran, _, _, reached⟩
    exact ⟨after, ran, reached⟩
  induction count with
  | zero => exact ⟨system, task, run, live, unmetered, zero_le _⟩
  | succ count ih =>
    rcases ih with ⟨after, task, ran, live, unmetered, reached⟩
    rcases unmetered.countdown after.traceActive with ⟨counted, countedEq, still⟩
    have next := ran.step .instruction live ⟨unmetered.runs, unmetered.awake⟩
      trivial
    have nextEq : Event.instruction.apply after task =
        { after.setTask after.current counted with executed := after.executed + 1 } := by
      simp only [Event.apply, System.instruction, countedEq]
      rfl
    rw [nextEq] at next
    exact ⟨_, counted, next, update_self _ _ _, still, succ_le_succ reached⟩

/-- The slice of the running task can end; the other tasks stay as they are. -/
theorem Run.leaveAll :
    ∃ after idle, Run entry policy (fun _ => True) after ∧ after.current = system.current ∧
      after.tasks after.current = some idle ∧ idle.loops = [] ∧
      ∀ idx, idx ≠ system.current → after.tasks idx = system.tasks idx := by
  rcases task with ⟨vs, loops⟩
  induction loops generalizing system vs with
  | nil => exact ⟨system, ⟨vs, []⟩, run, rfl, live, rfl, fun _ _ => rfl⟩
  | cons loop outer ih =>
    have left := run.step .leave live (cons_ne_nil _ _) trivial
    rcases ih left { vs with callDepthTarget := loop.outerTarget }
      (update_self _ _ _) with ⟨after, idle, ran, current, idleEq, none, others⟩
    refine ⟨after, idle, ran, current, idleEq, none, fun idx other => ?_⟩
    exact (others idx other).trans (update_of_ne other _ _)

/-- After a spawn no number bounds the instructions that the run can execute. -/
theorem Run.exceeds_of_spawn (idx : ℕ) (enabled : (Event.spawn (some idx)).Enabled system task)
    (other : idx ≠ system.current) (count : ℕ) :
    ∃ after, Run entry policy (fun _ => True) after ∧ count ≤ after.executed := by
  have spawned := run.step (.spawn (some idx)) live enabled trivial
  have still : (system.spawn idx task).tasks system.current = some task := by
    simp only [System.spawn, System.setTask, update_of_ne other.symm, live]
  rcases spawned.leaveAll still with ⟨after, idle, ran, current, idleEq, none, others⟩
  have ready : after.tasks idx = some ⟨{ Vs.fresh with
      policy := task.vs.policy, callDepthTarget := some 0 }, []⟩ := by
    rw [others idx other]
    exact update_self _ _ _
  have sliced := ran.step (.slice idx) idleEq ⟨none, _, ready, rfl⟩ trivial
  rw [Event.apply, System.slice, ready] at sliced
  refine sliced.instructions (update_self _ _ _) ⟨rfl, ?_, ?_⟩ count
  · exact cons_ne_nil _ _
  · exact Bool.false_ne_true

end

end Exceeding

/-- A program with a budget of a thousand instructions spawns a task, which executes more. -/
theorem not_bounded : ¬∀ (entry : Entry) (policy : Policy) (budget : UInt64)
    (system : System), policy.maxOps = some budget →
    Run entry policy (fun _ => True) system → system.Bounded budget.toNat := by
  intro bounded
  have begun : Run .program ⟨some 1000, false⟩ (fun _ => True)
      (start .program ⟨some 1000, false⟩ Vs.fresh false) := .start Vs.fresh false
  have entered := begun.step (.enter none) rfl trivial trivial
  have ran := entered.step .instruction rfl ⟨cons_ne_nil _ _, by decide⟩ trivial
  rcases ran.exceeds_of_spawn rfl 2 ⟨cons_ne_nil _ _, by decide⟩ (by decide) 1001
    with ⟨after, reached, exceeded⟩
  have within : after.executed + after.slept ≤ 1000 :=
    (bounded _ _ 1000 after rfl reached).charged_le
  omega

end Gengo.Budget
