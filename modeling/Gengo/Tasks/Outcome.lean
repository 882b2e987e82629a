import Gengo.Tasks.Scheduler

/-!
# The outcome of a run

What `driveTaskScheduler` reports when an event ends a run. There is no notification of a
task's death: a spawned task that finishes or dies while no other task is ready ends the
run as completed, although the main program has not finished.
-/

namespace Gengo.Tasks

open State Except Function

variable {ν : Type*}

/-- The main program has not finished, and no task sleeps. -/
structure Unfinished (slots : ℕ → TaskSlot ν) : Prop where
  notEmpty : (slots mainIdx).status ≠ .empty
  notDead : (slots mainIdx).status ≠ .dead
  notSleeping : ∀ idx, (slots idx).status ≠ .sleeping

variable {slots : ℕ → TaskSlot ν} {idx : ℕ} {slot : TaskSlot ν}

theorem Unfinished.update (unfinished : Unfinished slots) (notSleeping : slot.status ≠ .sleeping)
    (alive : idx = mainIdx → slot.status ≠ .empty ∧ slot.status ≠ .dead) :
    Unfinished (Function.update slots idx slot) := by
  by_cases isMain : idx = mainIdx
  · subst isMain
    constructor
    · rw [update_self]
      exact (alive rfl).1
    · rw [update_self]
      exact (alive rfl).2
    · intro other
      by_cases same : other = mainIdx
      · subst same
        rw [update_self]
        exact notSleeping
      · rw [update_of_ne same]
        exact unfinished.notSleeping other
  · constructor
    · rw [update_of_ne (Ne.symm isMain)]
      exact unfinished.notEmpty
    · rw [update_of_ne (Ne.symm isMain)]
      exact unfinished.notDead
    · intro other
      by_cases same : other = idx
      · subst same
        rw [update_self]
        exact notSleeping
      · rw [update_of_ne same]
        exact unfinished.notSleeping other

theorem Unfinished.keepStatus (unfinished : Unfinished slots)
    (kept : slot.status = (slots idx).status) : Unfinished (Function.update slots idx slot) := by
  apply unfinished.update
  · rw [kept]
    exact unfinished.notSleeping idx
  · rintro rfl
    rw [kept]
    exact ⟨unfinished.notEmpty, unfinished.notDead⟩

/-- A slot whose task goes on, ready, running or parked in `receive()`. -/
theorem Unfinished.live (unfinished : Unfinished slots)
    (live : slot.status = .ready ∨ slot.status = .running ∨ slot.status = .blockedReceive) :
    Unfinished (Function.update slots idx slot) := by
  rcases live with live | live | live
  all_goals
    apply unfinished.update
    · simp [live]
    · simp [live]

variable {state : State ν}

theorem Unfinished.claimSlot (unfinished : Unfinished state.slots) (creates : Bool) :
    Unfinished (state.claimSlot creates).2.slots := by
  rw [State.claimSlot]
  split
  · exact unfinished
  · rename_i idx free
    have isFree : (state.slots idx).status = .empty ∨ (state.slots idx).status = .dead := by
      simpa using List.find?_some free
    split
    · exact unfinished.live (.inl rfl)
    · have isEmpty : (state.claimed idx).status = .empty := by
        rw [State.claimed]
        rcases isFree with isEmpty | isDead
        · simp [isEmpty]
        · simp [isDead, TaskSlot.clear]
      apply unfinished.update
      · simp [isEmpty]
      · rintro rfl
        rcases isFree with isEmpty | isDead
        · exact absurd isEmpty unfinished.notEmpty
        · exact absurd isDead unfinished.notDead

theorem Unfinished.enqueueReady (unfinished : Unfinished state.slots) (idx : ℕ) (appends : Bool) :
    Unfinished (state.enqueueReady idx appends).2.slots := by
  have ready : Unfinished (state.setStatus idx .ready).slots := unfinished.live (.inl rfl)
  rw [State.enqueueReady]
  split
  · exact ready
  · exact ready

theorem Unfinished.spawnTask (unfinished : Unfinished state.slots) (fate : SpawnFate) :
    Unfinished (state.spawnTask fate).2.slots := by
  rw [State.spawnTask]
  split
  · exact unfinished
  · have claims := unfinished.claimSlot (fate ≠ .notCreated)
    split
    · rename_i claimEq
      rw [claimEq] at claims
      exact claims
    · rename_i claimEq
      rw [claimEq] at claims
      split
      · exact claims
      · rename_i id after _
        have queued := claims.enqueueReady id.index (fate ≠ .notQueued)
        split
        · rename_i enqueueEq
          rw [enqueueEq] at queued
          exact queued
        · rename_i enqueueEq
          rw [enqueueEq] at queued
          exact queued

theorem Unfinished.send (unfinished : Unfinished state.slots) (clone : ν → Option ν)
    (target : ActorRef) (payload : ν) (grants : Grants) :
    Unfinished (state.send clone target payload grants).2.slots := by
  rw [State.send]
  split
  · exact unfinished
  · rename_i idx _
    split
    · exact unfinished
    · split
      · exact unfinished
      · split
        · rename_i cloned _ _
          let slot := state.slots idx
          have delivered : Unfinished
              (state.setSlot idx { slot with mailbox := slot.mailbox ++ [cloned] }).slots :=
            unfinished.keepStatus rfl
          dsimp only
          split
          · exact delivered.enqueueReady idx grants.queue
          · exact delivered
        · exact unfinished

theorem Unfinished.next {after : State ν} {otherwise : DriveResult}
    (unfinished : Unfinished state.slots) (resumed : Tasks.next state otherwise = .ok after) :
    Unfinished (startSlice after).slots := by
  rw [Tasks.next, State.popReady] at resumed
  split at resumed
  · cases resumed
  · rename_i idx popped poppedEq
    obtain rfl := ok.inj resumed
    split at poppedEq
    · cases poppedEq
    · obtain ⟨rfl, rfl⟩ := Prod.mk.inj (Option.some.inj poppedEq)
      exact unfinished.live (.inr (.inl rfl))

theorem Unfinished.retire (unfinished : Unfinished state.slots)
    (notMain : state.current ≠ mainIdx) :
    Unfinished (state.setStatus state.current .dead).slots := by
  apply unfinished.update
  · simp
  · exact fun isMain => absurd isMain notMain

theorem Unfinished.afterSlice {after : State ν} {sliceEnd : SliceEnd}
    (unfinished : Unfinished state.slots) (resumed : Tasks.afterSlice state sliceEnd = .ok after) :
    Unfinished (startSlice after).slots := by
  cases sliceEnd with
  | suspended => cases resumed
  | taskYielded => exact unfinished.next resumed
  | failed | completed =>
    rw [Tasks.afterSlice] at resumed
    split at resumed
    · cases resumed
    · rename_i notMain
      exact (unfinished.retire notMain).next resumed

variable {system : System ν}

theorem Unfinished.nextSlice {after : System ν} {sliceEnd : SliceEnd}
    (unfinished : Unfinished state.slots)
    (resumed : (Tasks.afterSlice state sliceEnd).map system.nextSlice = .ok after) :
    Unfinished after.tasks.slots := by
  cases stepEq : Tasks.afterSlice state sliceEnd with
  | error result =>
    rw [stepEq] at resumed
    cases resumed
  | ok tasks =>
    rw [stepEq] at resumed
    obtain rfl := ok.inj resumed
    exact unfinished.afterSlice stepEq

theorem tasks_spawn (system : System ν) (fate : SpawnFate) :
    (system.spawn fate).tasks = (system.tasks.spawnTask fate).2 := by
  rw [System.spawn]
  split
  · rfl
  · split <;> rfl

theorem tasks_send (system : System ν) (clone : ν → Option ν) (target : ActorRef) (payload : ν)
    (grants : Grants) : (system.send clone target payload grants).tasks =
      (system.tasks.send clone target payload grants).2 := by
  rw [System.send]
  split
  · split <;> rfl
  · rfl

variable {clone : ν → Option ν}

theorem Unfinished.apply {after : System ν} {event : Event ν}
    (unfinished : Unfinished system.tasks.slots) (applied : event.apply clone system = .ok after) :
    Unfinished after.tasks.slots := by
  have parked : Unfinished system.blocked.slots := unfinished.live (.inr (.inr rfl))
  cases event with
  | spawn fate =>
    obtain rfl := ok.inj applied
    rw [tasks_spawn]
    exact unfinished.spawnTask fate
  | send target payload grants =>
    obtain rfl := ok.inj applied
    rw [tasks_send]
    exact unfinished.send clone target payload grants
  | receive =>
    obtain rfl := ok.inj applied
    rw [System.receive]
    split
    · exact unfinished
    · exact unfinished.keepStatus rfl
  | block loop =>
    cases loop with
    | outermost | recovered => exact parked.nextSlice applied
    | nested =>
      obtain rfl := ok.inj applied
      exact parked
  | yield | finish | die => exact unfinished.nextSlice applied
  | suspend => cases applied

theorem unfinished_start (claims : ℕ → ℕ) : Unfinished (start claims : System ν).tasks.slots := by
  have main : Unfinished (State.claimMainSlot (ν := ν)
      ⟨fun idx => ⟨generationAfter (claims idx), .empty, false, false, []⟩, [], 0⟩).slots := by
    constructor
    · simp [State.claimMainSlot]
    · simp [State.claimMainSlot]
    · intro idx
      by_cases isMain : idx = mainIdx
      · subst isMain
        simp [State.claimMainSlot]
      · simp [State.claimMainSlot, update_of_ne isMain]
  exact main.live (.inr (.inl rfl))

/-- While a run goes on, the main program has not finished. -/
theorem unfinished_of_run {condition : System ν → Event ν → Prop}
    (run : Run clone condition system) : Unfinished system.tasks.slots := by
  induction run with
  | start claims _ => exact unfinished_start claims
  | step _ _ _ applied ih => exact ih.apply applied

variable {result : DriveResult}

theorem next_eq_error_iff {otherwise : DriveResult} :
    next state otherwise = .error result ↔ state.readyQueue = [] ∧ result = otherwise := by
  rw [next, State.popReady]
  cases state.readyQueue with
  | nil => simp [eq_comm]
  | cons idx rest => simp

/-- The task that is running leaves nobody ready. -/
def Idle (system : System ν) : Prop :=
  system.tasks.readyQueue = []

/-- The reports of a run that ends with an event, no task's yield being lost. -/
structure Reports (clone : ν → Option ν) (system : System ν) (event : Event ν) : Prop where
  unfinished : Unfinished system.tasks.slots
  completed : event.apply clone system = .error .completed ↔
    system.tasks.current = mainIdx ∧ event = .finish ∨
      system.tasks.current ≠ mainIdx ∧ (event = .finish ∨ event = .die) ∧ Idle system
  suspended : event.apply clone system = .error .suspended ↔ event = .suspend
  deadlock : event.apply clone system = .error .deadlock ↔
    (event = .block .outermost ∨ event = .yield) ∧ Idle system
  failed : event.apply clone system = .error .failed ↔ system.tasks.current = mainIdx ∧ event = .die

theorem map_eq_error_iff {stepped : Except DriveResult (State ν)} :
    stepped.map system.nextSlice = .error result ↔ stepped = .error result := by
  cases stepped with
  | error _ | ok _ => simp [Except.map]

theorem afterSlice_eq_error_iff :
    (afterSlice state .completed = .error result ↔
      state.current = mainIdx ∧ result = .completed ∨
        state.current ≠ mainIdx ∧ state.readyQueue = [] ∧ result = .completed) ∧
    (afterSlice state .failed = .error result ↔
      state.current = mainIdx ∧ result = .failed ∨
        state.current ≠ mainIdx ∧ state.readyQueue = [] ∧ result = .completed) := by
  by_cases isMain : state.current = mainIdx
  · simp [afterSlice, isMain, eq_comm]
  · simp [afterSlice, isMain, next_eq_error_iff, State.setStatus]

theorem reports_of_unfinished {event : Event ν} (unfinished : Unfinished system.tasks.slots)
    (kept : event ≠ .block .recovered) : Reports clone system event := by
  have blockedQueue : system.blocked.readyQueue = system.tasks.readyQueue := rfl
  cases event with
  | block loop =>
    cases loop with
    | outermost =>
      constructor
      · exact unfinished
      all_goals
        simp [Event.apply, map_eq_error_iff, afterSlice, next_eq_error_iff, Idle, blockedQueue]
    | recovered => exact absurd rfl kept
    | nested =>
      constructor
      · exact unfinished
      all_goals simp [Event.apply]
  | yield =>
    constructor
    · exact unfinished
    all_goals simp [Event.apply, map_eq_error_iff, afterSlice, next_eq_error_iff, Idle]
  | finish =>
    constructor
    · exact unfinished
    all_goals simp [Event.apply, map_eq_error_iff, afterSlice_eq_error_iff.1, Idle]
  | die =>
    constructor
    · exact unfinished
    all_goals simp [Event.apply, map_eq_error_iff, afterSlice_eq_error_iff.2, Idle]
  | suspend =>
    constructor
    · exact unfinished
    all_goals simp [Event.apply, map_eq_error_iff, afterSlice]
  | _ =>
    constructor
    · exact unfinished
    all_goals simp [Event.apply]

/-- Whatever the order of events so far, the next one is reported for what it is. -/
theorem reports_of_run {clone : ν → Option ν} {condition : System ν → Event ν → Prop}
    {system : System ν} {event : Event ν} (run : Run clone condition system)
    (kept : event ≠ .block .recovered) : Reports clone system event :=
  reports_of_unfinished (unfinished_of_run run) kept

/-- The main program has spawned a task and waits for its message. -/
def waiting : System ℕ :=
  ((start fun _ => 0).spawn .spawned).nextSlice
    { ((start fun _ => 0).spawn .spawned).blocked with readyQueue := [], current := 2 }

theorem run_waiting : Run some (fun _ _ => True) waiting := by
  have run : Run some (fun _ _ => True) (start fun _ => 0 : System ℕ) := .start _ fun _ => by decide
  have spawns : Event.Enabled (start fun _ => 0 : System ℕ) (.spawn .spawned) := trivial
  have blocks : Event.Enabled ((start fun _ => 0 : System ℕ).spawn .spawned)
      (.block .outermost) := rfl
  exact (run.step spawns trivial rfl).step blocks trivial rfl

theorem reports_waiting : Reports some waiting .die :=
  reports_of_run run_waiting nofun

/-- The events that end a slice. -/
def Event.EndsSlice : Event ν → Prop
  | block loop => loop ≠ .nested
  | yield | finish | die | suspend => True
  | spawn _ | send .. | receive => False

/-- The reports of a scheduler that lets no task's end but main's complete a run. -/
structure ReportsMain (clone : ν → Option ν) (system : System ν) (event : Event ν) : Prop where
  completed : event.apply clone system = .error .completed →
    system.tasks.current = mainIdx ∧ event = .finish
  suspended : event.apply clone system = .error .suspended → event = .suspend
  deadlock : event.apply clone system = .error .deadlock ↔
    event.EndsSlice ∧ event ≠ .suspend ∧ Idle system ∧
      ¬(system.tasks.current = mainIdx ∧ (event = .finish ∨ event = .die))

/-- Every run is reported so. -/
def MainReported : Prop :=
  ∀ (ν : Type) (clone : ν → Option ν) (system : System ν) (event : Event ν),
    Run clone (fun _ _ => True) system → event.Enabled system → ReportsMain clone system event

/-- The only task that could have answered the main program dies. -/
theorem not_mainReported : ¬MainReported := by
  intro reported
  have reports := reported ℕ some waiting .die run_waiting trivial
  exact absurd (reports.completed rfl).1 (by decide)

end Gengo.Tasks
