import Gengo.Tasks.Scheduler

/-!
# Turns

Who is ready gets a turn before all that become ready later, however the running tasks spawn, send,
block and end.
-/

namespace Gengo.Tasks

open State List Except

variable {ν : Type*} {clone : ν → Option ν} {system after : System ν} {state : State ν}

/-- The slice of the running task is over with the event. -/
def Event.endsSlice : Event ν → Bool
  | block .nested => false
  | block _ | yield | finish | die | suspend => true
  | _ => false

/-- The tasks whose slices start in the course of a run, one after the other. -/
inductive Turns (clone : ν → Option ν) (system : System ν) : List ℕ → System ν → Prop
  | start : Turns clone system [] system
  | step {turns : List ℕ} {before after : System ν} {event : Event ν}
      (run : Turns clone system turns before) (enabled : event.Enabled before)
      (applied : event.apply clone before = .ok after) :
      Turns clone system (turns ++ if event.endsSlice then [after.tasks.current] else []) after

theorem prefix_enqueueReady (state : State ν) (idx : ℕ) (appends : Bool) :
    state.readyQueue <+: (state.enqueueReady idx appends).2.readyQueue := by
  cases appends with
  | true => exact prefix_append _ _
  | false => exact prefix_rfl

theorem prefix_spawnTask (fate : SpawnFate) :
    state.readyQueue <+: (state.spawnTask fate).2.readyQueue := by
  cases free : state.freeSlot with
  | none => cases fate <;> simp [State.spawnTask, State.claimSlot, free]
  | some idx =>
    cases fate <;> simp [State.spawnTask, State.claimSlot, free, State.enqueueReady,
      State.setStatus]

theorem prefix_send (target : ActorRef) (payload : ν) (grants : Grants) :
    state.readyQueue <+: (state.send clone target payload grants).2.readyQueue := by
  rw [State.send]
  split
  · exact prefix_rfl
  · split
    · exact prefix_rfl
    · split
      · exact prefix_rfl
      · split
        · dsimp only
          split
          · exact prefix_enqueueReady (state.setSlot _ _) _ _
          · exact prefix_rfl
        · exact prefix_rfl

theorem readyQueue_next (state : State ν) {otherwise : DriveResult}
    (resumed : (next state otherwise).map system.nextSlice = .ok after) :
    state.readyQueue = after.tasks.current :: after.tasks.readyQueue := by
  rw [next, popReady] at resumed
  cases queue : state.readyQueue with
  | nil =>
    rw [queue] at resumed
    cases resumed
  | cons idx rest =>
    rw [queue] at resumed
    obtain rfl := ok.inj resumed
    rfl

theorem readyQueue_afterSlice {sliceEnd : SliceEnd}
    (resumed : (afterSlice state sliceEnd).map system.nextSlice = .ok after) :
    state.readyQueue = after.tasks.current :: after.tasks.readyQueue := by
  cases sliceEnd with
  | suspended => cases resumed
  | taskYielded => exact readyQueue_next state resumed
  | completed | failed =>
    rw [afterSlice] at resumed
    split at resumed
    · cases resumed
    · exact readyQueue_next (state.setStatus state.current .dead) resumed

/-- An event that ends the slice takes the next task from the front of the queue, and any other
adds at most to its end. -/
theorem readyQueue_apply {event : Event ν} (applied : event.apply clone system = .ok after) :
    system.tasks.readyQueue <+:
      (if event.endsSlice then [after.tasks.current] else []) ++ after.tasks.readyQueue := by
  cases event with
  | spawn fate =>
    obtain rfl := ok.inj applied
    have same : (system.spawn fate).tasks = (system.tasks.spawnTask fate).2 := by
      rw [System.spawn]
      split
      · rfl
      · split <;> rfl
    exact same ▸ prefix_spawnTask fate
  | send target payload grants =>
    obtain rfl := ok.inj applied
    have same : (system.send clone target payload grants).tasks =
        (system.tasks.send clone target payload grants).2 := by
      rw [System.send]
      split
      · split <;> rfl
      · rfl
    exact same ▸ prefix_send target payload grants
  | receive =>
    obtain rfl := ok.inj applied
    have same : system.receive.tasks.readyQueue = system.tasks.readyQueue := by
      rw [System.receive]
      split <;> rfl
    exact same ▸ prefix_rfl
  | block loop =>
    cases loop with
    | nested =>
      obtain rfl := ok.inj applied
      exact prefix_rfl
    | outermost | recovered =>
      have served := readyQueue_afterSlice applied
      exact served ▸ prefix_rfl
  | yield | finish | die =>
    have served := readyQueue_afterSlice applied
    exact served ▸ prefix_rfl
  | suspend => cases applied

/-- In every run the tasks that were ready get their turns in order, and before any others. -/
theorem inOrder_of_turns {clone : ν → Option ν} {system after : System ν} {turns : List ℕ}
    (run : Turns clone system turns after) :
    system.tasks.readyQueue <+: turns ++ after.tasks.readyQueue := by
  induction run with
  | start => exact prefix_rfl
  | step _ _ applied ih =>
    rw [append_assoc]
    exact ih.trans ((prefix_append_right_inj _).mpr (readyQueue_apply applied))

def twoSpawned : System ℕ :=
  ((start fun _ => 0).spawn .spawned).spawn .spawned

theorem inOrder_twoSpawned : ∃ after, Turns some twoSpawned [2] after ∧
    twoSpawned.tasks.readyQueue <+: [2] ++ after.tasks.readyQueue := by
  have canBlock : Event.Enabled twoSpawned (.block .outermost) := rfl
  have run := (Turns.start : Turns some twoSpawned [] twoSpawned).step canBlock rfl
  exact ⟨_, run, inOrder_of_turns run⟩

end Gengo.Tasks
