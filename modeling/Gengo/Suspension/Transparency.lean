import Gengo.Runs.Along
import Gengo.Tasks.Scheduler

/-!
# Running, suspending and resuming a program

What one instruction does is a parameter, an `Interpreter`, as is the unwinding of a panic.
Around it stand `runUntilSuspend`, the scheduler that starts a program and `continueRun`,
which resumes it. The host resumes a program when its deadline has passed; before that
`continueRun` changes nothing.
-/

namespace Gengo.Suspension

open Tasks (SliceEnd)
open Tasks.State (mainIdx)
open Runs (Next Reaches Ends)

/-- The state of a program: the task table, but for the index of the current task, and
everything else, such as the globals, the heap, the output and the tasks' stacks. -/
structure World (ν ρ : Type*) where
  slots : ℕ → Tasks.TaskSlot ν
  readyQueue : List ℕ
  rest : ρ

/-- What an instruction of the current task does. -/
inductive Signal (ν ρ ε : Type*)
  | continues (world : World ν ρ)
  /-- `std.time.sleep` has set a deadline. -/
  | sleeps (world : World ν ρ)
  /-- `receive()` with an empty mailbox. -/
  | yields (world : World ν ρ)
  /-- The loop ends: `halt`, or the return that it waits for. -/
  | completes (world : World ν ρ)
  | raises (err : ε) (world : World ν ρ)
  /-- A nested loop never ends. -/
  | diverges

/-- The signal of an instruction whose sleep returns at once. -/
def Signal.awake {ν ρ ε : Type*} : Signal ν ρ ε → Signal ν ρ ε
  | sleeps world => continues world
  | signal => signal

theorem Signal.awake_ne_sleeps {ν ρ ε : Type*} (signal : Signal ν ρ ε) (world : World ν ρ) :
    signal.awake ≠ sleeps world := by
  cases signal <;> simp [awake]

/-- What the unwinding of a panic does. -/
inductive Unwinding (ν ρ ε : Type*)
  | fails (err : ε) (world : World ν ρ)
  /-- A frame has recovered, and the loop need not be run. -/
  | returns (world : World ν ρ)
  /-- A frame has recovered, and the loop is started again. -/
  | resumes (world : World ν ρ)
  | diverges

/-- The interpreter of a program. -/
structure Interpreter (ν ρ ε : Type*) where
  /-- The next instruction of a task. -/
  step : ℕ → World ν ρ → Signal ν ρ ε
  /-- The verifier and the bound on the operand stack, checked before a loop. -/
  entryError : ℕ → World ν ρ → Option ε
  unwind : ℕ → World ν ρ → ε → Unwinding ν ρ ε
  /-- A spawned task has a call depth target, so `requestSleep` refuses. -/
  sleeps_main : ∀ current world after, step current world = .sleeps after → current = mainIdx

/-- What a run reports to the host. -/
inductive Report (ε : Type*)
  | completed
  | taskYielded
  | deadlock
  /-- A suspension that `run` has turned into an error. -/
  | executionSuspended
  | failed (err : ε)
  deriving DecidableEq

inductive Phase (ε : Type*)
  | running
  | raising (err : ε)

/-- A program that runs. -/
structure Config (ν ρ ε : Type*) where
  world : World ν ρ
  current : ℕ
  phase : Phase ε
  /-- The loop has been started again after a recovery in the slice. -/
  recovered : Bool
  /-- The slice has been started by `continueRun`. -/
  resumed : Bool

namespace Config

variable {ν ρ ε : Type*} (config : Config ν ρ ε)

def tasks (world : World ν ρ) : Tasks.State ν :=
  ⟨world.slots, world.readyQueue, config.current⟩

end Config

namespace Interpreter

variable {ν ρ ε : Type*} (interpreter : Interpreter ν ρ ε)

/-- The start of `runUntilSuspend`. -/
def enter (current : ℕ) (world : World ν ρ) : Phase ε :=
  match interpreter.entryError current world with
  | none => .running
  | some err => .raising err

/-- A slice that the scheduler starts. -/
def startSlice (tasks : Tasks.State ν) (rest : ρ) : Config ν ρ ε :=
  let started := Tasks.startSlice tasks
  let world : World ν ρ := ⟨started.slots, started.readyQueue, rest⟩
  ⟨world, tasks.current, interpreter.enter tasks.current world, false, false⟩

/-- `continueRun`: the main program's loop, without the scheduler. -/
def continueRun (world : World ν ρ) : Config ν ρ ε :=
  ⟨world, mainIdx, interpreter.enter mainIdx world, false, true⟩

/-- The scheduler goes on with the next slice or reports the end; `failure` is what is
reported of an error. -/
def schedule (world : World ν ρ) (failure : Report ε) :
    Except Tasks.DriveResult (Tasks.State ν) → Next (Config ν ρ ε) (Report ε × World ν ρ)
  | .ok tasks => .goes (interpreter.startSlice tasks world.rest)
  | .error .failed => .ends (failure, world)
  | .error .deadlock => .ends (.deadlock, world)
  | .error _ => .ends (.completed, world)

/-- The end of a slice. -/
def sliceEnds (config : Config ν ρ ε) (world : World ν ρ) (failure : Report ε) :
    SliceEnd → Next (Config ν ρ ε) (Report ε × World ν ρ)
  | .suspended => .goes (interpreter.continueRun world)
  | sliceEnd =>
    if config.resumed then
      match sliceEnd with
      | .failed => .ends (failure, world)
      | .taskYielded => .ends (.taskYielded, world)
      | _ => .ends (.completed, world)
    else
      interpreter.schedule world failure (Tasks.afterSlice (config.tasks world) sliceEnd)

/-- A yield or a suspension. In a loop that a recovery has started `run` makes an error of
the suspension and takes the yield for the end of the loop. -/
def parks (config : Config ν ρ ε) (world : World ν ρ) (sliceEnd : SliceEnd) :
    Next (Config ν ρ ε) (Report ε × World ν ρ) :=
  if config.recovered then
    interpreter.sliceEnds config world .executionSuspended
      (if sliceEnd = .suspended then .failed else .completed)
  else interpreter.sliceEnds config world .executionSuspended sliceEnd

/-- What the loop does after an instruction. -/
def executed (config : Config ν ρ ε) :
    Signal ν ρ ε → Next (Config ν ρ ε) (Report ε × World ν ρ)
  | .continues world => .goes { config with world := world }
  | .sleeps world => interpreter.parks config world .suspended
  | .yields world => interpreter.parks config world .taskYielded
  | .completes world => interpreter.sliceEnds config world .completed .completed
  | .raises err world => .goes { config with world := world, phase := .raising err }
  | .diverges => .goes config

/-- The end of `runPanicUnwind`. -/
def unwound (config : Config ν ρ ε) :
    Unwinding ν ρ ε → Next (Config ν ρ ε) (Report ε × World ν ρ)
  | .fails err world => interpreter.sliceEnds config world (.failed err) .failed
  | .returns world => interpreter.sliceEnds config world .completed .completed
  | .resumes world =>
    .goes { config with
      world := world
      phase := interpreter.enter config.current world
      recovered := true }
  | .diverges => .goes config

/-- A step of the program, with the host resuming it whenever it is suspended. -/
def next (config : Config ν ρ ε) : Next (Config ν ρ ε) (Report ε × World ν ρ) :=
  match config.phase with
  | .running => interpreter.executed config (interpreter.step config.current config.world)
  | .raising err =>
    interpreter.unwound config (interpreter.unwind config.current config.world err)

/-- `begin`: the main program has been compiled into a state. -/
def begin (world : World ν ρ) : Config ν ρ ε :=
  interpreter.startSlice
    (Tasks.State.claimMainSlot ⟨world.slots, world.readyQueue, mainIdx⟩) world.rest

/-- The interpreter of the same program in which `sleep` returns at once. -/
def awake : Interpreter ν ρ ε where
  step current world := (interpreter.step current world).awake
  entryError := interpreter.entryError
  unwind := interpreter.unwind
  sleeps_main current world after sleeps :=
    absurd sleeps ((interpreter.step current world).awake_ne_sleeps after)

end Interpreter

/-- What `run` makes of the last outcome: it looks only at the errors. -/
def Report.ran {ε : Type*} : Report ε → Report ε
  | taskYielded => completed
  | report => report

section Runs

variable {ν ρ ε : Type*} (interpreter : Interpreter ν ρ ε) (world : World ν ρ)

/-- The outcome of `begin` and then `continueRun` until the program is no longer suspended. -/
def Cooperates (result : Report ε × World ν ρ) : Prop :=
  Ends interpreter.next (interpreter.begin world) result

/-- The outcome of `run`, which waits the suspensions out. -/
def Blocks (result : Report ε × World ν ρ) : Prop :=
  ∃ report, Cooperates interpreter world (report, result.2) ∧ report.ran = result.1

/-- The states of the run that the host drives. -/
def Occurs (config : Config ν ρ ε) : Prop :=
  Reaches interpreter.next (interpreter.begin world) config

end Runs

/-!
# Suspension of the main program

A program that sleeps runs in lockstep with the same program in which `sleep` returns at
once, as long as its loop can be entered again, no panic has been recovered in the slice
that sleeps, and the resumed program does not wait for a message.
-/

open Bool
open Runs (ends_iff_of_lockstep)

variable {ν ρ ε : Type*}

/-- The program has come to its end. -/
def Finishes (interpreter : Interpreter ν ρ ε) (config : Config ν ρ ε) : Prop :=
  match config.phase with
  | .running => ∃ world, interpreter.step config.current config.world = .completes world
  | .raising err =>
    ∃ world, interpreter.unwind config.current config.world err = .returns world

/-- Suspension makes no difference to a program. -/
structure Transparent (interpreter : Interpreter ν ρ ε) (world : World ν ρ) : Prop where
  cooperative : ∀ result,
    Cooperates interpreter world result ↔ Cooperates interpreter.awake world result
  blocking : ∀ result, Blocks interpreter world result ↔ Cooperates interpreter.awake world result
  noYield : ∀ after, ¬Cooperates interpreter world (.taskYielded, after)
  finished : ∀ config, Occurs interpreter world config → config.resumed → ∀ after,
    interpreter.next config = .ends (.completed, after) → Finishes interpreter config

/-- The step is not one of those that a suspension changes. -/
structure Undisturbed (interpreter : Interpreter ν ρ ε) (config : Config ν ρ ε) : Prop where
  /-- A sleeping program has recovered from no panic in its slice, and the checks before the
  loop pass again. -/
  sleeping : ∀ world, config.phase = .running →
    interpreter.step config.current config.world = .sleeps world →
      config.recovered = false ∧ interpreter.entryError config.current world = none
  /-- A resumed program does not wait for a message. -/
  waiting : ∀ world, config.phase = .running → config.resumed →
    interpreter.step config.current config.world ≠ .yields world

/-- The states of the two programs differ in whether the slice has been resumed, which only
the main program's can be. -/
structure Alike (config awake : Config ν ρ ε) : Prop where
  world : config.world = awake.world
  current : config.current = awake.current
  phase : config.phase = awake.phase
  recovered : config.recovered = awake.recovered
  scheduled : awake.resumed = false
  main : config.resumed → config.current = mainIdx

section Lockstep

variable {interpreter : Interpreter ν ρ ε} {config awake : Config ν ρ ε}

theorem Alike.startSlice (interpreter : Interpreter ν ρ ε) (tasks : Tasks.State ν) (rest : ρ) :
    Alike (interpreter.startSlice tasks rest) (interpreter.awake.startSlice tasks rest) where
  world := rfl
  current := rfl
  phase := rfl
  recovered := rfl
  scheduled := rfl
  main resumed := nomatch resumed

theorem Alike.schedule (interpreter : Interpreter ν ρ ε) (world : World ν ρ)
    (failure : Report ε) (result : Except Tasks.DriveResult (Tasks.State ν)) :
    Next.Matches Alike (interpreter.schedule world failure result)
      (interpreter.awake.schedule world failure result) := by
  rcases result with result | tasks
  · cases result with
    | completed | suspended | deadlock | failed => exact .ends _
  · exact .goes (.startSlice interpreter tasks world.rest)

section

variable (alike : Alike config awake)
include alike

/-- A slice of the main program is over: the scheduler reports what `continueRun` does. -/
theorem Alike.sliceEnds (world : World ν ρ) (failure : Report ε) (sliceEnd : SliceEnd)
    (notSuspended : sliceEnd ≠ .suspended) (waiting : config.resumed → sliceEnd ≠ .taskYielded) :
    Next.Matches Alike (interpreter.sliceEnds config world failure sliceEnd)
      (interpreter.awake.sliceEnds awake world failure sliceEnd) := by
  have tasks : config.tasks world = awake.tasks world := by
    rw [Config.tasks, Config.tasks, alike.current]
  have scheduled : ¬awake.resumed := by
    rw [alike.scheduled]
    exact false_ne_true
  by_cases resumed : config.resumed
  · have main : (awake.tasks world).current = mainIdx := alike.current.symm.trans
      (alike.main resumed)
    cases sliceEnd with
    | suspended => exact absurd rfl notSuspended
    | taskYielded => exact absurd rfl (waiting resumed)
    | completed | failed =>
      simp only [Interpreter.sliceEnds, if_pos resumed, if_neg scheduled, Tasks.afterSlice,
        if_pos main, Interpreter.schedule]
      exact .ends _
  · cases sliceEnd with
    | suspended => exact absurd rfl notSuspended
    | completed | taskYielded | failed =>
      simp only [Interpreter.sliceEnds, if_neg resumed, if_neg scheduled, tasks]
      exact Alike.schedule interpreter world failure _

theorem Alike.yields (world : World ν ρ) (waiting : ¬config.resumed) :
    Next.Matches Alike (interpreter.parks config world .taskYielded)
      (interpreter.awake.parks awake world .taskYielded) := by
  rw [Interpreter.parks, Interpreter.parks, alike.recovered]
  by_cases recovered : awake.recovered
  · rw [if_pos recovered, if_pos recovered]
    exact alike.sliceEnds world _ .completed (by simp) (by simp)
  · rw [if_neg recovered, if_neg recovered]
    exact alike.sliceEnds world _ .taskYielded (by simp) fun resumed => absurd resumed waiting

/-- Sleeping is an instruction like others to the program in which it returns at once. -/
theorem Alike.sleeps (undisturbed : Undisturbed interpreter config) {world : World ν ρ}
    (running : config.phase = .running)
    (stepEq : interpreter.step config.current config.world = .sleeps world) :
    Next.Matches Alike (interpreter.parks config world .suspended)
      (.goes { awake with world := world }) := by
  rcases undisturbed.sleeping world running stepEq with ⟨recovered, enters⟩
  have main : config.current = mainIdx := interpreter.sleeps_main _ _ _ stepEq
  have notRecovered : ¬config.recovered := by
    rw [recovered]
    exact false_ne_true
  rw [Interpreter.parks, if_neg notRecovered, Interpreter.sliceEnds]
  apply Next.Matches.goes
  have entered : interpreter.enter mainIdx world = .running := by
    rw [Interpreter.enter, ← main, enters]
  exact {
    world := rfl
    current := main.symm.trans alike.current
    phase := entered.trans (running.symm.trans alike.phase)
    recovered := recovered.symm.trans alike.recovered
    scheduled := alike.scheduled
    main := fun _ => rfl }

theorem Alike.next (undisturbed : Undisturbed interpreter config) :
    Next.Matches Alike (interpreter.next config) (interpreter.awake.next awake) := by
  rw [Interpreter.next, Interpreter.next]
  rcases phaseEq : config.phase with _ | err
  · have awakePhase : awake.phase = .running := alike.phase.symm.trans phaseEq
    have step : interpreter.awake.step awake.current awake.world =
        (interpreter.step config.current config.world).awake := by
      rw [alike.current, alike.world]
      rfl
    simp only [awakePhase, step]
    rcases stepEq : interpreter.step config.current config.world with
      world | world | world | world | ⟨err, world⟩ | _
    · exact .goes ⟨rfl, alike.current, alike.phase, alike.recovered, alike.scheduled, alike.main⟩
    · exact alike.sleeps undisturbed phaseEq stepEq
    · apply alike.yields
      intro resumed
      exact undisturbed.waiting world phaseEq resumed stepEq
    · exact alike.sliceEnds world _ .completed (by simp) (by simp)
    · exact .goes ⟨rfl, alike.current, rfl, alike.recovered, alike.scheduled, alike.main⟩
    · exact .goes alike
  · have awakePhase : awake.phase = .raising err := alike.phase.symm.trans phaseEq
    have unwind : interpreter.awake.unwind awake.current awake.world err =
        interpreter.unwind config.current config.world err := by
      rw [alike.current, alike.world]
      rfl
    simp only [awakePhase, unwind]
    rcases interpreter.unwind config.current config.world err with
      ⟨failure, world⟩ | world | world | _
    · exact alike.sliceEnds world _ .failed (by simp) (by simp)
    · exact alike.sliceEnds world _ .completed (by simp) (by simp)
    · have phase : interpreter.enter config.current world =
          interpreter.awake.enter awake.current world := by
        rw [alike.current]
        rfl
      exact .goes ⟨rfl, alike.current, phase, rfl, alike.scheduled, alike.main⟩
    · exact .goes alike

end

end Lockstep

section Reports

variable {interpreter : Interpreter ν ρ ε} {config : Config ν ρ ε}

theorem schedule_ne_taskYielded (world : World ν ρ) {failure : Report ε}
    (failed : failure ≠ .taskYielded) (result : Except Tasks.DriveResult (Tasks.State ν))
    (after : World ν ρ) :
    interpreter.schedule world failure result ≠ .ends (.taskYielded, after) := by
  intro ends
  rcases result with result | tasks
  · cases result with
    | completed | suspended | deadlock => cases ends
    | failed =>
      cases ends
      exact failed rfl
  · cases ends

section

variable (scheduled : config.resumed = false)
include scheduled

theorem sliceEnds_ne_taskYielded (world : World ν ρ) {failure : Report ε}
    (failed : failure ≠ .taskYielded) (sliceEnd : SliceEnd) (after : World ν ρ) :
    interpreter.sliceEnds config world failure sliceEnd ≠ .ends (.taskYielded, after) := by
  have notResumed : ¬config.resumed := by
    rw [scheduled]
    exact false_ne_true
  intro ends
  cases sliceEnd with
  | suspended => cases ends
  | completed | taskYielded | failed =>
    simp only [Interpreter.sliceEnds, if_neg notResumed] at ends
    exact schedule_ne_taskYielded world failed _ after ends

theorem parks_ne_taskYielded (world : World ν ρ) (sliceEnd : SliceEnd) (after : World ν ρ) :
    interpreter.parks config world sliceEnd ≠ .ends (.taskYielded, after) := by
  rw [Interpreter.parks]
  by_cases recovered : config.recovered
  · rw [if_pos recovered]
    exact sliceEnds_ne_taskYielded scheduled world (by simp) _ after
  · rw [if_neg recovered]
    exact sliceEnds_ne_taskYielded scheduled world (by simp) _ after

theorem next_ne_taskYielded (after : World ν ρ) :
    interpreter.next config ≠ .ends (.taskYielded, after) := by
  intro ends
  rw [Interpreter.next] at ends
  cases phaseEq : config.phase with
  | running =>
    simp only [phaseEq] at ends
    cases stepEq : interpreter.step config.current config.world with
    | continues | raises | diverges =>
      rw [stepEq] at ends
      cases ends
    | sleeps world | yields world =>
      rw [stepEq, Interpreter.executed] at ends
      exact parks_ne_taskYielded scheduled world _ after ends
    | completes world =>
      rw [stepEq, Interpreter.executed] at ends
      exact sliceEnds_ne_taskYielded scheduled world (by simp) _ after ends
  | raising err =>
    simp only [phaseEq] at ends
    cases unwindEq : interpreter.unwind config.current config.world err with
    | fails failure world | returns world =>
      rw [unwindEq, Interpreter.unwound] at ends
      exact sliceEnds_ne_taskYielded scheduled world (by simp) _ after ends
    | resumes | diverges =>
      rw [unwindEq] at ends
      cases ends

end

/-- A resumed program that is reported as completed has come to its end. -/
theorem Undisturbed.finishes (undisturbed : Undisturbed interpreter config)
    (resumed : config.resumed) {after : World ν ρ}
    (ends : interpreter.next config = .ends (.completed, after)) :
    Finishes interpreter config := by
  rw [Interpreter.next] at ends
  cases phaseEq : config.phase with
  | running =>
    simp only [phaseEq] at ends
    cases stepEq : interpreter.step config.current config.world with
    | continues | raises | diverges =>
      rw [stepEq] at ends
      cases ends
    | sleeps world =>
      have notRecovered : ¬config.recovered := by
        rw [(undisturbed.sleeping world phaseEq stepEq).1]
        exact false_ne_true
      rw [stepEq, Interpreter.executed, Interpreter.parks, if_neg notRecovered] at ends
      cases ends
    | yields world => exact absurd stepEq (undisturbed.waiting world phaseEq resumed)
    | completes world =>
      simp only [Finishes, phaseEq]
      exact ⟨world, stepEq⟩
  | raising err =>
    simp only [phaseEq] at ends
    cases unwindEq : interpreter.unwind config.current config.world err with
    | fails failure world =>
      simp only [unwindEq, Interpreter.unwound, Interpreter.sliceEnds, if_pos resumed] at ends
      cases ends
    | returns world =>
      simp only [Finishes, phaseEq]
      exact ⟨world, unwindEq⟩
    | resumes | diverges =>
      rw [unwindEq] at ends
      cases ends

end Reports

theorem Report.ran_of_ne {report : Report ε} (notYielded : report ≠ .taskYielded) :
    report.ran = report := by
  cases report with
  | taskYielded => exact absurd rfl notYielded
  | completed | deadlock | executionSuspended | failed => rfl

section Transparency

variable {interpreter : Interpreter ν ρ ε} {world : World ν ρ}

/-- Suspension is transparent in every run whose steps it leaves undisturbed. -/
theorem transparent_of_run
    (undisturbed : ∀ config, Occurs interpreter world config → Undisturbed interpreter config) :
    Transparent interpreter world := by
  have matching : ∀ config awake, Occurs interpreter world config → Alike config awake →
      Next.Matches Alike (interpreter.next config) (interpreter.awake.next awake) :=
    fun config awake occurs alike => alike.next (undisturbed config occurs)
  have begins : Alike (interpreter.begin world) (interpreter.awake.begin world) :=
    .startSlice interpreter _ _
  have cooperative : ∀ result,
      Cooperates interpreter world result ↔ Cooperates interpreter.awake world result :=
    ends_iff_of_lockstep matching begins
  have noYield : ∀ after, ¬Cooperates interpreter world (.taskYielded, after) := by
    rintro after ⟨last, reaches, ends⟩
    rcases reaches.related matching begins with ⟨awake, _, alike⟩
    have matched := matching last awake reaches alike
    rw [ends] at matched
    generalize awakeEnds : interpreter.awake.next awake = step at matched
    cases matched
    exact next_ne_taskYielded alike.scheduled after awakeEnds
  constructor
  · exact cooperative
  · intro result
    rw [← cooperative, Blocks]
    constructor
    · rintro ⟨report, cooperates, ran⟩
      have notYielded : report ≠ .taskYielded := by
        rintro rfl
        exact noYield _ cooperates
      rw [Report.ran_of_ne notYielded] at ran
      rwa [ran] at cooperates
    · intro cooperates
      have notYielded : result.1 ≠ .taskYielded := by
        intro yielded
        apply noYield result.2
        rwa [← yielded]
      exact ⟨result.1, cooperates, Report.ran_of_ne notYielded⟩
  · exact noYield
  · intro config occurs resumed after ends
    exact (undisturbed config occurs).finishes resumed ends

end Transparency

/-- A main program that sleeps and then, if it waits, receives from an empty mailbox; a
spawned task makes it ready. The state counts the instructions. -/
def sleeper (waits : Bool) : Interpreter Unit ℕ Unit where
  step current world :=
    if current = mainIdx then
      if world.rest = 0 then .sleeps { world with rest := 1 }
      else if waits ∧ world.rest = 1 then .yields world
      else .completes world
    else .completes { world with readyQueue := world.readyQueue ++ [mainIdx], rest := 2 }
  entryError _ _ := none
  unwind _ _ _ := .diverges
  sleeps_main current world after sleeps := by
    by_cases main : current = mainIdx
    · exact main
    · rw [if_neg main] at sleeps
      cases sleeps

/-- The task in the second slot is ready. -/
def spawned : World Unit ℕ where
  slots _ := ⟨1, .ready, true, true, []⟩
  readyQueue := [2]
  rest := 0

theorem transparent_sleeper : Transparent (sleeper false) spawned := by
  apply transparent_of_run
  have slept : (sleeper false).next ((sleeper false).begin spawned) =
      .goes ((sleeper false).continueRun
        { ((sleeper false).begin spawned).world with rest := 1 }) := rfl
  have ended : (sleeper false).next ((sleeper false).continueRun
      { ((sleeper false).begin spawned).world with rest := 1 }) =
        .ends (.completed, { ((sleeper false).begin spawned).world with rest := 1 }) := rfl
  intro config occurs
  rcases occurs.tail slept with rfl | later
  · exact ⟨fun _ _ _ => ⟨rfl, rfl⟩, fun _ _ resumed => absurd resumed false_ne_true⟩
  · have last := later.eq_of_ends ended
    subst last
    constructor
    · intro world _ sleeps
      cases sleeps
    · intro world _ _ yields
      cases yields

/-- The host is told that the main program has yielded. -/
theorem not_transparent : ¬∀ (ν ρ ε : Type) (interpreter : Interpreter ν ρ ε)
    (world : World ν ρ), Transparent interpreter world := by
  intro transparent
  have slept : (sleeper true).next ((sleeper true).begin spawned) =
      .goes ((sleeper true).continueRun
        { ((sleeper true).begin spawned).world with rest := 1 }) := rfl
  exact (transparent _ _ _ (sleeper true) spawned).noYield _ ⟨_, .step .refl slept, rfl⟩

end Gengo.Suspension
