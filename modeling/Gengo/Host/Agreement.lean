import Gengo.Host.Sources
import Gengo.Suspension.Transparency

/-!
# Blocking and cooperative runs of an engine

`engine_run` takes the configured source provider and waits suspensions out; `engine_begin`
takes the file system, and the host resumes the script with `engine_continue`. They agree
on a script when the two providers answer alike, and the resumed script neither waits for a
message nor runs out of memory.
-/

namespace Gengo.Host

open Bytecode (Bytes)
open Suspension (Interpreter World Report Occurs)
open Runs (Ends)

/-- The errors of a run; `ε` are the interpreter's own. -/
inductive RunError (ε : Type*)
  | outOfMemory
  | runtimeSuspended
  | inputTooLong
  | executionSuspended
  | taskDeadlock
  | other (err : ε)
  deriving DecidableEq

/-- What the runtime has recorded of its last error. -/
structure Diagnostics (δ : Type*) where
  lastCompileLine : ℕ
  lastCompileMsg : Bytes
  lastRuntimeMsg : Bytes
  /-- Lines, columns, paths and the frames of a panic. -/
  place : δ

/-- What an engine's error functions show. -/
structure EngineError (ε δ : Type*) where
  kind : RunError ε
  msg : Bytes
  place : δ

/-- What `engine_run`, or the last of the cooperative calls, returns. -/
inductive EngineResult (ε δ : Type*)
  /-- The return code 0. -/
  | completed
  /-- The return code -1. -/
  | compileError (error : EngineError ε δ)
  /-- The return code -2. -/
  | runtimeError (error : EngineError ε δ)
  /-- The code takes it for unreachable. -/
  | undefined

/-- `heap exhausted`. -/
def heapExhausted : Bytes :=
  [104, 101, 97, 112, 32, 101, 120, 104, 97, 117, 115, 116, 101, 100]

/-- `heap too small`. -/
def heapTooSmall : Bytes :=
  [104, 101, 97, 112, 32, 116, 111, 111, 32, 115, 109, 97, 108, 108]

/-- `runtimeError`. -/
def runtimeError {ε δ : Type*} (err : RunError ε) (diagnostics : Diagnostics δ) :
    EngineResult ε δ :=
  .runtimeError ⟨err, diagnostics.lastRuntimeMsg, diagnostics.place⟩

/-- `classifyRunResult`. -/
def classifyRunResult {ε δ : Type*} (err : RunError ε) (diagnostics : Diagnostics δ) :
    EngineResult ε δ :=
  let outOfMemory : Bool := match err with
    | .outOfMemory => true
    | _ => false
  if diagnostics.lastCompileLine ≠ 0 then
    .compileError
      ⟨err, if outOfMemory then heapTooSmall else diagnostics.lastCompileMsg, diagnostics.place⟩
  else
    .runtimeError
      ⟨err, if outOfMemory then heapExhausted else diagnostics.lastRuntimeMsg, diagnostics.place⟩

/-- An engine, the file system it runs on, and the compiler and interpreter. -/
structure Setup (ν ρ ε δ : Type*) where
  engine : Engine
  readFile : FileSystem
  maxInputBytes : ℕ
  /-- A script that the engine has begun sleeps. -/
  suspended : Bool
  /-- What has been recorded before the run. -/
  earlier : Diagnostics δ
  /-- The message of a script that is too long. -/
  inputTooLongMsg : Bytes
  compile : Bytes → Compiling (Except (RunError ε × Diagnostics δ) (World ν ρ))
  interpreter : Interpreter ν ρ (RunError ε)
  /-- The message and the place of the main program's error. -/
  captured : World ν ρ → Bytes × δ
  /-- The place when none has been recorded. -/
  noPlace : δ

namespace Setup

variable {ν ρ ε δ : Type*} (setup : Setup ν ρ ε δ) (script : Bytes)

/-- The imports that the configured provider resolves. -/
def configured : Answers :=
  (defaultSourceProvider setup.maxInputBytes setup.engine).answers setup.readFile
    setup.maxInputBytes

/-- The imports that the file system resolves. -/
def filesystem : Answers :=
  SourceProvider.filesystem.answers setup.readFile setup.maxInputBytes

/-- `runPathWithProvider` up to the start of the program: the imports that have been
resolved, and the program or what is returned instead. -/
def compiled (answers : Answers) : List Import × Except (EngineResult ε δ) (World ν ρ) :=
  if setup.suspended then
    ([], .error (classifyRunResult .runtimeSuspended setup.earlier))
  else if setup.maxInputBytes < script.length then
    ([], .error (classifyRunResult .inputTooLong
      { setup.earlier with lastRuntimeMsg := setup.inputTooLongMsg }))
  else
    let compiling := (setup.compile script).run answers
    (compiling.1, compiling.2.mapError fun failure => classifyRunResult failure.1 failure.2)

/-- What the runtime has recorded when the run of a program ends. -/
def recorded (report : Report (RunError ε)) (world : World ν ρ) : Diagnostics δ :=
  match report with
  | .deadlock => ⟨0, [], [], setup.noPlace⟩
  | _ => ⟨0, [], (setup.captured world).1, (setup.captured world).2⟩

/-- The error of a report. -/
def reportError : Report (RunError ε) → Option (RunError ε)
  | .completed | .taskYielded => none
  | .deadlock => some .taskDeadlock
  | .executionSuspended => some .executionSuspended
  | .failed err => some err

/-- The result of `engine_run`, which looks only at the errors. -/
def blockingResult (report : Report (RunError ε)) (world : World ν ρ) : EngineResult ε δ :=
  match reportError report with
  | none => .completed
  | some err => classifyRunResult err (setup.recorded report world)

/-- The result of `engine_begin`, or of the `engine_continue` that has resumed the script. -/
def cooperativeResult (resumed : Bool) (report : Report (RunError ε)) (world : World ν ρ) :
    EngineResult ε δ :=
  match report with
  | .taskYielded => .undefined
  | _ =>
    match reportError report with
    | none => .completed
    | some err =>
      if resumed then runtimeError err (setup.recorded report world)
      else classifyRunResult err (setup.recorded report world)

/-- The result of `engine_run`, with the program's final state. -/
def Blocks (result : EngineResult ε δ × Option (World ν ρ)) : Prop :=
  match (setup.compiled script setup.configured).2 with
  | .error failure => result = (failure, none)
  | .ok world =>
    ∃ last report after, Occurs setup.interpreter world last ∧
      setup.interpreter.next last = .ends (report, after) ∧
        result = (setup.blockingResult report after, some after)

/-- The result of `engine_begin` and then `engine_continue` until the script is no longer
suspended. -/
def Cooperates (result : EngineResult ε δ × Option (World ν ρ)) : Prop :=
  match (setup.compiled script setup.filesystem).2 with
  | .error failure => result = (failure, none)
  | .ok world =>
    ∃ last report after, Occurs setup.interpreter world last ∧
      setup.interpreter.next last = .ends (report, after) ∧
        result = (setup.cooperativeResult last.resumed report after, some after)

/-- Both ways to run a script resolve the same imports and come to the same result. -/
structure Agrees : Prop where
  imports : (setup.compiled script setup.configured).1 = (setup.compiled script setup.filesystem).1
  results : ∀ result, setup.Blocks script result ↔ setup.Cooperates script result

/-- The providers answer alike, and the end of a resumed script is not one of those that
`engine_run` treats in its own way. -/
structure Unaffected : Prop where
  answers : ¬setup.suspended → ¬setup.maxInputBytes < script.length →
    (setup.compile script).SameAnswers setup.configured setup.filesystem
  ending : ∀ world, (setup.compiled script setup.filesystem).2 = .ok world →
    ∀ config, Occurs setup.interpreter world config → config.resumed → ∀ report after,
      setup.interpreter.next config = .ends (report, after) → report ≠ .taskYielded ∧
        (report = .failed .outOfMemory → (setup.captured after).1 = heapExhausted)

variable {setup : Setup ν ρ ε δ} {script : Bytes}

theorem compiled_imports_iff :
    (setup.compiled script setup.configured).1 = (setup.compiled script setup.filesystem).1 ↔
      (¬setup.suspended → ¬setup.maxInputBytes < script.length →
        (setup.compile script).SameAnswers setup.configured setup.filesystem) := by
  simp only [compiled]
  by_cases suspended : setup.suspended
  · simp [suspended]
  · by_cases long : setup.maxInputBytes < script.length
    · simp [long]
    · simp only [if_neg suspended, if_neg long]
      constructor
      · intro imports _ _
        exact Compiling.sameAnswers_of_imports imports
      · intro same
        rw [(same suspended long).run_eq]

theorem compiled_eq_of_answers
    (answers : ¬setup.suspended → ¬setup.maxInputBytes < script.length →
      (setup.compile script).SameAnswers setup.configured setup.filesystem) :
    setup.compiled script setup.configured = setup.compiled script setup.filesystem := by
  simp only [compiled]
  by_cases suspended : setup.suspended
  · simp [suspended]
  · by_cases long : setup.maxInputBytes < script.length
    · simp [long]
    · simp only [if_neg suspended, if_neg long, (answers suspended long).run_eq]

/-- The two results of an end are the same unless it is one of those that are excluded. -/
theorem results_eq_iff (resumed : Bool) (report : Report (RunError ε)) (after : World ν ρ) :
    setup.blockingResult report after = setup.cooperativeResult resumed report after ↔
      report ≠ .taskYielded ∧ (resumed → report = .failed .outOfMemory →
        (setup.captured after).1 = heapExhausted) := by
  cases resumed with
  | false =>
    cases report with
    | taskYielded => simp [blockingResult, cooperativeResult, reportError]
    | completed | deadlock | executionSuspended | failed err =>
      simp [blockingResult, cooperativeResult, reportError]
  | true =>
    cases report with
    | taskYielded | completed => simp [blockingResult, cooperativeResult, reportError]
    | deadlock | executionSuspended =>
      simp [blockingResult, cooperativeResult, reportError, runtimeError, classifyRunResult,
        recorded]
    | failed err =>
      cases err with
      | outOfMemory =>
        simp [blockingResult, cooperativeResult, reportError, runtimeError,
          classifyRunResult, recorded, eq_comm]
      | runtimeSuspended | inputTooLong | executionSuspended | taskDeadlock | other =>
        simp [blockingResult, cooperativeResult, reportError, runtimeError,
          classifyRunResult, recorded]

/-- Blocking and cooperative runs agree on a script exactly when it is unaffected. -/
theorem agrees_iff (setup : Setup ν ρ ε δ) (script : Bytes) :
    setup.Agrees script ↔ setup.Unaffected script := by
  constructor
  · rintro ⟨imports, results⟩
    have answers := compiled_imports_iff.mp imports
    refine ⟨answers, fun world compiledEq config occurs resumed report after ends => ?_⟩
    have cooperates : setup.Cooperates script
        (setup.cooperativeResult config.resumed report after, some after) := by
      simp only [Cooperates, compiledEq]
      exact ⟨config, report, after, occurs, ends, rfl⟩
    have blocks := (results _).mpr cooperates
    simp only [Blocks, compiled_eq_of_answers answers, compiledEq] at blocks
    rcases blocks with ⟨last, report', after', occurs', ends', resultEq⟩
    have sameEnd := Ends.unique ⟨config, occurs, ends⟩ ⟨last, occurs', ends'⟩
    cases sameEnd
    have same := (results_eq_iff config.resumed report after).mp (Prod.mk.inj resultEq).1.symm
    exact ⟨same.1, same.2 resumed⟩
  · rintro ⟨answers, ending⟩
    have compiledEq := compiled_eq_of_answers answers
    refine ⟨congrArg Prod.fst compiledEq, fun result => ?_⟩
    simp only [Blocks, Cooperates, compiledEq]
    rcases programEq : (setup.compiled script setup.filesystem).2 with failure | world
    · exact .rfl
    · have sameResult : ∀ last report after, Occurs setup.interpreter world last →
          setup.interpreter.next last = .ends (report, after) →
          setup.blockingResult report after =
            setup.cooperativeResult last.resumed report after := by
        intro last report after occurs ends
        apply (results_eq_iff last.resumed report after).mpr
        by_cases resumed : last.resumed
        · have excluded := ending world programEq last occurs resumed report after ends
          exact ⟨excluded.1, fun _ => excluded.2⟩
        · refine ⟨?_, fun isResumed => absurd isResumed resumed⟩
          rintro rfl
          exact Suspension.next_ne_taskYielded ((Bool.not_eq_true _).mp resumed) after ends
      constructor
      · rintro ⟨last, report, after, occurs, ends, rfl⟩
        exact ⟨last, report, after, occurs, ends, by rw [sameResult last report after occurs ends]⟩
      · rintro ⟨last, report, after, occurs, ends, rfl⟩
        exact ⟨last, report, after, occurs, ends, by rw [sameResult last report after occurs ends]⟩

end Setup

/-- An engine that has been given the source of a module which its file system lacks. -/
def withSource : Setup Unit ℕ Unit Unit where
  engine := ⟨none, [], [([97], [])]⟩
  readFile _ _ := .error .openFailed
  maxInputBytes := 1000
  suspended := false
  earlier := ⟨0, [], [], ()⟩
  inputTooLongMsg := []
  compile _ := .probe [97] fun found =>
    if found then .load [97] fun _ => .done (.ok Suspension.spawned)
    else .done (.error (.other (), ⟨1, [], [], ()⟩))
  interpreter := ⟨fun _ world => .completes world, fun _ _ => none, fun _ _ _ => .diverges,
    by rintro _ _ _ ⟨⟩⟩
  captured _ := ([], ())
  noPlace := ()

/-- `engine_begin` does not find the module that `engine_run` finds. -/
theorem not_agrees : ¬∀ (ν ρ ε δ : Type) (setup : Setup ν ρ ε δ) (script : Bytes),
    setup.Agrees script := by
  intro agrees
  have imports := (agrees _ _ _ _ withSource []).imports
  have found : (withSource.compiled [] withSource.configured).1 =
      [.probed [97] true, .loaded [97] (.ok [])] := rfl
  have missed : (withSource.compiled [] withSource.filesystem).1 = [.probed [97] false] := rfl
  rw [found, missed] at imports
  exact Bool.noConfusion (Import.probed.inj (List.cons.inj imports).1).2

end Gengo.Host
