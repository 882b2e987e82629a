import Mathlib.Algebra.GroupWithZero.Nat

/-!
# Slices of execution and the unwinding of panics

A slice runs one interpreter loop; a panic that the loop raises is unwound, and when a
deferred call recovers it the unwinder starts the loop again. What the loop executes is a
parameter, a `Machine`; the wrappers around it are the source's. The trace of a panic and
its message are left out.
-/

namespace Gengo.Vm

open Option

/-- How an interpreter loop or a call fails. -/
inductive LoopError (ε : Type*)
  | executionSuspended
  | taskYield
  /-- A runtime integrity failure, which stops the process. -/
  | integrity
  | raised (err : ε)
  deriving DecidableEq

/-- `RunOutcome`. -/
inductive RunOutcome
  | completed
  | suspended
  | taskYielded
  deriving DecidableEq, Repr

/-- A call frame: the height of the defer stack when it was entered, and what the machine
keeps with it. -/
structure Frame (φ : Type*) where
  deferBase : ℕ
  info : φ

/-- The execution state of a task, with the innermost frame and deferred call first. -/
structure Vs (ρ φ δ : Type*) where
  frames : List (Frame φ)
  deferStack : List δ
  /-- The height of the frame stack at which the loop stops; none at the outermost loop. -/
  callDepthTarget : Option ℕ
  recovered : Bool
  isPanicking : Bool
  /-- The operand stack, the instruction pointer and everything else. -/
  rest : ρ

/-- The interpreter: what a loop, a call and the return of a frame do. -/
structure Machine (ρ φ δ ε : Type*) where
  /-- `runInner`, when it returns. -/
  runInner : Vs ρ φ δ → Option (Except (LoopError ε) Unit × Vs ρ φ δ)
  /-- The verifier and the stack bound, checked before the loop. -/
  entryError : Vs ρ φ δ → Option ε
  /-- Store the panic value. -/
  setPanicValue : Vs ρ φ δ → LoopError ε → Except (LoopError ε) ρ
  /-- Push a deferred call with its arguments and perform it. -/
  performDeferred : Vs ρ φ δ → δ → Option (Except (LoopError ε) Unit × Vs ρ φ δ)
  /-- Drop the result of a deferred call. -/
  popResult : ρ → ρ
  /-- Return from a frame that recovered, with its results. -/
  pushRecovered : ρ → Frame φ → Except (LoopError ε) Unit × ρ
  /-- Return from a frame that did not. -/
  dropFrame : ρ → Frame φ → ρ

/-- How the unwinder ends. -/
inductive Unwound (ε σ : Type*)
  /-- A frame recovered, and the loop goes on in its caller. -/
  | resumes (vs : σ)
  /-- A frame recovered, and its caller is not run by this loop. -/
  | returns (vs : σ)
  | fails (err : LoopError ε) (vs : σ)

section Wrappers

variable {ρ φ δ ε : Type*} (machine : Machine ρ φ δ ε)
  (nested : Vs ρ φ δ → Option (Except (LoopError ε) Unit × Vs ρ φ δ))

/-- `runDeferredCall`; `nested` is `run`. A deferred call has at least its callee. -/
def runDeferredCall (vs : Vs ρ φ δ) (deferred : δ) :
    Option (Except (LoopError ε) Unit × Vs ρ φ δ) :=
  (machine.performDeferred vs deferred).bind fun
    | (.error err, vs) => some (.error err, vs)
    | (.ok (), entered) =>
      if vs.frames.length < entered.frames.length then
        (nested { entered with callDepthTarget := some vs.frames.length }).map fun
          | (.error err, after) =>
            (.error err, { after with callDepthTarget := entered.callDepthTarget })
          | (.ok (), after) =>
            (.ok (), { after with
              callDepthTarget := entered.callDepthTarget
              rest := machine.popResult after.rest })
      else some (.ok (), { entered with rest := machine.popResult entered.rest })

/-- What the unwinder keeps for one frame. -/
structure Draining (ρ φ δ ε : Type*) where
  vs : Vs ρ φ δ
  currentErr : LoopError ε
  frameRecovered : Bool

/-- After one deferred call: a new panic supersedes the current one unless it was
recovered, and a recovery ends the panic. -/
def afterDeferred (draining : Draining ρ φ δ ε) (result : Except (LoopError ε) Unit)
    (vs : Vs ρ φ δ) : Except (LoopError ε × Vs ρ φ δ) (Draining ρ φ δ ε) :=
  let noted : Except (LoopError ε × Vs ρ φ δ) (Draining ρ φ δ ε) :=
    match result with
    | .ok () => .ok { draining with vs := vs }
    | .error newErr =>
      if vs.recovered then .ok { draining with vs := vs }
      else
        match machine.setPanicValue vs newErr with
        | .error err => .error (err, vs)
        | .ok rest => .ok ⟨{ vs with rest := rest, isPanicking := true }, newErr, false⟩
  noted.map fun noted =>
    if noted.vs.recovered then
      { noted with
        vs := { noted.vs with recovered := false, isPanicking := false }
        frameRecovered := true }
    else noted

/-- The deferred calls of a frame, down to its defer base. -/
def drainDefers (deferBase : ℕ) : ℕ → Draining ρ φ δ ε →
    Option (Except (LoopError ε × Vs ρ φ δ) (Draining ρ φ δ ε))
  | 0, _ => none
  | fuel + 1, draining =>
    match draining.vs.deferStack with
    | [] => some (.ok draining)
    | deferred :: below =>
      if below.length < deferBase then some (.ok draining)
      else
        (runDeferredCall machine nested { draining.vs with deferStack := below } deferred).bind
          fun result =>
            match afterDeferred machine draining result.1 result.2 with
            | .error failed => some (.error failed)
            | .ok next => drainDefers deferBase fuel next

/-- The frames above a depth, innermost first. -/
def unwindFrames (stopDepth : ℕ) (prevPanicking : Bool) : ℕ → Vs ρ φ δ → LoopError ε →
    Option (Unwound ε (Vs ρ φ δ))
  | 0, _, _ => none
  | fuel + 1, vs, err =>
    match vs.frames with
    | [] => some (.fails err { vs with isPanicking := prevPanicking })
    | frame :: _ =>
      if vs.frames.length ≤ stopDepth then
        some (.fails err { vs with isPanicking := prevPanicking })
      else
        (drainDefers machine nested frame.deferBase fuel ⟨vs, err, false⟩).bind fun
          | .error (failure, vs) => some (.fails failure vs)
          | .ok drained =>
            match drained.vs.frames with
            | [] => none
            | frame :: outer =>
              if drained.frameRecovered then
                match machine.pushRecovered drained.vs.rest frame with
                | (.error failure, rest) =>
                  some (.fails failure { drained.vs with frames := outer, rest := rest })
                | (.ok (), rest) =>
                  let left : Vs ρ φ δ :=
                    { drained.vs with
                      frames := outer, rest := rest, isPanicking := prevPanicking }
                  if some outer.length = left.callDepthTarget then some (.returns left)
                  else some (.resumes left)
              else
                unwindFrames stopDepth prevPanicking fuel { drained.vs with
                    frames := outer, rest := machine.dropFrame drained.vs.rest frame }
                  drained.currentErr

/-- `runPanicUnwind` up to the point where it starts the loop again. -/
def unwind (fuel : ℕ) (vs : Vs ρ φ δ) (err : LoopError ε) : Option (Unwound ε (Vs ρ φ δ)) :=
  let panicking : Vs ρ φ δ := { vs with recovered := false, isPanicking := true }
  match machine.setPanicValue panicking err with
  | .error failure => some (.fails failure panicking)
  | .ok rest =>
    unwindFrames machine nested (vs.callDepthTarget.getD 0) vs.isPanicking fuel
      { panicking with rest := rest } err

/-- `runPanicUnwind`. -/
def runPanicUnwind (fuel : ℕ) (vs : Vs ρ φ δ) (err : LoopError ε) :
    Option (Except (LoopError ε) Unit × Vs ρ φ δ) :=
  (unwind machine nested fuel vs err).bind fun
    | .fails failure vs => some (.error failure, vs)
    | .returns vs => some (.ok (), vs)
    | .resumes vs => nested vs

end Wrappers

section Slices

variable {ρ φ δ ε : Type*} (machine : Machine ρ φ δ ε)

/-- What `run` makes of the outcome of a slice: only a suspension is passed on. -/
def forward : Except (LoopError ε) RunOutcome → Except (LoopError ε) Unit
  | .ok .suspended => .error .executionSuspended
  | .ok _ => .ok ()
  | .error err => .error err

/-- `runUntilSuspend`; `nested` is `run`, for the loops of an unwinding. -/
def sliceWith (nested : Vs ρ φ δ → Option (Except (LoopError ε) Unit × Vs ρ φ δ)) (fuel : ℕ)
    (vs : Vs ρ φ δ) : Option (Except (LoopError ε) RunOutcome × Vs ρ φ δ) :=
  let unwound := fun vs err =>
    (runPanicUnwind machine nested fuel vs (.raised err)).map fun result =>
      (result.1.map fun _ => RunOutcome.completed, result.2)
  match machine.entryError vs with
  | some err => unwound vs err
  | none =>
    match machine.runInner vs with
    | none => none
    | some (.ok (), vs) => some (.ok .completed, vs)
    | some (.error .executionSuspended, vs) => some (.ok .suspended, vs)
    | some (.error .taskYield, vs) => some (.ok .taskYielded, vs)
    | some (.error .integrity, _) => none
    | some (.error (.raised err), vs) => unwound vs err

/-- `run`, of a slice. -/
def forwarded (slice : Vs ρ φ δ → Option (Except (LoopError ε) RunOutcome × Vs ρ φ δ))
    (vs : Vs ρ φ δ) : Option (Except (LoopError ε) Unit × Vs ρ φ δ) :=
  (slice vs).map fun result => (forward result.1, result.2)

/-- `runUntilSuspend`. Fuel bounds the nesting of the loops, the frames and the deferred
calls of an unwinding. -/
def runUntilSuspend : ℕ → Vs ρ φ δ → Option (Except (LoopError ε) RunOutcome × Vs ρ φ δ)
  | 0, _ => none
  | fuel + 1, vs => sliceWith machine (forwarded (runUntilSuspend fuel)) fuel vs

/-- `run`. -/
def run (fuel : ℕ) (vs : Vs ρ φ δ) : Option (Except (LoopError ε) Unit × Vs ρ φ δ) :=
  forwarded (runUntilSuspend machine fuel) vs

end Slices

section Fuel

variable {ρ φ δ ε : Type*}

/-- The second function agrees with the first where that has a result. -/
def Extends {α β : Type*} (first second : α → Option β) : Prop :=
  ∀ argument result, first argument = some result → second argument = some result

variable {machine : Machine ρ φ δ ε}
  {nested nested' : Vs ρ φ δ → Option (Except (LoopError ε) Unit × Vs ρ φ δ)}

theorem runDeferredCall_mono (more : Extends nested nested') {vs : Vs ρ φ δ} {deferred : δ}
    {result : Except (LoopError ε) Unit × Vs ρ φ δ}
    (defined : runDeferredCall machine nested vs deferred = some result) :
    runDeferredCall machine nested' vs deferred = some result := by
  obtain ⟨⟨performed, entered⟩, performedEq, rest⟩ := bind_eq_some_iff.mp defined
  rw [runDeferredCall, performedEq, bind_some]
  cases performed with
  | error err => exact rest
  | ok _ =>
    dsimp only at rest ⊢
    split
    · rename_i deeper
      rw [if_pos deeper] at rest
      obtain ⟨inner, innerEq, resultEq⟩ := map_eq_some_iff.mp rest
      rw [more _ _ innerEq, map_some, resultEq]
    · rename_i same
      rwa [if_neg same] at rest

section

variable (larger : Extends nested nested')
include larger

theorem drainDefers_mono (deferBase : ℕ) {fuel fuel' : ℕ} (le : fuel ≤ fuel') :
    Extends (drainDefers machine nested deferBase fuel)
      (drainDefers machine nested' deferBase fuel') := by
  induction fuel generalizing fuel' with
  | zero => exact fun _ _ defined => nomatch defined
  | succ fuel ih =>
    obtain ⟨more, rfl⟩ : ∃ more, fuel' = more + 1 := ⟨fuel' - 1, by omega⟩
    intro draining result defined
    rw [drainDefers] at defined ⊢
    split at defined
    · exact defined
    · rename_i deferred below stackEq
      split at defined
      · rename_i last
        rwa [if_pos last]
      · rename_i pending
        rw [if_neg pending]
        obtain ⟨called, calledEq, rest⟩ := bind_eq_some_iff.mp defined
        rw [runDeferredCall_mono larger calledEq, bind_some]
        split at rest
        · exact rest
        · exact ih (by omega) _ result rest

section

variable {fuel fuel' : ℕ} (le : fuel ≤ fuel')
include le

variable {err : LoopError ε}

theorem unwindFrames_mono {stopDepth : ℕ} {prevPanicking : Bool} {vs : Vs ρ φ δ}
    {result : Unwound ε (Vs ρ φ δ)}
    (defined : unwindFrames machine nested stopDepth prevPanicking fuel vs err = some result) :
    unwindFrames machine nested' stopDepth prevPanicking fuel' vs err = some result := by
  induction fuel generalizing fuel' vs err with
  | zero => cases defined
  | succ fuel ih =>
    obtain ⟨more, rfl⟩ : ∃ more, fuel' = more + 1 := ⟨fuel' - 1, by omega⟩
    rw [unwindFrames] at defined ⊢
    split at defined
    · exact defined
    · rename_i frame outer framesEq
      split at defined
      · rename_i shallow
        rwa [if_pos shallow]
      · rename_i deep
        rw [if_neg deep]
        obtain ⟨drained, drainedEq, rest⟩ := bind_eq_some_iff.mp defined
        have fewer : fuel ≤ more := by omega
        rw [drainDefers_mono larger frame.deferBase fewer _ _ drainedEq, bind_some]
        cases drained with
        | error failed => exact rest
        | ok drained =>
          dsimp only at rest ⊢
          split at rest
          · cases rest
          · split at rest
            · rename_i recovered
              rw [if_pos recovered]
              exact rest
            · rename_i unrecovered
              rw [if_neg unrecovered]
              exact ih fewer rest

theorem unwind_mono {vs : Vs ρ φ δ} {result : Unwound ε (Vs ρ φ δ)}
    (defined : unwind machine nested fuel vs err = some result) :
    unwind machine nested' fuel' vs err = some result := by
  rw [unwind] at defined ⊢
  split at defined
  · exact defined
  · exact unwindFrames_mono larger le defined

theorem runPanicUnwind_mono {vs : Vs ρ φ δ} {result : Except (LoopError ε) Unit × Vs ρ φ δ}
    (defined : runPanicUnwind machine nested fuel vs err = some result) :
    runPanicUnwind machine nested' fuel' vs err = some result := by
  obtain ⟨unwound, unwoundEq, rest⟩ := bind_eq_some_iff.mp defined
  rw [runPanicUnwind, unwind_mono larger le unwoundEq, bind_some]
  cases unwound with
  | resumes vs => exact larger _ _ rest
  | returns vs => exact rest
  | fails failure vs => exact rest

theorem sliceWith_mono :
    Extends (sliceWith machine nested fuel) (sliceWith machine nested' fuel') := by
  have unwound : ∀ vs err result,
      (runPanicUnwind machine nested fuel vs (.raised err)).map (fun result =>
        (result.1.map fun _ => RunOutcome.completed, result.2)) = some result →
      (runPanicUnwind machine nested' fuel' vs (.raised err)).map (fun result =>
        (result.1.map fun _ => RunOutcome.completed, result.2)) = some result := by
    intro vs err result defined
    obtain ⟨inner, innerEq, resultEq⟩ := map_eq_some_iff.mp defined
    rw [runPanicUnwind_mono larger le innerEq, map_some, resultEq]
  intro vs result defined
  rw [sliceWith] at defined ⊢
  split at defined
  · exact unwound _ _ _ defined
  · split at defined
    · cases defined
    · exact defined
    · exact defined
    · exact defined
    · cases defined
    · exact unwound _ _ _ defined

end

end

theorem runUntilSuspend_mono {fuel fuel' : ℕ} (le : fuel ≤ fuel') :
    Extends (runUntilSuspend machine fuel) (runUntilSuspend machine fuel') := by
  induction fuel generalizing fuel' with
  | zero => exact fun _ _ defined => nomatch defined
  | succ fuel ih =>
    obtain ⟨more, rfl⟩ : ∃ more, fuel' = more + 1 := ⟨fuel' - 1, by omega⟩
    have nestedExtends : Extends (forwarded (runUntilSuspend machine fuel))
        (forwarded (runUntilSuspend machine more)) := by
      intro vs result defined
      obtain ⟨slice, sliceEq, resultEq⟩ := map_eq_some_iff.mp defined
      have moreEq := ih (by omega : fuel ≤ more) vs slice sliceEq
      rw [forwarded, moreEq, map_some, resultEq]
    exact sliceWith_mono nestedExtends (by omega)

end Fuel

/-!
# Yields and suspensions after a recovered panic

A slice is a chain of interpreter loops, each started by the recovery of a panic of the one
before. When the last of them yields or is suspended, the slice reports it only if it is
the first.
-/

section Chains

variable {ρ φ δ ε : Type*} (machine : Machine ρ φ δ ε)

/-- What a slice reports, and the state it leaves. -/
def Reports (vs : Vs ρ φ δ) (result : Except (LoopError ε) RunOutcome) (after : Vs ρ φ δ) : Prop :=
  ∃ fuel, runUntilSuspend machine fuel vs = some (result, after)

/-- A panic at the start of the loop or in it. -/
def Raises (vs : Vs ρ φ δ) (err : ε) (after : Vs ρ φ δ) : Prop :=
  (machine.entryError vs = some err ∧ after = vs) ∨
    (machine.entryError vs = none ∧ machine.runInner vs = some (.error (.raised err), after))

/-- The loop yields the task or suspends it on the host. -/
def Parks (vs : Vs ρ φ δ) (outcome : RunOutcome) (after : Vs ρ φ δ) : Prop :=
  machine.entryError vs = none ∧
    ((machine.runInner vs = some (.error .executionSuspended, after) ∧ outcome = .suspended) ∨
      (machine.runInner vs = some (.error .taskYield, after) ∧ outcome = .taskYielded))

/-- The loops of a slice: from the first to one that is started after so many recoveries. -/
inductive Recoveries : ℕ → Vs ρ φ δ → Vs ρ φ δ → Prop
  | none (vs : Vs ρ φ δ) : Recoveries 0 vs vs
  | recover {n fuel : ℕ} {vs raised resumed last : Vs ρ φ δ} {err : ε} :
      Raises machine vs err raised →
      unwind machine (run machine fuel) fuel raised (.raised err) = some (.resumes resumed) →
      Recoveries n resumed last → Recoveries (n + 1) vs last

/-- A slice, and the slice that the host or the scheduler continues it with. -/
def Continues (wake : Vs ρ φ δ → Vs ρ φ δ) (vs : Vs ρ φ δ)
    (result : Except (LoopError ε) RunOutcome) (final : Vs ρ φ δ) : Prop :=
  ∃ outcome after, Reports machine vs (.ok outcome) after ∧ outcome ≠ .completed ∧
    Reports machine (wake after) result final

/-- The slice reports the outcome of its last loop with the state that loop left, and goes
on as the slice that starts with that loop, in which nothing has panicked. -/
structure Survives (vs last : Vs ρ φ δ) (outcome : RunOutcome) (after : Vs ρ φ δ) : Prop where
  reported : Reports machine vs (.ok outcome) after
  continued : ∀ wake result final,
    Continues machine wake vs result final ↔ Continues machine wake last result final

/-- What a slice reports when a loop after the first yields or is suspended. -/
def lost : RunOutcome → Except (LoopError ε) RunOutcome
  | .suspended => .error .executionSuspended
  | _ => .ok .completed

variable {machine}

theorem Reports.unique {vs after after' : Vs ρ φ δ}
    {result result' : Except (LoopError ε) RunOutcome}
    (first : Reports machine vs result after) (second : Reports machine vs result' after') :
    result = result' ∧ after = after' := by
  rcases first with ⟨fuel, firstEq⟩
  rcases second with ⟨fuel', secondEq⟩
  have firstMore := runUntilSuspend_mono (Nat.le_max_left fuel fuel') _ _ firstEq
  have secondMore := runUntilSuspend_mono (Nat.le_max_right fuel fuel') _ _ secondEq
  exact Prod.mk.inj (some.inj (firstMore.symm.trans secondMore))

theorem Parks.reports {vs after : Vs ρ φ δ} {outcome : RunOutcome}
    (parks : Parks machine vs outcome after) : Reports machine vs (.ok outcome) after := by
  rcases parks with ⟨entry, ⟨loop, rfl⟩ | ⟨loop, rfl⟩⟩
  · refine ⟨1, ?_⟩
    rw [runUntilSuspend, sliceWith, entry]
    rw [loop]
  · refine ⟨1, ?_⟩
    rw [runUntilSuspend, sliceWith, entry]
    rw [loop]

/-- After a recovery a slice reports what `run` passes on of the rest. -/
theorem Raises.reports {fuel : ℕ} {vs raised resumed after : Vs ρ φ δ} {err : ε}
    {result : Except (LoopError ε) RunOutcome} (raises : Raises machine vs err raised)
    (unwound : unwind machine (run machine fuel) fuel raised (.raised err) =
      some (.resumes resumed))
    (reports : Reports machine resumed result after) :
    Reports machine vs ((forward result).map fun _ => .completed) after := by
  rcases reports with ⟨fuel', resumedEq⟩
  have atMax := runUntilSuspend_mono (Nat.le_max_right fuel fuel') _ _ resumedEq
  have nestedMore : Extends (run machine fuel) (run machine (max fuel fuel')) := by
    intro vs result defined
    obtain ⟨slice, sliceEq, resultEq⟩ := map_eq_some_iff.mp defined
    have moreEq := runUntilSuspend_mono (Nat.le_max_left fuel fuel') vs slice sliceEq
    rw [run, forwarded, moreEq, map_some, resultEq]
  have unwoundMax := unwind_mono nestedMore (Nat.le_max_left fuel fuel') unwound
  have runMax : run machine (max fuel fuel') resumed = some (forward result, after) := by
    rw [run, forwarded, atMax, map_some]
  have panicMax : runPanicUnwind machine (run machine (max fuel fuel')) (max fuel fuel') raised
      (.raised err) = some (forward result, after) := by
    rw [runPanicUnwind, unwoundMax, bind_some]
    exact runMax
  refine ⟨max fuel fuel' + 1, ?_⟩
  rw [runUntilSuspend, sliceWith]
  rcases raises with ⟨entry, rfl⟩ | ⟨entry, loop⟩
  · simp only [entry]
    exact congrArg (Option.map _) panicMax
  · simp only [entry, loop]
    exact congrArg (Option.map _) panicMax

theorem Recoveries.reports_lost {n : ℕ} {vs last after : Vs ρ φ δ} {outcome : RunOutcome}
    (chain : Recoveries machine (n + 1) vs last) (parks : Parks machine last outcome after) :
    Reports machine vs (lost outcome) after := by
  have parkedOutcome : outcome = .suspended ∨ outcome = .taskYielded := by
    rcases parks.2 with ⟨-, isSuspended⟩ | ⟨-, isYielded⟩
    · exact .inl isSuspended
    · exact .inr isYielded
  induction n generalizing vs with
  | zero =>
    cases chain with
    | recover raises unwound rest =>
      cases rest
      have reports := raises.reports unwound parks.reports
      rcases parkedOutcome with rfl | rfl
      · exact reports
      · exact reports
  | succ n ih =>
    cases chain with
    | recover raises unwound rest =>
      have reports := raises.reports unwound (ih rest)
      rcases parkedOutcome with rfl | rfl
      · exact reports
      · exact reports

/-- A yield or a suspension survives exactly when the slice has recovered from no panic
before it. -/
theorem survives_iff {n : ℕ} {vs last after : Vs ρ φ δ} {outcome : RunOutcome}
    (chain : Recoveries machine n vs last) (parks : Parks machine last outcome after) :
    Survives machine vs last outcome after ↔ n = 0 := by
  constructor
  · intro survives
    cases n with
    | zero => rfl
    | succ n =>
      have same := (survives.reported.unique (chain.reports_lost parks)).1
      rcases parks.2 with ⟨-, rfl⟩ | ⟨-, rfl⟩
      · cases same
      · cases same
  · rintro rfl
    cases chain
    exact ⟨parks.reports, fun _ _ _ => .rfl⟩

end Chains

/-- A program whose first loop calls a function that defers a recovering closure and
panics; the loop that is left receives from an empty mailbox. The state counts the
recoveries. -/
def panicThenReceive : Machine ℕ Unit Unit Unit where
  runInner vs :=
    if vs.rest = 0 then
      some (.error (.raised ()), { vs with frames := [⟨0, ()⟩], deferStack := [()] })
    else some (.error .taskYield, vs)
  entryError _ := none
  setPanicValue vs _ := .ok vs.rest
  performDeferred vs _ := some (.ok (), { vs with recovered := true })
  popResult rest := rest
  pushRecovered rest _ := (.ok (), rest + 1)
  dropFrame rest _ := rest

/-- The outermost loop, after so many recoveries. -/
def atTopLevel (recoveries : ℕ) : Vs ℕ Unit Unit where
  frames := []
  deferStack := []
  callDepthTarget := none
  recovered := false
  isPanicking := false
  rest := recoveries

theorem survives_atTopLevel :
    Survives panicThenReceive (atTopLevel 1) (atTopLevel 1) .taskYielded (atTopLevel 1) :=
  (survives_iff (.none _) ⟨rfl, .inr ⟨rfl, rfl⟩⟩).mpr rfl

/-- Yields and suspensions survive the panics recovered before them in the slice. -/
def RecoveredPanicsSurvive : Prop :=
  ∀ (ρ φ δ ε : Type) (machine : Machine ρ φ δ ε) (n : ℕ) (vs last after : Vs ρ φ δ)
    (outcome : RunOutcome), Recoveries machine n vs last → Parks machine last outcome after →
      Survives machine vs last outcome after

/-- The slice reports that the program has completed. -/
theorem not_recoveredPanicsSurvive : ¬RecoveredPanicsSurvive := by
  intro survive
  have unwound : unwind panicThenReceive (run panicThenReceive 3) 3
      { atTopLevel 0 with frames := [⟨0, ()⟩], deferStack := [()] } (.raised ()) =
        some (.resumes (atTopLevel 1)) := rfl
  have chain : Recoveries panicThenReceive 1 (atTopLevel 0) (atTopLevel 1) :=
    .recover (.inr ⟨rfl, rfl⟩) unwound (.none _)
  have survives := survive ℕ Unit Unit Unit panicThenReceive 1 _ _ (atTopLevel 1) .taskYielded chain
    ⟨rfl, .inr ⟨rfl, rfl⟩⟩
  have completed : Reports panicThenReceive (atTopLevel 0) (.ok .completed) (atTopLevel 1) :=
    ⟨4, rfl⟩
  exact nomatch (survives.reported.unique completed).1

end Gengo.Vm
