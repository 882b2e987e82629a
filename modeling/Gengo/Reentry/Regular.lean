import Gengo.Reentry.Layers

/-!
# Regular executions

Every step keeps the loops on top of one another apart, as long as `callValue` runs no loop for a
callee that has been completed without a frame, and no loop that something waits for ends before
its last frame is left.
-/

namespace Gengo.Reentry

open List Option Nat
open Engines (Func)

universe u v w x

variable {ν : Type v} {ε : Type u} {σ : Type w} {α : Type x}

namespace Cfg

variable {m : Machine ν ε σ} {c : Cfg ν ε σ} {n : ℕ}

/-- What a step does, in each branch that it can take. -/
inductive Stepped (m : Machine ν ε σ) (c : Cfg ν ε σ) : Cfg ν ε σ → Prop
  | refused {err : VmError ε} {payload : Payload ν} (focus : c.focus = .start)
      (entry : m.entryError c.vs = some (err, payload)) :
      Stepped m c (c.signal m err payload (.raise err))
  | entered (focus : c.focus = .start) (entry : m.entryError c.vs = none) :
      Stepped m c (c.focusOn .loop)
  | lost {err : VmError ε} {payload : Payload ν} (focus : c.focus = .loop)
      (fetch : m.fetch c.vs = .error (err, payload)) :
      Stepped m c (c.signal m err payload (.raise err))
  | fetched {ip prog} (focus : c.focus = .loop) (fetch : m.fetch c.vs = .ok (ip, prog)) :
      Stepped m c (((c.withVs { c.vs with ip := ip }).emit
        (.instruction c.vs.frames.length)).focusOn (.work c.vs.frameBase 0 (.instr prog)))
  | work {floor held work} (focus : c.focus = .work floor held work) :
      Stepped m c (c.workOn m floor held work)
  | callValue {call} (focus : c.focus = .callValue call) : Stepped m c (c.callValue m call)
  | performCall {inLoop argc} (focus : c.focus = .performCall inLoop argc) :
      Stepped m c (c.performCall m inLoop argc)
  | afterInstr {framePushed} (focus : c.focus = .performed true framePushed) :
      Stepped m c c.afterInstr
  | afterCall {framePushed waiting before rest} (focus : c.focus = .performed false framePushed)
      (activations : c.activations = .waits waiting before :: rest) :
      Stepped m c (c.afterCall m waiting before.frames.length framePushed)
  | failed {err waiting before rest} (focus : c.focus = .failed err)
      (activations : c.activations = .waits waiting before :: rest) :
      Stepped m c (c.pop.fail m waiting err)
  | suspended (focus : c.focus = .raise .executionSuspended) :
      Stepped m c (c.focusOn (.ended .suspended))
  | yielded (focus : c.focus = .raise .taskYield) : Stepped m c (c.focusOn (.ended .yielded))
  | panics {err} (focus : c.focus = .raise err) (notSuspended : err ≠ .executionSuspended)
      (notYield : err ≠ .taskYield) : Stepped m c (c.runPanicUnwind m err)
  | returned {value savedRoots frame outer}
      (focus : c.focus = .retSlowPath value savedRoots outer.length)
      (dropped : c.vs.frames.drop (c.vs.frames.length - (outer.length + 1)) = frame :: outer) :
      Stepped m c (c.retSlowPath m value savedRoots outer.length frame)
  | unwound {state} (focus : c.focus = .unwind state) : Stepped m c (c.unwind m state)
  | resumed {how rest} (focus : c.focus = .ended how)
      (activations : c.activations = .resumed :: rest) : Stepped m c c.pop
  | cameBack {how waiting before rest} (focus : c.focus = .ended how)
      (activations : c.activations = .waits waiting before :: rest) :
      Stepped m c
        (let restored := (c.withVs { c.vs with callDepthTarget := before.callDepthTarget }).pop
        match endedError how with
        | none => restored.succeed m waiting before.frames.length
        | some err => restored.fail m waiting err)

theorem stepped_of_step {c' : Cfg ν ε σ} (stepped : c.step m = some c') : Stepped m c c' := by
  unfold step at stepped
  cases focus : c.focus <;> rw [focus] at stepped <;> dsimp only at stepped
  case start =>
    split at stepped <;> cases stepped
    · exact .refused focus ‹_›
    · exact .entered focus ‹_›
  case loop =>
    split at stepped <;> cases stepped
    · exact .lost focus ‹_›
    · exact .fetched focus ‹_›
  case work => exact some.inj stepped ▸ .work focus
  case callValue => exact some.inj stepped ▸ .callValue focus
  case performCall => exact some.inj stepped ▸ .performCall focus
  case unwind => exact some.inj stepped ▸ .unwound focus
  case performed inLoop _ =>
    cases inLoop with
    | true => exact some.inj stepped ▸ .afterInstr focus
    | false =>
      rw [if_neg Bool.false_ne_true] at stepped
      split at stepped <;> cases stepped
      exact .afterCall focus ‹_›
  case failed =>
    split at stepped <;> cases stepped
    exact .failed focus ‹_›
  case raise =>
    split at stepped
    · cases stepped
      exact .suspended focus
    · cases stepped
      exact .yielded focus
    next notSuspended notYield =>
      split at stepped <;> cases stepped
      exact .panics focus notSuspended notYield
  case retSlowPath =>
    split at stepped
    · split at stepped <;> cases stepped
      next isLength => exact isLength ▸ .returned (isLength ▸ focus) (isLength ▸ ‹_›)
    · cases stepped
  case ended =>
    split at stepped
    · cases stepped
    · cases stepped
      exact .resumed focus ‹_›
    next activations =>
      have cameBack : Stepped m c _ := .cameBack focus activations
      split at stepped <;> cases stepped <;> simp_all

/-- Each loop leaves what waits for it alone. -/
def Layered (m : Machine ν ε σ) (n : ℕ) (c : Cfg ν ε σ) : Prop :=
  Good m n c.activations c.focus c.vs

section

variable (err : VmError ε) (payload : Payload ν) (focus : Focus ν ε σ)
include err payload focus

@[simp]
theorem activations_signal : (c.signal m err payload focus).activations = c.activations := by
  unfold signal
  cases err.isPanic <;> rfl

@[simp]
theorem focus_signal : (c.signal m err payload focus).focus = focus := by
  unfold signal
  cases err.isPanic <;> rfl

@[simp]
theorem vs_signal : (c.signal m err payload focus).vs = c.vs.setPending payload := by
  unfold signal
  cases err.isPanic <;> rfl

end

variable (vs : Vs ν σ)

theorem sameControl_setPending (payload : Payload ν) : SameControl vs (vs.setPending payload) := by
  cases payload <;> exact ⟨rfl, rfl, rfl, rfl⟩

variable {err : VmError ε}

theorem layered_signal {payload : Payload ν} {focus : Focus ν ε σ} (isError : focus.IsError)
    (good : Good m n c.activations focus c.vs) : (c.signal m err payload focus).Layered m n := by
  rw [Layered, activations_signal, focus_signal, vs_signal]
  have same := sameControl_setPending c.vs payload
  cases focus with
  | raise raised => exact good.map (fun _ rel => rel.imp (·.congr same) (·.congr same)) id
  | failed failed => exact good.map (fun _ rel => rel.congr same) id
  | _ => exact isError.elim

theorem activations_pop {activation : Activation ν ε σ} {rest : List (Activation ν ε σ)}
    (activations : c.activations = activation :: rest) : c.pop.activations = rest := by
  change c.activations.tail = rest
  rw [activations]
  rfl

variable (results : List ν)

@[simp]
theorem vs_afterReturn : (c.afterReturn results).vs = c.vs := by
  unfold afterReturn
  split <;> rfl

@[simp]
theorem activations_afterReturn : (c.afterReturn results).activations = c.activations := by
  unfold afterReturn
  split <;> rfl

theorem rel_afterInstr {before : Vs ν σ} (running : Running before c.vs) :
    Rel m before c.vs c.afterInstr.focus := by
  unfold afterInstr
  cases c.vs.sleeping with
  | true => exact trivial
  | false => exact .inl running

theorem intrinsic_afterInstr : Intrinsic vs c.afterInstr.focus := by
  unfold afterInstr
  cases c.vs.sleeping <;> exact trivial

theorem intrinsic_afterReturn : Intrinsic vs (c.afterReturn results).focus := by
  unfold afterReturn
  split
  · exact trivial
  · exact intrinsic_afterInstr vs

/-- The loop ends exactly when the last frame of the call has been left. -/
theorem rel_afterReturn {before : Vs ν σ} {results : List ν}
    (target : c.vs.callDepthTarget = some before.frames.length)
    (left : Back before c.vs results ∨ Running before c.vs) :
    Rel m before c.vs (c.afterReturn results).focus := by
  unfold afterReturn
  rcases left with back | running
  · rw [target, back.frames, if_pos rfl]
    exact back
  · have deeper := running.frames.length_lt
    rw [target, if_neg (fun same => deeper.ne' (some.inj same))]
    exact rel_afterInstr running

variable {frame : Frame ν} {outer : List (Frame ν)}

theorem frames_leave (framesEq : c.vs.frames = frame :: outer) :
    (c.leave frame outer.length).vs.frames = outer := by
  change c.vs.frames.drop (c.vs.frames.length - outer.length) = outer
  rw [framesEq, length_cons, Nat.add_sub_cancel_left]
  rfl

theorem running_or_settled_leave {before : Vs ν σ} (framesEq : c.vs.frames = frame :: outer)
    (running : Running before c.vs) (pushed : List ν) :
    let left := { (c.leave frame outer.length).vs with
      stack := (c.leave frame outer.length).vs.stack ++ pushed }
    Running before left ∨ Settled before left := by
  intro left
  rcases running.leave framesEq pushed left rfl (frames_leave framesEq) rfl rfl with back | deeper
  · exact .inr ⟨running.callDepthTarget, back.stack ▸ prefix_append _ _, back.frames⟩
  · exact .inl deeper

theorem layered_returned {c' : Cfg ν ε σ} (framesEq : c.vs.frames = frame :: outer)
    (results : List ν) (running : Good m n c.activations (.performed true false) c.vs)
    (activations : c'.activations = c.activations)
    (target : c'.vs.callDepthTarget = c.vs.callDepthTarget) (frames : c'.vs.frames = outer)
    (stack : c'.vs.stack = c.vs.stack.take (frame.base - 1) ++ results)
    (ip : c'.vs.ip = frame.retIp) : (c'.afterReturn results).Layered m n := by
  rw [Layered, activations_afterReturn, vs_afterReturn, activations]
  refine running.map (fun before isRunning => ?_) fun _ => intrinsic_afterReturn _ results
  exact rel_afterReturn (target.trans isRunning.callDepthTarget)
    (isRunning.leave framesEq results _ target frames stack ip)

theorem layered_signal_raise {raised : VmError ε} {payload : Payload ν}
    (running : Good m n c.activations (.performed true false) c.vs) :
    (c.signal m err payload (.raise raised)).Layered m n :=
  layered_signal trivial (running.map (fun _ => .inl) id)

theorem layered_spread (framesEq : c.vs.frames = frame :: outer)
    (running : Good m n c.activations (.performed true false) c.vs) :
    (c.spread m frame outer.length).Layered m n := by
  unfold spread
  dsimp only
  split
  · exact layered_signal_raise running
  · split
    next vs pushes =>
      rcases Vs.of_pushAll pushes with ⟨pushed, rfl, complete, -⟩
      obtain rfl := complete rfl
      exact layered_returned framesEq _ running rfl rfl (frames_leave framesEq) rfl rfl
    next vs stuck =>
      rcases Vs.of_pushAll stuck with ⟨pushed, rfl, -⟩
      refine layered_signal (show Focus.IsError (.raise _) from trivial) ?_
      exact running.map (fun _ isRunning => running_or_settled_leave framesEq isRunning pushed) id

theorem layered_doReturn (value : ν) (fused : Bool)
    (running : Good m n c.activations (.performed true false) c.vs) :
    (c.doReturn m value fused).Layered m n := by
  unfold doReturn
  split
  · exact layered_signal_raise running
  next frame outer framesEq =>
    split
    · exact layered_spread framesEq running
    · split
      · exact layered_returned framesEq [value] running rfl rfl (frames_leave framesEq) rfl rfl
      · split
        · exact layered_signal_raise running
        · have frames : c.vs.frames.length = outer.length + 1 := by
            rw [framesEq, length_cons]
          exact running.map
            (fun before isRunning => ⟨Running.of_eq isRunning rfl rfl rfl, frames⟩) fun _ => frames

theorem layered_afterInstr (running : Good m n c.activations (.performed true false) c.vs) :
    c.afterInstr.Layered m n :=
  running.map (fun _ => rel_afterInstr) fun _ => intrinsic_afterInstr _

variable {floor held : ℕ}

theorem layered_execute {prog : Prog ν ε σ (Outcome ν)} (outcome : Outcome ν)
    (good : Good m n c.activations (.work floor held (.instr prog)) c.vs) :
    (c.execute m floor outcome).Layered m n := by
  have running : Good m n c.activations (.performed true false) c.vs :=
    good.map (fun _ rel => rel.1) id
  cases outcome with
  | next region ip =>
    apply layered_afterInstr
    refine good.map (fun before rel => ?_) id
    exact (rel.1.restack region rel.2).of_eq rfl rfl rfl
  | call region call =>
    refine good.map (fun before rel => ⟨rel.1.restack _ rel.2, ?_⟩) id
    have kept := (prefix_take_iff.mpr ⟨rel.1.stack, rel.2⟩).length_le
    change _ ≤ (c.vs.stack.take floor ++ (region ++ call.callee :: call.args)).length
    simp only [length_append, length_cons]
    omega
  | tailCall f args =>
    unfold execute
    dsimp only
    split
    · exact layered_signal_raise running
    next frame outer framesEq =>
      have reused : Good m n c.activations (.performed true false)
          { c.vs.restack frame.base (List.ofFn args) with
            frames := { frame with callee := f } :: outer } := by
        refine running.map (fun before isRunning => ?_) id
        have stacked : Stacked before (frame :: outer) := framesEq ▸ isRunning.frames
        have above := isRunning.restack (List.ofFn args) stacked.head.le
        exact ⟨above.callDepthTarget, above.stack, stacked.recall rfl rfl⟩
      split
      · exact layered_signal_raise reused
      · apply layered_afterInstr
        exact reused.map (fun _ isRunning => Running.of_eq isRunning rfl rfl rfl) id
  | defer region call =>
    unfold execute
    dsimp only
    split
    · exact layered_signal_raise running
    · apply layered_afterInstr
      refine good.map (fun before rel => ?_) id
      exact (rel.1.restack region rel.2).of_eq rfl rfl rfl
  | ret value fused => exact layered_doReturn value fused running
  | halt | yield region ip => exact good.map (fun _ _ => trivial) id

theorem activations_failWork (held leaked : ℕ) (work : Work ν ε σ) (err : VmError ε) :
    (c.failWork held leaked work err).activations = c.activations := by
  cases work <;> rfl

theorem isError_failWork (held leaked : ℕ) (work : Work ν ε σ) (err : VmError ε) :
    (c.failWork held leaked work err).focus.IsError := by
  cases work with
  | instr _ | accepting _ _ _ _ => exact trivial
  | checking inLoop _ _ | builtin inLoop _ => cases inLoop <;> exact trivial

variable {vs : Vs ν σ}

theorem intrinsic_of_isError {focus : Focus ν ε σ} (isError : focus.IsError) :
    Intrinsic vs focus := by
  cases focus with
  | raise _ | failed _ => exact trivial
  | _ => exact isError.elim

variable {work : Work ν ε σ}

theorem rel_failWork {before : Vs ν σ} {leaked : ℕ} (rel : RelWork before vs floor work.skeleton)
    (abandoned : Abandoned vs c.vs) :
    Rel m before (c.failWork held leaked work err).vs (c.failWork held leaked work err).focus := by
  cases work with
  | instr _ => exact .inl ((rel.1.after abandoned).of_eq rfl rfl rfl)
  | checking inLoop _ _ | builtin inLoop _ =>
    cases inLoop with
    | true => exact .inl ((rel.1.after abandoned).of_eq rfl rfl rfl)
    | false =>
      have failed := rel.1.toAbandoned.trans abandoned
      exact ⟨failed.callDepthTarget, failed.stack, failed.frames⟩
  | accepting frame _ _ _ =>
    have frames : c.vs.frames = vs.frames := abandoned.frames
    have target := abandoned.callDepthTarget.trans rel.1.callDepthTarget
    have stack := rel.1.stack.trans abandoned.stack
    rcases rel.1.frames.tail with ⟨isLast, -⟩ | stacked
    · exact .inr ⟨target, stack, frames.trans isLast⟩
    · refine .inl ⟨target, stack, ?_⟩
      change Stacked before c.vs.frames
      rw [frames]
      exact stacked

theorem layered_failWork {held' leaked : ℕ}
    (good : Good m n c.activations (.work floor held' work) vs) (abandoned : Abandoned vs c.vs) :
    (c.failWork held leaked work err).Layered m n := by
  rw [Layered, activations_failWork]
  exact good.map (fun before rel => rel_failWork rel abandoned) fun _ =>
    intrinsic_of_isError (isError_failWork held leaked work err)

theorem Abandoned_of_eq {vs' : Vs ν σ} (stack : vs'.stack = vs.stack)
    (frames : vs'.frames = vs.frames) (target : vs'.callDepthTarget = vs.callDepthTarget) :
    Abandoned vs vs' :=
  ⟨target, stack ▸ prefix_rfl, frames⟩

theorem layered_advance {prog : Prog ν ε σ α} {wrap : Prog ν ε σ α → Work ν ε σ}
    {same : ∀ first second, (wrap first).skeleton = (wrap second).skeleton}
    {done : Cfg ν ε σ → α → Cfg ν ε σ} (high : n ≤ c.activations.length)
    (good : Good m n c.activations (.work floor held (wrap prog)) c.vs)
    (ends : ∀ result rest sleeps, prog = .finish result rest sleeps →
      (done (c.finished held rest sleeps) result).Layered m n) :
    (c.advance m floor held prog wrap same done).Layered m n := by
  have goesOn : ∀ (vs : Vs ν σ) (held' : ℕ) (next : Prog ν ε σ α), SameControl c.vs vs →
      Good m n c.activations (.work floor held' (wrap next)) vs := by
    intro vs held' next control
    refine good.map (fun before rel => ?_) id
    exact (same prog next ▸ rel : RelWork before c.vs floor (wrap next).skeleton).congr control
  cases prog with
  | finish result rest sleeps => exact ends result rest sleeps rfl
  | fail err payload rest leaked =>
    apply layered_signal (isError_failWork _ _ _ _)
    exact layered_failWork good (Abandoned_of_eq rfl rfl rfl)
  | recover resume =>
    unfold advance
    dsimp only
    split
    · exact goesOn _ held _ ⟨rfl, rfl, rfl, rfl⟩
    · exact goesOn _ held _ ⟨rfl, rfl, rfl, rfl⟩
  | callback region rest held' leaked call resume =>
    refine Good.push (.callback _) trivial ?_ ?_ high
    · refine good.map (fun before rel => ?_) id
      have changed : RelWork before (c.vs.restack floor region) floor _ :=
        RelWork.restack region rel
      refine RelWork.congr ?_ changed
      exact ⟨rfl, rfl, rfl, rfl⟩
    · exact ⟨SameControl.performing ⟨rfl, rfl, rfl, rfl⟩, rfl⟩

theorem isError_errorFocus (inLoop : Bool) (err : VmError ε) :
    (errorFocus inLoop err : Focus ν ε σ).IsError := by
  cases inLoop <;> exact trivial

variable {inLoop : Bool}

theorem rel_errorFocus {before vs' : Vs ν σ} (rel : RelWork before vs floor (.checking inLoop))
    (abandoned : Abandoned vs vs') : Rel m before vs' (errorFocus inLoop err : Focus ν ε σ) := by
  cases inLoop with
  | true => exact .inl (rel.1.after abandoned)
  | false => exact rel.1.toAbandoned.trans abandoned

theorem layered_pushFrame {f : Func ν} {prog : Prog ν ε σ (Fin f.arity → ν)}
    (args : Fin f.arity → ν)
    (good : Good m n c.activations (.work floor held (.checking inLoop f prog)) c.vs) :
    ((c.withVs (c.vs.restack floor (List.ofFn args))).pushFrame m inLoop f).Layered m n := by
  have fails : ∀ err, Good m n c.activations (errorFocus inLoop err)
      (c.vs.restack floor (List.ofFn args)) := by
    intro err
    refine good.map (fun before rel => ?_) fun _ =>
      intrinsic_of_isError (isError_errorFocus inLoop err)
    have changed : RelWork before (c.vs.restack floor (List.ofFn args)) floor
        (.checking inLoop) := RelWork.restack _ rel
    exact rel_errorFocus changed (Abandoned_of_eq rfl rfl rfl)
  unfold pushFrame
  split
  · exact layered_signal (isError_errorFocus inLoop _) (fails _)
  · split
    · exact layered_signal (isError_errorFocus inLoop _) (fails _)
    · refine good.map (fun before rel => ?_) id
      have changed : RelWork before (c.vs.restack floor (List.ofFn args)) floor
          (.checking inLoop) := RelWork.restack _ rel
      have base : (c.vs.stack.take floor ++ List.ofFn args).length - f.arity =
          min floor c.vs.stack.length := by
        rw [length_append, length_ofFn, length_take, Nat.add_sub_cancel]
      cases inLoop with
      | true =>
        refine ⟨changed.1.callDepthTarget, changed.1.stack, .inner ?_ changed.1.frames⟩
        exact base.symm ▸ lt_min rel.2.1 rel.2.2
      | false =>
        refine ⟨rfl, changed.1.stack, ?_⟩
        have outermost : min floor c.vs.stack.length = before.stack.length + 1 := by
          rw [rel.2.1]
          exact min_eq_left rel.2.2
        change Stacked before (_ :: (c.vs.restack floor (List.ofFn args)).frames)
        rw [changed.1.frames]
        exact .outermost (base.trans outermost) changed.1.ip

theorem layered_workOn (high : n ≤ c.activations.length)
    (good : Good m n c.activations (.work floor held work) c.vs) :
    (c.workOn m floor held work).Layered m n := by
  have finished : ∀ rest sleeps,
      Good m n (c.finished held rest sleeps).activations (.work floor held work)
        (c.finished held rest sleeps).vs := by
    intro rest sleeps
    refine good.map (fun before rel => ?_) id
    refine RelWork.congr ?_ rel
    exact ⟨rfl, rfl, rfl, rfl⟩
  cases work with
  | instr prog =>
    exact layered_advance high good fun outcome rest sleeps _ =>
      layered_execute outcome (finished rest sleeps)
  | checking inLoop f prog =>
    exact layered_advance high good fun args rest sleeps _ =>
      layered_pushFrame args (finished rest sleeps)
  | builtin inLoop prog =>
    refine layered_advance high good fun result rest sleeps _ => ?_
    refine (finished rest sleeps).map (fun before rel => ?_) id
    have changed := RelWork.restack [result] rel
    cases inLoop with
    | true => exact changed.1
    | false =>
      refine ⟨changed.1, ?_⟩
      have floorEq := rel.2
      have long := rel.1.stack.length_le
      change ((c.finished held rest sleeps).vs.stack.take floor ++ [result]).length = _
      rw [length_append, length_take, floorEq, min_eq_left long, length_singleton]
  | accepting frame value savedRoots prog =>
    refine layered_advance high good fun _ rest sleeps _ => ?_
    rw [Layered, activations_afterReturn, vs_afterReturn]
    refine (finished rest sleeps).map (fun before rel => ?_) fun _ =>
      intrinsic_afterReturn _ [value]
    exact rel_afterReturn rel.1.callDepthTarget (rel.1.leave rfl [value] _ rfl rfl rfl rfl)

theorem layered_callValue {call : Call ν}
    (good : Good m n c.activations (.callValue call) c.vs) : (c.callValue m call).Layered m n := by
  have fails : ∀ (err : VmError ε) (pushed : List ν), Good m n c.activations (.failed err)
      { c.vs with stack := c.vs.stack ++ pushed } := by
    intro err pushed
    refine good.map (fun before rel => ?_) id
    exact ⟨rel.1.callDepthTarget, rel.1.stack.trans (prefix_append _ _), rel.1.frames⟩
  unfold callValue
  split
  · have failed := fails .arityMismatch []
    rw [append_nil] at failed
    exact layered_signal trivial failed
  · split
    next vs stuck =>
      rcases Vs.of_pushAll stuck with ⟨pushed, rfl, -⟩
      exact layered_signal (show Focus.IsError (.failed _) from trivial) (fails _ pushed)
    next vs pushes =>
      rcases Vs.of_pushAll pushes with ⟨pushed, rfl, complete, -⟩
      obtain rfl := complete rfl
      refine good.map (fun before rel => ⟨⟨?_, rel.1.ip⟩, ?_⟩) id
      · exact ⟨rel.1.callDepthTarget, rel.1.stack.trans (prefix_append _ _), rel.1.frames⟩
      · change (c.vs.stack ++ call.callee :: call.args).length = _
        rw [rel.2, length_append, length_cons, Nat.add_assoc]

theorem layered_performCall {argc : ℕ}
    (good : Good m n c.activations (.performCall inLoop argc) c.vs) :
    (c.performCall m inLoop argc).Layered m n := by
  have fails : ∀ (err : VmError ε) (pushed : List ν), Good m n c.activations (errorFocus inLoop err)
      { c.vs with stack := c.vs.stack ++ pushed } := by
    intro err pushed
    refine good.map (fun before rel => ?_) fun _ =>
      intrinsic_of_isError (isError_errorFocus inLoop err)
    cases inLoop with
    | true =>
      exact .inl ⟨rel.1.callDepthTarget, rel.1.stack.trans (prefix_append _ _), rel.1.frames⟩
    | false =>
      exact ⟨rel.1.callDepthTarget, rel.1.stack.trans (prefix_append _ _), rel.1.frames⟩
  have failsHere : ∀ err : VmError ε,
      (c.signal m err .none (errorFocus inLoop err)).Layered m n := by
    intro err
    have failed := fails err []
    rw [append_nil] at failed
    exact layered_signal (isError_errorFocus inLoop err) failed
  unfold performCall
  dsimp only
  split
  · exact failsHere _
  next enough =>
    split
    · exact failsHere _
    next run _ =>
      refine good.map (fun before rel => ?_) id
      cases inLoop with
      | true | false => exact ⟨rel.1, by have := rel.2; omega⟩
    next f _ =>
      split
      · exact failsHere _
      next defaults _ =>
        split
        next vs stuck =>
          rcases Vs.of_pushAll stuck with ⟨pushed, rfl, -⟩
          exact layered_signal (isError_errorFocus inLoop _) (fails _ pushed)
        next vs pushes =>
          rcases Vs.of_pushAll pushes with ⟨pushed, rfl, -⟩
          have longer : c.vs.stack.length ≤ (c.vs.stack ++ pushed).length := by simp
          refine good.map (fun before rel => ?_) id
          cases inLoop with
          | true =>
            have fits := rel.2
            refine ⟨⟨rel.1.callDepthTarget, rel.1.stack.trans (prefix_append _ _),
              rel.1.frames⟩, by omega, ?_⟩
            exact lt_of_lt_of_le (by omega) longer
          | false =>
            have fits := rel.2
            refine ⟨⟨⟨rel.1.callDepthTarget, rel.1.stack.trans (prefix_append _ _),
              rel.1.frames⟩, rel.1.ip⟩, by omega, ?_⟩
            exact lt_of_lt_of_le (by omega) longer

section Waiting

variable {before : Vs ν σ} {waiting : Waiting ν ε σ}

theorem running_of_unwind {state : Unwinding ε}
    (fits : before.callDepthTarget.getD 0 < before.frames.length)
    (below : Good m n c.activations (.unwind state) before) (abandoned : Abandoned before c.vs) :
    Good m n c.activations (.performed true false) c.vs := by
  refine below.map (fun b rel => ?_) fun _ => trivial
  rcases rel with running | ⟨settled, -⟩
  · exact running.after abandoned
  · rw [settled.callDepthTarget, settled.frames] at fits
    exact absurd fits (lt_irrefl _)

theorem layered_unwind_of_running (state : Unwinding ε)
    (running : Good m n c.activations (.performed true false) c.vs)
    (deeper : c.vs.callDepthTarget.getD 0 < c.vs.frames.length) (same : SameControl c.vs vs) :
    Good m n c.activations (.unwind state) vs := by
  refine running.map (fun _ isRunning => .inl (isRunning.congr same)) fun _ _ => ?_
  rw [same.callDepthTarget, same.frames]
  exact deeper

theorem layered_afterDeferred {state : Unwinding ε} (failure : Option (VmError ε))
    (running : Good m n c.activations (.performed true false) c.vs)
    (deeper : c.vs.callDepthTarget.getD 0 < c.vs.frames.length) :
    (c.afterDeferred m state failure).Layered m n := by
  have goesOn : ∀ (state : Unwinding ε) (vs : Vs ν σ), SameControl c.vs vs →
      Good m n c.activations (.unwind state) vs :=
    fun state _ => layered_unwind_of_running state running deeper
  unfold afterDeferred
  cases failure with
  | none =>
    dsimp only
    split
    · exact goesOn _ _ ⟨rfl, rfl, rfl, rfl⟩
    · exact goesOn _ _ ⟨rfl, rfl, rfl, rfl⟩
  | some newErr =>
    dsimp only
    split
    · exact goesOn _ _ ⟨rfl, rfl, rfl, rfl⟩
    · split
      · exact running.map (fun _ => .inl) id
      · split
        · exact goesOn _ _ ⟨rfl, rfl, rfl, rfl⟩
        · exact goesOn _ _ ⟨rfl, rfl, rfl, rfl⟩

theorem layered_resume {callback : Callback ν ε σ}
    (below : Good m n c.activations (.work callback.floor callback.held callback.work) before)
    (performing : Performing before { c.vs with stack := c.vs.stack.dropLast })
    (nonempty : c.vs.stack ≠ []) : (c.resume m callback).Layered m n := by
  unfold resume
  split
  next isNone => exact absurd (List.getLast?_eq_none_iff.mp isNone) nonempty
  next result _ =>
    refine below.map (fun b rel => ?_) fun _ => trivial
    change RelWork b _ callback.floor (callback.resume result _).skeleton
    rw [callback.skeleton_resume]
    exact RelWork.after performing rel

theorem layered_succeed (fits : waiting.Fits before)
    (below : Good m n c.activations (waiting.focus before.frames.length) before)
    (performing : Performing before { c.vs with stack := c.vs.stack.dropLast })
    (nonempty : c.vs.stack ≠ []) : (c.succeed m waiting before.frames.length).Layered m n := by
  have abandoned := performing.toAbandoned
  cases waiting with
  | returning value savedRoots =>
    unfold succeed
    dsimp only
    split
    next empty => exact absurd empty nonempty
    next first rest stackEq =>
      refine below.map (fun b rel => ⟨?_, ?_⟩) fun intrinsic => ?_
      · exact (rel.1.after abandoned).of_eq rfl rfl rfl
      · exact (congrArg List.length abandoned.frames).trans rel.2
      · exact (congrArg List.length abandoned.frames).trans intrinsic
  | unwinding state =>
    apply layered_afterDeferred
    · exact running_of_unwind fits below abandoned
    · change Option.getD c.vs.callDepthTarget 0 < c.vs.frames.length
      rw [abandoned.callDepthTarget, abandoned.frames]
      exact fits
  | callback callback => exact layered_resume below performing nonempty

theorem layered_fail (fits : waiting.Fits before)
    (below : Good m n c.activations (waiting.focus before.frames.length) before)
    (abandoned : Abandoned before c.vs) : (c.fail m waiting err).Layered m n := by
  cases waiting with
  | returning value savedRoots =>
    refine below.map (fun b rel => ?_) fun _ => trivial
    exact .inl ((rel.1.after abandoned).of_eq rfl rfl rfl)
  | unwinding state =>
    apply layered_afterDeferred
    · exact running_of_unwind fits below abandoned
    · change Option.getD c.vs.callDepthTarget 0 < c.vs.frames.length
      rw [abandoned.callDepthTarget, abandoned.frames]
      exact fits
  | callback callback => exact layered_failWork below abandoned

theorem layered_afterCall {rest : List (Activation ν ε σ)} {framePushed : Bool}
    (activations : c.activations = .waits waiting before :: rest) (high : n ≤ rest.length)
    (framed : ∀ callback, waiting = .callback callback → framePushed = false →
      m.Refuses { c.vs with callDepthTarget := some before.frames.length })
    (good : Good m n c.activations (.performed false framePushed) c.vs) :
    (c.afterCall m waiting before.frames.length framePushed).Layered m n := by
  rw [activations] at good
  have top := good.top high
  have runs : (framePushed = false →
      m.Refuses { c.vs with callDepthTarget := some before.frames.length }) →
      ((c.withVs { c.vs with callDepthTarget := some before.frames.length }).focusOn
        .start).Layered m n := by
    intro refused
    change Good m n c.activations _ _
    rw [activations]
    refine Good.push waiting top.1 top.2.2 ?_ high
    cases framePushed with
    | true => exact .inl top.2.1
    | false =>
      have performing : Performing before c.vs := top.2.1.1
      exact .inr ⟨⟨rfl, performing.stack, performing.frames⟩, refused rfl⟩
  have completes : framePushed = false →
      (c.pop.succeed m waiting before.frames.length).Layered m n := by
    rintro rfl
    have performing : Performing before c.vs := top.2.1.1
    have single : c.vs.stack.length = before.stack.length + 1 := top.2.1.2
    have below : Good m n c.pop.activations (waiting.focus before.frames.length) before :=
      activations_pop activations ▸ top.2.2
    apply layered_succeed top.1 below
    · refine ⟨⟨performing.callDepthTarget, ?_, performing.frames⟩, performing.ip⟩
      change before.stack <+: c.vs.stack.dropLast
      rw [dropLast_eq_take]
      exact prefix_take_iff.mpr ⟨performing.stack, by omega⟩
    · intro empty
      change c.vs.stack = [] at empty
      rw [empty] at single
      cases single
  cases waiting with
  | callback callback => exact runs (framed callback rfl)
  | returning _ _ | unwinding _ =>
    cases framePushed with
    | true => exact runs Bool.noConfusion
    | false => exact completes rfl

end Waiting

variable {value : ν} {savedRoots : ℕ}

theorem layered_returnDrained (framesEq : c.vs.frames = frame :: outer)
    (running : Good m n c.activations (.performed true false) c.vs) :
    (c.returnDrained m value savedRoots outer.length frame).Layered m n := by
  have restored : Good m n c.activations (.performed true false)
      { c.vs with tempRoots := savedRoots } :=
    running.map (fun _ isRunning => Running.of_eq isRunning rfl rfl rfl) id
  unfold returnDrained
  dsimp only
  split
  · exact layered_spread framesEq restored
  · split
    · exact layered_signal_raise restored
    · refine running.map (fun before isRunning => ?_) fun _ => trivial
      have frames : c.vs.frames.drop (c.vs.frames.length - outer.length) = outer :=
        frames_leave framesEq
      refine ⟨⟨isRunning.callDepthTarget, isRunning.stack, ?_⟩, isRunning.stack.length_le⟩
      change Stacked before (frame :: c.vs.frames.drop (c.vs.frames.length - outer.length))
      rw [frames, ← framesEq]
      exact isRunning.frames

/-- A deferred call is taken from the defer stack, and put on the stack for whom it is made. -/
theorem layered_defer (waiting : Waiting ν ε σ) {call : Call ν} (fits : waiting.Fits c.vs)
    (high : n ≤ c.activations.length)
    (good : Good m n c.activations (waiting.focus c.vs.frames.length) c.vs)
    (stack : vs.stack = c.vs.stack ++ call.callee :: call.args) (frames : vs.frames = c.vs.frames)
    (ip : vs.ip = c.vs.ip) (target : vs.callDepthTarget = c.vs.callDepthTarget) :
    Good m n (c.push waiting).activations (.performCall false call.args.length) vs := by
  apply Good.push waiting fits good _ high
  refine ⟨⟨⟨target, stack ▸ prefix_append _ _, frames⟩, ip⟩, ?_⟩
  rw [stack, length_append, length_cons, Nat.add_assoc]

theorem layered_retSlowPath (framesEq : c.vs.frames = frame :: outer)
    (high : n ≤ c.activations.length)
    (good : Good m n c.activations (.retSlowPath value savedRoots outer.length) c.vs) :
    (c.retSlowPath m value savedRoots outer.length frame).Layered m n := by
  have running : Good m n c.activations (.performed true false) c.vs :=
    good.map (fun _ rel => rel.1) fun _ => trivial
  have fails : ∀ (err : VmError ε) (vs : Vs ν σ), Abandoned c.vs vs →
      Good m n c.activations (.raise err) { vs with tempRoots := savedRoots } :=
    fun _ _ abandoned => running.map
      (fun _ isRunning => .inl (Running.of_eq (Running.after isRunning abandoned) rfl rfl rfl))
      fun _ => trivial
  unfold retSlowPath
  dsimp only
  split
  · exact layered_returnDrained framesEq running
  next call below _ =>
    split
    · exact layered_returnDrained framesEq running
    · split
      · exact layered_signal trivial (fails _ _ (Abandoned_of_eq rfl rfl rfl))
      · split
        next vs stuck =>
          rcases Vs.of_pushAll stuck with ⟨pushed, rfl, -⟩
          refine layered_signal (show Focus.IsError (.raise _) from trivial) (fails _ _ ?_)
          exact ⟨rfl, prefix_append _ _, rfl⟩
        next vs pushes =>
          rcases Vs.of_pushAll pushes with ⟨pushed, rfl, complete, -⟩
          obtain rfl := complete rfl
          refine layered_defer (.returning value savedRoots) trivial high ?_ rfl rfl rfl rfl
          change Good m n c.activations (.retSlowPath value savedRoots (c.vs.frames.length - 1))
            c.vs
          rw [framesEq]
          exact good

theorem layered_runPanicUnwind (good : Good m n c.activations (.raise err) c.vs) :
    (c.runPanicUnwind m err).Layered m n := by
  have unwinds : ∀ (vs : Vs ν σ) (prevPanicking : Bool), SameControl c.vs vs →
      Good m n c.activations (.unwind ⟨err, prevPanicking, false⟩) vs := by
    intro vs prevPanicking same
    refine good.map (fun _ rel => ?_) fun _ recovered => Bool.noConfusion recovered
    exact rel.imp (·.congr same) fun settled => ⟨settled.congr same, rfl⟩
  have cutShort : ∀ vs : Vs ν σ, SameControl c.vs vs →
      Good m n c.activations (.ended (.raised .tooManyConstants)) vs :=
    fun vs same => good.map (fun _ rel => rel.imp (·.congr same) (·.congr same)) id
  unfold runPanicUnwind
  split
  · exact unwinds _ _ ⟨rfl, rfl, rfl, rfl⟩
  · split
    · exact cutShort _ ⟨rfl, rfl, rfl, rfl⟩
    · exact unwinds _ _ ⟨rfl, rfl, rfl, rfl⟩
  · split
    · exact cutShort _ ⟨rfl, rfl, rfl, rfl⟩
    · exact unwinds _ _ ⟨rfl, rfl, rfl, rfl⟩

theorem length_recoveredResults (frame : Frame ν) :
    (m.recoveredResults vs frame).length = frame.callee.recoveredResults := by
  unfold Machine.recoveredResults Machine.namedResults
  split <;> simp

section

variable (framesEq : c.vs.frames = frame :: outer)
include framesEq

theorem layered_afterRecovery {c' : Cfg ν ε σ} (results : List ν)
    (high : n ≤ c.activations.length)
    (running : Good m n c.activations (.performed true false) c.vs)
    (activations : c'.activations = c.activations)
    (target : c'.vs.callDepthTarget = c.vs.callDepthTarget) (frames : c'.vs.frames = outer)
    (stack : c'.vs.stack = c.vs.stack.take (frame.base - 1) ++ results)
    (ip : c'.vs.ip = frame.retIp) : (c'.afterRecovery results).Layered m n := by
  have leaves : ∀ before, Running before c.vs →
      Back before c'.vs results ∨ Running before c'.vs := fun before isRunning =>
    isRunning.leave framesEq results _ target frames stack ip
  unfold afterRecovery
  split
  next reached =>
    change Good m n c'.activations _ c'.vs
    rw [activations]
    refine running.map (fun before isRunning => ?_) id
    rcases leaves before isRunning with back | deeper
    · exact back
    · have above := deeper.frames.length_lt
      rw [deeper.callDepthTarget] at reached
      rw [some.inj reached] at above
      exact absurd above (lt_irrefl _)
  next notReached =>
    change Good m n (.resumed :: c'.activations) .start c'.vs
    rw [activations, good_resumed_iff high]
    refine running.map (fun before isRunning => ?_) id
    rcases leaves before isRunning with back | deeper
    · refine absurd ?_ notReached
      rw [target, isRunning.callDepthTarget, back.frames]
    · exact .inl deeper

variable {state : Unwinding ε}

theorem layered_recoverFrame (high : n ≤ c.activations.length)
    (running : Good m n c.activations (.performed true false) c.vs) :
    (c.recoverFrame m state frame outer.length).Layered m n := by
  have frames := frames_leave framesEq
  unfold recoverFrame
  dsimp only
  split
  next vs pushes =>
    rcases Vs.of_pushAll pushes with ⟨pushed, rfl, complete, -⟩
    obtain rfl := complete rfl
    exact layered_afterRecovery framesEq _ high running rfl rfl frames rfl rfl
  next vs stuck =>
    rcases Vs.of_pushAll stuck with ⟨pushed, rfl, -, fewer⟩
    split
    next single =>
      have none_ : pushed = [] := by
        have short := fewer rfl
        rw [length_recoveredResults, Func.recoveredResults, if_pos single] at short
        exact eq_nil_of_length_eq_zero (lt_one_iff.mp short)
      subst none_
      exact layered_afterRecovery framesEq [] high running rfl rfl frames rfl rfl
    next several =>
      exact running.map (fun _ isRunning => running_or_settled_leave framesEq isRunning pushed) id

theorem layered_unwindDrained (high : n ≤ c.activations.length)
    (running : Good m n c.activations (.performed true false) c.vs) :
    (c.unwindDrained m state frame outer.length).Layered m n := by
  unfold unwindDrained
  split
  · exact layered_recoverFrame framesEq high running
  next unrecovered =>
    have isFalse : state.frameRecovered = false := Bool.eq_false_iff.mpr unrecovered
    refine running.map (fun before isRunning => ?_) fun _ recovered => absurd recovered unrecovered
    have left := running_or_settled_leave framesEq isRunning []
    simp only [append_nil] at left
    exact left.imp_right (⟨·, isFalse⟩)

end

theorem layered_unwind (high : n ≤ c.activations.length)
    (good : Good m n c.activations (.unwind state) c.vs) : (c.unwind m state).Layered m n := by
  have ends : (c.endUnwind state).Layered m n := by
    refine good.map (fun before rel => ?_) fun _ => trivial
    rcases rel with running | ⟨settled, -⟩
    · exact .inl (running.of_eq rfl rfl rfl)
    · exact .inr (settled.of_eq rfl rfl rfl)
  unfold unwind
  split
  · exact ends
  next frame outer framesEq =>
    split
    · exact ends
    next above =>
      have deeper : c.vs.callDepthTarget.getD 0 < c.vs.frames.length := by
        rw [framesEq, length_cons]
        omega
      have running : Good m n c.activations (.performed true false) c.vs :=
        running_of_unwind deeper good (Abandoned_of_eq rfl rfl rfl)
      split
      · exact layered_unwindDrained framesEq high running
      next call below _ =>
        split
        · exact layered_unwindDrained framesEq high running
        · dsimp only
          split
          next vs stuck =>
            rcases Vs.of_pushAll stuck with ⟨pushed, rfl, -, -⟩
            apply layered_afterDeferred
            · exact running.map (fun _ isRunning => ⟨isRunning.callDepthTarget,
                isRunning.stack.trans (prefix_append _ _), isRunning.frames⟩) id
            · exact deeper
          next vs pushes =>
            rcases Vs.of_pushAll pushes with ⟨pushed, rfl, complete, -⟩
            obtain rfl := complete rfl
            exact layered_defer (.unwinding state) deeper high good rfl rfl rfl rfl

theorem frames_of_good {activations : List (Activation ν ε σ)} {fi : ℕ}
    (good : Good m n activations (.retSlowPath value savedRoots fi) vs) :
    vs.frames.length = fi + 1 := by
  induction activations with
  | nil => exact good
  | cons activation rest ih =>
    rw [Good, layers_cons_iff] at good
    split at good
    · exact good
    · cases activation with
      | resumed => exact ih good
      | waits waiting before => exact good.1.2.2

/-- An instruction is executed. -/
def Executes (m : Machine ν ε σ) (c : Cfg ν ε σ) : Prop :=
  c.focus = .loop ∧ ∃ fetched, m.fetch c.vs = .ok fetched

/-- `callValue` runs the loop for a callee that has been completed without a frame. -/
def Unframed (m : Machine ν ε σ) (c : Cfg ν ε σ) : Prop :=
  ∃ callback before rest, c.focus = .performed false false ∧
    c.activations = .waits (.callback callback) before :: rest ∧
    ¬m.Refuses { c.vs with callDepthTarget := some before.frames.length }

/-- How a loop ends when its last frame has been left. -/
def Proper (vs : Vs ν σ) : Ended ν ε → Prop
  | .returned results => results ≠ []
  | .raised _ => vs.callDepthTarget = some vs.frames.length
  | _ => False

/-- A loop that something waits for ends before its last frame has been left. -/
def EndsEarly (c : Cfg ν ε σ) : Prop :=
  ∃ how waiting before rest, c.focus = .ended how ∧
    c.activations = .waits waiting before :: rest ∧ ¬Proper c.vs how

theorem layered_step {c' : Cfg ν ε σ} (high : n < c.activations.length ∨ n = 0)
    (good : c.Layered m n) (framed : ¬c.Unframed m) (complete : ¬c.EndsEarly)
    (stepped : c.step m = some c') : c'.Layered m n := by
  have high' : n ≤ c.activations.length := by
    rcases high with above | isZero
    · exact above.le
    · exact isZero ▸ zero_le _
  have above : ∀ {activation rest}, c.activations = activation :: rest → n ≤ rest.length := by
    intro activation rest activations
    rw [activations, length_cons] at high
    omega
  unfold Layered at good
  cases stepped_of_step stepped with
  | refused focusEq _ | lost focusEq _ =>
    rw [focusEq] at good
    exact layered_signal (show Focus.IsError (.raise _) from trivial)
      (good.map (fun _ => Or.imp id And.left) id)
  | entered focusEq entry =>
    rw [focusEq] at good
    refine good.map (fun _ => Or.imp id fun settled => ⟨settled.1, ?_⟩) id
    exact settled.2.resolve_left (by simp [entry])
  | fetched focusEq fetch =>
    rw [focusEq] at good
    refine good.map (fun before rel => ?_) id
    rcases rel with running | ⟨-, refused⟩
    · exact ⟨running.of_eq rfl rfl rfl, running.frameBase.le⟩
    · exact absurd fetch (refused _)
  | work focusEq => exact layered_workOn high' (focusEq ▸ good)
  | callValue focusEq => exact layered_callValue (focusEq ▸ good)
  | performCall focusEq => exact layered_performCall (focusEq ▸ good)
  | afterInstr focusEq =>
    rw [focusEq] at good
    exact layered_afterInstr (good.map (fun _ => id) id)
  | @afterCall _ _ before rest focusEq activations =>
    rw [focusEq] at good
    refine layered_afterCall activations (above activations) ?_ good
    rintro callback rfl rfl
    by_contra goesOn
    exact framed ⟨callback, before, rest, focusEq, activations, goesOn⟩
  | @failed _ _ before _ focusEq activations =>
    rw [activations, focusEq] at good
    have top := good.top (above activations)
    refine layered_fail top.1 ?_ (show Abandoned before c.pop.vs from top.2.1)
    exact activations_pop activations ▸ top.2.2
  | suspended focusEq | yielded focusEq =>
    rw [focusEq] at good
    exact good.map (fun _ _ => trivial) id
  | panics focusEq _ _ => exact layered_runPanicUnwind (focusEq ▸ good)
  | @returned _ _ frame outer focusEq dropped =>
    rw [focusEq] at good
    have whole : c.vs.frames.length = outer.length + 1 → c.vs.frames = frame :: outer := by
      intro length
      rw [length, Nat.sub_self] at dropped
      exact dropped
    have framesEq : c.vs.frames = frame :: outer := whole (frames_of_good good)
    exact layered_retSlowPath framesEq high' good
  | unwound focusEq => exact layered_unwind high' (focusEq ▸ good)
  | resumed focusEq activations =>
    rw [activations, good_resumed_iff (above activations)] at good
    rw [← activations_pop activations] at good
    exact good
  | @cameBack how waiting before rest focusEq activations =>
    rw [focusEq] at good
    have proper : Proper c.vs how := by
      by_contra improper
      exact complete ⟨how, waiting, before, rest, focusEq, activations, improper⟩
    rw [activations] at good
    have top := good.top (above activations)
    have below : Good m n ((c.withVs
        { c.vs with callDepthTarget := before.callDepthTarget }).pop).activations
        (waiting.focus before.frames.length) before :=
      activations_pop activations ▸ top.2.2
    cases how with
    | returned results =>
      have back : Back before c.vs results := top.2.1
      have longer : c.vs.stack.dropLast = before.stack ++ results.dropLast := by
        rw [back.stack, dropLast_append_of_ne_nil proper]
      apply layered_succeed top.1 below
      · refine ⟨⟨rfl, ?_, back.frames⟩, back.ip⟩
        change before.stack <+: c.vs.stack.dropLast
        rw [longer]
        exact prefix_append _ _
      · intro empty
        change c.vs.stack = [] at empty
        rw [back.stack] at empty
        exact proper (append_eq_nil_iff.mp empty).2
    | raised err =>
      refine layered_fail top.1 below ⟨rfl, ?_, ?_⟩
      · exact top.2.1.elim (·.stack) (·.stack)
      · rcases top.2.1 with running | settled
        · have deeper := running.frames.length_lt
          have same := running.callDepthTarget.symm.trans proper
          rw [← some.inj same] at deeper
          exact absurd deeper (lt_irrefl _)
        · exact settled.frames
    | halted | yielded | suspended => exact proper.elim

end Cfg

end Gengo.Reentry
