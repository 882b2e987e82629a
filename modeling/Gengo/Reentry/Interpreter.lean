import Gengo.Engines.Calls

/-!
# The interpreter and the calls that re-enter it

Natives, deferred calls and predicates call functions while an instruction goes on: they start
an interpreter loop inside the one that runs. A configuration keeps, beside the state of the
virtual machine, the activations that wait for such loops. What an instruction or a native does
in between is a parameter; calls, returns, panics and deferred calls are the source's.
-/

namespace Gengo.Reentry

open Engines (Func)

universe u v w x

/-- The errors of calls and returns themselves, and all others. -/
inductive VmError (ε : Type u)
  | executionSuspended
  | taskYield
  | arityMismatch
  | notAFunction
  | stackUnderflow
  | stackOverflow
  | callStackOverflow
  | deferStackOverflow
  | badTempRootDiscipline
  | impossibleOpcodeState
  | tooManyConstants
  | other (err : ε)
  deriving DecidableEq

structure Frame (ν : Type v) where
  retIp : ℕ
  base : ℕ
  callee : Func ν
  deferBase : ℕ

/-- A registered call: an entry of the defer stack. -/
structure Call (ν : Type v) where
  callee : ν
  args : List ν

/-- The execution state of a task: the stack from its bottom, and the innermost frame and the
latest deferred call first. -/
structure Vs (ν : Type v) (σ : Type w) where
  stack : List ν
  stackLen : ℕ
  frames : List (Frame ν)
  framesLen : ℕ
  deferStack : List (Call ν)
  deferLen : ℕ
  ip : ℕ
  /-- The number of frames at which the loop stops; none at the outermost loop. -/
  callDepthTarget : Option ℕ
  /-- The number of temp roots. -/
  tempRoots : ℕ
  isPanicking : Bool
  recovered : Bool
  panicValue : ν
  pendingPanicValue : Option ν
  pendingPanicMessage : Option String
  /-- A sleep has been requested. -/
  sleeping : Bool
  /-- The heap, the globals and everything else. -/
  rest : σ

/-- What a failure leaves for the panic that it starts. -/
inductive Payload (ν : Type v)
  | none
  | value (v : ν)
  | message (text : String)

/-- Work of the interpreter between two calls: it ends with a result, it fails and leaves some
temp roots, it asks for the panic that goes on, or it has a function called. Before a call it
leaves its part of the stack and holds some temp roots; a failing call fails the work. -/
inductive Prog (ν : Type v) (ε : Type u) (σ : Type w) (α : Type x)
  | finish (result : α) (rest : σ) (sleeps : Bool)
  | fail (err : VmError ε) (payload : Payload ν) (rest : σ) (leaked : ℕ)
  | recover (resume : ν → Prog ν ε σ α)
  | callback (region : List ν) (rest : σ) (held leaked : ℕ) (call : Call ν)
      (resume : ν → Vs ν σ → Prog ν ε σ α)

/-- What an instruction comes to. The region is the part of the stack that it leaves above the
base of its frame. -/
inductive Outcome (ν : Type v)
  | next (region : List ν) (ip : ℕ)
  | call (region : List ν) (call : Call ν)
  /-- `tryTailCall` reuses the frame. -/
  | tailCall (f : Func ν) (args : Fin f.arity → ν)
  | defer (region : List ν) (call : Call ν)
  /-- `ret`, or one of the instructions that return with a value of their own. -/
  | ret (value : ν) (fused : Bool)
  | halt
  /-- `task_receive` finds no message, and will be executed again. -/
  | yield (region : List ν) (ip : ℕ)

/-- What `performCall` makes of a value: a function or closure, whose frame it pushes, or a
callee that it completes itself. -/
inductive Callable (ν : Type v) (ε : Type u) (σ : Type w)
  | function (f : Func ν)
  | builtin (run : ℕ → Vs ν σ → Prog ν ε σ ν)

/-- What is known of a program and of the parts of the interpreter that are not modelled. -/
structure Machine (ν : Type v) (ε : Type u) (σ : Type w) where
  null : ν
  maxTempRoots : ℕ
  errorName : VmError ε → String
  /-- The error value of an interned text. -/
  errorValue : String → ν
  internStr : σ → String → Option σ
  unboxCell : σ → ν → ν
  isIntegrityError : VmError ε → Bool
  callable : σ → ν → Option (Callable ν ε σ)
  /-- The verifier and the bound of the top-level code, in `runUntilSuspend`. -/
  entryError : Vs ν σ → Option (VmError ε × Payload ν)
  /-- The budget and `fetchOp`; an instruction with the position behind its operands. -/
  fetch : Vs ν σ → Except (VmError ε × Payload ν) (ℕ × Prog ν ε σ (Outcome ν))
  /-- `enforceFuncArgTypes` and `prepareVariadicCall`. -/
  check : (f : Func ν) → ℕ → Vs ν σ → Prog ν ε σ (Fin f.arity → ν)
  /-- `canReturnFast`, as far as the types go. -/
  returnsFast : Vs ν σ → ν → Bool
  /-- `enforceFuncReturnTypes`. -/
  accept : Frame ν → ν → Vs ν σ → Prog ν ε σ Unit

/-- How an interpreter loop ends. -/
inductive Ended (ν : Type v) (ε : Type u)
  /-- The frame above the call depth target has been left with these results. -/
  | returned (results : List ν)
  | halted
  | yielded
  | suspended
  | raised (err : VmError ε)

/-- The local state of `runPanicUnwind`. -/
structure Unwinding (ε : Type u) where
  currentErr : VmError ε
  prevPanicking : Bool
  frameRecovered : Bool

/-- The work in progress. A call is performed in the loop by an instruction, or else for the
innermost activation. -/
inductive Work (ν : Type v) (ε : Type u) (σ : Type w)
  | instr (prog : Prog ν ε σ (Outcome ν))
  | checking (inLoop : Bool) (f : Func ν) (prog : Prog ν ε σ (Fin f.arity → ν))
  | builtin (inLoop : Bool) (prog : Prog ν ε σ ν)
  /-- `retSlowPath` after it has popped the frame. -/
  | accepting (frame : Frame ν) (value : ν) (savedRoots : ℕ) (prog : Prog ν ε σ Unit)

/-- A piece of work without what it is going to do. -/
inductive Skeleton (ν : Type v)
  | instr
  | checking (inLoop : Bool)
  | builtin (inLoop : Bool)
  | accepting (frame : Frame ν) (savedRoots : ℕ)

def Work.skeleton {ν : Type v} {ε : Type u} {σ : Type w} : Work ν ε σ → Skeleton ν
  | .instr _ => .instr
  | .checking inLoop _ _ => .checking inLoop
  | .builtin inLoop _ => .builtin inLoop
  | .accepting frame _ savedRoots _ => .accepting frame savedRoots

/-- Work that waits for a function it has called, and goes on as work of the same kind. -/
structure Callback (ν : Type v) (ε : Type u) (σ : Type w) where
  floor : ℕ
  held : ℕ
  leaked : ℕ
  work : Work ν ε σ
  resume : ν → Vs ν σ → Work ν ε σ
  skeleton_resume : ∀ result vs, (resume result vs).skeleton = work.skeleton

/-- What waits for an interpreter loop. -/
inductive Waiting (ν : Type v) (ε : Type u) (σ : Type w)
  /-- `retSlowPath`, for a deferred call. -/
  | returning (value : ν) (savedRoots : ℕ)
  /-- `runPanicUnwind`, for a deferred call. -/
  | unwinding (state : Unwinding ε)
  /-- `callValue`. -/
  | callback (callback : Callback ν ε σ)

/-- What lies below the loop or the call that goes on. -/
inductive Activation (ν : Type v) (ε : Type u) (σ : Type w)
  /-- With the state before the call; the source keeps its number of frames, `depth_before`,
  and its call depth target, `prev_target`. -/
  | waits (waiting : Waiting ν ε σ) (before : Vs ν σ)
  /-- `runPanicUnwind` runs the caller of a frame that recovered. -/
  | resumed

/-- What happens next. -/
inductive Focus (ν : Type v) (ε : Type u) (σ : Type w)
  /-- `run` starts. -/
  | start
  /-- The loop fetches an instruction. -/
  | loop
  | work (floor held : ℕ) (work : Work ν ε σ)
  | callValue (call : Call ν)
  | performCall (inLoop : Bool) (argc : ℕ)
  /-- A call has been performed, with a frame for it or without. -/
  | performed (inLoop framePushed : Bool)
  /-- A call for the innermost activation fails. -/
  | failed (err : VmError ε)
  /-- An error leaves the loop. -/
  | raise (err : VmError ε)
  /-- The deferred calls of a return. -/
  | retSlowPath (value : ν) (savedRoots fi : ℕ)
  | unwind (state : Unwinding ε)
  /-- The loop has ended. -/
  | ended (how : Ended ν ε)

/-- What is recorded of an execution. -/
inductive Event (ν : Type v)
  /-- An instruction is executed above this many frames. -/
  | instruction (depth : ℕ)
  | entered
  | left
  | registered (call : Call ν)
  /-- A registered call is executed. -/
  | deferred (call : Call ν)
  /-- It has come back. -/
  | completed
  /-- It has failed. -/
  | abandoned
  /-- A panic is raised with a value. -/
  | panicked (value : ν)
  /-- `recover()` returns a value. -/
  | recovered (value : ν)

structure Cfg (ν : Type v) (ε : Type u) (σ : Type w) where
  vs : Vs ν σ
  activations : List (Activation ν ε σ)
  focus : Focus ν ε σ
  /-- The latest event first. -/
  trace : List (Event ν)

variable {ν : Type v} {ε : Type u} {σ : Type w} {α : Type x}

namespace Vs

variable (vs : Vs ν σ)

/-- Push values one after the other, and whether all found room. -/
def pushAll (vs : Vs ν σ) : List ν → Bool × Vs ν σ
  | [] => (true, vs)
  | v :: rest =>
    if vs.stack.length < vs.stackLen then
      pushAll { vs with stack := vs.stack ++ [v] } rest
    else (false, vs)

/-- The base of the innermost frame. -/
def frameBase : ℕ :=
  (vs.frames.head?.map Frame.base).getD 0

/-- The stack above a floor is replaced. -/
def restack (floor : ℕ) (region : List ν) : Vs ν σ :=
  { vs with stack := vs.stack.take floor ++ region }

/-- The stack and the instruction pointer after a frame. -/
def dropFrame (frame : Frame ν) : Vs ν σ :=
  { vs with stack := vs.stack.take (frame.base - 1), ip := frame.retIp }

def setPending : Payload ν → Vs ν σ
  | .none => vs
  | .value v => { vs with pendingPanicValue := some v }
  | .message text => { vs with pendingPanicMessage := some text }

end Vs

/-- An error of the virtual machine, not a request of the task to stop. -/
def VmError.isPanic : VmError ε → Bool
  | .executionSuspended | .taskYield => false
  | _ => true

namespace Machine

variable (m : Machine ν ε σ)

/-- The value of a panic without a payload of its own. -/
def nameValue (err : VmError ε) : ν :=
  m.errorValue (m.errorName err)

/-- The value that a panic is raised with. -/
def payloadValue (err : VmError ε) : Payload ν → ν
  | .none => m.nameValue err
  | .value v => v
  | .message text => m.errorValue text

/-- The named results of a frame. -/
def namedResults (vs : Vs ν σ) (frame : Frame ν) (count : ℕ) : List ν :=
  (List.range count).map fun i =>
    m.unboxCell vs.rest (vs.stack.getD (frame.base + frame.callee.arity + i) m.null)

/-- What a frame that recovered returns. -/
def recoveredResults (vs : Vs ν σ) (frame : Frame ν) : List ν :=
  if 0 < frame.callee.namedReturnCount then
    m.namedResults vs frame frame.callee.recoveredResults
  else List.replicate frame.callee.recoveredResults m.null

end Machine

namespace Cfg

variable (m : Machine ν ε σ) (c : Cfg ν ε σ)

def emit (event : Event ν) : Cfg ν ε σ :=
  { c with trace := event :: c.trace }

def withVs (vs : Vs ν σ) : Cfg ν ε σ :=
  { c with vs := vs }

def focusOn (focus : Focus ν ε σ) : Cfg ν ε σ :=
  { c with focus := focus }

/-- The innermost activation ends. -/
def pop : Cfg ν ε σ :=
  { c with activations := c.activations.tail }

/-- Something waits for a call. -/
def push (waiting : Waiting ν ε σ) : Cfg ν ε σ :=
  { c with activations := .waits waiting c.vs :: c.activations }

/-- Work calls a function through `callFunction`. -/
def beginCall (callback : Callback ν ε σ) (call : Call ν) (c : Cfg ν ε σ) : Cfg ν ε σ :=
  (c.push (.callback callback)).focusOn (.callValue call)

/-- An error is raised. -/
def signal (err : VmError ε) (payload : Payload ν) (focus : Focus ν ε σ) : Cfg ν ε σ :=
  let next := (c.withVs (c.vs.setPending payload)).focusOn focus
  if err.isPanic then next.emit (.panicked (m.payloadValue err payload)) else next

/-- Where an error of a call goes. -/
def errorFocus (inLoop : Bool) (err : VmError ε) : Focus ν ε σ :=
  if inLoop then .raise err else .failed err

/-- The loop goes on, unless the instruction has requested a sleep. -/
def afterInstr : Cfg ν ε σ :=
  c.focusOn (if c.vs.sleeping then .ended .suspended else .loop)

/-- A frame has been left with results on the stack. -/
def afterReturn (results : List ν) : Cfg ν ε σ :=
  if some c.vs.frames.length = c.vs.callDepthTarget then c.focusOn (.ended (.returned results))
  else c.afterInstr

/-- The frames are cut to a number, and the innermost of those dropped is left. -/
def leave (frame : Frame ν) (depth : ℕ) : Cfg ν ε σ :=
  (c.withVs
    { c.vs.dropFrame frame with frames := c.vs.frames.drop (c.vs.frames.length - depth) }).emit
    .left

/-- The return of several named results. -/
def spread (frame : Frame ν) (depth : ℕ) : Cfg ν ε σ :=
  let count := min frame.callee.namedReturnCount 64
  if c.vs.stackLen < frame.base + frame.callee.arity + count then
    c.signal m .stackOverflow .none (.raise .stackOverflow)
  else
    let results := m.namedResults c.vs frame count
    let left := c.leave frame depth
    match left.vs.pushAll results with
    | (true, vs) => (left.withVs vs).afterReturn results
    | (false, vs) => (left.withVs vs).signal m .stackOverflow .none (.raise .stackOverflow)

/-- `doReturn`, and the first part of `retSlowPath`. -/
def doReturn (value : ν) (fused : Bool) : Cfg ν ε σ :=
  match c.vs.frames with
  | [] => c.signal m .impossibleOpcodeState .none (.raise .impossibleOpcodeState)
  | frame :: outer =>
    if fused = false ∧ 2 ≤ frame.callee.namedReturnCount ∧
        c.vs.deferStack.length = frame.deferBase then
      c.spread m frame outer.length
    else if c.vs.deferStack.length = frame.deferBase ∧ m.returnsFast c.vs value = true then
      let left := c.leave frame outer.length
      (left.withVs { left.vs with stack := left.vs.stack ++ [value] }).afterReturn [value]
    else if m.maxTempRoots ≤ c.vs.tempRoots then
      c.signal m .badTempRootDiscipline .none (.raise .badTempRootDiscipline)
    else
      (c.withVs { c.vs with tempRoots := c.vs.tempRoots + 1 }).focusOn
        (.retSlowPath value c.vs.tempRoots outer.length)

/-- An instruction has come to its outcome. -/
def execute (floor : ℕ) : Outcome ν → Cfg ν ε σ
  | .next region ip => (c.withVs { c.vs.restack floor region with ip := ip }).afterInstr
  | .call region call =>
    (c.withVs (c.vs.restack floor (region ++ call.callee :: call.args))).focusOn
      (.performCall true call.args.length)
  | .tailCall f args =>
    match c.vs.frames with
    | [] => c.signal m .impossibleOpcodeState .none (.raise .impossibleOpcodeState)
    | frame :: outer =>
      let reused := c.withVs { c.vs.restack frame.base (List.ofFn args) with
          frames := { frame with callee := f } :: outer }
      if c.vs.stackLen < reused.vs.stack.length + f.maxStack then
        reused.signal m .stackOverflow .none (.raise .stackOverflow)
      else (reused.withVs { reused.vs with ip := f.ip }).afterInstr
  | .defer region call =>
    if c.vs.deferLen ≤ c.vs.deferStack.length then
      c.signal m .deferStackOverflow .none (.raise .deferStackOverflow)
    else
      ((c.withVs { c.vs.restack floor region with
        deferStack := call :: c.vs.deferStack }).emit (.registered call)).afterInstr
  | .ret value fused => c.doReturn m value fused
  | .halt => c.focusOn (.ended .halted)
  | .yield region ip =>
    (c.withVs { c.vs.restack floor region with ip := ip }).focusOn (.ended .yielded)

/-- The work has a result, and no temp roots are left. -/
def finished (held : ℕ) (rest : σ) (sleeps : Bool) : Cfg ν ε σ :=
  c.withVs { c.vs with
    rest := rest, sleeping := c.vs.sleeping || sleeps, tempRoots := c.vs.tempRoots - held }

/-- A call that the work has asked for fails the work. -/
def failWork (held leaked : ℕ) (work : Work ν ε σ) (err : VmError ε) : Cfg ν ε σ :=
  let released := { c.vs with tempRoots := c.vs.tempRoots - held + leaked }
  match work with
  | .instr _ => (c.withVs released).focusOn (.raise err)
  | .checking inLoop _ _ | .builtin inLoop _ => (c.withVs released).focusOn (errorFocus inLoop err)
  | .accepting _ _ savedRoots _ =>
    (c.withVs { c.vs with tempRoots := savedRoots }).focusOn (.raise err)

/-- One step of a piece of work. -/
def advance (floor held : ℕ) (prog : Prog ν ε σ α) (wrap : Prog ν ε σ α → Work ν ε σ)
    (same : ∀ first second, (wrap first).skeleton = (wrap second).skeleton)
    (done : Cfg ν ε σ → α → Cfg ν ε σ) : Cfg ν ε σ :=
  match prog with
  | .finish result rest sleeps => done (c.finished held rest sleeps) result
  | .fail err payload rest leaked =>
    let failed := (c.withVs { c.vs with rest := rest }).failWork held leaked (wrap prog) err
    failed.signal m err payload failed.focus
  | .recover resume =>
    if c.vs.isPanicking = true ∧ c.vs.recovered = false then
      ((c.withVs { c.vs with recovered := true }).emit (.recovered c.vs.panicValue)).focusOn
        (.work floor held (wrap (resume c.vs.panicValue)))
    else
      (c.emit (.recovered m.null)).focusOn (.work floor held (wrap (resume m.null)))
  | .callback region rest held' leaked call resume =>
    ((c.withVs { c.vs.restack floor region with
      rest := rest, tempRoots := c.vs.tempRoots - held + held' }).push
        (.callback ⟨floor, held', leaked, wrap prog, fun v vs => wrap (resume v vs),
          fun _ _ => same _ _⟩)).focusOn (.callValue call)

/-- The last part of `enterFunctionFrame`. -/
def pushFrame (inLoop : Bool) (f : Func ν) : Cfg ν ε σ :=
  if c.vs.framesLen ≤ c.vs.frames.length then
    c.signal m .callStackOverflow .none (errorFocus inLoop .callStackOverflow)
  else if c.vs.stackLen < c.vs.stack.length + f.maxStack then
    c.signal m .stackOverflow .none (errorFocus inLoop .stackOverflow)
  else
    ((c.withVs { c.vs with
      frames := ⟨c.vs.ip, c.vs.stack.length - f.arity, f, c.vs.deferStack.length⟩ :: c.vs.frames
      ip := f.ip }).emit .entered).focusOn (.performed inLoop true)

/-- The innermost work goes on. -/
def workOn (floor held : ℕ) : Work ν ε σ → Cfg ν ε σ
  | .instr prog =>
    c.advance m floor held prog .instr (fun _ _ => rfl) fun c outcome =>
      c.execute m floor outcome
  | .checking inLoop f prog =>
    c.advance m floor held prog (.checking inLoop f) (fun _ _ => rfl) fun c args =>
      (c.withVs (c.vs.restack floor (List.ofFn args))).pushFrame m inLoop f
  | .builtin inLoop prog =>
    c.advance m floor held prog (.builtin inLoop) (fun _ _ => rfl) fun c result =>
      (c.withVs (c.vs.restack floor [result])).focusOn (.performed inLoop false)
  | .accepting frame value savedRoots prog =>
    c.advance m floor held prog (.accepting frame value savedRoots) (fun _ _ => rfl) fun c _ =>
      (c.withVs { c.vs.dropFrame frame with
        stack := c.vs.stack.take (frame.base - 1) ++ [value]
        tempRoots := savedRoots }).afterReturn [value]

/-- `performCall`, and the first part of `enterFunctionFrame`. -/
def performCall (inLoop : Bool) (argc : ℕ) : Cfg ν ε σ :=
  let fails := fun (c : Cfg ν ε σ) err => c.signal m err .none (errorFocus inLoop err)
  if c.vs.stack.length < argc + 1 then fails c .stackUnderflow
  else
    let floor := c.vs.stack.length - argc - 1
    match m.callable c.vs.rest (c.vs.stack.getD floor m.null) with
    | none => fails c .notAFunction
    | some (.builtin run) => c.focusOn (.work floor 0 (.builtin inLoop (run argc c.vs)))
    | some (.function f) =>
      match Engines.Vs.missing f argc with
      | none => fails c .arityMismatch
      | some defaults =>
        match c.vs.pushAll defaults with
        | (false, vs) => fails (c.withVs vs) .stackOverflow
        | (true, vs) =>
          (c.withVs vs).focusOn (.work (floor + 1) 0
            (.checking inLoop f (m.check f (argc + defaults.length) vs)))

/-- The first part of `callValue`. -/
def callValue (call : Call ν) : Cfg ν ε σ :=
  if 255 < call.args.length then
    c.signal m .arityMismatch .none (.failed .arityMismatch)
  else
    match c.vs.pushAll (call.callee :: call.args) with
    | (false, vs) => (c.withVs vs).signal m .stackOverflow .none (.failed .stackOverflow)
    | (true, vs) => (c.withVs vs).focusOn (.performCall false call.args.length)

/-- The unwinder after a deferred call: a new panic supersedes the current one unless it was
recovered, and a recovery ends the panic. -/
def afterDeferred (state : Unwinding ε) (failure : Option (VmError ε)) : Cfg ν ε σ :=
  let goOn := fun (c : Cfg ν ε σ) (state : Unwinding ε) =>
    if c.vs.recovered then
      (c.withVs { c.vs with recovered := false, isPanicking := false }).focusOn
        (.unwind { state with frameRecovered := true })
    else c.focusOn (.unwind state)
  match failure with
  | none => goOn c state
  | some newErr =>
    if c.vs.recovered then goOn c state
    else
      match m.internStr c.vs.rest (m.errorName newErr) with
      | none => c.focusOn (.ended (.raised .tooManyConstants))
      | some rest =>
        goOn (c.withVs { c.vs with
            rest := rest, panicValue := m.nameValue newErr, isPanicking := true })
          { state with currentErr := newErr, frameRecovered := false }

/-- The last part of `callValue`. -/
def resume (callback : Callback ν ε σ) : Cfg ν ε σ :=
  match c.vs.stack.getLast? with
  | none =>
    let failed := c.failWork callback.held callback.leaked callback.work .stackUnderflow
    failed.signal m .stackUnderflow .none failed.focus
  | some result =>
    let popped := c.withVs { c.vs with stack := c.vs.stack.dropLast }
    popped.focusOn (.work callback.floor callback.held (callback.resume result popped.vs))

/-- What waited for a loop or a call goes on after its success. -/
def succeed (waiting : Waiting ν ε σ) (depthBefore : ℕ) : Cfg ν ε σ :=
  let completed := c.emit .completed
  match waiting with
  | .returning value savedRoots =>
    match c.vs.stack with
    | [] =>
      (completed.withVs { c.vs with tempRoots := savedRoots }).signal m .stackUnderflow .none
        (.raise .stackUnderflow)
    | _ :: _ =>
      (completed.withVs { c.vs with
        stack := c.vs.stack.dropLast, tempRoots := c.vs.tempRoots - 1 }).focusOn
        (.retSlowPath value savedRoots (depthBefore - 1))
  | .unwinding state =>
    (completed.withVs { c.vs with stack := c.vs.stack.dropLast }).afterDeferred m state none
  | .callback callback => c.resume m callback

/-- What waited for a loop or a call goes on after its failure. -/
def fail (waiting : Waiting ν ε σ) (err : VmError ε) : Cfg ν ε σ :=
  match waiting with
  | .returning _ savedRoots =>
    ((c.emit .abandoned).withVs { c.vs with tempRoots := savedRoots }).focusOn (.raise err)
  | .unwinding state => (c.emit .abandoned).afterDeferred m state (some err)
  | .callback callback => c.failWork callback.held callback.leaked callback.work err

/-- A call has been performed for the innermost activation: its frame is run, and `callValue`
runs the loop without a frame as well. -/
def afterCall (waiting : Waiting ν ε σ) (depthBefore : ℕ) (framePushed : Bool) : Cfg ν ε σ :=
  let runs := (c.withVs { c.vs with callDepthTarget := some depthBefore }).focusOn .start
  match waiting with
  | .callback _ => runs
  | _ => if framePushed then runs else c.pop.succeed m waiting depthBefore

/-- The last part of `retSlowPath`, behind the deferred calls. -/
def returnDrained (value : ν) (savedRoots fi : ℕ) (frame : Frame ν) : Cfg ν ε σ :=
  let named := frame.callee.namedReturnCount
  if 2 ≤ named then (c.withVs { c.vs with tempRoots := savedRoots }).spread m frame fi
  else if named = 1 ∧ c.vs.stackLen ≤ frame.base + frame.callee.arity then
    (c.withVs { c.vs with tempRoots := savedRoots }).signal m .stackOverflow .none
      (.raise .stackOverflow)
  else
    let value := if named = 1 then (m.namedResults c.vs frame 1).getD 0 m.null else value
    let popped := (c.withVs { c.vs with
      frames := c.vs.frames.drop (c.vs.frames.length - fi)
      tempRoots := c.vs.tempRoots - 1 }).emit .left
    popped.focusOn (.work c.vs.stack.length 0
      (.accepting frame value savedRoots (m.accept frame value popped.vs)))

/-- The loop of `retSlowPath` over the deferred calls of a frame. -/
def retSlowPath (value : ν) (savedRoots fi : ℕ) (frame : Frame ν) : Cfg ν ε σ :=
  let fails := fun (c : Cfg ν ε σ) err =>
    (c.withVs { c.vs with tempRoots := savedRoots }).signal m err .none (.raise err)
  match c.vs.deferStack with
  | [] => c.returnDrained m value savedRoots fi frame
  | call :: below =>
    if below.length < frame.deferBase then c.returnDrained m value savedRoots fi frame
    else
      let taken := c.withVs { c.vs with deferStack := below }
      if m.maxTempRoots ≤ c.vs.tempRoots then fails taken .badTempRootDiscipline
      else
        match taken.vs.pushAll (call.callee :: call.args) with
        | (false, vs) => fails (c.withVs vs) .stackOverflow
        | (true, vs) =>
          let performing := (c.push (.returning value savedRoots)).withVs
            { vs with tempRoots := vs.tempRoots + 1 }
          (performing.emit (.deferred call)).focusOn (.performCall false call.args.length)

/-- The first part of `runPanicUnwind`. -/
def runPanicUnwind (err : VmError ε) : Cfg ν ε σ :=
  let panicking := { c.vs with recovered := false, isPanicking := true }
  let unwinds := fun (vs : Vs ν σ) =>
    (c.withVs vs).focusOn (.unwind ⟨err, c.vs.isPanicking, false⟩)
  match c.vs.pendingPanicValue, c.vs.pendingPanicMessage with
  | some value, _ => unwinds { panicking with panicValue := value, pendingPanicValue := none }
  | none, some text =>
    match m.internStr c.vs.rest text with
    | none => (c.withVs panicking).focusOn (.ended (.raised .tooManyConstants))
    | some rest =>
      unwinds { panicking with
        rest := rest, panicValue := m.errorValue text, pendingPanicMessage := none }
  | none, none =>
    match m.internStr c.vs.rest (m.errorName err) with
    | none => (c.withVs panicking).focusOn (.ended (.raised .tooManyConstants))
    | some rest => unwinds { panicking with rest := rest, panicValue := m.nameValue err }

/-- A frame that recovered has been left: the unwinder runs its caller, unless that is below the
call depth target. -/
def afterRecovery (results : List ν) : Cfg ν ε σ :=
  if some c.vs.frames.length = c.vs.callDepthTarget then c.focusOn (.ended (.returned results))
  else { c with activations := .resumed :: c.activations, focus := .start }

/-- The end of a frame that recovered. -/
def recoverFrame (state : Unwinding ε) (frame : Frame ν) (depth : ℕ) : Cfg ν ε σ :=
  let results := m.recoveredResults c.vs frame
  let left := c.leave frame depth
  let resumes := fun (vs : Vs ν σ) (results : List ν) =>
    (left.withVs { vs with isPanicking := state.prevPanicking }).afterRecovery results
  match left.vs.pushAll results with
  | (true, vs) => resumes vs results
  | (false, vs) =>
    -- a single result without room is dropped
    if frame.callee.returnTypes ≤ 1 then resumes vs []
    else (left.withVs vs).focusOn (.ended (.raised .stackOverflow))

/-- The loop of `runPanicUnwind` has come down to the call depth target. -/
def endUnwind (state : Unwinding ε) : Cfg ν ε σ :=
  (c.withVs { c.vs with isPanicking := state.prevPanicking }).focusOn
    (.ended (.raised state.currentErr))

/-- The unwinder behind the deferred calls of a frame. -/
def unwindDrained (state : Unwinding ε) (frame : Frame ν) (depth : ℕ) : Cfg ν ε σ :=
  if state.frameRecovered then c.recoverFrame m state frame depth
  else (c.leave frame depth).focusOn (.unwind state)

/-- The loops of `runPanicUnwind` over the frames and their deferred calls. -/
def unwind (state : Unwinding ε) : Cfg ν ε σ :=
  match c.vs.frames with
  | [] => c.endUnwind state
  | frame :: outer =>
    if outer.length < c.vs.callDepthTarget.getD 0 then c.endUnwind state
    else
      match c.vs.deferStack with
      | [] => c.unwindDrained m state frame outer.length
      | call :: below =>
        if below.length < frame.deferBase then c.unwindDrained m state frame outer.length
        else
          let taken := c.withVs { c.vs with deferStack := below }
          match taken.vs.pushAll (call.callee :: call.args) with
          | (false, vs) =>
            ((c.withVs vs).emit (.panicked (m.nameValue .stackOverflow))).afterDeferred m
              state (some .stackOverflow)
          | (true, vs) =>
            (((c.push (.unwinding state)).withVs vs).emit (.deferred call)).focusOn
              (.performCall false call.args.length)

/-- What `run` makes of the end of a loop: an error, or not. -/
def endedError : Ended ν ε → Option (VmError ε)
  | .returned _ | .halted | .yielded => none
  | .suspended => some .executionSuspended
  | .raised err => some err

/-- One step; none when the outermost loop has ended, when an integrity failure stops the
process, and where the source would read a frame that is no longer there. -/
def step : Option (Cfg ν ε σ) :=
  match c.focus with
  | .start =>
    match m.entryError c.vs with
    | some (err, payload) => some (c.signal m err payload (.raise err))
    | none => some (c.focusOn .loop)
  | .loop =>
    match m.fetch c.vs with
    | .error (err, payload) => some (c.signal m err payload (.raise err))
    | .ok (ip, prog) =>
      some (((c.withVs { c.vs with ip := ip }).emit
        (.instruction c.vs.frames.length)).focusOn (.work c.vs.frameBase 0 (.instr prog)))
  | .work floor held work => some (c.workOn m floor held work)
  | .callValue call => some (c.callValue m call)
  | .performCall inLoop argc => some (c.performCall m inLoop argc)
  | .performed inLoop framePushed =>
    if inLoop then some c.afterInstr
    else
      match c.activations with
      | .waits waiting before :: _ =>
        some (c.afterCall m waiting before.frames.length framePushed)
      | _ => none
  | .failed err =>
    match c.activations with
    | .waits waiting _ :: _ => some (c.pop.fail m waiting err)
    | _ => none
  | .raise err =>
    match err with
    | .executionSuspended => some (c.focusOn (.ended .suspended))
    | .taskYield => some (c.focusOn (.ended .yielded))
    | err => if m.isIntegrityError err then none else some (c.runPanicUnwind m err)
  | .retSlowPath value savedRoots fi =>
    match c.vs.frames.drop (c.vs.frames.length - (fi + 1)) with
    | frame :: outer =>
      if outer.length = fi then some (c.retSlowPath m value savedRoots fi frame) else none
    | [] => none
  | .unwind state => some (c.unwind m state)
  | .ended how =>
    match c.activations with
    | [] => none
    | .resumed :: _ => some c.pop
    | .waits waiting before :: _ =>
      let restored := (c.withVs { c.vs with callDepthTarget := before.callDepthTarget }).pop
      match endedError how with
      | none => some (restored.succeed m waiting before.frames.length)
      | some err => some (restored.fail m waiting err)

/-- The configurations of an execution, one after another. -/
def after (m : Machine ν ε σ) (begun : Cfg ν ε σ) : ℕ → Option (Cfg ν ε σ)
  | 0 => some begun
  | k + 1 => (after m begun k).bind (step m)

end Cfg

end Gengo.Reentry
