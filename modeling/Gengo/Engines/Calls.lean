import Mathlib.Data.List.OfFn

/-!
# The active engine of a thread

Natives reach the state of the engine that runs through thread-local views. An operation of
the ABI points them at its engine and back at the engine that it interrupts; an engine that
is initialized points them at itself.
-/

namespace Gengo.Engines

/-- The callbacks that a host has set for an engine, each with its context. -/
structure Callbacks (κ : Type*) where
  write : Option κ
  read : Option κ
  hostCall : Option κ
  trace : Option κ

/-- The thread-local views: the slot of the engine that each points to. The view of the
virtual machine also names a task of the engine. -/
structure Views (κ : Type*) where
  activeEngine : Option ℕ
  chunk : Option ℕ
  globals : Option ℕ
  heap : Option ℕ
  /-- `obj_pool_ptr`, against which natives decode inline values. -/
  objPool : Option ℕ
  vm : Option (ℕ × ℕ)
  tasks : Option ℕ
  /-- Without an engine these three are the states of the process. -/
  fs : Option ℕ
  net : Option ℕ
  http : Option ℕ
  callbacks : Callbacks κ
  traceHandle : Option ℕ

/-- An engine, with the execution state of each of its tasks. The main task is the first. Its pool
of objects is empty if it is configured so. -/
structure Engine (κ σ : Type*) where
  active : Bool
  hasObjects : Bool
  callbacks : Callbacks κ
  vs : ℕ → σ

structure World (κ σ : Type*) where
  views : Views κ
  engines : ℕ → Engine κ σ

/-- `MaxEngines`. -/
def maxEngines : ℕ :=
  64

variable {κ σ : Type*}

namespace Callbacks

def none : Callbacks κ :=
  ⟨.none, .none, .none, .none⟩

end Callbacks

namespace Views

variable (views : Views κ) (slot : ℕ) (hasObjects : Bool)

/-- `heap.setActive`, which leaves the pool alone if that of the engine is empty. -/
def setHeap : Views κ :=
  { views with heap := slot, objPool := if hasObjects then some slot else views.objPool }

/-- The views that `runUntilSuspend` sets. -/
def enterTask (task : ℕ) : Views κ :=
  { views.setHeap slot hasObjects with chunk := slot, globals := slot, vm := some (slot, task) }

/-- `Runtime.activate`. -/
def activate : Views κ :=
  { views.setHeap slot hasObjects with
    chunk := slot, globals := slot, vm := some (slot, 0), tasks := slot, fs := slot, net := slot
    http := slot }

/-- What `initWithConfig` has set by the time it allocates the network tables. The pool is set when
the heap is initialized, be it empty or not. -/
def initWithConfig : Views κ :=
  { views with
    chunk := slot, globals := slot, heap := slot, objPool := slot, vm := some (slot, 0)
    tasks := slot, fs := slot }

/-- The slots that `engine` fills in with the callbacks of an engine. -/
def target (callbacks : Callbacks κ) : Views κ :=
  { views with activeEngine := slot, callbacks := callbacks, traceHandle := slot }

end Views

namespace World

variable (world : World κ σ)

def withViews (views : Views κ) : World κ σ :=
  { world with views := views }

def withEngine (slot : ℕ) (engine : Engine κ σ) : World κ σ :=
  { world with engines := Function.update world.engines slot engine }

/-- `pushEngineState`; the engine that was active is still in the views. -/
def pushEngineState (slot : ℕ) : World κ σ :=
  world.withViews
    ((world.views.activate slot (world.engines slot).hasObjects).target slot
      (world.engines slot).callbacks)

/-- `popEngineState`. -/
def popEngineState : Option ℕ → World κ σ
  | some slot =>
    world.withViews
      ((world.views.target slot (world.engines slot).callbacks).activate slot
        (world.engines slot).hasObjects)
  | none =>
    world.withViews { world.views with
      activeEngine := none, callbacks := .none, traceHandle := none
      net := none, http := none, fs := none }

/-- How far the initialization of an engine gets. -/
inductive InitOutcome
  /-- The configuration is not valid. -/
  | rejected
  /-- No memory for the heap. -/
  | withoutHeap
  /-- No memory for the stacks. -/
  | withoutStacks
  /-- No memory for the tables of the network. -/
  | withoutNet
  | initialized
  deriving DecidableEq, Repr

/-- The first slot without an active engine. -/
def freeSlot : Option ℕ :=
  (List.range maxEngines).find? fun slot => !(world.engines slot).active

/-- `engine_init` and `engine_init_with_config`, with the execution states of a fresh
engine. -/
def engineInit (outcome : InitOutcome) (hasObjects : Bool) (fresh : ℕ → σ) : World κ σ :=
  match outcome with
  | .rejected => world
  | outcome =>
    match world.freeSlot with
    | none => world
    | some slot =>
      let filled := world.withEngine slot ⟨outcome = .initialized, hasObjects, .none, fresh⟩
      match outcome with
      | .rejected | .withoutHeap => filled
      | .withoutStacks => filled.withViews { filled.views with objPool := slot }
      | .withoutNet => filled.withViews (filled.views.initWithConfig slot)
      | .initialized =>
        filled.withViews { filled.views.initWithConfig slot with net := slot, http := slot }

/-- `engine_destroy`. -/
def engineDestroy (slot : ℕ) : World κ σ :=
  if (world.engines slot).active then
    world.withEngine slot { world.engines slot with active := false }
  else world

/-- The operations that set the callbacks of an engine. -/
def configure (slot : ℕ) (callbacks : Callbacks κ) : World κ σ :=
  if (world.engines slot).active then
    world.withEngine slot { world.engines slot with callbacks := callbacks }
  else world

def setVs (slot : ℕ) (vs : ℕ → σ) : World κ σ :=
  world.withEngine slot { world.engines slot with vs := vs }

end World

/-- All views at one engine, with a task of it, but for the pool of objects. -/
def viewsOf (world : World κ σ) (slot task : ℕ) (objPool : Option ℕ) : Views κ where
  activeEngine := slot
  chunk := slot
  globals := slot
  heap := slot
  objPool := objPool
  vm := some (slot, task)
  tasks := slot
  fs := slot
  net := slot
  http := slot
  callbacks := (world.engines slot).callbacks
  traceHandle := slot

namespace World

variable (world : World κ σ) (slot : ℕ)

@[simp]
theorem views_withViews (views : Views κ) : (world.withViews views).views = views :=
  rfl

@[simp]
theorem engines_withEngine_self (engine : Engine κ σ) :
    (world.withEngine slot engine).engines slot = engine :=
  Function.update_self ..

theorem engines_withEngine_of_ne {other : ℕ} (apart : other ≠ slot) (engine : Engine κ σ) :
    (world.withEngine slot engine).engines other = world.engines other :=
  Function.update_of_ne apart ..

@[simp]
theorem engines_pushEngineState : (world.pushEngineState slot).engines = world.engines :=
  rfl

@[simp]
theorem engines_popEngineState (previous : Option ℕ) :
    (world.popEngineState previous).engines = world.engines := by
  cases previous <;> rfl

theorem active_of_freeSlot {free : ℕ} (found : world.freeSlot = some free) :
    (world.engines free).active = false := by
  have inactive := List.find?_some found
  simpa using inactive

theorem engines_engineInit (outcome : InitOutcome) (hasObjects : Bool) (fresh : ℕ → σ)
    (active : (world.engines slot).active = true) :
    (world.engineInit outcome hasObjects fresh).engines slot = world.engines slot := by
  have apart : ∀ {free : ℕ}, world.freeSlot = some free → slot ≠ free := by
    rintro free found rfl
    rw [world.active_of_freeSlot found] at active
    cases active
  unfold engineInit
  cases outcome with
  | rejected => rfl
  | withoutHeap | withoutStacks | withoutNet | initialized =>
    cases found : world.freeSlot with
    | none => rfl
    | some free => exact world.engines_withEngine_of_ne free (apart found) _

theorem engines_engineDestroy {other : ℕ} (apart : other ≠ slot) :
    (world.engineDestroy slot).engines other = world.engines other := by
  unfold engineDestroy
  split
  · exact world.engines_withEngine_of_ne slot apart _
  · rfl

@[simp]
theorem views_engineDestroy : (world.engineDestroy slot).views = world.views := by
  unfold engineDestroy
  split <;> rfl

theorem engines_configure (callbacks : Callbacks κ) {other : ℕ} (apart : other ≠ slot) :
    (world.configure slot callbacks).engines other = world.engines other := by
  unfold configure
  split
  · exact world.engines_withEngine_of_ne slot apart _
  · rfl

@[simp]
theorem views_configure (callbacks : Callbacks κ) :
    (world.configure slot callbacks).views = world.views := by
  unfold configure
  split <;> rfl

end World

end Gengo.Engines

/-!
# Calls from the host

A call of the ABI runs a function on the main task of its engine, on top of whatever that
task has on its stack: when the engine is the one that called back, of the interrupted
script. What the script of the function computes is a sequence of events; what an event
does to the stack and the frames is the virtual machine's.
-/

namespace Gengo.Engines

universe u v

/-- The fields of a `FuncObj` that calls and returns look at. -/
structure Func (ν : Type*) where
  ip : ℕ
  arity : ℕ
  isVariadic : Bool
  /-- The defaults of the last parameters. -/
  defaults : List ν
  maxStack : ℕ
  namedReturnCount : ℕ
  /-- The number of return types. -/
  returnTypes : ℕ

structure Frame (ν : Type*) where
  retIp : ℕ
  base : ℕ
  callee : Func ν

/-- The execution state of a task: the stack from its bottom, the innermost frame first. -/
structure Vs (ν : Type*) where
  stack : List ν
  stackLen : ℕ
  frames : List (Frame ν)
  framesLen : ℕ
  ip : ℕ
  callDepthTarget : Option ℕ

variable {ν : Type v}

namespace Func

variable (f : Func ν)

/-- The number of values that a return pushes. -/
def results : ℕ :=
  if f.namedReturnCount ≤ 1 then 1 else min f.namedReturnCount 64

/-- The number of values that a recovered panic pushes. -/
def recoveredResults : ℕ :=
  if f.returnTypes ≤ 1 then 1
  else min (if 0 < f.namedReturnCount then f.namedReturnCount else min f.returnTypes 255) 64

end Func

namespace Vs

variable (vs : Vs ν)

def vmPush (v : ν) : Option (Vs ν) :=
  if vs.stack.length < vs.stackLen then some { vs with stack := vs.stack ++ [v] } else none

/-- Push values one after the other, and whether all found room. -/
def pushAll (vs : Vs ν) : List ν → Bool × Vs ν
  | [] => (true, vs)
  | v :: rest =>
    match vs.vmPush v with
    | none => (false, vs)
    | some pushed => pushed.pushAll rest

/-- The defaults of the parameters from this one on; none when the arguments do not fit. -/
def missing (f : Func ν) (argc : ℕ) : Option (List ν) :=
  if f.isVariadic then if argc + 1 < f.arity then none else some []
  else if argc = f.arity then some []
  else if 0 < f.defaults.length ∧ f.arity ≤ argc + f.defaults.length ∧ argc < f.arity then
    some (f.defaults.drop (argc + f.defaults.length - f.arity))
  else none

/-- `enterFunctionFrame`, and whether it enters the frame. The checks of the parameter types
coerce the arguments, and those of a variadic parameter are packed; they may fail. -/
def enterFunctionFrame (f : Func ν) (argc : ℕ) (checked : Option (Fin f.arity → ν)) : Bool × Vs ν :=
  match missing f argc with
  | none => (false, vs)
  | some defaults =>
    match vs.pushAll defaults with
    | (false, left) => (false, left)
    | (true, full) =>
      match checked with
      | none => (false, full)
      | some args =>
        let stack :=
          full.stack.take (full.stack.length - (argc + defaults.length)) ++ List.ofFn args
        let ready := { full with stack := stack }
        if full.framesLen ≤ full.frames.length then (false, ready)
        else if full.stackLen < stack.length + f.maxStack then (false, ready)
        else
          (true, { ready with
            frames := ⟨full.ip, stack.length - f.arity, f⟩ :: full.frames
            ip := f.ip })

/-- The first part of `callValue`: the function and its arguments are pushed, and the frame
is entered. -/
def beginCall (f : Func ν) (callee : ν) (args : List ν) (checked : Option (Fin f.arity → ν)) :
    Bool × Vs ν :=
  if 255 < args.length then (false, vs)
  else
    match vs.pushAll (callee :: args) with
    | (false, left) => (false, left)
    | (true, pushed) => pushed.enterFunctionFrame f args.length checked

/-- Leave the innermost frame with results (`doReturn`, `runPanicUnwind`). -/
def leaveFrame (results : List ν) : Vs ν :=
  match vs.frames with
  | [] => vs
  | frame :: outer =>
    { vs with
      frames := outer
      stack := vs.stack.take (frame.base - 1) ++ results
      ip := frame.retIp }

/-- The innermost frame rewrites its own part of the stack, and goes on elsewhere. -/
def execute (region : List ν) (ip : ℕ) : Vs ν :=
  match vs.frames with
  | [] => vs
  | frame :: _ => { vs with stack := vs.stack.take frame.base ++ region, ip := ip }

/-- The innermost frame performs a call, with what it has on the stack by then. -/
def enter (operands : List ν) (callee : ν) (f : Func ν) (args : Fin f.arity → ν) : Vs ν :=
  match vs.frames with
  | [] => vs
  | frame :: _ =>
    let below := vs.stack.take frame.base ++ operands ++ [callee]
    { vs with
      stack := below ++ List.ofFn args
      frames := ⟨vs.ip, below.length, f⟩ :: vs.frames
      ip := f.ip }

/-- The return type check of `retSlowPath` fails when the frame is popped already. -/
def popFrame : Vs ν :=
  { vs with frames := vs.frames.tail }

/-- `vmPop`, of a value that nothing reads here. -/
def vmPop : Vs ν :=
  { vs with stack := vs.stack.dropLast }

end Vs

mutual

/-- An operation of the ABI. -/
inductive Op (κ : Type u) (ν : Type v) : Type (max u v)
  /-- `engine_init`, `engine_init_with_config`. -/
  | init (outcome : World.InitOutcome) (hasObjects : Bool) (fresh : ℕ → Vs ν)
  | destroy (slot : ℕ)
  | configure (slot : ℕ) (callbacks : Callbacks κ)
  | getGlobal (slot : ℕ)
  /-- `engine_run`, `engine_run_path`, `engine_begin` and `engine_continue`. -/
  | run (slot : ℕ) (script : Script κ ν)
  /-- `engine_call` of a global that is no function, or with arguments that are refused. -/
  | callNothing (slot : ℕ)
  /-- `engine_call`. -/
  | call (slot : ℕ) (f : Func ν) (callee : ν) (args : List ν) (checked : Option (Fin f.arity → ν))
      (loop : Loop κ ν)

/-- The operations that a host performs in a callback, in order. -/
inductive Body (κ : Type u) (ν : Type v) : Type (max u v)
  | done
  | cons (op : Op κ ν) (rest : Body κ ν)

/-- A script that an engine runs from the top. -/
inductive Script (κ : Type u) (ν : Type v) : Type (max u v)
  | done
  /-- It compiles, or its tasks execute. -/
  | evolve (vs : ℕ → Vs ν) (rest : Script κ ν)
  /-- The scheduler runs a task. -/
  | schedule (task : ℕ) (rest : Script κ ν)
  | callback (body : Body κ ν) (rest : Script κ ν)

/-- The interpreter loop of a called function. The loops that it starts for predicates and
deferred calls run in frames of their own. -/
inductive Loop (κ : Type u) (ν : Type v) : Type (max u v)
  /-- The loop waits in `receive`, or suspends the engine. -/
  | park (suspended : Bool)
  | execute (region : List ν) (ip : ℕ) (rest : Loop κ ν)
  | enter (operands : List ν) (callee : ν) (f : Func ν) (args : Fin f.arity → ν) (rest : Loop κ ν)
  | ret (values : ℕ → ν) (rest : Loop κ ν)
  /-- The result of the innermost frame fails the check of its type. -/
  | refuse (rest : Loop κ ν)
  /-- The innermost frame recovers from a panic. -/
  | recover (values : ℕ → ν) (rest : Loop κ ν)
  /-- A panic leaves the innermost frame. -/
  | unwind (rest : Loop κ ν)
  /-- The message of a panic cannot be interned, and the frames stay where they are. -/
  | abandon
  | callback (body : Body κ ν) (rest : Loop κ ν)

end

/-- How an interpreter loop ends. -/
inductive Ending
  | returned (results : ℕ)
  /-- A panic that leaves the last frame. -/
  | failed
  /-- The check of the result, after the last frame has been popped. -/
  | refused
  /-- `runPanicUnwind` returns an error of its own. -/
  | abandoned
  | yielded
  | suspended
  deriving DecidableEq, Repr

variable {κ : Type u}

namespace World

variable (world : World κ (Vs ν))

/-- The main task of an engine. -/
def mainVs (slot : ℕ) : Vs ν :=
  (world.engines slot).vs 0

def setMain (slot : ℕ) (vs : Vs ν) : World κ (Vs ν) :=
  world.setVs slot (Function.update (world.engines slot).vs 0 vs)

/-- A frame has been left; at the depth where it started, the loop ends. -/
def leave (slot target : ℕ) (vs : Vs ν) (ending : Ending)
    (rest : World κ (Vs ν) → World κ (Vs ν) × Ending) : World κ (Vs ν) × Ending :=
  if vs.frames.length = target then (world.setMain slot vs, ending)
  else rest (world.setMain slot vs)

/-- The function of the innermost frame. -/
def callee? (slot : ℕ) : Option (Func ν) :=
  (world.mainVs slot).frames.head?.map Frame.callee

/-- The state in which the loop of a call starts. -/
def beginLoop (slot : ℕ) (entered : Vs ν) (target : ℕ) : World κ (Vs ν) :=
  (world.setMain slot { entered with callDepthTarget := some target }).withViews
    (world.views.enterTask slot (world.engines slot).hasObjects 0)

/-- The last part of `callValue`: the call depth is put back, and a result is taken. -/
def endCall (slot : ℕ) (previous : Option ℕ) (ending : Ending) : World κ (Vs ν) :=
  let vs := { world.mainVs slot with callDepthTarget := previous }
  match ending with
  | .returned _ | .yielded => world.setMain slot vs.vmPop
  | .failed | .refused | .abandoned | .suspended => world.setMain slot vs

end World

mutual

def Op.exec : Op κ ν → World κ (Vs ν) → World κ (Vs ν)
  | .init outcome hasObjects fresh, world => world.engineInit outcome hasObjects fresh
  | .destroy slot, world => world.engineDestroy slot
  | .configure slot callbacks, world => world.configure slot callbacks
  | .getGlobal slot, world | .callNothing slot, world =>
    if (world.engines slot).active then
      (world.pushEngineState slot).popEngineState world.views.activeEngine
    else world
  | .run slot script, world =>
    if (world.engines slot).active then
      (script.exec slot (world.pushEngineState slot)).popEngineState world.views.activeEngine
    else world
  | .call slot f callee args checked loop, world =>
    if (world.engines slot).active then
      let pushed := world.pushEngineState slot
      let vs := pushed.mainVs slot
      match vs.beginCall f callee args checked with
      | (false, left) => (pushed.setMain slot left).popEngineState world.views.activeEngine
      | (true, entered) =>
        let ended := loop.exec slot vs.frames.length
          (pushed.beginLoop slot entered vs.frames.length)
        (ended.1.endCall slot vs.callDepthTarget ended.2).popEngineState world.views.activeEngine
    else world

def Body.exec : Body κ ν → World κ (Vs ν) → World κ (Vs ν)
  | .done, world => world
  | .cons op rest, world => rest.exec (op.exec world)

def Script.exec (slot : ℕ) : Script κ ν → World κ (Vs ν) → World κ (Vs ν)
  | .done, world => world
  | .evolve vs rest, world => rest.exec slot (world.setVs slot vs)
  | .schedule task rest, world =>
    rest.exec slot
      (world.withViews (world.views.enterTask slot (world.engines slot).hasObjects task))
  | .callback body rest, world => rest.exec slot (body.exec world)

def Loop.exec (slot target : ℕ) : Loop κ ν → World κ (Vs ν) → World κ (Vs ν) × Ending
  | .park suspended, world => (world, if suspended then .suspended else .yielded)
  | .execute region ip rest, world =>
    rest.exec slot target (world.setMain slot ((world.mainVs slot).execute region ip))
  | .enter operands callee f args rest, world =>
    rest.exec slot target (world.setMain slot ((world.mainVs slot).enter operands callee f args))
  | .ret values rest, world =>
    let results := ((world.callee? slot).map Func.results).getD 0
    world.leave slot target
      ((world.mainVs slot).leaveFrame ((List.range results).map values)) (.returned results)
      (rest.exec slot target)
  | .refuse rest, world =>
    world.leave slot target (world.mainVs slot).popFrame .refused (rest.exec slot target)
  | .recover values rest, world =>
    let results := ((world.callee? slot).map Func.recoveredResults).getD 0
    let left := (world.mainVs slot).leaveFrame ((List.range results).map values)
    if left.stackLen < left.stack.length then
      (world.setMain slot { left with stack := left.stack.take left.stackLen }, .abandoned)
    else world.leave slot target left (.returned results) (rest.exec slot target)
  | .unwind rest, world =>
    world.leave slot target ((world.mainVs slot).leaveFrame []) .failed (rest.exec slot target)
  | .abandon, world => (world, .abandoned)
  | .callback body rest, world => rest.exec slot target (body.exec world)

end

/-- Every operation of a callback meets a condition on the state in which it is performed. -/
def Body.Along (condition : Op κ ν → World κ (Vs ν) → Prop) :
    Body κ ν → World κ (Vs ν) → Prop
  | .done, _ => True
  | .cons op rest, world => condition op world ∧ rest.Along condition (op.exec world)

mutual

/-- Every callback that is raised while the operation is performed meets a condition on the
engines that it interrupts, the innermost first, and on the state in which it is raised. -/
def Op.Inside (condition : List ℕ → Body κ ν → World κ (Vs ν) → Prop) (running : List ℕ) :
    Op κ ν → World κ (Vs ν) → Prop
  | .run slot script, world =>
    (world.engines slot).active = true →
      script.Inside condition (slot :: running) slot (world.pushEngineState slot)
  | .call slot f callee args checked loop, world =>
    (world.engines slot).active = true →
      ∀ entered, (world.mainVs slot).beginCall f callee args checked = (true, entered) →
        loop.Inside condition (slot :: running) slot (world.mainVs slot).frames.length
          ((world.pushEngineState slot).beginLoop slot entered (world.mainVs slot).frames.length)
  | _, _ => True

def Body.Inside (condition : List ℕ → Body κ ν → World κ (Vs ν) → Prop) (running : List ℕ) :
    Body κ ν → World κ (Vs ν) → Prop
  | .done, _ => True
  | .cons op rest, world =>
    op.Inside condition running world ∧ rest.Inside condition running (op.exec world)

def Script.Inside (condition : List ℕ → Body κ ν → World κ (Vs ν) → Prop) (running : List ℕ)
    (slot : ℕ) : Script κ ν → World κ (Vs ν) → Prop
  | .done, _ => True
  | .evolve vs rest, world => rest.Inside condition running slot (world.setVs slot vs)
  | .schedule task rest, world =>
    rest.Inside condition running slot
      (world.withViews (world.views.enterTask slot (world.engines slot).hasObjects task))
  | .callback body rest, world =>
    condition running body world ∧ body.Inside condition running world ∧
      rest.Inside condition running slot (body.exec world)

def Loop.Inside (condition : List ℕ → Body κ ν → World κ (Vs ν) → Prop) (running : List ℕ)
    (slot target : ℕ) : Loop κ ν → World κ (Vs ν) → Prop
  | .park _, _ | .abandon, _ => True
  | .execute region ip rest, world =>
    rest.Inside condition running slot target
      (world.setMain slot ((world.mainVs slot).execute region ip))
  | .enter operands callee f args rest, world =>
    rest.Inside condition running slot target
      (world.setMain slot ((world.mainVs slot).enter operands callee f args))
  | .ret values rest, world =>
    let results := ((world.callee? slot).map Func.results).getD 0
    let vs := (world.mainVs slot).leaveFrame ((List.range results).map values)
    vs.frames.length ≠ target → rest.Inside condition running slot target (world.setMain slot vs)
  | .refuse rest, world =>
    let vs := (world.mainVs slot).popFrame
    vs.frames.length ≠ target → rest.Inside condition running slot target (world.setMain slot vs)
  | .recover values rest, world =>
    let results := ((world.callee? slot).map Func.recoveredResults).getD 0
    let vs := (world.mainVs slot).leaveFrame ((List.range results).map values)
    ¬vs.stackLen < vs.stack.length → vs.frames.length ≠ target →
      rest.Inside condition running slot target (world.setMain slot vs)
  | .unwind rest, world =>
    let vs := (world.mainVs slot).leaveFrame []
    vs.frames.length ≠ target → rest.Inside condition running slot target (world.setMain slot vs)
  | .callback body rest, world =>
    condition running body world ∧ body.Inside condition running world ∧
      rest.Inside condition running slot target (body.exec world)

end

end Gengo.Engines
