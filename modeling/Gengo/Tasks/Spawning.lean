import Gengo.Tasks.Scheduler

/-!
# Spawning a task

The operation that spawns a task, step by step: the arguments are copied and rooted on the task
that spawns, a slot is claimed, the behavior's frame is entered on the new execution state, and
the slot is queued. What copies and checks a value is a parameter.
-/

namespace Gengo.Tasks

open State

/-- `MaxTempRoots`. -/
def maxTempRoots : ℕ :=
  128

inductive SpawnError
  | notAFunction
  | stackUnderflow
  | badTempRootDiscipline
  /-- An argument is not sendable, or there is no memory for its copy. -/
  | notCloned
  | claim (err : TaskError)
  | stackOverflow
  | arityMismatch
  /-- An argument is not of its parameter's type, or the conversion to it fails. -/
  | argument
  | outOfMemory
  | callStackOverflow
  deriving DecidableEq, Repr

/-- A behavior's function, as far as its frame depends on it, with parameter types `τ`. -/
structure Behavior (ν τ : Type*) where
  arity : ℕ
  isVariadic : Bool
  defaults : List ν
  hasTypedParams : Bool
  paramTypes : List τ
  variadicType : τ
  maxStack : ℕ
  defaults_le : defaults.length ≤ arity
  variadic_pos : isVariadic = true → 0 < arity

/-- What a script does to the tasks, by the natives it calls. -/
inductive TaskAction (ν : Type*)
  | spawn (fate : SpawnFate)
  | send (clone : ν → Option ν) (target : ActorRef) (payload : ν) (grants : Grants)
  /-- The current task takes its next message. -/
  | receive
  /-- The current task waits for a message, or sleeps. -/
  | park (sleeps : Bool)

def TaskAction.run {ν : Type*} (state : State ν) : TaskAction ν → State ν
  | .spawn fate => (state.spawnTask fate).2
  | .send clone target payload grants => (state.send clone target payload grants).2
  | .receive =>
    let slot := state.slots state.current
    state.setSlot state.current { slot with mailbox := slot.mailbox.tail }
  | .park sleeps => state.setStatus state.current (if sleeps then .sleeping else .blockedReceive)

/-- The heap, of type `η`, and the tasks. -/
structure World (η ν : Type*) where
  heap : η
  tasks : State ν

/-- What the operation calls. -/
structure Runtime (η ν τ : Type*) where
  /-- `checkSendableAndClone`, given how many temporary roots there are. When it fails, it may leave
  roots behind: the copy of a map roots the key of an entry while the value is copied, and one of
  them stays for every map around the value that cannot be copied. -/
  clone : η → ℕ → ν → Except (SpawnError × List ν) ν × η
  /-- The check of an argument against its parameter's type, with the value that takes the
  argument's place. The predicate of a named type is a script. -/
  checkArg : η → τ → ν → Except SpawnError ν × η × List (TaskAction ν)
  /-- The array of the variadic arguments. -/
  packArgs : η → List ν → Except SpawnError ν × η
  /-- `empty_args_array` -/
  emptyArgs : ν
  /-- The room of a new execution state. -/
  stackLen : ℕ
  framesLen : ℕ
  /-- A new execution state can be allocated. -/
  creates : Bool
  /-- The ready queue can grow. -/
  queues : Bool

section Entry

variable {η ν τ : Type*} (runtime : Runtime η ν τ) (behavior : Behavior ν τ)

/-- The arguments with the defaults of those that are left out. -/
def effectiveArgs (args : List ν) : Except SpawnError (List ν) :=
  if behavior.isVariadic then
    if args.length < behavior.arity - 1 then .error .arityMismatch else .ok args
  else if behavior.arity = args.length then .ok args
  else if 0 < behavior.defaults.length ∧
      behavior.arity - behavior.defaults.length ≤ args.length ∧ args.length < behavior.arity then
    if behavior.arity ≤ runtime.stackLen then
      .ok (args ++ behavior.defaults.drop
        (args.length - (behavior.arity - behavior.defaults.length)))
    else .error .stackOverflow
  else .error .arityMismatch

/-- The parameter types that so many arguments are checked against. -/
def argSpecs (argc : ℕ) : List τ :=
  if behavior.isVariadic then
    behavior.paramTypes.take (behavior.arity - 1) ++
      List.replicate (argc - (behavior.arity - 1)) behavior.variadicType
  else behavior.paramTypes.take behavior.arity

/-- `enforceFuncArgTypes` -/
def enforceArgs (world : World η ν) : List τ → List ν → Except SpawnError (List ν) × World η ν
  | spec :: specs, arg :: args =>
    let (checked, heap, did) := runtime.checkArg world.heap spec arg
    let world := ⟨heap, did.foldl TaskAction.run world.tasks⟩
    match checked with
    | .error err => (.error err, world)
    | .ok value =>
      match enforceArgs world specs args with
      | (.error err, world) => (.error err, world)
      | (.ok values, world) => (.ok (value :: values), world)
  | _, args => (.ok args, world)

/-- `prepareVariadicCall` -/
def prepareVariadicCall (heap : η) (args : List ν) : Except SpawnError (List ν) × η :=
  if behavior.isVariadic then
    let fixed := behavior.arity - 1
    if args.length = fixed then
      if runtime.stackLen ≤ fixed then (.error .stackOverflow, heap)
      else (.ok (args ++ [runtime.emptyArgs]), heap)
    else
      match runtime.packArgs heap (args.drop fixed) with
      | (.error err, heap) => (.error err, heap)
      | (.ok packed, heap) => (.ok (args.take fixed ++ [packed]), heap)
  else (.ok args, heap)

/-- The bounds on the frames and on the stack that are checked when a frame is entered. -/
def frameRoom (args : List ν) : Except SpawnError Unit :=
  if runtime.framesLen = 0 then .error .callStackOverflow
  else if runtime.stackLen < args.length + behavior.maxStack then .error .stackOverflow
  else .ok ()

/-- `enterFunctionFrame` on an execution state that holds nothing but the arguments. -/
def enterFunctionFrame (world : World η ν) (args : List ν) : Except SpawnError Unit × World η ν :=
  match effectiveArgs runtime behavior args with
  | .error err => (.error err, world)
  | .ok args =>
    match
      if behavior.hasTypedParams then
        enforceArgs runtime world (argSpecs behavior args.length) args
      else (.ok args, world) with
    | (.error err, world) => (.error err, world)
    | (.ok args, world) =>
      match prepareVariadicCall runtime behavior world.heap args with
      | (.error err, heap) => (.error err, { world with heap })
      | (.ok args, heap) => (frameRoom runtime behavior args, { world with heap })

end Entry

/-- The task that spawns, with its operand stack and its temporary roots, the latest first, and
its call frames of type `φ`. -/
structure Spawner (η ν φ : Type*) extends World η ν where
  stack : List ν
  frames : List φ
  tempRoots : List ν

namespace Spawner

variable {η ν φ τ : Type*} (spawner : Spawner η ν φ) (runtime : Runtime η ν τ)

def popTempRoots (count : ℕ) : Spawner η ν φ :=
  { spawner with tempRoots := spawner.tempRoots.drop count }

/-- Copy the arguments and root the copies, of which there are some already. On an error as many
roots are popped as there are copies. -/
def cloneArgs (spawner : Spawner η ν φ) (cloned : List ν) :
    List ν → Except SpawnError (List ν) × Spawner η ν φ
  | [] => (.ok cloned, spawner)
  | arg :: args =>
    match runtime.clone spawner.heap spawner.tempRoots.length arg with
    | (.error (err, left), heap) =>
      (.error err,
        { spawner with heap, tempRoots := left ++ spawner.tempRoots }.popTempRoots cloned.length)
    | (.ok copy, heap) =>
      if maxTempRoots ≤ spawner.tempRoots.length then
        (.error .badTempRootDiscipline, { spawner with heap }.popTempRoots cloned.length)
      else
        cloneArgs { spawner with heap, tempRoots := copy :: spawner.tempRoots }
          (cloned ++ [copy]) args

/-- `spawnTask` from the claim of a slot on. -/
def claimAndEnter (behavior : Behavior ν τ) (cloned : List ν) :
    Except SpawnError ActorRef × Spawner η ν φ :=
  let unrooted := spawner.popTempRoots cloned.length
  match spawner.tasks.claimSlot runtime.creates with
  | (.error err, tasks) => (.error (.claim err), { unrooted with tasks })
  | (.ok id, tasks) =>
    if runtime.stackLen < cloned.length then (.error .stackOverflow, { unrooted with tasks })
    else
      match enterFunctionFrame runtime behavior ⟨spawner.heap, tasks⟩ cloned with
      | (.error err, world) => (.error err, { unrooted with toWorld := world })
      | (.ok (), world) =>
        match world.tasks.enqueueReady id.index runtime.queues with
        -- The roots have been popped by now, and are popped again.
        | (.error _, tasks) =>
          (.error .outOfMemory,
            { unrooted.popTempRoots cloned.length with heap := world.heap, tasks })
        | (.ok (), tasks) => (.ok id, { unrooted with heap := world.heap, tasks })

/-- `spawnTask`; there is no behavior where the type's is not a function. -/
def spawnTask (behavior : Option (Behavior ν τ)) (argc : ℕ) :
    Except SpawnError ActorRef × Spawner η ν φ :=
  match behavior with
  | none => (.error .notAFunction, spawner)
  | some behavior =>
    match cloneArgs runtime spawner [] (spawner.stack.take argc).reverse with
    | (.error err, spawner) => (.error err, spawner)
    | (.ok cloned, spawner) => spawner.claimAndEnter runtime behavior cloned

end Spawner

end Gengo.Tasks
