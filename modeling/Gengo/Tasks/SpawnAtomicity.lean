import Gengo.Tasks.Spawning
import Mathlib.Data.List.Count

/-!
# Spawns that fail

A spawn that fails is to leave the tasks, the temporary roots and the spawning task's stacks as
they were. Before it has claimed a slot, it only leaves roots behind that the copy of a map has not
popped; nothing that fails after the claim undoes it.
-/

namespace Gengo.Tasks

open State List Function

section Alive

variable {ν : Type*} {state : State ν} {idx : ℕ}

section

variable (alive : state.isAlive idx = true)
include alive

end

end Alive

section Entry

variable {η ν τ : Type*} {runtime : Runtime η ν τ} {behavior : Behavior ν τ}

/-- The behavior takes so many arguments. -/
def Behavior.Takes (behavior : Behavior ν τ) (argc : ℕ) : Prop :=
  if behavior.isVariadic then behavior.arity - 1 ≤ argc
  else behavior.arity - behavior.defaults.length ≤ argc ∧ argc ≤ behavior.arity

/-- The arguments with the defaults of those that are left out. -/
def Behavior.fill (behavior : Behavior ν τ) (args : List ν) : List ν :=
  if behavior.isVariadic then args
  else args ++ behavior.defaults.drop (args.length - (behavior.arity - behavior.defaults.length))

/-- The arguments pass the checks against the types of their parameters, one after the other. -/
inductive Runtime.Passes (runtime : Runtime η ν τ) : η → List τ → List ν → List ν → η → Prop
  | nil (heap : η) (args : List ν) : Passes runtime heap [] args args heap
  | none (heap : η) (specs : List τ) : Passes runtime heap specs [] [] heap
  | cons {heap heap' last : η} {spec : τ} {arg value : ν} {specs : List τ} {args values : List ν}
      {did : List (TaskAction ν)} : runtime.checkArg heap spec arg = (.ok value, heap', did) →
        Passes runtime heap' specs args values last →
          Passes runtime heap (spec :: specs) (arg :: args) (value :: values) last

/-- There is memory for the array of the variadic arguments. -/
def Runtime.Packs (runtime : Runtime η ν τ) (behavior : Behavior ν τ) (heap : η)
    (values : List ν) : Prop :=
  behavior.isVariadic = true → values.length ≠ behavior.arity - 1 →
    ∃ packed heap', runtime.packArgs heap (values.drop (behavior.arity - 1)) = (.ok packed, heap')

/-- A new execution state has room for the behavior's frame. -/
structure Runtime.HasRoom (runtime : Runtime η ν τ) (behavior : Behavior ν τ) : Prop where
  frames : 0 < runtime.framesLen
  stack : behavior.arity + behavior.maxStack ≤ runtime.stackLen

/-- The frame of the behavior is entered with these arguments. -/
structure Runtime.Enters (runtime : Runtime η ν τ) (behavior : Behavior ν τ) (heap : η)
    (args : List ν) : Prop where
  takes : behavior.Takes args.length
  room : runtime.HasRoom behavior
  typed : ∃ values heap',
    (if behavior.hasTypedParams then
      runtime.Passes heap (argSpecs behavior (behavior.fill args).length) (behavior.fill args)
        values heap'
    else values = behavior.fill args ∧ heap' = heap) ∧ runtime.Packs behavior heap' values

theorem Runtime.Passes.length_eq {heap heap' : η} {specs : List τ} {args values : List ν}
    (passes : runtime.Passes heap specs args values heap') : values.length = args.length := by
  induction passes with
  | nil => rfl
  | none => rfl
  | cons _ _ ih => simp [ih]

end Entry

section Claim

variable {ν : Type*} {state : State ν} {idx : ℕ}

end Claim

section Spawns

variable {η ν φ τ : Type*}

/-- The arguments are copied one after the other, and each copy finds room among the temporary
roots, of which there are some already. -/
inductive Runtime.Copies (runtime : Runtime η ν τ) : η → ℕ → List ν → List ν → η → Prop
  | nil (heap : η) (roots : ℕ) : Copies runtime heap roots [] [] heap
  | cons {heap heap' last : η} {roots : ℕ} {arg copy : ν} {args copies : List ν} :
      runtime.clone heap roots arg = (.ok copy, heap') → roots < maxTempRoots →
        Copies runtime heap' (roots + 1) args copies last →
          Copies runtime heap roots (arg :: args) (copy :: copies) last

/-- One of the arguments cannot be copied, and roots are left behind. -/
inductive Runtime.Leaves (runtime : Runtime η ν τ) : η → ℕ → List ν → List ν → Prop
  | here {heap heap' : η} {roots : ℕ} {arg : ν} {args left : List ν} {err : SpawnError} :
      runtime.clone heap roots arg = (.error (err, left), heap') →
        Leaves runtime heap roots (arg :: args) left
  | later {heap heap' : η} {roots : ℕ} {arg copy : ν} {args left : List ν} :
      runtime.clone heap roots arg = (.ok copy, heap') → roots < maxTempRoots →
        Leaves runtime heap' (roots + 1) args left → Leaves runtime heap roots (arg :: args) left

namespace Spawner

/-- What a spawn that fails is to keep. -/
structure Kept (before after : Spawner η ν φ) : Prop where
  tasks : after.tasks = before.tasks
  tempRoots : after.tempRoots = before.tempRoots
  stack : after.stack = before.stack
  frames : after.frames = before.frames

/-- The arguments of a spawn are copied, and a slot is free. -/
structure Reaches (spawner : Spawner η ν φ) (runtime : Runtime η ν τ)
    (behavior : Option (Behavior ν τ)) (argc : ℕ) (function : Behavior ν τ) (copies : List ν)
    (heap : η) : Prop where
  operands : argc < spawner.stack.length
  isFunction : behavior = some function
  copied : runtime.Copies spawner.heap spawner.tempRoots.length
    (spawner.stack.take argc).reverse copies heap
  free : spawner.tasks.freeSlot ≠ none

end Spawner

/-- Nothing that comes after the claim of a slot fails. -/
structure Runtime.Completes (runtime : Runtime η ν τ) (function : Behavior ν τ) (heap : η)
    (copies : List ν) : Prop where
  creates : runtime.creates = true
  fits : copies.length ≤ runtime.stackLen
  enters : runtime.Enters function heap copies
  queues : runtime.queues = true

namespace Spawner

variable {runtime : Runtime η ν τ}

end Spawner

namespace Spawner

end Spawner

end Spawns

end Gengo.Tasks
