import Gengo.Engines.Calls

/-!
# A call on top of an interrupted task

The frames of a call lie above the stack of the task that it interrupts, and the outermost of
them returns to where the task was. However the call goes on, what lies below it stays as it
is, and when its last frame is left the task has its frames, its instruction and its stack
again, with the results on top.
-/

namespace Gengo.Engines

universe u v

variable {ν : Type v}

namespace Vs

open List

/-- The state is that of the interrupted task with a call on top of it. -/
structure OnTop (below vs : Vs ν) : Prop where
  stackLen : vs.stackLen = below.stackLen
  framesLen : vs.framesLen = below.framesLen
  stack : below.stack <+: vs.stack
  frames : ∃ inner outermost, vs.frames = inner ++ outermost :: below.frames ∧
    outermost.base = below.stack.length + 1 ∧ outermost.retIp = below.ip ∧
      ∀ frame ∈ inner, below.stack.length < frame.base

/-- The task is as it was, with results on its stack. -/
structure Back (below vs : Vs ν) (results : List ν) : Prop where
  stackLen : vs.stackLen = below.stackLen
  framesLen : vs.framesLen = below.framesLen
  stack : vs.stack = below.stack ++ results
  frames : vs.frames = below.frames
  ip : vs.ip = below.ip

variable {below vs : Vs ν}

section

variable (onTop : OnTop below vs)
include onTop

theorem OnTop.head {frame : Frame ν} {rest : List (Frame ν)} (first : vs.frames = frame :: rest) :
    below.stack.length < frame.base := by
  rcases onTop.frames with ⟨inner, outermost, frames, base, -, above⟩
  rw [frames] at first
  cases inner with
  | nil =>
    have same := (List.cons.inj first).1
    rw [← same, base]
    exact Nat.lt_succ_self _
  | cons innermost inner =>
    have same := (List.cons.inj first).1
    exact same ▸ above innermost mem_cons_self

theorem OnTop.exists_frame : ∃ frame rest, vs.frames = frame :: rest := by
  rcases onTop.frames with ⟨inner, outermost, frames, -⟩
  cases inner with
  | nil | cons _ _ => exact ⟨_, _, frames⟩

theorem OnTop.execute (region : List ν) (ip : ℕ) : OnTop below (vs.execute region ip) := by
  rcases onTop.exists_frame with ⟨frame, rest, first⟩
  have above := onTop.head first
  have framesEq := onTop.frames
  simp only [Vs.execute, first]
  rw [first] at framesEq
  exact ⟨onTop.stackLen, onTop.framesLen,
    (prefix_take_iff.mpr ⟨onTop.stack, above.le⟩).trans (prefix_append _ _), framesEq⟩

theorem OnTop.enter (operands : List ν) (callee : ν) (f : Func ν) (args : Fin f.arity → ν) :
    OnTop below (vs.enter operands callee f args) := by
  rcases onTop.exists_frame with ⟨frame, rest, first⟩
  have above := onTop.head first
  have kept := prefix_take_iff.mpr ⟨onTop.stack, above.le⟩
  rcases onTop.frames with ⟨inner, outermost, framesEq, base, retIp, frames⟩
  simp only [Vs.enter, first]
  have prefixBelow : below.stack <+: vs.stack.take frame.base ++ operands ++ [callee] := by
    rw [append_assoc]
    exact kept.trans (prefix_append _ _)
  refine ⟨onTop.stackLen, onTop.framesLen, prefixBelow.trans (prefix_append _ _), ?_⟩
  rw [first] at framesEq
  refine ⟨⟨vs.ip, (vs.stack.take frame.base ++ operands ++ [callee]).length, f⟩ :: inner,
    outermost, by rw [framesEq, cons_append], base, retIp, ?_⟩
  intro entered mem
  rcases mem_cons.mp mem with rfl | earlier
  · have short := kept.length_le
    simp only [length_append, length_singleton]
    omega
  · exact frames entered earlier

end

theorem length_ne (inner : List (Frame ν)) (outermost : Frame ν) :
    (inner ++ outermost :: below.frames).length ≠ below.frames.length := by
  rw [length_append, length_cons]
  omega

theorem OnTop.leaveFrame (onTop : OnTop below vs) (results : List ν) :
    ((vs.leaveFrame results).frames.length = below.frames.length ∧
        Back below (vs.leaveFrame results) results) ∨
      ((vs.leaveFrame results).frames.length ≠ below.frames.length ∧
        OnTop below (vs.leaveFrame results)) := by
  rcases onTop.frames with ⟨inner, outermost, frames, base, retIp, above⟩
  cases inner with
  | nil =>
    left
    simp only [Vs.leaveFrame, frames, nil_append]
    refine ⟨trivial, onTop.stackLen, onTop.framesLen, ?_, rfl, retIp⟩
    rw [base, Nat.add_sub_cancel, prefix_iff_eq_take.mp onTop.stack]
    simp
  | cons innermost inner =>
    right
    have first := above innermost mem_cons_self
    simp only [Vs.leaveFrame, frames, cons_append]
    refine ⟨length_ne inner outermost, onTop.stackLen, onTop.framesLen, ?_, inner, outermost,
      rfl, base, retIp, fun frame mem => above frame (mem_cons_of_mem _ mem)⟩
    exact (prefix_take_iff.mpr ⟨onTop.stack, by omega⟩).trans (prefix_append _ _)

/-- Likewise when a frame is popped and its part of the stack stays. -/
theorem OnTop.popFrame (onTop : OnTop below vs) :
    vs.popFrame.frames.length = below.frames.length ∨
      (vs.popFrame.frames.length ≠ below.frames.length ∧ OnTop below vs.popFrame) := by
  rcases onTop.frames with ⟨inner, outermost, frames, base, retIp, above⟩
  cases inner with
  | nil => exact .inl (by simp [Vs.popFrame, frames])
  | cons innermost inner =>
    right
    have popped : vs.popFrame.frames = inner ++ outermost :: below.frames := by
      simp [Vs.popFrame, frames]
    refine ⟨by rw [popped]; exact length_ne inner outermost, onTop.stackLen, onTop.framesLen,
      onTop.stack, inner, outermost, popped, base, retIp, ?_⟩
    exact fun frame mem => above frame (mem_cons_of_mem _ mem)

theorem pushAll_eq {values : List ν} {vs pushed : Vs ν}
    (room : vs.pushAll values = (true, pushed)) :
    pushed = { vs with stack := vs.stack ++ values } := by
  induction values generalizing vs with
  | nil => simpa [pushAll] using (Prod.mk.inj room).2.symm
  | cons value values ih =>
    rw [pushAll] at room
    unfold vmPush at room
    split at room
    next full =>
      split at full
      · cases full
      · cases (Prod.mk.inj room).1
    next first fits =>
      split at fits
      · rw [← Option.some.inj fits] at room
        rw [ih room]
        simp
      · cases fits

theorem beginCall_onTop {f : Func ν} {callee : ν} {args : List ν}
    {checked : Option (Fin f.arity → ν)} {vs entered : Vs ν}
    (enters : vs.beginCall f callee args checked = (true, entered)) :
    OnTop vs entered ∧ entered.frames.length = vs.frames.length + 1 := by
  unfold beginCall at enters
  split at enters
  · cases (Prod.mk.inj enters).1
  split at enters
  next => cases (Prod.mk.inj enters).1
  next pushed room =>
    have pushedEq := pushAll_eq room
    unfold enterFunctionFrame at enters
    split at enters
    next => cases (Prod.mk.inj enters).1
    next defaults fits =>
      split at enters
      next => cases (Prod.mk.inj enters).1
      next full more =>
        have fullEq := pushAll_eq more
        split at enters
        next => cases (Prod.mk.inj enters).1
        next checkedArgs =>
          dsimp only at enters
          split at enters
          · cases (Prod.mk.inj enters).1
          split at enters
          · cases (Prod.mk.inj enters).1
          have enteredEq := (Prod.mk.inj enters).2
          have taken : full.stack.take (full.stack.length - (args.length + defaults.length)) =
              vs.stack ++ [callee] := by
            have parts : full.stack = (vs.stack ++ [callee]) ++ (args ++ defaults) := by
              simp [fullEq, pushedEq]
            rw [parts]
            apply take_left'
            simp
            omega
          rw [taken] at enteredEq
          have fullFrames : full.frames = vs.frames := by simp [fullEq, pushedEq]
          have fullIp : full.ip = vs.ip := by simp [fullEq, pushedEq]
          have base : (vs.stack ++ [callee] ++ List.ofFn checkedArgs).length - f.arity =
              vs.stack.length + 1 := by
            simp only [length_append, length_singleton, length_ofFn]
            omega
          rw [fullFrames, fullIp, base] at enteredEq
          subst enteredEq
          refine ⟨⟨by simp [fullEq, pushedEq], by simp [fullEq, pushedEq], ?_, [], _, rfl, rfl,
            rfl, by simp⟩, rfl⟩
          rw [append_assoc]
          exact prefix_append _ _

theorem beginCall_of_full {f : Func ν} {callee : ν} {args : List ν}
    {checked : Option (Fin f.arity → ν)} {vs left : Vs ν}
    (refused : vs.beginCall f callee args checked = (false, left))
    (full : 255 < args.length ∨ vs.stackLen ≤ vs.stack.length) : left = vs := by
  unfold beginCall at refused
  split at refused
  · exact (Prod.mk.inj refused).2.symm
  next short =>
    have noRoom := full.resolve_left short
    have stuck : vs.pushAll (callee :: args) = (false, vs) := by
      rw [pushAll, vmPush, if_neg (Nat.not_lt.mpr noRoom)]
    rw [stuck] at refused
    exact (Prod.mk.inj refused).2.symm

end Vs

end Gengo.Engines

/-!
# What a callback leaves behind

A host performs operations of the ABI in a callback, and some of them raise callbacks of
their own. A callback is intact when it leaves every view, and every engine that it
interrupts, as they were. The conditions under which all callbacks are intact are conditions
on each of them: the last operation that moves the views puts them back, and what is called
on an interrupted engine comes back with one result or with a panic.
-/

namespace Gengo.Engines

universe u v

variable {κ : Type u} {ν : Type v}

/-- The engine that called back, and those that its callback interrupts with it. -/
structure Interrupted (slot : ℕ) (outer : List ℕ) (world : World κ (Vs ν)) : Prop where
  activeEngine : world.views.activeEngine = some slot
  active : ∀ engine ∈ slot :: outer, (world.engines engine).active = true

/-- The engine that called back was running one of its tasks. -/
structure Running (slot : ℕ) (outer : List ℕ) (world : World κ (Vs ν)) : Prop
    extends Interrupted slot outer world where
  views : ∃ task objPool, world.views = viewsOf world slot task objPool ∧
    ((world.engines slot).hasObjects = true → objPool = some slot)

/-- All views, and the engines that were interrupted, are as before. -/
structure Intact (running : List ℕ) (body : Body κ ν) (world : World κ (Vs ν)) : Prop where
  views : (body.exec world).views = world.views
  engines : ∀ engine ∈ running, (body.exec world).engines engine = world.engines engine

/-- Interrupted engines are called, and looked at; the other operations are for others. -/
def Op.Lawful (running : List ℕ) (op : Op κ ν) (_world : World κ (Vs ν)) : Prop :=
  match op with
  | .destroy slot | .configure slot _ | .run slot _ => slot ∉ running
  | _ => True

def Lawful (running : List ℕ) (body : Body κ ν) : World κ (Vs ν) → Prop :=
  body.Along (Op.Lawful running)

/-- What the operations of a callback have done to the views. -/
inductive Switched
  | kept
  /-- They are at the engine that called back, and at its main task. -/
  | restored
  /-- They are at an engine that has been initialized. -/
  | moved
  deriving DecidableEq, Repr

/-- An initialization that gets as far as the pool of objects. -/
def World.moves (world : World κ (Vs ν)) (outcome : World.InitOutcome) : Bool :=
  (outcome = .withoutStacks ∨ outcome = .withoutNet ∨ outcome = .initialized) ∧
    world.freeSlot.isSome

def Op.switch (op : Op κ ν) (world : World κ (Vs ν)) (before : Switched) : Switched :=
  match op with
  | .init outcome _ _ => if world.moves outcome then .moved else before
  | .destroy _ | .configure _ _ => before
  | .getGlobal slot | .callNothing slot | .run slot _ | .call slot _ _ _ _ _ =>
    if (world.engines slot).active then .restored else before

def Body.switch : Body κ ν → World κ (Vs ν) → Switched → Switched
  | .done, _, before => before
  | .cons op rest, world, before => rest.switch (op.exec world) (op.switch world before)

/-- The views are back in the end. Those of an engine without objects do not come back whole. -/
def Settles (body : Body κ ν) (world : World κ (Vs ν)) : Prop :=
  match body.switch world .kept with
  | .kept => True
  | .restored =>
    world.views.vm.map Prod.snd = some 0 ∧
      world.views.activeEngine.map (fun slot => (world.engines slot).hasObjects) = some true
  | .moved => False

/-- What is called on an interrupted engine finds no room at all, or returns one value, or
panics. -/
def Op.Returns (running : List ℕ) (op : Op κ ν) (world : World κ (Vs ν)) : Prop :=
  match op with
  | .call slot f callee args checked loop =>
    slot ∈ running →
      let vs := world.mainVs slot
      match vs.beginCall f callee args checked with
      | (false, _) => 255 < args.length ∨ vs.stackLen ≤ vs.stack.length
      | (true, entered) =>
        let ending := (loop.exec slot vs.frames.length
          ((world.pushEngineState slot).beginLoop slot entered vs.frames.length)).2
        ending = .returned 1 ∨ ending = .failed
  | _ => True

def Meets (running : List ℕ) (body : Body κ ν) (world : World κ (Vs ν)) : Prop :=
  Settles body world ∧ body.Along (Op.Returns running) world

namespace World

variable (world : World κ (Vs ν)) (slot : ℕ)

@[simp]
theorem mainVs_setMain (vs : Vs ν) : (world.setMain slot vs).mainVs slot = vs := by
  simp [mainVs, setMain, setVs]

theorem engines_setMain_of_ne {other : ℕ} (apart : other ≠ slot) (vs : Vs ν) :
    (world.setMain slot vs).engines other = world.engines other :=
  world.engines_withEngine_of_ne slot apart _

end World

/-- From one state to another, interrupted engines stay as they are, but for the main task
of one of them. -/
structure SameBut (slot : ℕ) (outer : List ℕ) (world world' : World κ (Vs ν)) : Prop where
  activeEngine : world'.views.activeEngine = world.views.activeEngine
  others : ∀ engine ∈ outer, engine ≠ slot → world'.engines engine = world.engines engine
  active : (world'.engines slot).active = (world.engines slot).active
  hasObjects : (world'.engines slot).hasObjects = (world.engines slot).hasObjects
  callbacks : (world'.engines slot).callbacks = (world.engines slot).callbacks
  tasks : ∀ task ≠ 0, (world'.engines slot).vs task = (world.engines slot).vs task

namespace SameBut

open List

variable {slot : ℕ} {outer : List ℕ} {world world' world'' : World κ (Vs ν)}

theorem refl (world : World κ (Vs ν)) : SameBut slot outer world world :=
  ⟨rfl, fun _ _ _ => rfl, rfl, rfl, rfl, fun _ _ => rfl⟩

theorem trans (first : SameBut slot outer world world')
    (second : SameBut slot outer world' world'') : SameBut slot outer world world'' :=
  ⟨second.activeEngine.trans first.activeEngine,
    fun engine mem apart => (second.others engine mem apart).trans (first.others engine mem apart),
    second.active.trans first.active, second.hasObjects.trans first.hasObjects,
    second.callbacks.trans first.callbacks,
    fun task other => (second.tasks task other).trans (first.tasks task other)⟩

theorem setMain (vs : Vs ν) : SameBut slot outer world (world.setMain slot vs) where
  activeEngine := rfl
  others := fun _ _ apart => world.engines_setMain_of_ne slot apart vs
  active := by simp [World.setMain, World.setVs]
  hasObjects := by simp [World.setMain, World.setVs]
  callbacks := by simp [World.setMain, World.setVs]
  tasks := by
    intro task other
    simp [World.setMain, World.setVs, Function.update_of_ne other]

theorem of_engines (activeEngine : world'.views.activeEngine = world.views.activeEngine)
    (same : ∀ engine ∈ slot :: outer, world'.engines engine = world.engines engine) :
    SameBut slot outer world world' := by
  have here := same slot mem_cons_self
  exact ⟨activeEngine, fun engine mem _ => same engine (mem_cons_of_mem slot mem),
    by rw [here], by rw [here], by rw [here], fun _ _ => by rw [here]⟩

/-- With the main task put back, the engine is as it was. -/
theorem engines_eq (same : SameBut slot outer world world')
    (main : world'.mainVs slot = world.mainVs slot) :
    world'.engines slot = world.engines slot := by
  cases before : world.engines slot with
  | mk active hasObjects callbacks vs =>
    cases after : world'.engines slot with
    | mk active' hasObjects' callbacks' vs' =>
      have sameActive := same.active
      have sameObjects := same.hasObjects
      have sameCallbacks := same.callbacks
      have sameTasks := same.tasks
      simp only [World.mainVs, before, after] at main sameActive sameObjects sameCallbacks sameTasks
      have sameVs : vs' = vs := by
        funext task
        by_cases isMain : task = 0
        · rw [isMain, main]
        · exact sameTasks task isMain
      rw [sameActive, sameObjects, sameCallbacks, sameVs]

theorem interrupted (same : SameBut slot outer world world')
    (interrupted : Interrupted slot outer world) : Interrupted slot outer world' := by
  refine ⟨same.activeEngine.trans interrupted.activeEngine, ?_⟩
  intro engine mem
  by_cases here : engine = slot
  · rw [here, same.active]
    exact interrupted.active slot mem_cons_self
  · have isOuter := (mem_cons.mp mem).resolve_left here
    rw [same.others engine isOuter here]
    exact interrupted.active engine mem

end SameBut

end Gengo.Engines
