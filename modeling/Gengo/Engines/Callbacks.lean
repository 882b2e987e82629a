import Gengo.Engines.OnTop

/-!
# Callbacks leave the interrupted script intact

Whatever a host does in a callback, an operation brings back the engine that was active, and
only calls of interrupted engines reach these. If every callback meets its conditions, each
of them is intact.
-/

namespace Gengo.Engines

open List

universe u v

variable {κ : Type u} {ν : Type v}

theorem Vs.Back.restored {below vs : Vs ν} {results : List ν} (back : Vs.Back below vs results) :
    { vs with stack := below.stack, callDepthTarget := below.callDepthTarget } = below := by
  cases below
  cases vs
  rcases back with ⟨rfl, rfl, -, rfl, rfl⟩
  rfl

/-- What the ending of a loop says about the task below it. -/
def Ending.Leaves (ending : Ending) (below vs : Vs ν) : Prop :=
  match ending with
  | .returned count => ∃ results, results.length = count ∧ Vs.Back below vs results
  | .failed => Vs.Back below vs []
  | .refused | .abandoned | .yielded | .suspended => True

namespace World

variable (world : World κ (Vs ν))

theorem sameBut_endCall (slot : ℕ) (outer : List ℕ) (previous : Option ℕ) (ending : Ending) :
    SameBut slot outer world (world.endCall slot previous ending) := by
  cases ending <;> exact SameBut.setMain _

theorem sameBut_beginLoop (slot : ℕ) (outer : List ℕ) (entered : Vs ν) (target : ℕ) :
    SameBut slot outer world (world.beginLoop slot entered target) := by
  have set : SameBut slot outer world
      (world.setMain slot { entered with callDepthTarget := some target }) := SameBut.setMain _
  exact ⟨set.activeEngine, set.others, set.active, set.hasObjects, set.callbacks, set.tasks⟩

theorem mainVs_endCall {slot : ℕ} {ending : Ending} {below : Vs ν}
    (leaves : ending.Leaves below (world.mainVs slot))
    (comes : ending = .returned 1 ∨ ending = .failed) :
    (world.endCall slot below.callDepthTarget ending).mainVs slot = below := by
  rcases comes with rfl | rfl
  · rcases leaves with ⟨results, single, back⟩
    rcases length_eq_one_iff.mp single with ⟨result, rfl⟩
    have popped : (world.mainVs slot).stack.dropLast = below.stack := by
      rw [back.stack, dropLast_concat]
    simp only [endCall, mainVs_setMain, Vs.vmPop, popped]
    exact back.restored
  · have same : (world.mainVs slot).stack = below.stack := by
      rw [Vs.Back.stack leaves, append_nil]
    have restored := Vs.Back.restored leaves
    rw [← same] at restored
    simp only [endCall, mainVs_setMain]
    exact restored

end World

theorem Interrupted.push {slot : ℕ} {outer : List ℕ} {world : World κ (Vs ν)}
    (interrupted : Interrupted slot outer world) {engine : ℕ}
    (active : (world.engines engine).active = true) :
    Interrupted engine (slot :: outer) (world.pushEngineState engine) := by
  refine ⟨rfl, ?_⟩
  intro other mem
  rcases mem_cons.mp mem with rfl | earlier
  · exact active
  · exact interrupted.active other earlier

theorem Ending.Leaves.setMain {slot : ℕ} {outer : List ℕ} {world : World κ (Vs ν)} {vs : Vs ν}
    {ended : World κ (Vs ν) × Ending} {below : Vs ν}
    (rest : SameBut slot outer (world.setMain slot vs) ended.1 ∧
      ended.2.Leaves below (ended.1.mainVs slot)) :
    SameBut slot outer world ended.1 ∧ ended.2.Leaves below (ended.1.mainVs slot) :=
  ⟨(SameBut.setMain vs).trans rest.1, rest.2⟩

theorem leave_kept {slot target : ℕ} {outer : List ℕ} {world : World κ (Vs ν)} {vs below : Vs ν}
    {ending : Ending} {rest : World κ (Vs ν) → World κ (Vs ν) × Ending}
    (left : vs.frames.length = target ∧ ending.Leaves below vs ∨
      vs.frames.length ≠ target ∧ Vs.OnTop below vs)
    (goesOn : vs.frames.length ≠ target →
      Vs.OnTop below ((world.setMain slot vs).mainVs slot) →
        SameBut slot outer (world.setMain slot vs) (rest (world.setMain slot vs)).1 ∧
          (rest (world.setMain slot vs)).2.Leaves below
            ((rest (world.setMain slot vs)).1.mainVs slot)) :
    SameBut slot outer world (world.leave slot target vs ending rest).1 ∧
      (world.leave slot target vs ending rest).2.Leaves below
        ((world.leave slot target vs ending rest).1.mainVs slot) := by
  unfold World.leave
  rcases left with ⟨reached, ends⟩ | ⟨other, stays⟩
  · rw [if_pos reached]
    refine ⟨SameBut.setMain vs, ?_⟩
    rwa [World.mainVs_setMain]
  · rw [if_neg other]
    exact Ending.Leaves.setMain (goesOn other (by rwa [World.mainVs_setMain]))

mutual

/-- An operation leaves the interrupted engines alone, and the same engine is active. -/
theorem Op.kept {slot : ℕ} {outer : List ℕ} {world : World κ (Vs ν)} : ∀ op : Op κ ν,
    Interrupted slot outer world → op.Lawful (slot :: outer) world →
      op.Inside Lawful (slot :: outer) world → op.Returns (slot :: outer) world →
        op.Inside Meets (slot :: outer) world →
          (op.exec world).views.activeEngine = world.views.activeEngine ∧
            ∀ engine ∈ slot :: outer, (op.exec world).engines engine = world.engines engine
  | .init outcome hasObjects fresh, interrupted, _, _, _, _ => by
    constructor
    · simp only [Op.exec, World.engineInit]
      cases outcome <;> cases world.freeSlot <;> rfl
    · intro engine mem
      exact world.engines_engineInit engine outcome hasObjects fresh (interrupted.active engine mem)
  | .destroy destroyed, _, lawful, _, _, _ => by
    constructor
    · rw [Op.exec, World.views_engineDestroy]
    · intro engine mem
      exact world.engines_engineDestroy destroyed fun same => lawful (same ▸ mem)
  | .configure configured callbacks, _, lawful, _, _, _ => by
    constructor
    · rw [Op.exec, World.views_configure]
    · intro engine mem
      exact world.engines_configure configured callbacks fun same => lawful (same ▸ mem)
  | .getGlobal asked, interrupted, _, _, _, _ | .callNothing asked, interrupted, _, _, _, _ => by
    rw [Op.exec]
    split
    · rw [interrupted.activeEngine]
      exact ⟨rfl, fun _ _ => rfl⟩
    · exact ⟨rfl, fun _ _ => rfl⟩
  | .run started script, interrupted, lawful, lawfulInside, _, meetsInside => by
    rw [Op.exec]
    split
    next active =>
      have kept := Script.kept script lawful (interrupted.push active) (lawfulInside active)
        (meetsInside active)
      rw [interrupted.activeEngine]
      refine ⟨rfl, ?_⟩
      intro engine mem
      rw [World.engines_popEngineState, kept engine mem, World.engines_pushEngineState]
    next => exact ⟨rfl, fun _ _ => rfl⟩
  | .call called f callee args checked loop, interrupted, _, lawfulInside, returns,
      meetsInside => by
      rw [Op.exec]
      split
      next active =>
        have pushed := interrupted.push active
        have mainPushed : (world.pushEngineState called).mainVs called = world.mainVs called := rfl
        -- In either case the call is a change of the main task, which comes to nothing if the
        -- engine was interrupted.
        have close : ∀ {world' : World κ (Vs ν)},
            SameBut called (slot :: outer) (world.pushEngineState called) world' →
            (called ∈ slot :: outer → world'.mainVs called = world.mainVs called) →
            (world'.popEngineState world.views.activeEngine).views.activeEngine =
                world.views.activeEngine ∧
              ∀ engine ∈ slot :: outer,
                (world'.popEngineState world.views.activeEngine).engines engine =
                  world.engines engine := by
          intro world' same main
          rw [interrupted.activeEngine]
          refine ⟨rfl, ?_⟩
          intro engine mem
          rw [World.engines_popEngineState]
          by_cases here : engine = called
          · subst here
            exact same.engines_eq (main mem)
          · exact same.others engine mem here
        dsimp only
        rw [mainPushed]
        unfold Op.Returns at returns
        dsimp only at returns
        split
        next left refused =>
          apply close (SameBut.setMain left)
          intro mem
          rw [World.mainVs_setMain]
          have full := returns mem
          rw [refused] at full
          exact Vs.beginCall_of_full refused full
        next entered enters =>
          have onTop := (Vs.beginCall_onTop enters).1
          have began := (world.pushEngineState called).sameBut_beginLoop called (slot :: outer)
            entered (world.mainVs called).frames.length
          have mainBegan : Vs.OnTop (world.mainVs called)
              (((world.pushEngineState called).beginLoop called entered
                (world.mainVs called).frames.length).mainVs called) := by
            have main : ((world.pushEngineState called).beginLoop called entered
                (world.mainVs called).frames.length).mainVs called =
                  { entered with callDepthTarget := some (world.mainVs called).frames.length } :=
              World.mainVs_setMain ..
            rw [main]
            exact ⟨onTop.stackLen, onTop.framesLen, onTop.stack, onTop.frames⟩
          have kept := Loop.kept _ loop (began.interrupted pushed) mainBegan
            (lawfulInside active entered enters) (meetsInside active entered enters)
          apply close ((began.trans kept.1).trans (World.sameBut_endCall _ _ _ _ _))
          intro mem
          have comes := returns mem
          rw [enters] at comes
          exact World.mainVs_endCall _ kept.2 comes
      next => exact ⟨rfl, fun _ _ => rfl⟩

theorem Body.kept {slot : ℕ} {outer : List ℕ} {world : World κ (Vs ν)} : ∀ body : Body κ ν,
    Interrupted slot outer world → Lawful (slot :: outer) body world →
      body.Inside Lawful (slot :: outer) world → body.Along (Op.Returns (slot :: outer)) world →
        body.Inside Meets (slot :: outer) world →
          (body.exec world).views.activeEngine = world.views.activeEngine ∧
            ∀ engine ∈ slot :: outer, (body.exec world).engines engine = world.engines engine
  | .done, _, _, _, _, _ => ⟨rfl, fun _ _ => rfl⟩
  | .cons op rest, interrupted, lawful, lawfulInside, returns, meetsInside => by
    have first := Op.kept op interrupted lawful.1 lawfulInside.1 returns.1 meetsInside.1
    have same : SameBut slot outer world (op.exec world) :=
      SameBut.of_engines first.1 first.2
    have last := Body.kept rest (same.interrupted interrupted) lawful.2 lawfulInside.2 returns.2
      meetsInside.2
    exact ⟨last.1.trans first.1, fun engine mem => (last.2 engine mem).trans (first.2 engine mem)⟩

/-- A script of another engine leaves the interrupted engines alone. -/
theorem Script.kept {slot : ℕ} {outer : List ℕ} {world : World κ (Vs ν)} :
    ∀ script : Script κ ν, slot ∉ outer → Interrupted slot outer world →
      script.Inside Lawful (slot :: outer) slot world →
        script.Inside Meets (slot :: outer) slot world →
          ∀ engine ∈ outer, (script.exec slot world).engines engine = world.engines engine
  | .done, _, _, _, _ => fun _ _ => rfl
  | .evolve vs rest, apart, interrupted, lawfulInside, meetsInside => by
    have others : ∀ engine ∈ outer, (world.setVs slot vs).engines engine = world.engines engine :=
      fun engine mem => world.engines_withEngine_of_ne slot (fun same => apart (same ▸ mem)) _
    have evolved : Interrupted slot outer (world.setVs slot vs) := by
      refine ⟨interrupted.activeEngine, ?_⟩
      intro engine mem
      rcases mem_cons.mp mem with rfl | isOuter
      · simpa [World.setVs] using interrupted.active engine mem
      · rw [others engine isOuter]
        exact interrupted.active engine mem
    have last := Script.kept rest apart evolved lawfulInside meetsInside
    exact fun engine mem => (last engine mem).trans (others engine mem)
  | .schedule task rest, apart, interrupted, lawfulInside, meetsInside =>
    Script.kept rest apart ⟨interrupted.activeEngine, interrupted.active⟩ lawfulInside meetsInside
  | .callback body rest, apart, interrupted, lawfulInside, meetsInside => by
    have first := Body.kept body interrupted lawfulInside.1 lawfulInside.2.1
      meetsInside.1.2 meetsInside.2.1
    have same : SameBut slot outer world (body.exec world) :=
      SameBut.of_engines first.1 first.2
    have last := Script.kept rest apart (same.interrupted interrupted) lawfulInside.2.2
      meetsInside.2.2
    exact fun engine mem =>
      (last engine mem).trans (first.2 engine (mem_cons_of_mem slot mem))

/-- The loop of a call changes nothing but the main task that it runs on, and comes back to
what lies below it. -/
theorem Loop.kept {slot : ℕ} {outer : List ℕ} {world : World κ (Vs ν)} (below : Vs ν) :
    ∀ loop : Loop κ ν, Interrupted slot outer world → Vs.OnTop below (world.mainVs slot) →
      loop.Inside Lawful (slot :: outer) slot below.frames.length world →
        loop.Inside Meets (slot :: outer) slot below.frames.length world →
          SameBut slot outer world (loop.exec slot below.frames.length world).1 ∧
            (loop.exec slot below.frames.length world).2.Leaves below
              ((loop.exec slot below.frames.length world).1.mainVs slot)
  | .park suspended, _, _, _, _ => by
    refine ⟨SameBut.refl world, ?_⟩
    cases suspended <;> trivial
  | .execute region ip rest, interrupted, onTop, lawfulInside, meetsInside => by
    have next := Loop.kept below rest ((SameBut.setMain _).interrupted interrupted)
      (by rw [World.mainVs_setMain]; exact onTop.execute region ip) lawfulInside meetsInside
    exact Ending.Leaves.setMain next
  | .enter operands callee f args rest, interrupted, onTop, lawfulInside, meetsInside => by
    have next := Loop.kept below rest ((SameBut.setMain _).interrupted interrupted)
      (by rw [World.mainVs_setMain]; exact onTop.enter operands callee f args) lawfulInside
      meetsInside
    exact Ending.Leaves.setMain next
  | .ret _ rest, interrupted, onTop, lawfulInside, meetsInside => by
    refine leave_kept ((onTop.leaveFrame _).imp_left ?_) ?_
    · exact fun left => ⟨left.1, _, by simp, left.2⟩
    intro other stays
    exact Loop.kept below rest ((SameBut.setMain _).interrupted interrupted) stays
      (lawfulInside other) (meetsInside other)
  | .recover _ rest, interrupted, onTop, lawfulInside, meetsInside => by
    rw [Loop.exec]
    split
    · exact ⟨SameBut.setMain _, trivial⟩
    next room =>
      refine leave_kept ((onTop.leaveFrame _).imp_left ?_) ?_
      · exact fun left => ⟨left.1, _, by simp, left.2⟩
      intro other stays
      exact Loop.kept below rest ((SameBut.setMain _).interrupted interrupted) stays
        (lawfulInside room other) (meetsInside room other)
  | .refuse rest, interrupted, onTop, lawfulInside, meetsInside => by
    refine leave_kept (onTop.popFrame.imp_left ?_) ?_
    · exact fun reached => ⟨reached, trivial⟩
    intro other stays
    exact Loop.kept below rest ((SameBut.setMain _).interrupted interrupted) stays
      (lawfulInside other) (meetsInside other)
  | .unwind rest, interrupted, onTop, lawfulInside, meetsInside => by
    apply leave_kept (onTop.leaveFrame [])
    intro other stays
    exact Loop.kept below rest ((SameBut.setMain _).interrupted interrupted) stays
      (lawfulInside other) (meetsInside other)
  | .abandon, _, _, _, _ => ⟨SameBut.refl world, trivial⟩
  | .callback body rest, interrupted, onTop, lawfulInside, meetsInside => by
    have first := Body.kept body interrupted lawfulInside.1 lawfulInside.2.1
      meetsInside.1.2 meetsInside.2.1
    have same : SameBut slot outer world (body.exec world) :=
      SameBut.of_engines first.1 first.2
    have main : (body.exec world).mainVs slot = world.mainVs slot := by
      rw [World.mainVs, first.2 slot mem_cons_self, World.mainVs]
    have last := Loop.kept below rest (same.interrupted interrupted)
      (by rw [main]; exact onTop) lawfulInside.2.2 meetsInside.2.2
    exact ⟨same.trans last.1, last.2⟩

end

/-- What is known of the views while a callback goes on. -/
def Switched.Holds (switched : Switched) (slot : ℕ) (before : Views κ)
    (world : World κ (Vs ν)) : Prop :=
  match switched with
  | .kept => world.views = before
  | .restored => ∃ objPool, world.views = viewsOf world slot 0 objPool ∧
    ((world.engines slot).hasObjects = true → objPool = some slot)
  | .moved => True

theorem viewsOf_congr {world world' : World κ (Vs ν)} {slot : ℕ}
    (same : (world'.engines slot).callbacks = (world.engines slot).callbacks) (task : ℕ)
    (objPool : Option ℕ) : viewsOf world' slot task objPool = viewsOf world slot task objPool := by
  simp only [viewsOf, same]

theorem World.views_popEngineState (world : World κ (Vs ν)) (slot : ℕ) :
    ∃ objPool, (world.popEngineState (some slot)).views =
        viewsOf (world.popEngineState (some slot)) slot 0 objPool ∧
      (((world.popEngineState (some slot)).engines slot).hasObjects = true →
        objPool = some slot) := by
  refine ⟨_, rfl, fun hasObjects => ?_⟩
  exact if_pos hasObjects

theorem World.views_engineInit (world : World κ (Vs ν)) {outcome : World.InitOutcome}
    (hasObjects : Bool) (fresh : ℕ → Vs ν) (stays : world.moves outcome = false) :
    (world.engineInit outcome hasObjects fresh).views = world.views := by
  unfold World.moves at stays
  unfold World.engineInit
  cases outcome with
  | rejected => rfl
  | withoutHeap => cases world.freeSlot <;> rfl
  | withoutStacks | withoutNet | initialized =>
    cases found : world.freeSlot with
    | none => rfl
    | some slot => simp [found] at stays

/-- An operation that pushes an engine ends by restoring the views. -/
theorem Op.views_exec {op : Op κ ν} {world : World κ (Vs ν)} {slot : ℕ} {switched : Switched}
    {before : Views κ} (activeEngine : world.views.activeEngine = some slot)
    (engine : (op.exec world).engines slot = world.engines slot)
    (holds : switched.Holds slot before world) :
    (op.switch world switched).Holds slot before (op.exec world) := by
  have untouched : (op.exec world).views = world.views →
      switched.Holds slot before (op.exec world) := by
    intro same
    cases switched with
    | kept => exact same.trans holds
    | restored =>
      rcases holds with ⟨objPool, views, own⟩
      refine ⟨objPool, ?_, fun hasObjects => own ((congrArg Engine.hasObjects engine).symm.trans
        hasObjects)⟩
      exact same.trans (views.trans (viewsOf_congr (congrArg Engine.callbacks engine) 0 _).symm)
    | moved => trivial
  cases op with
  | init outcome hasObjects fresh =>
    rw [Op.switch]
    cases moves : world.moves outcome with
    | true => trivial
    | false => exact untouched (world.views_engineInit hasObjects fresh moves)
  | destroy destroyed => exact untouched (world.views_engineDestroy destroyed)
  | configure configured callbacks => exact untouched (world.views_configure configured callbacks)
  | getGlobal asked | callNothing asked | run asked script =>
    rw [Op.switch]
    cases active : (world.engines asked).active with
    | false =>
      apply untouched
      simp only [Op.exec, active, Bool.false_eq_true, if_false]
    | true =>
      simp only [if_true, Op.exec, active, Switched.Holds, activeEngine]
      exact World.views_popEngineState _ slot
  | call asked f callee args checked loop =>
    rw [Op.switch]
    cases active : (world.engines asked).active with
    | false =>
      apply untouched
      simp only [Op.exec, active, Bool.false_eq_true, if_false]
    | true =>
      simp only [if_true, Op.exec, active, Switched.Holds, activeEngine]
      split
      · exact World.views_popEngineState _ slot
      · exact World.views_popEngineState _ slot

theorem Body.views_exec {slot : ℕ} {outer : List ℕ} {before : Views κ} :
    ∀ (body : Body κ ν) {world : World κ (Vs ν)} {switched : Switched},
      Interrupted slot outer world → Lawful (slot :: outer) body world →
        body.Inside Lawful (slot :: outer) world →
          body.Along (Op.Returns (slot :: outer)) world →
            body.Inside Meets (slot :: outer) world → switched.Holds slot before world →
              (body.switch world switched).Holds slot before (body.exec world)
  | .done, _, _, _, _, _, _, _, holds => holds
  | .cons op rest, world, switched, interrupted, lawful, lawfulInside, returns, meetsInside,
      holds => by
      have first := Op.kept op interrupted lawful.1 lawfulInside.1 returns.1 meetsInside.1
      have same : SameBut slot outer world (op.exec world) :=
        SameBut.of_engines first.1 first.2
      have after := Op.views_exec interrupted.activeEngine (first.2 slot mem_cons_self) holds
      exact Body.views_exec rest (same.interrupted interrupted) lawful.2 lawfulInside.2 returns.2
        meetsInside.2 after

section

variable {slot : ℕ} {outer : List ℕ} {world : World κ (Vs ν)} (running : Running slot outer world)
include running

theorem Running.intact {body : Body κ ν} (lawful : Lawful (slot :: outer) body world)
    (lawfulInside : body.Inside Lawful (slot :: outer) world)
    (meets : Meets (slot :: outer) body world)
    (meetsInside : body.Inside Meets (slot :: outer) world) :
    Intact (slot :: outer) body world := by
  have kept := Body.kept body running.toInterrupted lawful lawfulInside meets.2 meetsInside
  refine ⟨?_, kept.2⟩
  have start : Switched.kept.Holds slot world.views world := rfl
  have holds := Body.views_exec body running.toInterrupted lawful lawfulInside meets.2 meetsInside
    start
  have settles := meets.1
  unfold Settles at settles
  cases switched : body.switch world .kept with
  | kept =>
    rw [switched] at holds
    exact holds
  | moved =>
    rw [switched] at settles
    exact settles.elim
  | restored =>
    rw [switched] at holds settles
    rcases running.views with ⟨task, objPool, views, own⟩
    rcases holds with ⟨objPool', views', own'⟩
    have isMain : task = 0 := by simpa [views, viewsOf] using settles.1
    have hasObjects : (world.engines slot).hasObjects = true := by
      simpa [running.activeEngine] using settles.2
    have engine := kept.2 slot mem_cons_self
    have same := viewsOf_congr (congrArg Engine.callbacks engine) 0 (some slot)
    rw [views, isMain, own hasObjects, ← same, views',
      own' ((congrArg Engine.hasObjects engine).trans hasObjects)]

/-- An engine goes on running while its own callbacks and views stay. -/
theorem Running.of_same {world' : World κ (Vs ν)} (same : SameBut slot outer world world')
    (views : world'.views = world.views) : Running slot outer world' := by
  rcases running.views with ⟨task, objPool, before, own⟩
  exact ⟨same.interrupted running.toInterrupted, task, objPool,
    (views.trans before).trans (viewsOf_congr same.callbacks task objPool).symm,
    fun hasObjects => own (same.hasObjects.symm.trans hasObjects)⟩

theorem Running.setMain (vs : Vs ν) : Running slot outer (world.setMain slot vs) :=
  running.of_same (SameBut.setMain vs) rfl

theorem Running.after {body : Body κ ν} (intact : Intact (slot :: outer) body world) :
    Running slot outer (body.exec world) :=
  running.of_same
    (SameBut.of_engines (congrArg Views.activeEngine intact.views) intact.engines) intact.views

end

theorem Interrupted.running {slot : ℕ} {outer : List ℕ} {world : World κ (Vs ν)}
    (interrupted : Interrupted slot outer world) {engine : ℕ}
    (active : (world.engines engine).active = true) :
    Running engine (slot :: outer) (world.pushEngineState engine) :=
  ⟨interrupted.push active, 0, _, rfl, fun hasObjects => if_pos hasObjects⟩

theorem Views.enterTask_activate (views : Views κ) (slot : ℕ) (hasObjects : Bool)
    (callbacks : Callbacks κ) :
    ((views.activate slot hasObjects).target slot callbacks).enterTask slot hasObjects 0 =
      (views.activate slot hasObjects).target slot callbacks := by
  cases hasObjects with
  | true => rfl
  | false => rfl

theorem World.views_beginLoop (world : World κ (Vs ν)) (slot : ℕ) (entered : Vs ν) (target : ℕ) :
    ((world.pushEngineState slot).beginLoop slot entered target).views =
      (world.pushEngineState slot).views :=
  world.views.enterTask_activate slot _ _

mutual

theorem Op.inside_intact {slot : ℕ} {outer : List ℕ} {world : World κ (Vs ν)} :
    ∀ op : Op κ ν, Interrupted slot outer world → op.Lawful (slot :: outer) world →
      op.Inside Lawful (slot :: outer) world → op.Inside Meets (slot :: outer) world →
        op.Inside Intact (slot :: outer) world
  | .init .., _, _, _, _ | .destroy _, _, _, _, _ | .configure .., _, _, _, _
  | .getGlobal _, _, _, _, _ | .callNothing _, _, _, _, _ => trivial
  | .run started script, interrupted, lawful, lawfulInside, meetsInside => fun active =>
    Script.inside_intact script lawful (interrupted.running active) (lawfulInside active)
      (meetsInside active)
  | .call called f callee args checked loop, interrupted, _, lawfulInside, meetsInside =>
    fun active entered enters => by
      have began := (world.pushEngineState called).sameBut_beginLoop called (slot :: outer)
        entered (world.mainVs called).frames.length
      have pushed : Running called (slot :: outer) (world.pushEngineState called) :=
        interrupted.running active
      exact Loop.inside_intact loop (pushed.of_same began (world.views_beginLoop ..))
        (lawfulInside active entered enters) (meetsInside active entered enters)

theorem Body.inside_intact {slot : ℕ} {outer : List ℕ} {world : World κ (Vs ν)} :
    ∀ body : Body κ ν, Interrupted slot outer world → Lawful (slot :: outer) body world →
      body.Inside Lawful (slot :: outer) world → body.Along (Op.Returns (slot :: outer)) world →
        body.Inside Meets (slot :: outer) world → body.Inside Intact (slot :: outer) world
  | .done, _, _, _, _, _ => trivial
  | .cons op rest, interrupted, lawful, lawfulInside, returns, meetsInside => by
    have first := Op.kept op interrupted lawful.1 lawfulInside.1 returns.1 meetsInside.1
    have same : SameBut slot outer world (op.exec world) :=
      SameBut.of_engines first.1 first.2
    exact ⟨Op.inside_intact op interrupted lawful.1 lawfulInside.1 meetsInside.1,
      Body.inside_intact rest (same.interrupted interrupted) lawful.2 lawfulInside.2 returns.2
        meetsInside.2⟩

theorem Script.inside_intact {slot : ℕ} {outer : List ℕ} {world : World κ (Vs ν)} :
    ∀ script : Script κ ν, slot ∉ outer → Running slot outer world →
      script.Inside Lawful (slot :: outer) slot world →
        script.Inside Meets (slot :: outer) slot world →
          script.Inside Intact (slot :: outer) slot world
  | .done, _, _, _, _ => trivial
  | .evolve vs rest, apart, running, lawfulInside, meetsInside => by
    refine Script.inside_intact rest apart ⟨⟨running.activeEngine, ?_⟩, ?_⟩ lawfulInside meetsInside
    · intro engine mem
      by_cases here : engine = slot
      · subst here
        simpa [World.setVs] using running.active engine mem
      · rw [World.setVs, World.engines_withEngine_of_ne _ _ here]
        exact running.active engine mem
    · rcases running.views with ⟨task, objPool, before, own⟩
      refine ⟨task, objPool, before.trans (viewsOf_congr ?_ task objPool).symm, ?_⟩
      · simp [World.setVs]
      · simpa [World.setVs] using own
  | .schedule task rest, apart, running, lawfulInside, meetsInside => by
    rcases running.views with ⟨earlier, objPool, before, own⟩
    refine Script.inside_intact rest apart
      ⟨⟨running.activeEngine, running.active⟩, task,
        if (world.engines slot).hasObjects then some slot else objPool, ?_,
        fun hasObjects => if_pos hasObjects⟩ lawfulInside meetsInside
    rw [World.views_withViews, before]
    rfl
  | .callback body rest, apart, running, lawfulInside, meetsInside => by
    have intact := running.intact lawfulInside.1 lawfulInside.2.1 meetsInside.1 meetsInside.2.1
    exact ⟨intact, Body.inside_intact body running.toInterrupted lawfulInside.1
        lawfulInside.2.1 meetsInside.1.2 meetsInside.2.1,
      Script.inside_intact rest apart (running.after intact) lawfulInside.2.2 meetsInside.2.2⟩

theorem Loop.inside_intact {slot target : ℕ} {outer : List ℕ} {world : World κ (Vs ν)} :
    ∀ loop : Loop κ ν, Running slot outer world →
      loop.Inside Lawful (slot :: outer) slot target world →
        loop.Inside Meets (slot :: outer) slot target world →
          loop.Inside Intact (slot :: outer) slot target world
  | .park _, _, _, _ | .abandon, _, _, _ => trivial
  | .execute _ _ rest, running, lawfulInside, meetsInside
  | .enter _ _ _ _ rest, running, lawfulInside, meetsInside =>
    Loop.inside_intact rest (running.setMain _) lawfulInside meetsInside
  | .ret _ rest, running, lawfulInside, meetsInside
  | .refuse rest, running, lawfulInside, meetsInside
  | .unwind rest, running, lawfulInside, meetsInside => fun goesOn =>
    Loop.inside_intact rest (running.setMain _) (lawfulInside goesOn) (meetsInside goesOn)
  | .recover _ rest, running, lawfulInside, meetsInside => fun room goesOn =>
    Loop.inside_intact rest (running.setMain _) (lawfulInside room goesOn)
      (meetsInside room goesOn)
  | .callback body rest, running, lawfulInside, meetsInside => by
    have intact := running.intact lawfulInside.1 lawfulInside.2.1 meetsInside.1 meetsInside.2.1
    exact ⟨intact, Body.inside_intact body running.toInterrupted lawfulInside.1
        lawfulInside.2.1 meetsInside.1.2 meetsInside.2.1,
      Loop.inside_intact rest (running.after intact) lawfulInside.2.2 meetsInside.2.2⟩

end

/-- Every callback that an engine makes while it runs, and every callback inside of it, is
intact if each of them settles the views and calls of interrupted engines come back. -/
theorem callbacks_intact {slot : ℕ} {outer : List ℕ} {world : World κ (Vs ν)}
    {body : Body κ ν} (running : Running slot outer world)
    (lawful : Lawful (slot :: outer) body world)
    (lawfulInside : body.Inside Lawful (slot :: outer) world)
    (meets : Meets (slot :: outer) body world)
    (meetsInside : body.Inside Meets (slot :: outer) world) :
    Intact (slot :: outer) body world ∧ body.Inside Intact (slot :: outer) world :=
  ⟨running.intact lawful lawfulInside meets meetsInside,
    Body.inside_intact body running.toInterrupted lawful lawfulInside meets.2 meetsInside⟩

/-- A task with an empty stack. -/
def idle : Vs Unit where
  stack := []
  stackLen := 8
  frames := []
  framesLen := 8
  ip := 0
  callDepthTarget := none

/-- A world in which the first engine runs its main task, and there is no other. -/
def alone : World Unit (Vs Unit) where
  views := ⟨some 0, some 0, some 0, some 0, some 0, some (0, 0), some 0, some 0, some 0, some 0,
    .none, some 0⟩
  engines slot := ⟨slot = 0, true, .none, fun _ => idle⟩

theorem running_alone : Running 0 [] alone where
  activeEngine := rfl
  active := by simp [alone]
  views := ⟨0, some 0, rfl, fun _ => rfl⟩

/-- A function without parameters. -/
def constantFunc : Func Unit :=
  ⟨0, 0, false, [], 1, 0, 0⟩

/-- A callback that calls a function of the interrupted engine, which returns. -/
theorem callbacks_intact_alone :
    let body : Body Unit Unit :=
      .cons (.call 0 constantFunc () [] (some Fin.elim0) (.ret (fun _ => ()) (.park false))) .done
    Intact [0] body alone ∧ body.Inside Intact [0] alone :=
  callbacks_intact running_alone ⟨trivial, trivial⟩ ⟨fun _ _ _ _ => trivial, trivial⟩
    ⟨⟨rfl, rfl⟩, fun _ => .inl rfl, trivial⟩ ⟨fun _ _ _ _ => trivial, trivial⟩

/-- A callback that initializes another engine leaves the views at that engine. -/
theorem not_callbacks_intact :
    ¬∀ (slot : ℕ) (outer : List ℕ) (world : World Unit (Vs Unit)) (body : Body Unit Unit),
      Running slot outer world → Lawful (slot :: outer) body world →
        body.Inside Lawful (slot :: outer) world →
          Intact (slot :: outer) body world ∧ body.Inside Intact (slot :: outer) world := by
  intro intact
  have views := (intact 0 [] alone (.cons (.init .initialized true fun _ => idle) .done)
    running_alone ⟨trivial, trivial⟩ ⟨trivial, trivial⟩).1.views
  have chunk : some 1 = some 0 := congrArg Views.chunk views
  cases chunk

end Gengo.Engines
