import Gengo.Caches.Lookups
import Gengo.Runs.Along

/-!
# Execution with the caches and without

The instructions that consult the inline caches, and what the dispatch loop does with them.
Without the caches the same loop runs with caches that are always cold.
-/

namespace Gengo.Caches

open Runs (Next)

/-- What the caches in the code hold, site by site: a slot of the globals, the pool index of
a callee, of a type with a field index, and of a type with the index of a method. -/
structure Cache where
  slot : ℕ → ℕ
  callee : ℕ → ℕ
  field : ℕ → ℕ × ℕ
  method : ℕ → ℕ × ℕ

/-- What the compiler writes. -/
def Cache.cold : Cache where
  slot _ := coldIndex
  callee _ := coldIndex
  field _ := (coldIndex, coldField)
  method _ := (coldIndex, coldIndex)

section Instructions

variable {π ρ : Type}

/-- A field of a struct is set. -/
def Object.setField (index : ℕ) (value : Value π) : Object π → Object π
  | .structInstance typ fields => .structInstance typ (fields.set index value)
  | .smallStructInstance typ v => .smallStructInstance typ (v.set index value)
  | object => object

/-- The variable that a closure has captured is set. -/
def Object.setCell (value : Value π) : Object π → Object π
  | .cell _ => .cell value
  | object => object

/-- `vmPop`. -/
def pop (next : Value π → Handler π ρ) : Handler π ρ :=
  .act (.restack fun state => state.stack.dropLast) fun state =>
    match state.stack.getLast? with
    | none => .raise .stackUnderflow
    | some value => next value

def jump (target : ℕ) (next : Handler π ρ) : Handler π ρ :=
  .act (.quiet (fun state => { state with ip := target })
      fun _ => ⟨rfl, fun _ _ there => there, rfl⟩)
    fun _ => next

/-- `writeFrameLocal`, which writes to the cell of a captured variable. -/
def writeFrameLocal (slot : ℕ) (value : Value π) (next : Handler π ρ) : Handler π ρ :=
  .act .idle fun state =>
    let direct : Handler π ρ :=
      .act (.restack fun state => state.stack.set (state.vmFrameBase + slot) value) fun _ => next
    match state.stack.getD (state.vmFrameBase + slot) .null with
    | .object ref =>
      match state.deref ref with
      | .cell _ => .act (.modify ref (Object.setCell value) fun _ => rfl) fun _ => next
      | _ => direct
    | _ => direct

namespace Vm

variable (vm : Vm π ρ)

/-- `vmPush`. -/
def push (value : Value π) (next : Handler π ρ) : Handler π ρ :=
  .act (.restack fun state =>
      if state.stack.length ≥ vm.stackLen then state.stack else state.stack ++ [value])
    fun state => if state.stack.length ≥ vm.stackLen then .raise .stackOverflow else next

def readLocalSlot (slot : ℕ) (next : Value π → Handler π ρ) : Handler π ρ :=
  .act .idle fun state =>
    if state.vmFrameBase + slot ≥ vm.stackLen then .raise .stackOverflow
    else
      let value := state.stack.getD (state.vmFrameBase + slot) .null
      match value with
      | .object ref =>
        match state.deref ref with
        | .cell inner => next inner
        | _ => next value
      | _ => next value

/-- `readGlobalIC`. -/
def readGlobalIC (site : ℕ) (next : Value π → Handler π ρ) : Handler π ρ :=
  .globalSlot site
    (fun state => .notDefined (vm.globalName site)
      (vm.findSimilarName state.globals (vm.globalName site)))
    fun slot => .act .idle fun state => next (state.globals.getAt .null slot)

/-- `writeGlobalIC`. -/
def writeGlobalIC (site : ℕ) (value : Value π) (next : Handler π ρ) : Handler π ρ :=
  .globalSlot site (fun _ => .notDefined (vm.globalName site) none)
    fun slot => .act (.setGlobal slot value) fun _ => next

/-- A call at the end of an instruction, which may reuse the caller's frame. -/
def callOp (site argc : ℕ) (preverified tail : Bool) : Handler π ρ :=
  if tail then vm.tryTailCall argc preverified (.call site argc preverified)
  else .call site argc preverified

def opSetField (site : ℕ) : Handler π ρ :=
  pop fun value => pop fun raw => .act .idle fun state =>
    match state.unboxNamed raw with
    | .object container =>
      if (state.instanceOf (.object container)).isSome then
        .fieldToSet site container fun index spec =>
          vm.storeField spec value fun checked =>
            .act (.modify container (Object.setField index checked) fun _ => rfl) fun _ => .fetch
      else vm.setOther (vm.fieldName site) raw value
    | _ => vm.setOther (vm.fieldName site) raw value

/-- `execOne`. -/
def execOne : Instr π ρ → Handler π ρ
  | .getGlobal site => vm.readGlobalIC site fun value => vm.push value .fetch
  | .setGlobal site => pop fun value => vm.writeGlobalIC site value .fetch
  | .incGlobalConst site k last =>
    .globalSlot site (fun _ => .notDefined (vm.globalName site) none) fun slot =>
      .act .idle fun state =>
        vm.computeAddResult (state.globals.getAt .null slot) k fun result =>
          .act (.setGlobal slot result) fun _ => last
  | .getGlobalConst site k use => vm.readGlobalIC site fun value => use value k
  | .loop target => jump target .inlineGetGlobal
  | .setGlobalLoop site target =>
    pop fun value => vm.writeGlobalIC site value (jump target .inlineGetGlobal)
  | .call site argc preverified tail => vm.callOp site argc preverified tail
  | .getGlobalCall globalSite site argc preverified tail =>
    vm.readGlobalIC globalSite fun arg => vm.push arg (vm.callOp site argc preverified tail)
  | .callGlobalGlobal funcSite argSite site argc preverified tail =>
    vm.readGlobalIC funcSite fun callee => vm.readGlobalIC argSite fun arg =>
      vm.push callee (vm.push arg (vm.callOp site argc preverified tail))
  | .getLocalConstSubCall slot k site argc preverified tail =>
    vm.readLocalSlot slot fun a => vm.subResult a k fun result =>
      vm.push result (vm.callOp site argc preverified tail)
  | .callGlobalLocalSubConst globalSite slot k site argc preverified tail =>
    vm.readGlobalIC globalSite fun callee => vm.readLocalSlot slot fun a =>
      vm.push callee (vm.subResult a k fun result =>
        vm.push result (vm.callOp site argc preverified tail))
  | .getField site => pop fun raw => .fieldOf .get site raw fun value => vm.push value .fetch
  | .getLocalGetField slot site =>
    vm.readLocalSlot slot fun raw => .fieldOf .localGet site raw fun value =>
      vm.push value .fetch
  | .localAddField dst src site =>
    vm.readLocalSlot src fun raw => .fieldOf .localAdd site raw fun value =>
      vm.readLocalSlot dst fun a => vm.computeAddResult a value fun result =>
        writeFrameLocal dst result .fetch
  | .fieldAddConst slot site k setSite =>
    vm.readLocalSlot slot fun container => vm.push container <|
      vm.readLocalSlot slot fun raw => .fieldOf .localGet site raw fun value =>
        vm.push value <| pop fun a => vm.computeAddResult a k fun result =>
          vm.push result (vm.opSetField setSite)
  | .setField site => vm.opSetField site
  | .invokeMethod site argc => .invoke site argc
  | .other run => .act .idle run

/-- The loop goes on: the tick, and the instruction that is fetched. -/
def dispatch (state : State π ρ) : Outcome π ρ :=
  let ticked := vm.tick state
  match vm.tickError state with
  | some err => (ticked, .raise err)
  | none =>
    let fetched := vm.code ticked.ip
    ({ ticked with ip := fetched.next }, vm.execOne fetched.instr)

/-- `tryInlineGetGlobal`: a global that is remembered is read without a tick. The first of
the steps that read it stands for the lookup. -/
def tryInlineGetGlobal (cache : Cache) (state : State π ρ) : Outcome π ρ :=
  let fetched := vm.code state.ip
  match fetched.instr with
  | .getGlobal site =>
    if cache.slot site ≠ coldIndex then
      ({ state with ip := fetched.next }, .act .idle fun _ => .act .idle fun after =>
          vm.push (after.globals.getAt .null (cache.slot site)) .fetch)
    else vm.dispatch state
  | _ => vm.dispatch state

end Vm

end Instructions

/-- An execution. -/
structure Config (π ρ : Type) where
  state : State π ρ
  handler : Handler π ρ
  cache : Cache

/-- A run begins with cold caches. -/
def Config.start {π ρ : Type} (state : State π ρ) : Config π ρ :=
  ⟨state, .fetch, .cold⟩

/-- The error that an execution ends with, if it does, and the last state. -/
abbrev Result (π ρ : Type) :=
  Option (Error π) × State π ρ

namespace Vm

variable {π ρ : Type} (vm : Vm π ρ)

/-- One step of an execution. -/
def next (config : Config π ρ) : Next (Config π ρ) (Result π ρ) :=
  let ⟨state, handler, cache⟩ := config
  let goes (outcome : Outcome π ρ) (cache : Cache) : Next (Config π ρ) (Result π ρ) :=
    .goes ⟨outcome.1, outcome.2, cache⟩
  match handler with
  | .fetch => goes (vm.dispatch state) cache
  | .halt err => .ends (err, state)
  | .raise err => goes (state, vm.unwind err) cache
  | .act change next => goes (change.apply state, next state) cache
  | .globalSlot site missing found =>
    if cache.slot site ≠ coldIndex then goes (state, found (cache.slot site)) cache
    else
      match state.globals.slotFor (vm.globalName site) with
      | none => goes (state, .raise (missing state)) cache
      | some slot =>
        goes (state, found slot) { cache with slot := Function.update cache.slot site slot }
  | .inlineGetGlobal => goes (vm.tryInlineGetGlobal cache state) cache
  | .call site argc preverified =>
    let called := vm.performCallIC argc preverified (cache.callee site) state
    goes called.1 { cache with callee := Function.update cache.callee site called.2 }
  | .enforce func callee argc index coerced =>
    goes (vm.resumeEnforce func callee argc index coerced state) cache
  | .enterFrame func callee => goes (vm.enterFrame func callee state) cache
  | .fieldOf how site raw next =>
    let read := vm.fieldOf how (vm.fieldName site) (cache.field site) raw next state
    goes read.1 { cache with field := Function.update cache.field site read.2 }
  | .fieldToSet site container found =>
    let set := Vm.fieldToSet (vm.fieldName site) (cache.field site) container found state
    goes set.1 { cache with field := Function.update cache.field site set.2 }
  | .invoke site argc =>
    let invoked := vm.invokeMethod (vm.methodName site) argc (cache.method site) state
    goes invoked.1 { cache with method := Function.update cache.method site invoked.2 }

/-- One step with every cache cold. -/
def nextCold (outcome : Outcome π ρ) : Next (Outcome π ρ) (Result π ρ) :=
  match vm.next ⟨outcome.1, outcome.2, .cold⟩ with
  | .goes config => .goes (config.state, config.handler)
  | .ends result => .ends result

end Vm

/-!
# Inline caches are transparent, up to what they do not check

An execution with the caches and one without go on in lockstep, as long as no step meets one
of the differences between the two ways: a method's global is written, a check of arguments
that is left out would not pass, a table is full, or a tick between two instructions matters.
-/

open Function
open Runs (Reaches Ends finish)

section Agreement

variable {π ρ : Type}

namespace Vm

variable (vm : Vm π ρ)

/-- The condition on a step of an execution with the caches. -/
def Meets (config : Config π ρ) : Prop :=
  match config.handler with
  | .act change _ =>
    ∀ site, MethodKept vm (vm.methodName site) config.state (change.apply config.state)
      (config.cache.method site)
  | .inlineGetGlobal =>
    ∀ site, (vm.code config.state.ip).instr = .getGlobal site →
      config.cache.slot site ≠ coldIndex →
        vm.tickError config.state = none ∧ vm.tick config.state = config.state
  | .call site argc preverified =>
    vm.CallMeets argc preverified (config.cache.callee site) config.state
  | .fieldOf how site raw _ =>
    ∀ inst, config.state.instanceOf raw = some inst →
      vm.fieldHit (config.cache.field site) inst → vm.FieldMeets how config.state
  | _ => True

/-- Every step of the run from a state meets the condition. -/
def AlwaysMeets (state : State π ρ) : Prop :=
  ∀ config, Reaches vm.next (.start state) config → vm.Meets config

/-- A run with the caches ends as the one without does, and passes through the same states. -/
def Transparent (state : State π ρ) : Prop :=
  (∀ result, Ends vm.next (.start state) result ↔ Ends vm.nextCold (state, .fetch) result) ∧
    ∀ passed, (∃ config, Reaches vm.next (.start state) config ∧ config.state = passed) ↔
      ∃ outcome, Reaches vm.nextCold (state, .fetch) outcome ∧ outcome.1 = passed

/-- What the caches remember is so. -/
structure Fits (config : Config π ρ) : Prop where
  slot : ∀ site, config.cache.slot site ≠ coldIndex →
    config.state.globals.slotFor (vm.globalName site) = some (config.cache.slot site)
  field : ∀ site, FieldFits (vm.fieldName site) config.state (config.cache.field site)
  method : ∀ site, MethodFits vm (vm.methodName site) config.state (config.cache.method site)

/-- The same is left to do, or a slot that is looked up is already known. -/
inductive SameWork (globals : Globals (Value π)) : Handler π ρ → Handler π ρ → Prop
  | refl (handler : Handler π ρ) : SameWork globals handler handler
  | known {site slot : ℕ} (missing : State π ρ → Error π) (found : ℕ → Handler π ρ) :
      globals.slotFor (vm.globalName site) = some slot →
        SameWork globals (.act .idle fun _ => found slot) (.globalSlot site missing found)

/-- An execution with the caches, and where the one without is. -/
structure Agrees (config : Config π ρ) (outcome : Outcome π ρ) : Prop where
  state : config.state = outcome.1
  fits : vm.Fits config
  work : vm.SameWork config.state.globals config.handler outcome.2

end Vm

variable {vm : Vm π ρ} {state after : State π ρ} {handler : Handler π ρ} {cache : Cache}
  {config : Config π ρ}

theorem methodKept_of_globals_eq {name : Bytecode.Bytes} {entry : ℕ × ℕ}
    (same : after.globals = state.globals) : MethodKept vm name state after entry :=
  fun _ _ _ _ _ => by rw [same]

theorem fits_cold (state : State π ρ) (handler : Handler π ρ) :
    vm.Fits ⟨state, handler, .cold⟩ where
  slot _ warm := absurd rfl warm
  field site := fieldFits_cold (vm.fieldName site) state
  method site := methodFits_cold (vm.methodName site) state

section

variable (fits : vm.Fits ⟨state, handler, cache⟩)
include fits

theorem Vm.Fits.of_keeps {handler' : Handler π ρ} (keeps : Keeps state after)
    (kept : ∀ site, MethodKept vm (vm.methodName site) state after (cache.method site)) :
    vm.Fits ⟨after, handler', cache⟩ where
  slot site warm := keeps.globals.slotFor (fits.slot site warm)
  field site := (fits.field site).of_keeps keeps
  method site := (fits.method site).of_keeps keeps (kept site)

theorem Vm.Fits.of_quiet {handler' : Handler π ρ} (quiet : Quiet state after) :
    vm.Fits ⟨after, handler', cache⟩ :=
  fits.of_keeps quiet.keeps fun _ => methodKept_of_globals_eq quiet.globals

theorem Vm.Fits.patchCallee {site index : ℕ} :
    vm.Fits ⟨state, handler, { cache with callee := Function.update cache.callee site index }⟩ :=
  ⟨fits.slot, fits.field, fits.method⟩

theorem Vm.Fits.patchSlot {site slot : ℕ}
    (found : state.globals.slotFor (vm.globalName site) = some slot) :
    vm.Fits ⟨state, handler, { cache with slot := Function.update cache.slot site slot }⟩ where
  slot other warm := by
    by_cases same : other = site
    · subst same
      dsimp only
      rwa [update_self]
    · dsimp only at warm ⊢
      rw [update_of_ne same] at warm ⊢
      exact fits.slot other warm
  field := fits.field
  method := fits.method

theorem Vm.Fits.patchField {site : ℕ} {entry : ℕ × ℕ}
    (fieldFits : FieldFits (vm.fieldName site) state entry) :
    vm.Fits ⟨state, handler, { cache with field := Function.update cache.field site entry }⟩ where
  slot := fits.slot
  field other := by
    by_cases same : other = site
    · subst same
      dsimp only
      rwa [update_self]
    · dsimp only
      rw [update_of_ne same]
      exact fits.field other
  method := fits.method

theorem Vm.Fits.patchMethod {site : ℕ} {entry : ℕ × ℕ}
    (methodFits : MethodFits vm (vm.methodName site) state entry) :
    vm.Fits ⟨state, handler, { cache with method := Function.update cache.method site entry }⟩ where
  slot := fits.slot
  field := fits.field
  method other := by
    by_cases same : other = site
    · subst same
      dsimp only
      rwa [update_self]
    · dsimp only
      rw [update_of_ne same]
      exact fits.method other

end

theorem quiet_dispatch (state : State π ρ) : Quiet state (vm.dispatch state).1 := by
  have ticked := vm.quiet_tick state
  rw [Vm.dispatch]
  cases vm.tickError state with
  | some err => exact ticked
  | none => exact ⟨ticked.globals, ticked.structTypes, ticked.template⟩

theorem agree_of_eq {outcome : Outcome π ρ} {cache' : Cache} {state : State π ρ}
    {handler' : Handler π ρ}
    (fits : vm.Fits ⟨state, handler', cache'⟩) (eq : (state, handler') = outcome) :
    Next.Matches vm.Agrees (.goes ⟨state, handler', cache'⟩ : Next (Config π ρ) (Result π ρ))
      (.goes outcome) := by
  subst eq
  exact .goes ⟨rfl, fits, .refl _⟩

theorem next_known {site slot : ℕ} (missing : State π ρ → Error π) (found : ℕ → Handler π ρ)
    (fits : vm.Fits ⟨state, handler, cache⟩)
    (there : state.globals.slotFor (vm.globalName site) = some slot) :
    Next.Matches vm.Agrees (vm.next ⟨state, .act .idle fun _ => found slot, cache⟩)
      (vm.nextCold (state, .globalSlot site missing found)) := by
  have cold : vm.nextCold (state, .globalSlot site missing found) = .goes (state, found slot) := by
    simp [Vm.nextCold, Vm.next, Cache.cold, there]
  rw [cold]
  exact agree_of_eq (fits.of_quiet (Quiet.refl state)) rfl

/-- The global is read in place of the tick and the instruction that reads it. -/
theorem next_inlineGetGlobal (fits : vm.Fits ⟨state, .inlineGetGlobal, cache⟩)
    (meets : vm.Meets ⟨state, .inlineGetGlobal, cache⟩) :
    Next.Matches vm.Agrees (vm.next ⟨state, .inlineGetGlobal, cache⟩)
      (vm.nextCold (state, .inlineGetGlobal)) := by
  have cold : vm.nextCold (state, .inlineGetGlobal) = .goes (vm.dispatch state) := by
    have tried : vm.tryInlineGetGlobal .cold state = vm.dispatch state := by
      rw [Vm.tryInlineGetGlobal]
      split
      · exact if_neg fun warm => warm rfl
      · rfl
    simp [Vm.nextCold, Vm.next, tried]
  rw [cold]
  have dispatched : Next.Matches vm.Agrees
      (.goes ⟨(vm.dispatch state).1, (vm.dispatch state).2, cache⟩ :
        Next (Config π ρ) (Result π ρ)) (.goes (vm.dispatch state)) :=
    agree_of_eq (fits.of_quiet (quiet_dispatch state)) rfl
  simp only [Vm.next, Vm.tryInlineGetGlobal]
  cases instr : (vm.code state.ip).instr with
  | getGlobal site =>
    dsimp only
    split_ifs with warm
    · rcases meets site instr warm with ⟨noError, unticked⟩
      have there := fits.slot site warm
      rw [Vm.dispatch, noError, unticked]
      dsimp only
      rw [instr]
      refine .goes ⟨rfl, fits.of_quiet ⟨rfl, fun _ _ there => there, rfl⟩, ?_⟩
      exact .known _ (fun slot => .act .idle fun after =>
        vm.push (after.globals.getAt .null slot) .fetch) there
    · exact dispatched
  | _ => exact dispatched

theorem next_agrees (fits : vm.Fits ⟨state, handler, cache⟩)
    (meets : vm.Meets ⟨state, handler, cache⟩) :
    Next.Matches vm.Agrees (vm.next ⟨state, handler, cache⟩) (vm.nextCold (state, handler)) := by
  cases handler with
  | fetch => exact agree_of_eq (fits.of_quiet (quiet_dispatch state)) rfl
  | halt err => exact .ends (err, state)
  | raise err => exact agree_of_eq (fits.of_quiet (Quiet.refl state)) rfl
  | act change next => exact agree_of_eq (fits.of_keeps (change.keeps state) meets) rfl
  | globalSlot site missing found =>
    have known := fits.slot site
    simp only [Vm.nextCold, Vm.next, Cache.cold, ne_eq, not_true_eq_false, if_false]
    split_ifs with warm
    · have warm' : cache.slot site = coldIndex := warm
      cases there : state.globals.slotFor (vm.globalName site) with
      | none => exact agree_of_eq (fits.of_quiet (Quiet.refl state)) rfl
      | some slot =>
        exact agree_of_eq ((fits.of_quiet (Quiet.refl state)).patchSlot there) rfl
    · rw [known warm]
      exact agree_of_eq (fits.of_quiet (Quiet.refl state)) rfl
  | inlineGetGlobal => exact next_inlineGetGlobal fits meets
  | call site argc preverified =>
    have called := performCallIC_fst meets
    have cold : (vm.performCallIC argc preverified coldIndex state).1 =
        vm.performCall argc state := performCallIC_cold argc preverified state
    have quiet : Quiet state (vm.performCall argc state).1 := quiet_performCall argc state
    rw [← called] at quiet
    exact agree_of_eq (fits.of_quiet quiet).patchCallee (called.trans cold.symm)
  | enforce func callee argc index coerced =>
    exact agree_of_eq (fits.of_quiet (quiet_resumeEnforce coerced state)) rfl
  | enterFrame func callee =>
    exact agree_of_eq (fits.of_quiet (quiet_enterFrame func callee state)) rfl
  | fieldOf how site raw next =>
    let name := vm.fieldName site
    let entry := cache.field site
    have read : (vm.fieldOf how name entry raw next state).1 =
        (vm.fieldOf how name (coldIndex, coldField) raw next state).1 :=
      fieldOf_eq (fits.field site) meets
    have patched : FieldFits name state (vm.fieldOf how name entry raw next state).2 :=
      fieldFits_fieldOf how raw (fits.field site)
    have quiet : Quiet state (vm.fieldOf how name entry raw next state).1.1 :=
      quiet_fieldOf how raw
    exact agree_of_eq ((fits.of_quiet quiet).patchField (patched.of_keeps quiet.keeps)) read
  | fieldToSet site container found =>
    let name := vm.fieldName site
    let entry := cache.field site
    have set : (Vm.fieldToSet name entry container found state).1 =
        (Vm.fieldToSet name (coldIndex, coldField) container found state).1 :=
      fieldToSet_eq (fits.field site)
    have patched : FieldFits name state (Vm.fieldToSet name entry container found state).2 :=
      fieldFits_fieldToSet (fits.field site)
    have quiet : Quiet state (Vm.fieldToSet name entry container found state).1.1 :=
      quiet_fieldToSet
    exact agree_of_eq ((fits.of_quiet quiet).patchField (patched.of_keeps quiet.keeps)) set
  | invoke site argc =>
    have invoked := invokeMethod_eq argc (fits.method site)
    have quiet : Quiet state
        (vm.invokeMethod (vm.methodName site) argc (cache.method site) state).1.1 :=
      quiet_invokeMethod argc state
    have patched := methodFits_invokeMethod argc (fits.method site)
    exact agree_of_eq ((fits.of_quiet quiet).patchMethod (patched.of_quiet quiet)) invoked

theorem matches_of_agrees {outcome : Outcome π ρ} (agrees : vm.Agrees config outcome)
    (meets : vm.Meets config) : Next.Matches vm.Agrees (vm.next config) (vm.nextCold outcome) := by
  rcases config with ⟨state, handler, cache⟩
  rcases outcome with ⟨state', handler'⟩
  rcases agrees with ⟨rfl, fits, work⟩
  cases work with
  | refl handler => exact next_agrees fits meets
  | known missing found there => exact next_known missing found fits there

/-- Where every step meets the condition, the caches are transparent. -/
theorem transparent_of_alwaysMeets (state : State π ρ) (meets : vm.AlwaysMeets state) :
    vm.Transparent state := by
  have begins : vm.Agrees (.start state) (state, .fetch) :=
    ⟨rfl, fits_cold state .fetch, .refl _⟩
  have lockstep : ∀ config outcome, Reaches vm.next (.start state) config →
      vm.Agrees config outcome → Next.Matches vm.Agrees (vm.next config) (vm.nextCold outcome) :=
    fun config outcome reaches agrees => matches_of_agrees agrees (meets config reaches)
  constructor
  · exact Runs.ends_iff_of_lockstep lockstep begins
  · intro passed
    constructor
    · rintro ⟨config, reaches, rfl⟩
      rcases reaches.related lockstep begins with ⟨outcome, reachesCold, agrees⟩
      exact ⟨outcome, reachesCold, agrees.state.symm⟩
    · rintro ⟨outcome, reachesCold, rfl⟩
      rcases reachesCold.related_symm lockstep begins with ⟨config, reaches, agrees⟩
      exact ⟨config, reaches, agrees.state⟩

end Agreement

section Runs

variable {π ρ : Type} {vm : Vm π ρ}

/-- The run from an execution ends after fewer steps than the fuel, and they all meet the
condition. -/
def Vm.MeetsFor (vm : Vm π ρ) : ℕ → Config π ρ → Prop
  | 0, _ => False
  | fuel + 1, config =>
    vm.Meets config ∧
      match vm.next config with
      | .goes after => MeetsFor vm fuel after
      | .ends _ => True

theorem meets_of_meetsFor (fuel : ℕ) {config reached : Config π ρ}
    (meets : vm.MeetsFor fuel config) (reaches : Reaches vm.next config reached) :
    vm.Meets reached := by
  induction fuel generalizing config with
  | zero => cases meets
  | succ fuel ih =>
    rw [Vm.MeetsFor] at meets
    cases step : vm.next config with
    | goes after =>
      rw [step] at meets
      rcases reaches.tail step with rfl | further
      · exact meets.1
      · exact ih meets.2 further
    | ends result =>
      rw [reaches.eq_of_ends step]
      exact meets.1

open Bytecode (literal)

/-- An interpreter that runs a program, without a budget and without types to be checked. -/
def plainVm (code : ℕ → Fetched ℕ (List ℕ)) (name : Bytecode.Bytes) : Vm ℕ (List ℕ) where
  code := code
  globalName _ := name
  fieldName _ := name
  methodName _ := name
  maxObjects := coldIndex
  stackLen := 256
  framesLen := 64
  maxObjects_le := le_rfl
  tick state := state
  tickError _ := none
  quiet_tick := Quiet.refl
  unwind err := .halt (some err)
  findSimilarName _ _ := none
  isModuleNamespaceStruct _ := false
  matchesTypeAlt _ _ _ := true
  reify _ _ state := (state, .ok none)
  quiet_reify _ _ state := Quiet.refl state
  constructNamed _ _ next := next none
  prepareVariadicCall _ _ next := next
  callOther _ _ := .raise .notAFunction
  tryTailCall _ _ next := next
  otherField _ _ _ _ := .raise (.other 0)
  setOther _ _ _ := .raise (.other 0)
  storeField _ value next := next value
  invokeOther _ _ := .raise .notAMethodReceiver
  computeAddResult a _ next := next a
  subResult a _ next := next a

/-- A function without parameter types whose body begins at `ip`. -/
def plainFunc (ip arity : ℕ) : FuncObj ℕ where
  ip := ip
  arity := arity
  isVariadic := false
  variadicType := []
  paramTypes := []
  hasTypedParams := false
  hasTypedReturns := false
  returnsProven := false
  namedReturnCount := 0
  name := []
  defaults := []
  maxStack := 1

/-- The output is extended, and the innermost frame is left. -/
def emitAndReturn (output : ℕ) : Handler ℕ (List ℕ) :=
  .act (.quiet (fun state =>
      { state with
        rest := state.rest ++ [output]
        stack := state.stack.take (state.vmFrameBase - 1)
        ip := (state.frames.head?.map Frame.retIp).getD 0
        frames := state.frames.tail }) fun _ => ⟨rfl, fun _ _ there => there, rfl⟩)
    fun _ => .fetch

/-- The index of a pool object. -/
def poolObject (index : ℕ) (inside : index < coldIndex) : Value ℕ :=
  .object (.pool ⟨index, inside⟩)

/-- `for i in [1, 2] { func (t T) get() { ... i ... } t.get() }`: in each round the method is
another closure. -/
def redefinedMethod : ℕ → Fetched ℕ (List ℕ)
  | 0 => ⟨.other fun state =>
    .act (.defGlobal (literal "T.get")
      (if state.rest.length = 0 then poolObject 1 (by decide) else poolObject 2 (by decide)))
    fun _ => .fetch, 1⟩
  | 1 => ⟨.other fun _ =>
    .act (.restack fun state => state.stack ++ [poolObject 3 (by decide)]) fun _ => .fetch, 2⟩
  | 2 => ⟨.invokeMethod 0 0, 3⟩
  | 3 => ⟨.other fun state => if state.rest.length < 2 then jump 0 .fetch else .halt none, 4⟩
  | 10 => ⟨.other fun _ => emitAndReturn 1, 11⟩
  | 11 => ⟨.other fun _ => emitAndReturn 2, 12⟩
  | _ => ⟨.other fun _ => .halt none, 0⟩

/-- The type, the two closures and an instance are in the pool. -/
def methodState : State ℕ (List ℕ) where
  globals := .empty
  pool index :=
    match (index : ℕ) with
    | 0 => .structType ⟨literal "T", literal "T", []⟩
    | 1 => .closure (plainFunc 10 1)
    | 2 => .closure (plainFunc 11 1)
    | 3 => .smallStructInstance (.pool ⟨0, by decide⟩) []
    | _ => .other 0
  template := ⟨[], [], []⟩
  outside _ := .other 0
  stack := []
  frames := []
  tempRootTop := 0
  deferTop := 0
  ip := 0
  rest := []

/-- The caches are not transparent: the second call finds the first closure. -/
theorem not_cachesTransparent :
    ¬ (plainVm redefinedMethod (literal "get")).Transparent methodState := by
  intro transparent
  have warm : (finish (plainVm redefinedMethod (literal "get")).next 40
      (.start methodState)).map (fun result => result.2.rest) = some [1, 1] := by decide +kernel
  have cold : (finish (plainVm redefinedMethod (literal "get")).nextCold 40
      (methodState, .fetch)).map (fun result => result.2.rest) = some [1, 2] := by decide +kernel
  rcases Option.map_eq_some_iff.mp warm with ⟨result, finished, output⟩
  rcases Option.map_eq_some_iff.mp cold with ⟨result', finished', output'⟩
  have ends := (transparent.1 result).mp (Runs.ends_of_finish finished)
  rw [ends.unique (Runs.ends_of_finish finished'), output'] at output
  cases output

/-- A global is read, and once more. -/
def twoReads : ℕ → Fetched ℕ (List ℕ)
  | 0 => ⟨.getGlobal 0, 1⟩
  | 1 => ⟨.other fun state => if state.stack.length < 2 then jump 0 .fetch else .halt none, 2⟩
  | _ => ⟨.other fun _ => .halt none, 0⟩

/-- A state in which the global `x` is defined. -/
def globalState : State ℕ (List ℕ) :=
  { methodState with
    globals := (Globals.empty.define (literal "x") (.plain 5)).getD .empty }

/-- The second read finds the slot in the cache. -/
theorem transparent_twoReads : (plainVm twoReads (literal "x")).Transparent globalState := by
  refine transparent_of_alwaysMeets _ fun config reaches => meets_of_meetsFor 14 ?_ reaches
  have quiet : ∀ {state after : State ℕ (List ℕ)} {entries : ℕ → ℕ × ℕ},
      after.globals = state.globals → ∀ site : ℕ,
        MethodKept (plainVm twoReads (literal "x")) (literal "x") state after (entries site) :=
    fun same _ => methodKept_of_globals_eq same
  exact ⟨trivial, trivial, quiet rfl, quiet rfl, trivial, quiet rfl, quiet rfl, trivial, trivial,
    quiet rfl, quiet rfl, trivial, quiet rfl, trivial, trivial⟩

end Runs

end Gengo.Caches
