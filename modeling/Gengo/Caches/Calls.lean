import Gengo.Caches.State

/-!
# Calls

A call checks its arguments against the parameters' types and enters a frame. A site whose
cache holds the callee's index in the pool takes a shorter way: it checks less when the
arguments were proved to have their types, and in another order when the callee's parameter
types are the kinds that can be checked in place.
-/

namespace Gengo.Caches

open Bytecode (FieldTypeAlt FieldTypeSpec)

def isPrimitiveTypeSpec : FieldTypeSpec → Bool
  | [alt] =>
    match alt with
    | .int | .float | .decimalT | .boolean | .nullT | .runeT | .string => true
    | _ => false
  | _ => false

/-- `isInlinableExtraTypeSpec`, of a type with one alternative. -/
def isInlinableExtraTypeSpec : FieldTypeSpec → Bool
  | [alt] =>
    match alt with
    | .structT _ _ | .interfaceT _ | .variantT _ _ => true
    | _ => false
  | _ => false

def isInlinableTypeSpec (spec : FieldTypeSpec) : Bool :=
  isPrimitiveTypeSpec spec || isInlinableExtraTypeSpec spec

/-- What `coerceErasedValueForSpec` has to do. -/
inductive Coercion
  | none
  | named (name : Bytecode.Bytes)
  | interface (name : Bytecode.Bytes)

section Types

variable {π : Type}

/-- A value that is neither an object nor an inline variant may be converted. -/
def coercion (spec : FieldTypeSpec) (arg : Value π) : Coercion :=
  match arg, spec with
  | .object _, _ => .none
  | .inlineVariant _, _ => .none
  | _, [.namedT name] => .named name
  | _, [.interfaceT name] => .interface name
  | _, _ => .none

namespace FuncObj

variable (func : FuncObj π)

def canInlinePrimitiveArgs (argc : ℕ) : Bool :=
  func.hasTypedParams && !func.isVariadic && func.defaults.isEmpty && func.arity == argc &&
    (func.paramTypes.take func.arity).all isInlinableTypeSpec

/-- The parameters whose types the arguments of a call are checked against. -/
def argSpecs (argc : ℕ) : List FieldTypeSpec :=
  if func.isVariadic then
    func.paramTypes.take (func.arity - 1) ++
      List.replicate (argc - (func.arity - 1)) func.variadicType
  else func.paramTypes.take func.arity

/-- A call that a site may remember: it needs no more than a check of its arguments. -/
def cacheable (argc : ℕ) : Bool :=
  !func.isVariadic && func.defaults.isEmpty && func.arity == argc &&
    (!func.hasTypedParams || func.canInlinePrimitiveArgs argc)

end FuncObj

end Types

/-- What is left to do in a state. -/
abbrev Outcome (π ρ : Type) :=
  State π ρ × Handler π ρ

namespace Vm

variable {π ρ : Type} (vm : Vm π ρ)

def matchesTypeSpec (state : State π ρ) (value : Value π) (spec : FieldTypeSpec) : Bool :=
  spec.any fun alt => vm.matchesTypeAlt state value alt

/-- The end of `enterFunctionFrame`. -/
def enterFrame (func : FuncObj π) (callee : Ref) (state : State π ρ) : Outcome π ρ :=
  if state.frames.length ≥ vm.framesLen then (state, .raise .callStackOverflow)
  else if state.stack.length + func.maxStack > vm.stackLen then (state, .raise .stackOverflow)
  else
    ({ state with
        frames := {
          retIp := state.ip
          base := state.stack.length - func.arity
          callee := callee
          deferBase := state.deferTop
          hasTypedReturns := func.hasTypedReturns && !func.returnsProven
          namedReturnCount := func.namedReturnCount
          funcArity := func.arity } :: state.frames
        ip := func.ip }, .fetch)

/-- `prepareVariadicCall` and what follows it. -/
def enterPrepared (func : FuncObj π) (callee : Ref) (argc : ℕ) (state : State π ρ) : Outcome π ρ :=
  if func.isVariadic then
    (state, vm.prepareVariadicCall func argc (.enterFrame func callee))
  else vm.enterFrame func callee state

/-- `enforceFuncArgTypes` from a parameter on, and what follows it. -/
def enforceFrom (func : FuncObj π) (callee : Ref) (argc : ℕ) :
    List FieldTypeSpec → ℕ → State π ρ → Outcome π ρ
  | [], _, state => vm.enterPrepared func callee argc state
  | spec :: specs, index, state =>
    let arg := state.fromTop (argc - index)
    match coercion spec arg with
    | .named name =>
      (state, vm.constructNamed name arg fun coerced =>
        .enforce func callee argc index coerced)
    | .interface name =>
      match vm.reify name arg state with
      | (after, .error err) => (after, .raise err)
      | (after, .ok coerced) =>
        let after' :=
          match coerced with
          | none => after
          | some value => after.setFromTop (argc - index) value
        if vm.matchesTypeSpec after' (coerced.getD arg) spec then
          enforceFrom func callee argc specs (index + 1) after'
        else (after', .raise (.argType func index spec (coerced.getD arg)))
    | .none =>
      if vm.matchesTypeSpec state arg spec then
        enforceFrom func callee argc specs (index + 1) state
      else (state, .raise (.argType func index spec arg))

/-- The checks go on after an argument of a named type has been converted, or not. -/
def resumeEnforce (func : FuncObj π) (callee : Ref) (argc index : ℕ)
    (coerced : Option (Value π)) (state : State π ρ) : Outcome π ρ :=
  match (func.argSpecs argc).drop index with
  | [] => vm.enterPrepared func callee argc state
  | spec :: specs =>
    match coerced with
    | some value =>
      vm.enforceFrom func callee argc specs (index + 1) (state.setFromTop (argc - index) value)
    | none =>
      let arg := state.fromTop (argc - index)
      if vm.matchesTypeSpec state arg spec then
        vm.enforceFrom func callee argc specs (index + 1) state
      else (state, .raise (.argType func index spec arg))

/-- `enforceFuncArgTypes`, and what follows it. -/
def enforceFuncArgTypes (func : FuncObj π) (callee : Ref) (argc : ℕ) (state : State π ρ) :
    Outcome π ρ :=
  if func.hasTypedParams then vm.enforceFrom func callee argc (func.argSpecs argc) 0 state
  else vm.enterPrepared func callee argc state

/-- The default values are pushed one after the other. -/
def pushDefaults : List (Value π) → State π ρ → State π ρ × Bool
  | [], state => (state, true)
  | value :: values, state =>
    if state.stack.length ≥ vm.stackLen then (state, false)
    else pushDefaults values { state with stack := state.stack ++ [value] }

def enterFunctionFrame (func : FuncObj π) (callee : Ref) (argc : ℕ) (state : State π ρ) :
    Outcome π ρ :=
  if func.isVariadic then
    if argc < func.arity - 1 then (state, .raise (.arityMismatch func argc))
    else vm.enforceFuncArgTypes func callee argc state
  else if func.arity = argc then vm.enforceFuncArgTypes func callee argc state
  else if func.defaults ≠ [] ∧ func.arity - func.defaults.length ≤ argc ∧ argc < func.arity then
    let firstDefaultParam := func.arity - func.defaults.length
    match vm.pushDefaults (func.defaults.drop (argc - firstDefaultParam)) state with
    | (after, true) => vm.enforceFuncArgTypes func callee func.arity after
    | (after, false) => (after, .raise .stackOverflow)
  else (state, .raise (.arityMismatch func argc))

def performCall (argc : ℕ) (state : State π ρ) : Outcome π ρ :=
  if state.stack.length < argc + 1 then (state, .raise .stackUnderflow)
  else
    match state.fromTop (argc + 1) with
    | .object callee =>
      match state.deref callee with
      | .function func => vm.enterFunctionFrame func callee argc state
      | .closure func => vm.enterFunctionFrame func callee argc state
      | _ => (state, vm.callOther callee argc)
    | _ => (state, .raise .notAFunction)

/-- `enforcePrimitiveFuncArgTypes` from a parameter on, and what follows it. -/
def enforcePrimitiveFrom (func : FuncObj π) (callee : Ref) (argc : ℕ) :
    List FieldTypeSpec → ℕ → State π ρ → Outcome π ρ
  | [], _, state => vm.enterFrame func callee state
  | spec :: specs, index, state =>
    let arg := state.fromTop (argc - index)
    if isPrimitiveTypeSpec spec then
      if vm.matchesTypeSpec state arg spec then
        enforcePrimitiveFrom func callee argc specs (index + 1) state
      else (state, .raise (.argType func index spec arg))
    else if isInlinableExtraTypeSpec spec then
      match coercion spec arg with
      | .interface name =>
        match vm.reify name arg state with
        | (after, .error err) => (after, .raise err)
        | (after, .ok coerced) =>
          let after' :=
            match coerced with
            | none => after
            | some value => after.setFromTop (argc - index) value
          if vm.matchesTypeSpec after' (coerced.getD arg) spec then
            enforcePrimitiveFrom func callee argc specs (index + 1) after'
          else (after', .raise (.argType func index spec (coerced.getD arg)))
      | _ =>
        if vm.matchesTypeSpec state arg spec then
          enforcePrimitiveFrom func callee argc specs (index + 1) state
        else (state, .raise (.argType func index spec arg))
    else vm.enforceFuncArgTypes func callee argc state

/-- `enterFunctionFrameWarm`. -/
def enterFunctionFrameWarm (func : FuncObj π) (callee : Ref) (argc : ℕ) (preverified : Bool)
    (state : State π ρ) : Outcome π ρ :=
  if func.arity ≠ argc ∨ func.isVariadic ∨ func.defaults ≠ [] then
    vm.enterFunctionFrame func callee argc state
  else if func.hasTypedParams ∧ ¬ preverified then
    vm.enforcePrimitiveFrom func callee argc (func.paramTypes.take func.arity) 0 state
  else vm.enterFrame func callee state

/-- The index that a call leaves in the cache of its site. -/
def calleeIndex (argc : ℕ) (state : State π ρ) : Option ℕ :=
  match state.fromTop (argc + 1) with
  | .object callee =>
    if State.objectPoolIndex callee = coldIndex then none
    else
      match state.deref callee with
      | .function func =>
        if func.cacheable argc then some (State.objectPoolIndex callee) else none
      | .closure func =>
        if func.cacheable argc then some (State.objectPoolIndex callee) else none
      | _ => none
  | _ => none

/-- What the cache of a call holds after a call that went the long way. -/
def warmedCallee (argc index : ℕ) (state : State π ρ) (outcome : Outcome π ρ) : ℕ :=
  match outcome.2 with
  | .raise _ => index
  | _ => if index = coldIndex then (calleeIndex argc state).getD index else index

/-- `performCallIC`, with what its cache holds before and after. -/
def performCallIC (argc : ℕ) (preverified : Bool) (index : ℕ) (state : State π ρ) :
    Outcome π ρ × ℕ :=
  if state.stack.length < argc + 1 then ((state, .raise .stackUnderflow), index)
  else
    match state.fromTop (argc + 1) with
    | .object callee =>
      if index ≠ coldIndex ∧ State.objectAt index = some callee then
        match state.deref callee with
        | .function func =>
          (vm.enterFunctionFrameWarm func callee argc preverified state, index)
        | .closure func =>
          (vm.enterFunctionFrameWarm func callee argc preverified state, index)
        | _ => (vm.performCall argc state, index)
      else
        let outcome := vm.performCall argc state
        (outcome, warmedCallee argc index state outcome)
    | _ => (vm.performCall argc state, index)

end Vm

section Quiet

variable {π ρ : Type} {vm : Vm π ρ} {func : FuncObj π} {callee : Ref} {argc index : ℕ}
  {state : State π ρ}

theorem quiet_setFromTop (state : State π ρ) (depth : ℕ) (value : Value π) :
    Quiet state (state.setFromTop depth value) :=
  quiet_restack state _

theorem quiet_enterFrame (func : FuncObj π) (callee : Ref) (state : State π ρ) :
    Quiet state (vm.enterFrame func callee state).1 := by
  rw [Vm.enterFrame]
  split_ifs
  · exact Quiet.refl state
  · exact Quiet.refl state
  · exact ⟨rfl, fun _ _ there => there, rfl⟩

theorem quiet_enterPrepared (func : FuncObj π) (callee : Ref) (argc : ℕ) (state : State π ρ) :
    Quiet state (vm.enterPrepared func callee argc state).1 := by
  rw [Vm.enterPrepared]
  split_ifs
  · exact Quiet.refl state
  · exact quiet_enterFrame func callee state

/-- The value that an argument has been converted to takes its place. -/
theorem quiet_reified (vm : Vm π ρ) (state : State π ρ) (name : Bytecode.Bytes)
    (arg : Value π) (depth : ℕ) (coerced : Option (Value π)) :
    Quiet state (match coerced with
      | none => (vm.reify name arg state).1
      | some value => (vm.reify name arg state).1.setFromTop depth value) := by
  have reified := vm.quiet_reify name arg state
  cases coerced with
  | none => exact reified
  | some value => exact reified.trans (quiet_setFromTop _ depth value)

theorem quiet_enforceFrom (specs : List FieldTypeSpec) (index : ℕ) (state : State π ρ) :
    Quiet state (vm.enforceFrom func callee argc specs index state).1 := by
  induction specs generalizing index state with
  | nil => exact quiet_enterPrepared func callee argc state
  | cons spec specs ih =>
    rw [Vm.enforceFrom]
    cases coercion spec (state.fromTop (argc - index)) with
    | none =>
      split_ifs
      · exact ih (index + 1) state
      · exact Quiet.refl state
    | named name => exact Quiet.refl state
    | interface name =>
      have reified := quiet_reified vm state name (state.fromTop (argc - index)) (argc - index)
      dsimp only
      generalize vm.reify name (state.fromTop (argc - index)) state = result at reified
      rcases result with ⟨after, err | coerced⟩
      · exact reified none
      · dsimp only
        split_ifs
        · exact (reified coerced).trans (ih (index + 1) _)
        · exact reified coerced

theorem quiet_resumeEnforce (coerced : Option (Value π)) (state : State π ρ) :
    Quiet state (vm.resumeEnforce func callee argc index coerced state).1 := by
  rw [Vm.resumeEnforce]
  split
  · exact quiet_enterPrepared func callee argc state
  · split
    · exact (quiet_setFromTop state _ _).trans (quiet_enforceFrom _ _ _)
    · dsimp only
      split_ifs
      · exact quiet_enforceFrom _ _ state
      · exact Quiet.refl state

theorem quiet_enforceFuncArgTypes (func : FuncObj π) (callee : Ref) (argc : ℕ)
    (state : State π ρ) : Quiet state (vm.enforceFuncArgTypes func callee argc state).1 := by
  rw [Vm.enforceFuncArgTypes]
  split_ifs
  · exact quiet_enforceFrom _ _ state
  · exact quiet_enterPrepared func callee argc state

theorem quiet_pushDefaults (vm : Vm π ρ) (values : List (Value π)) (state : State π ρ) :
    Quiet state (vm.pushDefaults values state).1 := by
  induction values generalizing state with
  | nil => exact Quiet.refl state
  | cons value values ih =>
    rw [Vm.pushDefaults]
    split_ifs
    · exact Quiet.refl state
    · exact (quiet_restack state _).trans (ih _)

theorem quiet_enterFunctionFrame (func : FuncObj π) (callee : Ref) (argc : ℕ)
    (state : State π ρ) : Quiet state (vm.enterFunctionFrame func callee argc state).1 := by
  rw [Vm.enterFunctionFrame]
  split_ifs
  · exact Quiet.refl state
  · exact quiet_enforceFuncArgTypes func callee argc state
  · exact quiet_enforceFuncArgTypes func callee argc state
  · have pushed := quiet_pushDefaults vm
      (func.defaults.drop (argc - (func.arity - func.defaults.length))) state
    dsimp only
    split
    · rename_i after eq
      rw [eq] at pushed
      exact pushed.trans (quiet_enforceFuncArgTypes func callee func.arity after)
    · rename_i after eq
      rw [eq] at pushed
      exact pushed
  · exact Quiet.refl state

theorem quiet_performCall (argc : ℕ) (state : State π ρ) :
    Quiet state (vm.performCall argc state).1 := by
  rw [Vm.performCall]
  split_ifs
  · exact Quiet.refl state
  · split
    · split
      · exact quiet_enterFunctionFrame _ _ argc state
      · exact quiet_enterFunctionFrame _ _ argc state
      · exact Quiet.refl state
    · exact Quiet.refl state

end Quiet

section Agreement

variable {π ρ : Type} {vm : Vm π ρ} {func : FuncObj π} {callee : Ref} {argc index : ℕ}
  {state : State π ρ}

namespace Vm

variable (vm : Vm π ρ)

/-- An argument has its parameter's type as it is. -/
def Passes (state : State π ρ) (arg : Value π) (spec : FieldTypeSpec) : Prop :=
  (match coercion spec arg with
    | .none => True
    | .named _ => False
    | .interface name => vm.reify name arg state = (state, .ok none)) ∧
  vm.matchesTypeSpec state arg spec

/-- The arguments from a parameter on have their types as they are. -/
def AllPass (argc : ℕ) (state : State π ρ) : List FieldTypeSpec → ℕ → Prop
  | [], _ => True
  | spec :: specs, index =>
    vm.Passes state (state.fromTop (argc - index)) spec ∧ AllPass argc state specs (index + 1)

/-- Up to a parameter whose type cannot be checked in place, they do. -/
def PrefixPasses (argc : ℕ) (state : State π ρ) : List FieldTypeSpec → ℕ → Prop
  | [], _ => True
  | spec :: specs, index =>
    isInlinableTypeSpec spec →
      vm.Passes state (state.fromTop (argc - index)) spec ∧
        PrefixPasses argc state specs (index + 1)

/-- A callee that is found in the cache of a call: the check that is left out would pass, and
the one that begins in place and has to start again would change nothing. -/
def CalleeMeets (argc : ℕ) (preverified : Bool) (func : FuncObj π) (state : State π ρ) : Prop :=
  func.arity = argc → func.isVariadic = false → func.defaults = [] → func.hasTypedParams →
    if preverified then vm.AllPass argc state (func.paramTypes.take func.arity) 0
    else func.canInlinePrimitiveArgs argc ∨
      vm.PrefixPasses argc state (func.paramTypes.take func.arity) 0

/-- The condition on a call. -/
def CallMeets (argc : ℕ) (preverified : Bool) (index : ℕ) (state : State π ρ) : Prop :=
  ∀ callee func, index ≠ coldIndex → State.objectAt index = some callee →
    state.fromTop (argc + 1) = .object callee →
      (state.deref callee = .function func ∨ state.deref callee = .closure func) →
        vm.CalleeMeets argc preverified func state

end Vm

theorem enterPrepared_eq (fixed : func.isVariadic = false) (argc : ℕ) (state : State π ρ) :
    vm.enterPrepared func callee argc state = vm.enterFrame func callee state := by
  rw [Vm.enterPrepared, fixed, if_neg Bool.false_ne_true]

theorem argSpecs_eq (fixed : func.isVariadic = false) (argc : ℕ) :
    func.argSpecs argc = func.paramTypes.take func.arity := by
  rw [FuncObj.argSpecs, fixed, if_neg Bool.false_ne_true]

theorem enforceFrom_cons {spec : FieldTypeSpec} (specs : List FieldTypeSpec)
    (passes : vm.Passes state (state.fromTop (argc - index)) spec) :
    vm.enforceFrom func callee argc (spec :: specs) index state =
      vm.enforceFrom func callee argc specs (index + 1) state := by
  rcases passes with ⟨unconverted, matching⟩
  rw [Vm.enforceFrom]
  cases converted : coercion spec (state.fromTop (argc - index)) with
  | none => exact if_pos matching
  | named name => rw [converted] at unconverted; exact unconverted.elim
  | interface name =>
    rw [converted] at unconverted
    dsimp only at unconverted ⊢
    rw [unconverted]
    exact if_pos matching

theorem enforceFrom_of_allPass (specs : List FieldTypeSpec) (index : ℕ)
    (passes : vm.AllPass argc state specs index) :
    vm.enforceFrom func callee argc specs index state =
      vm.enterPrepared func callee argc state := by
  induction specs generalizing index with
  | nil => rfl
  | cons spec specs ih =>
    rw [enforceFrom_cons specs passes.1]
    exact ih (index + 1) passes.2

theorem coercion_of_primitive {spec : FieldTypeSpec} (primitive : isPrimitiveTypeSpec spec)
    (arg : Value π) : coercion spec arg = .none := by
  unfold isPrimitiveTypeSpec at primitive
  split at primitive
  · split at primitive <;> first | cases arg <;> rfl | cases primitive
  · cases primitive

theorem coercion_of_extra {spec : FieldTypeSpec} (extra : isInlinableExtraTypeSpec spec)
    (arg : Value π) (name : Bytecode.Bytes) : coercion spec arg ≠ .named name := by
  unfold isInlinableExtraTypeSpec at extra
  split at extra
  · intro converted
    split at extra <;> first | cases arg <;> cases converted | cases extra
  · cases extra

/-- The check in place is the check of the long way, one parameter at a time. -/
theorem enforcePrimitiveFrom_cons {spec : FieldTypeSpec} (specs : List FieldTypeSpec)
    (inlinable : isInlinableTypeSpec spec)
    (rest : ∀ after, vm.enforcePrimitiveFrom func callee argc specs (index + 1) after =
      vm.enforceFrom func callee argc specs (index + 1) after) :
    vm.enforcePrimitiveFrom func callee argc (spec :: specs) index state =
      vm.enforceFrom func callee argc (spec :: specs) index state := by
  rw [Vm.enforcePrimitiveFrom, Vm.enforceFrom]
  by_cases primitive : isPrimitiveTypeSpec spec
  · simp only [if_pos primitive, coercion_of_primitive primitive, rest]
  · have extra : isInlinableExtraTypeSpec spec := by
      simpa [isInlinableTypeSpec, primitive] using inlinable
    simp only [if_neg primitive, if_pos extra]
    cases converted : coercion spec (state.fromTop (argc - index)) with
    | none | interface _ => simp only [rest]
    | named name => exact absurd converted (coercion_of_extra extra _ name)

theorem enforcePrimitiveFrom_of_inlinable (fixed : func.isVariadic = false)
    (specs : List FieldTypeSpec) (inlinable : specs.all isInlinableTypeSpec) (index : ℕ)
    (state : State π ρ) :
    vm.enforcePrimitiveFrom func callee argc specs index state =
      vm.enforceFrom func callee argc specs index state := by
  induction specs generalizing index state with
  | nil => exact (enterPrepared_eq fixed argc state).symm
  | cons spec specs ih =>
    rw [List.all_cons, Bool.and_eq_true] at inlinable
    exact enforcePrimitiveFrom_cons specs inlinable.1 (ih inlinable.2 (index + 1))

theorem enforcePrimitiveFrom_cons_of_passes {spec : FieldTypeSpec} (specs : List FieldTypeSpec)
    (inlinable : isInlinableTypeSpec spec)
    (passes : vm.Passes state (state.fromTop (argc - index)) spec) :
    vm.enforcePrimitiveFrom func callee argc (spec :: specs) index state =
      vm.enforcePrimitiveFrom func callee argc specs (index + 1) state := by
  rcases passes with ⟨unconverted, matching⟩
  rw [Vm.enforcePrimitiveFrom]
  by_cases primitive : isPrimitiveTypeSpec spec
  · simp only [if_pos primitive, if_pos matching]
  · have extra : isInlinableExtraTypeSpec spec := by
      simpa [isInlinableTypeSpec, primitive] using inlinable
    simp only [if_neg primitive, if_pos extra]
    cases converted : coercion spec (state.fromTop (argc - index)) with
    | none => exact if_pos matching
    | named name => exact absurd converted (coercion_of_extra extra _ name)
    | interface name =>
      rw [converted] at unconverted
      dsimp only at unconverted ⊢
      rw [unconverted]
      exact if_pos matching

/-- A check that begins in place and changes nothing starts again, or checks everything. -/
theorem enforcePrimitiveFrom_of_prefixPasses (specs : List FieldTypeSpec) (index : ℕ)
    (passes : vm.PrefixPasses argc state specs index)
    (checks : vm.AllPass argc state specs index →
      vm.enforceFuncArgTypes func callee argc state = vm.enterFrame func callee state) :
    vm.enforcePrimitiveFrom func callee argc specs index state =
      vm.enforceFuncArgTypes func callee argc state := by
  induction specs generalizing index with
  | nil => exact (checks trivial).symm
  | cons spec specs ih =>
    by_cases inlinable : isInlinableTypeSpec spec
    · rcases passes inlinable with ⟨first, others⟩
      rw [enforcePrimitiveFrom_cons_of_passes specs inlinable first]
      exact ih (index + 1) others fun all => checks ⟨first, all⟩
    · have notPrimitive : isPrimitiveTypeSpec spec = false := by
        rw [isInlinableTypeSpec, Bool.or_eq_true, not_or] at inlinable
        exact Bool.eq_false_iff.mpr inlinable.1
      have notExtra : isInlinableExtraTypeSpec spec = false := by
        rw [isInlinableTypeSpec, Bool.or_eq_true, not_or] at inlinable
        exact Bool.eq_false_iff.mpr inlinable.2
      rw [Vm.enforcePrimitiveFrom]
      simp only [notPrimitive, notExtra, Bool.false_eq_true, if_false]

/-- A callee that meets the condition is entered as by the long way. -/
theorem enterFunctionFrameWarm_eq {preverified : Bool}
    (meets : vm.CalleeMeets argc preverified func state) :
    vm.enterFunctionFrameWarm func callee argc preverified state =
      vm.enterFunctionFrame func callee argc state := by
  rw [Vm.enterFunctionFrameWarm]
  by_cases simple : func.arity = argc ∧ func.isVariadic = false ∧ func.defaults = []
  · rcases simple with ⟨arity, fixed, noDefaults⟩
    have notSlow : ¬ (func.arity ≠ argc ∨ func.isVariadic ∨ func.defaults ≠ []) := by
      simp [arity, fixed, noDefaults]
    rw [if_neg notSlow, Vm.enterFunctionFrame, fixed, if_neg Bool.false_ne_true, if_pos arity]
    by_cases typed : func.hasTypedParams
    · have required := meets arity fixed noDefaults typed
      have enforced : vm.AllPass argc state (func.paramTypes.take func.arity) 0 →
          vm.enforceFuncArgTypes func callee argc state = vm.enterFrame func callee state := by
        intro all
        rw [Vm.enforceFuncArgTypes, if_pos typed, argSpecs_eq fixed,
          enforceFrom_of_allPass _ _ all, enterPrepared_eq fixed]
      cases preverified with
      | true => rw [if_neg (by simp), enforced required]
      | false =>
        rw [if_pos ⟨typed, Bool.false_ne_true⟩]
        rcases required with inlinable | passes
        · have all : (func.paramTypes.take func.arity).all isInlinableTypeSpec := by
            simp only [FuncObj.canInlinePrimitiveArgs, Bool.and_eq_true] at inlinable
            exact inlinable.2
          rw [enforcePrimitiveFrom_of_inlinable fixed _ all, Vm.enforceFuncArgTypes,
            if_pos typed, argSpecs_eq fixed]
        · exact enforcePrimitiveFrom_of_prefixPasses _ _ passes enforced
    · rw [if_neg (fun both => typed both.1), Vm.enforceFuncArgTypes, if_neg typed,
        enterPrepared_eq fixed]
  · have slow : func.arity ≠ argc ∨ func.isVariadic ∨ func.defaults ≠ [] := by
      by_contra quick
      push Not at quick
      exact simple ⟨quick.1, Bool.eq_false_iff.mpr quick.2.1, quick.2.2⟩
    rw [if_pos slow]

/-- A call that meets the condition does what it does with a cold cache. -/
theorem performCallIC_fst {preverified : Bool}
    (meets : vm.CallMeets argc preverified index state) :
    (vm.performCallIC argc preverified index state).1 = vm.performCall argc state := by
  rw [Vm.performCallIC]
  by_cases shallow : state.stack.length < argc + 1
  · rw [if_pos shallow, Vm.performCall, if_pos shallow]
  · rw [if_neg shallow]
    cases callee : state.fromTop (argc + 1) with
    | object ref =>
      dsimp only
      by_cases hit : index ≠ coldIndex ∧ State.objectAt index = some ref
      · rw [if_pos hit]
        have performed := meets ref
        rw [Vm.performCall, if_neg shallow, callee]
        dsimp only
        cases object : state.deref ref with
        | function func =>
          exact enterFunctionFrameWarm_eq (performed func hit.1 hit.2 callee (.inl object))
        | closure func =>
          exact enterFunctionFrameWarm_eq (performed func hit.1 hit.2 callee (.inr object))
        | _ => rfl
      · rw [if_neg hit]
    | _ => rfl

theorem performCallIC_cold (argc : ℕ) (preverified : Bool) (state : State π ρ) :
    (vm.performCallIC argc preverified coldIndex state).1 = vm.performCall argc state :=
  performCallIC_fst fun _ _ warm => absurd rfl warm

end Agreement

end Gengo.Caches
