import Gengo.Capabilities.Execution
import Gengo.Runs.Along

/-!
# Confinement

A run that names no global of a capability that is not enabled, and whose own types do not take
the names of such a capability's types, executes only what the host enabled and registered: a
function that the program does not hold is out of its reach, and what it holds it got from a
global, or from a type. Bytecode that does name such a global executes its functions.
-/

namespace Gengo.Capabilities

open List
open Bytecode (Bytes literal dot)
open Runs (Along)

namespace Runtime

variable (runtime : Runtime)

/-- What is executed was enabled or registered by the host. -/
def PermitsEffect : Effect → Prop
  | .native id => runtime.Permits id
  | .ffiCallable => runtime.Grants .ffi
  | .host callId => runtime.Registers callId

/-- A type does not take the name of a type of a capability that the host did not enable, as it
is or without its generic arguments. -/
def AllowsType (name : Bytes) : Prop :=
  ∀ c : Capability, ∀ typ ∈ c.types,
    name = typ.qualifiedName ∨ Globals.baseName name = typ.qualifiedName →
      runtime.Grants c ∧ (typ.qualifiedName = listenerName → runtime.GrantsScope .listen)

/-- A function that a program may hold: a function that looks at its scope itself may be held
without it. -/
def AllowsHolding (id : NativeFnId) : Prop :=
  ∀ c, id.capability = some c → runtime.Grants c ∧
    (id.checkedScope = none → ∀ scope, id.scope = some scope → runtime.GrantsScope scope)

/-- A value that a program may hold. -/
abbrev Safe : Value → Prop :=
  Value.Only runtime.AllowsHolding runtime.Registers runtime.AllowsType

/-- The condition on a step: the globals that it names, and the constants that it uses, belong
to no capability that the host did not enable. A method whose name has a dot may be any
global. -/
def Meets (state : State) : Act → Prop
  | .constant (some typ) => runtime.AllowsType typ.qualifiedName
  | .getGlobal name => runtime.Allows name
  | .getGlobalSlot slot => ∀ entry, state.globals[slot]? = some entry → runtime.Allows entry.1
  | .invoke recv hops mname _ => dot ∈ mname → ∀ typ fields ancestor,
      state.held[recv]? = some (.typed typ fields) →
      state.globals.ancestor typ hops = some ancestor →
      ∀ name ∈ Globals.methodNames ancestor mname, runtime.Allows name
  | _ => True

/-- What holds in every state of a run that meets the condition. -/
structure Confines (state : State) : Prop where
  globals : ∀ entry ∈ state.globals, runtime.Safe entry.2 ∨ ∃ c : Capability, entry ∈ c.globals
  held : ∀ value ∈ state.held, runtime.Safe value
  tasks : ∀ scopes ∈ state.tasks, scopes = netScopesFromCapabilities runtime.enabledCapabilities
  current : state.current < state.tasks.length
  effects : ∀ effect ∈ state.effects, runtime.PermitsEffect effect

variable {runtime}

theorem desc_functions : ∀ c : Capability, ∀ entry ∈ c.desc.functions,
    entry.nativeId.capability = some c ∧
      (entry.nativeId.checkedScope = none → entry.nativeId.scope = none) := by
  intro c
  cases c <;> decide

theorem types_methods : ∀ c : Capability, ∀ typ ∈ c.types, ∀ method ∈ typ.methods,
    dot ∉ method.name ∧ method.id.capability = some c ∧
      (method.id.scope = none ∨
        method.id.scope = some .listen ∧ typ.qualifiedName = listenerName) := by
  intro c
  cases c <;> decide

theorem allowsHolding_method {typ : MethodType} {method : NativeMethod}
    (isType : typ ∈ c.types) (isMethod : method ∈ typ.methods) (granted : runtime.Grants c)
    (listening : typ.qualifiedName = listenerName → runtime.GrantsScope .listen) :
    runtime.AllowsHolding method.id := by
  rcases types_methods c typ isType method isMethod with ⟨-, belongs, needs⟩
  intro owner ownerOf
  rcases Option.some.inj (belongs.symm.trans ownerOf) with rfl
  refine ⟨granted, fun _ scope needed => ?_⟩
  rcases needs with none | ⟨listen, isListener⟩
  · rw [none] at needed
    cases needed
  · rw [listen] at needed
    cases needed
    exact listening isListener

theorem allowsType_of_apart {name : Bytes} (apart : ∀ c : Capability, ∀ typ ∈ c.types,
    name ≠ typ.qualifiedName ∧ Globals.baseName name ≠ typ.qualifiedName) :
    runtime.AllowsType name := by
  rintro c typ isType (same | same)
  · exact absurd same (apart c typ isType).1
  · exact absurd same (apart c typ isType).2

theorem capTypeName_apart : ∀ module c : Capability, ∀ typ ∈ c.types,
    capTypeName module.name ≠ typ.qualifiedName ∧
      Globals.baseName (capTypeName module.name) ≠ typ.qualifiedName := by
  intro module c
  cases module <;> cases c <;> decide

theorem ffiTypes_apart : ∀ c : Capability, ∀ typ ∈ c.types,
    literal "@cap_type:ffi.types" ≠ typ.qualifiedName ∧
      Globals.baseName (literal "@cap_type:ffi.types") ≠ typ.qualifiedName := by
  intro c
  cases c <;> decide

theorem allowsType_hostModule (name : Bytes) :
    runtime.AllowsType (literal "@module_type:" ++ name) := by
  have noPrefix : ∀ c : Capability, ∀ typ ∈ c.types,
      ¬literal "@module_type:" <+: typ.qualifiedName := by
    intro c
    cases c <;> decide
  have unbracketed : ∀ byte ∈ literal "@module_type:", (byte ≠ bracket : Bool) = true :=
    all_eq_true.mp (by decide)
  apply allowsType_of_apart
  intro c typ isType
  constructor
  · intro same
    exact noPrefix c typ isType ⟨name, same⟩
  · intro same
    rw [Globals.baseName, takeWhile_append_of_pos unbracketed] at same
    exact noPrefix c typ isType ⟨_, same⟩

theorem baseName_types : ∀ c : Capability, ∀ typ ∈ c.types,
    Globals.baseName typ.qualifiedName = typ.qualifiedName := by
  intro c
  cases c <;> decide

variable {c : Capability}

theorem allowsHolding_of_grants {id : NativeFnId} (granted : runtime.Grants c)
    (belongs : id.capability = some c) (looks : id.checkedScope = none → id.scope = none) :
    runtime.AllowsHolding id := by
  intro owner owned
  rcases Option.some.inj (belongs.symm.trans owned) with rfl
  refine ⟨granted, fun unchecked scope needed => ?_⟩
  rw [looks unchecked] at needed
  cases needed

theorem safe_funcValue {entry : CapModuleFuncDesc} (granted : runtime.Grants c)
    (member : entry ∈ c.desc.functions) : runtime.Safe (funcValue entry) := by
  rcases desc_functions c entry member with ⟨belongs, looks⟩
  exact .nativeFunction (allowsHolding_of_grants granted belongs looks)

theorem desc_name (c : Capability) : c.desc.name = c.name :=
  (desc_name_eq_iff c c).mpr rfl

theorem safe_moduleValue (granted : runtime.Grants c) : runtime.Safe (moduleValue c.desc) := by
  have flat : namespaces c.desc.functions = [] := by
    cases c <;> decide
  rw [moduleValue, flat, desc_name]
  constructor
  · exact allowsType_of_apart (capTypeName_apart c)
  · intro field member
    simp only [map_nil, append_nil, mem_map, mem_filter] at member
    rcases member with ⟨entry, ⟨inTable, -⟩, rfl⟩
    exact safe_funcValue granted inTable

theorem safe_ffiValue (granted : runtime.Grants .ffi) : runtime.Safe ffiValue := by
  constructor
  · exact allowsType_of_apart (capTypeName_apart .ffi)
  · intro field member
    simp only [mem_cons, not_mem_nil, or_false] at member
    rcases member with rfl | rfl | rfl | rfl
    · exact .nativeFunction (allowsHolding_of_grants granted rfl fun _ => rfl)
    · constructor
      · exact allowsType_of_apart ffiTypes_apart
      · intro code inCodes
        rcases mem_map.mp inCodes with ⟨name, -, rfl⟩
        exact .data
    · exact .nativeFunction (allowsHolding_of_grants granted rfl fun _ => rfl)
    · exact .nativeFunction (allowsHolding_of_grants granted rfl fun _ => rfl)

theorem safe_moduleEntry (granted : runtime.Grants c) : runtime.Safe c.moduleEntry.2 := by
  cases c with
  | ffi => exact safe_ffiValue granted
  | net | fs | http | env => exact safe_moduleValue granted

variable {entry : Bytes × Value}

/-- A global that belongs to a capability is the module, or a type or a method of it. -/
theorem mem_globals_iff :
    entry ∈ c.globals ↔ entry = c.moduleEntry ∨ ∃ typ ∈ c.types,
      entry = typ.typeEntry ∨ ∃ method ∈ typ.methods, entry = typ.methodEntry method := by
  simp only [Capability.globals, mem_cons, mem_flatMap, mem_map, eq_comm]

theorem safe_of_allows (owned : entry ∈ c.globals) (allowed : runtime.Allows entry.1) :
    runtime.Safe entry.2 := by
  rcases allowed c (mem_map_of_mem owned) with ⟨granted, listening⟩
  rcases mem_globals_iff.mp owned with rfl | ⟨typ, isType, rfl | ⟨method, isMethod, rfl⟩⟩
  · exact safe_moduleEntry granted
  · constructor
    intro owner other isOther same
    have named : typ.qualifiedName = other.qualifiedName := by
      rw [baseName_types c typ isType, or_self] at same
      exact same
    have ownedByOther : other.typeEntry ∈ owner.globals :=
      mem_globals_iff.mpr (.inr ⟨other, isOther, .inl rfl⟩)
    have allowedName : runtime.Allows other.qualifiedName := named ▸ allowed
    rcases allowedName owner (mem_map_of_mem ownedByOther) with ⟨grantedToOwner, listens⟩
    exact ⟨grantedToOwner, fun isListener => listens (isListener ▸ prefix_rfl)⟩
  · refine .nativeFunction (allowsHolding_method isType isMethod granted fun isListener => ?_)
    apply listening
    change listenerName <+: methodName typ.qualifiedName method.name
    rw [isListener]
    exact prefix_append ..

variable (runtime) in
/-- What may be called. -/
def AllowsCall : Value → Prop
  | .nativeFunction id _ => runtime.AllowsHolding id
  | .hostModuleFunction callId _ => runtime.Registers callId
  | .typed typ _ => typ.qualifiedName = callableName → runtime.Grants .ffi
  | _ => True

theorem allowsCall_of_safe {value : Value} (safe : runtime.Safe value) :
    runtime.AllowsCall value := by
  cases safe with
  | data => trivial
  | typeObject allowed => trivial
  | container items => trivial
  | nativeFunction allowed => exact allowed
  | hostModuleFunction registered => exact registered
  | typed allowed fields =>
    intro callable
    have isType : (⟨callableName, []⟩ : MethodType) ∈ Capability.ffi.types := by
      simp [Capability.types]
    exact (allowed .ffi _ isType (.inl callable)).1

theorem moduleEntry_not_callable : ∀ c : Capability, ∀ typ fields,
    c.moduleEntry.2 = .typed typ fields → typ.qualifiedName ≠ callableName := by
  intro c typ fields same
  cases c <;> cases same <;> decide

theorem namedType_not_owned {name : Bytes} {typ : TypeObj}
    (owned : (name, Value.typeObject typ) ∈ c.globals) : typ.isNamed = false := by
  rcases mem_globals_iff.mp owned with isModule | ⟨other, -, isEntry | ⟨method, -, isEntry⟩⟩
  · cases c <;> cases congrArg Prod.snd isModule
  · cases congrArg Prod.snd isEntry
    rfl
  · cases congrArg Prod.snd isEntry

theorem allowsCall_of_allowsType {qualifiedName mname : Bytes} {func : Value}
    (allowed : ∀ typ ∈ c.types, qualifiedName = typ.qualifiedName →
      runtime.Grants c ∧ (typ.qualifiedName = listenerName → runtime.GrantsScope .listen))
    (undotted : dot ∉ mname) (owned : (methodName qualifiedName mname, func) ∈ c.globals) :
    runtime.AllowsCall func := by
  rcases mem_globals_iff.mp owned with isModule | ⟨typ, isType,
    isEntry | ⟨method, isMethod, isEntry⟩⟩
  · have value : func = c.moduleEntry.2 := congrArg Prod.snd isModule
    have notCallable := moduleEntry_not_callable c
    rw [← value] at notCallable
    cases func with
    | typed typ fields => exact fun callable => absurd callable (notCallable typ fields rfl)
    | nativeFunction _ _ | hostModuleFunction _ _ => cases c <;> cases value
    | data => trivial
    | typeObject typ => trivial
    | container items => trivial
  · rw [show func = typ.typeEntry.2 from congrArg Prod.snd isEntry]
    trivial
  · rcases Prod.mk.inj isEntry with ⟨named, rfl⟩
    have undotted' := (types_methods c typ isType method isMethod).1
    rcases Bytecode.append_dot_inj undotted undotted' named with ⟨isName, -⟩
    rcases allowed typ isType isName with ⟨granted, listening⟩
    exact allowsHolding_method isType isMethod granted listening

theorem mem_methodNames {typ : TypeObj} {mname name : Bytes}
    (member : name ∈ Globals.methodNames typ mname) :
    name = methodName typ.qualifiedName mname ∨
      name = methodName (Globals.baseName typ.qualifiedName) mname := by
  rw [Globals.methodNames] at member
  split at member
  · exact .inl (mem_singleton.mp member)
  · simpa using member

theorem mem_installModules {gs : Globals} (member : entry ∈ State.installModules runtime gs) :
    entry ∈ gs ∨ runtime.Safe entry.2 ∨ ∃ c : Capability, entry ∈ c.globals := by
  have installed : entry ∈ gs.installHostModules runtime.hostModules ∨
      ∃ c : Capability, entry ∈ c.globals := by
    rw [State.installModules, capabilityModules] at member
    split at member
    · rcases Globals.mem_installCapabilityModules member with before | ⟨c, -, owned⟩
      · exact .inl before
      · exact .inr ⟨c, owned⟩
    · exact .inl member
  rcases installed with byHost | owned
  · rcases Globals.mem_installHostModules byHost with old | ⟨hm, registered, value⟩
    · exact .inl old
    · right
      left
      rw [value]
      constructor
      · exact allowsType_hostModule hm.name
      · intro field inFields
        rcases mem_map.mp inFields with ⟨entry, inTable, rfl⟩
        exact .hostModuleFunction ⟨hm, registered, entry, inTable, rfl⟩
  · exact .inr (.inr owned)

namespace Confines

variable {state : State}

section

variable (confines : runtime.Confines state)
include confines

theorem push {value : Value} (safe : runtime.Safe value) : runtime.Confines (state.push value) where
  globals := confines.globals
  held := by
    intro other member
    rcases mem_append.mp member with old | new
    · exact confines.held other old
    · rw [mem_singleton.mp new]
      exact safe
  tasks := confines.tasks
  current := confines.current
  effects := confines.effects

theorem perform (effect : Effect) (permitted : runtime.PermitsEffect effect) :
    runtime.Confines (state.perform effect) where
  globals := confines.globals
  held := confines.held
  tasks := confines.tasks
  current := confines.current
  effects := by
    intro other member
    rcases mem_append.mp member with old | new
    · exact confines.effects other old
    · rw [mem_singleton.mp new]
      exact permitted

/-- The globals change to others that are safe or belong to a capability. -/
theorem withGlobals {gs : Globals}
    (kept : ∀ entry ∈ gs, entry ∈ state.globals ∨ runtime.Safe entry.2 ∨
      ∃ c : Capability, entry ∈ c.globals) :
    runtime.Confines { state with globals := gs } where
  globals := by
    intro entry member
    rcases kept entry member with old | new
    · exact confines.globals entry old
    · exact new
  held := confines.held
  tasks := confines.tasks
  current := confines.current
  effects := confines.effects

theorem held_get {register : ℕ} {value : Value} (found : state.held[register]? = some value) :
    runtime.Safe value :=
  confines.held value (mem_of_getElem? found)

theorem safe_of_mem (member : entry ∈ state.globals) (allowed : runtime.Allows entry.1) :
    runtime.Safe entry.2 := by
  rcases confines.globals entry member with safe | ⟨c, owned⟩
  · exact safe
  · exact safe_of_allows owned allowed

theorem scopes_eq : state.scopes = netScopesFromCapabilities runtime.enabledCapabilities := by
  apply confines.tasks
  rw [State.scopes, getD_eq_getElem?_getD, List.getElem?_eq_getElem confines.current]
  exact getElem_mem _

end

end Confines

variable {id : NativeFnId}

theorem checkedScope_eq {scope : Scope} (looks : id.checkedScope = some scope) :
    id.scope = some scope := by
  cases id <;> cases looks <;> rfl

theorem permits_of_allowsHolding (holding : runtime.AllowsHolding id)
    (granted : ∀ scope, id.checkedScope = some scope → runtime.GrantsScope scope) :
    runtime.Permits id := by
  intro c belongs
  rcases holding c belongs with ⟨grantedModule, unchecked⟩
  refine ⟨grantedModule, ?_⟩
  cases looks : id.checkedScope with
  | none => exact unchecked looks
  | some scope =>
    intro needed needs
    rcases Option.some.inj ((checkedScope_eq looks).symm.trans needs) with rfl
    exact granted scope looks

/-- The type of a result belongs to the capability of the function only, and that of a listener
is returned by a function that needs the scope of listening. -/
theorem resultType_owner {name : Bytes} (isResult : id.resultType = some name) :
    ∃ c, id.capability = some c ∧
      (∀ owner : Capability, name ∈ owner.globals.map Prod.fst → owner = c) ∧
      (listenerName <+: name → id.scope = some .listen) := by
  have netOwner : ∀ name ∈ [connName, listenerName], ∀ owner : Capability,
      name ∈ owner.globals.map Prod.fst → owner = .net := by
    intro name member owner
    revert name
    cases owner <;> decide
  have httpOwner : ∀ owner : Capability,
      responseName ∈ owner.globals.map Prod.fst → owner = .http := by
    intro owner
    cases owner <;> decide
  have ffiOwner : ∀ name ∈ [libName, callableName, bufName], ∀ owner : Capability,
      name ∈ owner.globals.map Prod.fst → owner = .ffi := by
    intro name member owner
    revert name
    cases owner <;> decide
  cases id <;> cases isResult
  case capNetDial | capNetDialTls | capNetListenerAccept =>
    exact ⟨.net, rfl, netOwner connName (by simp), by decide⟩
  case capNetListen => exact ⟨.net, rfl, netOwner listenerName (by simp), fun _ => rfl⟩
  case capHttpGet | capHttpPost | capHttpFetch => exact ⟨.http, rfl, httpOwner, by decide⟩
  case capFfiLoad => exact ⟨.ffi, rfl, ffiOwner libName (by simp), by decide⟩
  case capFfiDeclare => exact ⟨.ffi, rfl, ffiOwner callableName (by simp), by decide⟩
  case capFfiBufAlloc => exact ⟨.ffi, rfl, ffiOwner bufName (by simp), by decide⟩

theorem allows_resultType {name : Bytes} (permitted : runtime.Permits id)
    (isResult : id.resultType = some name) : runtime.Allows name := by
  rcases resultType_owner isResult with ⟨c, belongs, onlyOwner, listening⟩
  rcases permitted c belongs with ⟨granted, scopes⟩
  intro owner owned
  rcases onlyOwner owner owned with rfl
  exact ⟨granted, fun listener => scopes .listen (listening listener)⟩

namespace Confines

variable {state : State}

section

variable (confines : runtime.Confines state)
include confines

theorem pushResult (permitted : runtime.Permits id) : runtime.Confines (state.pushResult id) := by
  rw [State.pushResult]
  cases isResult : id.resultType with
  | none => exact confines.push .data
  | some name =>
    simp only
    split
    · next typ found =>
        have allowed := allows_resultType permitted isResult
        have safe := confines.safe_of_mem (Globals.mem_of_get found) allowed
        cases safe with
        | typeObject allowedType =>
          have object : runtime.Safe
              (.typed typ (id.resultFields.map fun field => (field, .data))) := by
            refine .typed allowedType fun field member => ?_
            rcases mem_map.mp member with ⟨name, -, rfl⟩
            exact .data
          cases id.returnsPair with
          | false => exact confines.push object
          | true =>
            refine confines.push (.container fun item member => ?_)
            simp only [mem_cons, not_mem_nil, or_false] at member
            rcases member with rfl | rfl
            · exact object
            · exact .data
    · exact confines

variable {argc : ℕ}

theorem callNative (holding : runtime.AllowsHolding id) :
    runtime.Confines (state.callNative runtime id argc) := by
  rw [State.callNative]
  split
  · split
    · next looked =>
        have permitted : runtime.Permits id := by
          apply permits_of_allowsHolding holding
          intro scope looks
          rw [looks, Option.all_some, confines.scopes_eq] at looked
          exact (has_netScopesFromCapabilities scope).mp looked
        exact (confines.perform (.native id) permitted).pushResult permitted
    · exact confines.push .data
  · exact confines

theorem performCall {func : Value} (allowed : runtime.AllowsCall func) :
    runtime.Confines (state.performCall runtime func argc) := by
  cases func with
  | data | typeObject _ | container _ => exact confines
  | nativeFunction id arity => exact confines.callNative allowed
  | hostModuleFunction callId arity =>
    rw [State.performCall, State.callHostModule]
    split
    · exact (confines.perform (.host callId) allowed).push .data
    · exact confines
  | typed typ fields =>
    rw [State.performCall]
    split
    · next callable => exact (confines.perform .ffiCallable (allowed callable.2)).push .data
    · exact confines

variable {hops : ℕ}

/-- The types among the globals are no named types of a capability. -/
theorem ancestor {typ ancestor : TypeObj} (allowed : runtime.AllowsType typ.qualifiedName)
    (found : state.globals.ancestor typ hops = some ancestor) :
    runtime.AllowsType ancestor.qualifiedName := by
  induction hops generalizing typ with
  | zero =>
    rcases Option.some.inj found with rfl
    exact allowed
  | succ hops ih =>
    rw [Globals.ancestor] at found
    split at found
    · next parent isParent =>
        split at found
        · next named =>
            rw [Bool.and_eq_true] at named
            apply ih _ found
            rcases Option.bind_eq_some_iff.mp isParent with ⟨name, -, atName⟩
            rcases confines.globals _ (Globals.mem_of_get atName) with safe | ⟨c, owned⟩
            · cases safe with
              | typeObject allowedParent => exact allowedParent
            · rw [namedType_not_owned owned] at named
              cases named.2
        · cases found
    · cases found

theorem resolveMethod {typ : TypeObj} {fields : List (Bytes × Value)} {mname : Bytes}
    {func : Value} {passRecv : Bool} (allowed : runtime.AllowsType typ.qualifiedName)
    (safeFields : ∀ field ∈ fields, runtime.Safe field.2)
    (dotted : dot ∈ mname → ∀ ancestor, state.globals.ancestor typ hops = some ancestor →
      ∀ name ∈ Globals.methodNames ancestor mname, runtime.Allows name)
    (resolved : state.globals.resolveMethod typ fields hops mname = some (func, passRecv)) :
    runtime.AllowsCall func := by
  rcases Option.bind_eq_some_iff.mp resolved with ⟨ancestor, up, atAncestor⟩
  have allowedAncestor := confines.ancestor allowed up
  split at atAncestor
  · cases atAncestor
  · split at atAncestor
    · next found =>
        cases atAncestor
        rcases exists_of_findSome?_eq_some found with ⟨name, isName, atName⟩
        have member := Globals.mem_of_get atName
        by_cases isDotted : dot ∈ mname
        · exact allowsCall_of_safe
            (confines.safe_of_mem member (dotted isDotted ancestor up name isName))
        · rcases confines.globals _ member with safe | ⟨c, owned⟩
          · exact allowsCall_of_safe safe
          · rcases mem_methodNames isName with rfl | rfl
            · exact allowsCall_of_allowsType
                (fun other isType same => allowedAncestor c other isType (.inl same))
                isDotted owned
            · exact allowsCall_of_allowsType
                (fun other isType same => allowedAncestor c other isType (.inr same))
                isDotted owned
    · rcases Option.map_eq_some_iff.mp atAncestor with ⟨field, isField, same⟩
      cases same
      exact allowsCall_of_safe (safeFields field (mem_of_find?_eq_some isField))

theorem invoke {recv : Value} {mname : Bytes} (safe : runtime.Safe recv)
    (dotted : dot ∈ mname → ∀ typ fields ancestor, recv = .typed typ fields →
      state.globals.ancestor typ hops = some ancestor →
      ∀ name ∈ Globals.methodNames ancestor mname, runtime.Allows name) :
    runtime.Confines (state.invoke runtime recv hops mname argc) := by
  cases recv with
  | typed typ fields =>
    rw [State.invoke]
    split
    · next func passRecv resolved =>
        apply confines.performCall
        cases safe with
        | typed allowed safeFields =>
          exact confines.resolveMethod allowed safeFields
            (fun isDotted ancestor => dotted isDotted typ fields ancestor rfl) resolved
    · exact confines
  | data => exact confines
  | typeObject typ => exact confines
  | container items => exact confines
  | nativeFunction id arity => exact confines
  | hostModuleFunction callId arity => exact confines

/-- Every step of a program that meets the condition keeps it confined. -/
theorem exec (act : Act) (meets : runtime.Meets state act) :
    runtime.Confines (state.exec runtime act) := by
  cases act with
  | constant typ =>
    cases typ with
    | none => exact confines.push .data
    | some typ => exact confines.push (.typeObject meets)
  | getGlobal name =>
    rw [State.exec]
    split
    · next value found =>
        exact confines.push (confines.safe_of_mem (Globals.mem_of_get found) meets)
    · exact confines
  | getGlobalSlot slot =>
    rw [State.exec]
    split
    · next entry found =>
        exact confines.push (confines.safe_of_mem (mem_of_getElem? found) (meets entry found))
    · exact confines.push .data
  | defGlobal name value =>
    rw [State.exec]
    split
    · next value found =>
        exact confines.withGlobals fun entry member => by
          rcases Globals.mem_define member with old | rfl
          · exact .inl old
          · exact .inr (.inl (confines.held_get found))
    · exact confines
  | setGlobal name value =>
    rw [State.exec]
    split
    · next value found =>
        exact confines.withGlobals fun entry member => by
          rcases Globals.mem_set member with old | rfl
          · exact .inl old
          · exact .inr (.inl (confines.held_get found))
    · exact confines
  | part whole index =>
    rw [State.exec]
    split
    · next part found =>
        rcases Option.bind_eq_some_iff.mp found with ⟨whole, held, isPart⟩
        exact confines.push ((confines.held_get held).part (mem_of_getElem? isPart))
    · exact confines
  | collect items =>
    refine confines.push (.container fun item member => ?_)
    rcases mem_filterMap.mp member with ⟨register, -, held⟩
    exact confines.held_get held
  | construct typ fields =>
    rw [State.exec]
    split
    · next typ held =>
        cases confines.held_get held with
        | typeObject allowed =>
          refine confines.push (.typed allowed fun field member => ?_)
          rcases mem_filterMap.mp member with ⟨source, -, filled⟩
          rcases Option.map_eq_some_iff.mp filled with ⟨value, held, rfl⟩
          exact confines.held_get held
    · exact confines
  | call func argc =>
    rw [State.exec]
    split
    · next func held =>
        exact confines.performCall (allowsCall_of_safe (confines.held_get held))
    · exact confines
  | invoke recv hops mname argc =>
    rw [State.exec]
    split
    · next value held =>
        apply confines.invoke (confines.held_get held)
        rintro isDotted typ fields ancestor rfl
        exact meets isDotted typ fields ancestor held
    · exact confines
  | spawn =>
    exact { confines with
        tasks := by
          intro scopes member
          rcases mem_append.mp member with old | new
          · exact confines.tasks scopes old
          · rw [mem_singleton.mp new, confines.scopes_eq]
        current := by
          rw [State.exec, length_append]
          exact Nat.lt_add_right _ confines.current }
  | resume task =>
    rw [State.exec]
    split
    · next running => exact { confines with current := running }
    · exact confines
  | line =>
    exact
      { globals := (confines.withGlobals fun entry member => mem_installModules member).globals
        held := confines.held
        tasks := by
          intro scopes member
          exact mem_singleton.mp member
        current := Nat.zero_lt_one
        effects := confines.effects }

end

theorem start (std : StdGlobals) : runtime.Confines (.start runtime std) where
  globals := by
    intro entry member
    rcases mem_installModules member with inStd | new
    · left
      apply (std.std entry inStd).mono
      · rintro id ⟨number, rfl⟩ c belongs
        cases belongs
      · exact fun _ impossible => impossible.elim
      · exact fun name apart => allowsType_of_apart apart
    · exact new
  held := by simp [State.start]
  tasks := fun scopes member => mem_singleton.mp member
  current := Nat.zero_lt_one
  effects := by simp [State.start]

end Confines

end Runtime

/-- The state in which a program has done these acts. -/
def State.run (runtime : Runtime) (std : StdGlobals) (acts : List Act) : State :=
  acts.foldl (State.exec runtime) (.start runtime std)

/-- A program executes only what the host enabled and registered. -/
def Confined (runtime : Runtime) (std : StdGlobals) (acts : List Act) : Prop :=
  ∀ effect ∈ (State.run runtime std acts).effects, runtime.PermitsEffect effect

/-- A run is confined if it names no global of a capability that is not enabled, and has no type
with the name of a type of such a capability. -/
theorem confined_of_meets (runtime : Runtime) (std : StdGlobals) (acts : List Act)
    (meets : Along (State.exec runtime) runtime.Meets (.start runtime std) acts) :
    Confined runtime std acts := by
  have confines : runtime.Confines (State.run runtime std acts) :=
    meets.foldl (Runtime.Confines.start std) fun _ act confines permitted =>
      confines.exec act permitted
  exact confines.effects

/-- A standard library without functions. -/
def StdGlobals.empty : StdGlobals where
  globals := []
  std := by simp

/-- A build with everything, for which the host enables these capabilities. -/
def runtimeWith (enabledCapabilities : List Bytes) : Runtime where
  build := fun _ => true
  enabledCapabilities := enabledCapabilities
  hostModules := []
  hostBackend := false

/-- The bytecode names a module, takes one of its functions and calls it. -/
def callFunction (moduleName : Bytes) (function argc : ℕ) : List Act :=
  [.getGlobal moduleName, .part 0 function, .call 1 argc]

/-- The bytecode has a type of its own and calls an object of it. -/
def callObject (qualifiedName : Bytes) : List Act :=
  [.constant (some { qualifiedName }), .construct 0 [], .call 1 0]

/-- With `fs` enabled, a program that uses `fs` is confined. -/
theorem confined_fs :
    Confined (runtimeWith [literal "fs"]) .empty (callFunction (literal "cap:fs") 0 1) := by
  have granted : (runtimeWith [literal "fs"]).Grants .fs := ⟨_, mem_cons_self .., .inl rfl⟩
  have allowed : (runtimeWith [literal "fs"]).Allows (literal "cap:fs") := by
    intro owner owned
    rcases Runtime.eq_of_capGlobalName_mem .fs owner owned with ⟨rfl, other⟩
    exact ⟨granted, fun listener => absurd listener other⟩
  exact confined_of_meets _ _ _ ⟨allowed, trivial, trivial, trivial⟩

/-- With only `fs` enabled, bytecode executes `env.list`; and with nothing enabled, it executes
a foreign function through an object whose type it has named itself. -/
theorem not_confined :
    ¬Confined (runtimeWith [literal "fs"]) .empty (callFunction (literal "cap:env") 1 0) ∧
      ¬Confined (runtimeWith []) .empty (callObject callableName) := by
  constructor
  · intro confined
    have permitted := confined (.native .capEnvList) (by decide)
    rcases (permitted .env rfl).1 with ⟨cap, enabled, isGrant⟩
    rw [mem_singleton.mp enabled] at isGrant
    revert isGrant
    decide
  · intro confined
    rcases confined .ffiCallable (by decide) with ⟨cap, enabled, -⟩
    cases enabled

end Gengo.Capabilities
