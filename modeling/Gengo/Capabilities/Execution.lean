import Gengo.Capabilities.Installation

/-!
# What a runtime grants

The host enables capabilities by name, and the network's also by scope. The import of a module
that is not enabled is an error of the compiler; a network function asks for its scope when it
is called. The globals that compiled code names therefore never belong to a capability that is
not enabled, but all modules are installed once any of them is.
-/

namespace Gengo.Capabilities

open Bytecode (Bytes literal dot)

/-- The configuration of a runtime. -/
structure Runtime where
  build : BuildOptions
  enabledCapabilities : List Bytes
  hostModules : List HostModuleDesc
  /-- The policy's native backend is the host. -/
  hostBackend : Bool

/-- The scopes of the network capability. -/
inductive Scope
  | dial
  | listen
  deriving DecidableEq, Repr

structure NetScopes where
  dial : Bool
  listen : Bool
  deriving DecidableEq, Repr

def netScopesFromCapabilities (caps : List Bytes) : NetScopes where
  dial := caps.any fun cap => cap = literal "net" || cap = literal "net.dial"
  listen := caps.any fun cap => cap = literal "net.listen"

def NetScopes.has (scopes : NetScopes) : Scope → Bool
  | .dial => scopes.dial
  | .listen => scopes.listen

/-- The scope that a function of the network needs: those of a connection, which may come from
dialling or from listening, need none of their own. -/
def NativeFnId.scope : NativeFnId → Option Scope
  | capNetDial | capNetDialTls => some .dial
  | capNetListen | capNetListenerAccept | capNetListenerClose | capNetListenerLocalAddr
  | capNetListenerSetAcceptDeadline => some .listen
  | _ => none

namespace Runtime

variable (runtime : Runtime)

def capabilityModules : List CapModuleDesc :=
  if 0 < runtime.enabledCapabilities.length then allCapabilities runtime.build else []

/-- The host enables a capability, by its name or by the name of one of its scopes. -/
def Grants (c : Capability) : Prop :=
  ∃ cap ∈ runtime.enabledCapabilities, cap = c.name ∨ c.name ++ [dot] <+: cap

def GrantsScope : Scope → Prop
  | .dial =>
    literal "net" ∈ runtime.enabledCapabilities ∨ literal "net.dial" ∈ runtime.enabledCapabilities
  | .listen => literal "net.listen" ∈ runtime.enabledCapabilities

/-- The host registered a function with this number. -/
def Registers (callId : ℕ) : Prop :=
  ∃ hm ∈ runtime.hostModules, ∃ entry ∈ hm.functions, entry.callId = callId

/-- A native function belongs to what the host enabled. -/
def Permits (id : NativeFnId) : Prop :=
  ∀ c, id.capability = some c → runtime.Grants c ∧
    ∀ scope, id.scope = some scope → runtime.GrantsScope scope

/-- A name is not that of a global of a capability that the host did not enable. The globals for
listeners need the scope of listening. -/
def Allows (name : Bytes) : Prop :=
  ∀ c : Capability, name ∈ c.globals.map Prod.fst → runtime.Grants c ∧
    (listenerName <+: name → runtime.GrantsScope .listen)

variable {runtime}

theorem desc_name_eq_iff (c other : Capability) : other.desc.name = c.name ↔ other = c := by
  cases c <;> cases other <;> decide

theorem has_netScopesFromCapabilities (scope : Scope) :
    (netScopesFromCapabilities runtime.enabledCapabilities).has scope ↔
      runtime.GrantsScope scope := by
  cases scope with
  | dial =>
    simp only [NetScopes.has, netScopesFromCapabilities, GrantsScope, List.any_eq_true,
      Bool.or_eq_true, decide_eq_true_eq]
    constructor
    · rintro ⟨cap, enabled, rfl | rfl⟩
      · exact .inl enabled
      · exact .inr enabled
    · rintro (enabled | enabled)
      · exact ⟨_, enabled, .inl rfl⟩
      · exact ⟨_, enabled, .inr rfl⟩
  | listen => simp [NetScopes.has, netScopesFromCapabilities, GrantsScope]

theorem eq_of_capGlobalName_mem : ∀ c owner : Capability,
    capGlobalName c.name ∈ owner.globals.map Prod.fst → owner = c ∧
      ¬listenerName <+: capGlobalName c.name := by
  intro c owner
  cases c <;> cases owner <;> decide

end Runtime

/-!
# What a program can get hold of

However a program reaches the machine, it gets its values from constants and globals, takes them
apart and puts them together, calls them, and calls methods that are looked up in the globals by
the name of the receiver's type. Bytecode that no compiler wrote names any global, by a constant
or by the slot in an inline cache, and has types of any name among its constants.
-/

/-- What code outside the machine is executed. -/
inductive Effect
  | native (id : NativeFnId)
  | ffiCallable
  | host (callId : ℕ)
  deriving DecidableEq, Repr

namespace NativeFnId

/-- The arguments that a function insists on. -/
def argumentCount : NativeFnId → Option ℕ
  | std _ => none
  | capEnvList => some 0
  | capNetClose | capNetLocalAddr | capNetRemoteAddr | capNetListenerAccept | capNetListenerClose
  | capNetListenerLocalAddr | capFsRead | capFsExists | capFsList | capFsDelete | capFsMkdir
  | capHttpGet | capEnvGet | capFfiLoad | capFfiClose | capFfiBufAlloc | capFfiBufFree
  | capFfiBufLen => some 1
  | capNetDial | capNetDialTls | capNetListen | capNetRead | capNetWrite | capNetSetDeadline
  | capNetSetReadDeadline | capNetSetWriteDeadline | capNetListenerSetAcceptDeadline | capFsWrite
  | capHttpPost | capHttpFetch | capFfiBufFromPtr | capFfiBufRead _ => some 2
  | capFfiBufWrite _ => some 3
  | capFfiDeclare => some 4

/-- `callNative` finds the function. The dispatch of `cap:ffi` leaves one out. -/
def dispatched (build : BuildOptions) (id : NativeFnId) : Bool :=
  match id.capability with
  | none => true
  | some c => build c && id ≠ capFfiBufFromPtr

/-- The scope that a function looks at. -/
def checkedScope : NativeFnId → Option Scope
  | capNetDial | capNetDialTls => some .dial
  | capNetListen => some .listen
  | _ => none

/-- The type of the object that a function returns. -/
def resultType : NativeFnId → Option Bytes
  | capNetDial | capNetDialTls | capNetListenerAccept => some connName
  | capNetListen => some listenerName
  | capHttpGet | capHttpPost | capHttpFetch => some responseName
  | capFfiLoad => some libName
  | capFfiDeclare => some callableName
  | capFfiBufAlloc => some bufName
  | _ => none

def resultFields : NativeFnId → List Bytes
  | capHttpGet | capHttpPost | capHttpFetch =>
    [literal "status", literal "body", literal "headers", literal "ok"]
  | capFfiDeclare => [literal "_sym", literal "_ret", literal "_args"]
  | capFfiBufAlloc => [literal "_ptr", literal "_len"]
  | _ => [literal "_handle"]

/-- The object comes in a pair with an error. -/
def returnsPair : NativeFnId → Bool
  | capNetListen | capNetListenerAccept | capHttpGet | capHttpPost | capHttpFetch => true
  | _ => false

end NativeFnId

namespace Globals

/-- The ancestor of a named type, so many parents up. -/
def ancestor (gs : Globals) (typ : TypeObj) : ℕ → Option TypeObj
  | 0 => some typ
  | hops + 1 =>
    match typ.parentName.bind gs.get with
    | some (.typeObject parent) =>
      if typ.isNamed && parent.isNamed then ancestor gs parent hops else none
    | _ => none

/-- The qualified name of a generic type without its arguments. -/
def baseName (qualifiedName : Bytes) : Bytes :=
  qualifiedName.takeWhile (· ≠ bracket)

/-- The globals that a method of a type may be, the first of which counts. -/
def methodNames (typ : TypeObj) (mname : Bytes) : List Bytes :=
  if typ.isNamed then [methodName typ.qualifiedName mname]
  else [methodName typ.qualifiedName mname, methodName (baseName typ.qualifiedName) mname]

/-- `resolveMethodReceiver`. A field stands in for a missing method. -/
def resolveMethod (gs : Globals) (typ : TypeObj) (fields : List (Bytes × Value)) (hops : ℕ)
    (mname : Bytes) : Option (Value × Bool) := do
  let typ ← gs.ancestor typ hops
  if 512 < (methodName typ.qualifiedName mname).length then none
  else
    match (methodNames typ mname).findSome? gs.get with
    | some func => some (func, true)
    | none => (fields.find? fun field => field.1 = mname).map fun field => (field.2, false)

end Globals

/-- The globals, the values that the program holds, and the scopes that each task has
inherited. -/
structure State where
  globals : Globals
  held : List Value
  tasks : List NetScopes
  current : ℕ
  effects : List Effect

/-- What an instruction, the scheduler, or the next line of a session does. Held values are
given by their numbers. -/
inductive Act
  /-- A constant, which may be a type. -/
  | constant (typ : Option TypeObj)
  | getGlobal (name : Bytes)
  /-- `get_global` with an inline cache that is warm. -/
  | getGlobalSlot (slot : ℕ)
  | defGlobal (name : Bytes) (value : ℕ)
  | setGlobal (name : Bytes) (value : ℕ)
  | part (whole index : ℕ)
  | collect (items : List ℕ)
  | construct (typ : ℕ) (fields : List (Bytes × ℕ))
  | call (func argc : ℕ)
  | invoke (recv hops : ℕ) (mname : Bytes) (argc : ℕ)
  | spawn
  | resume (task : ℕ)
  /-- The installation before the next line of a session. -/
  | line

namespace State

variable (runtime : Runtime)

def push (state : State) (value : Value) : State :=
  { state with held := state.held ++ [value] }

def perform (state : State) (effect : Effect) : State :=
  { state with effects := state.effects ++ [effect] }

/-- The scopes of the running task. -/
def scopes (state : State) : NetScopes :=
  state.tasks.getD state.current ⟨false, false⟩

/-- The result of a native function: an object of the type that the globals have now. -/
def pushResult (state : State) (id : NativeFnId) : State :=
  match id.resultType with
  | none => state.push .data
  | some name =>
    match state.globals.get name with
    | some (.typeObject typ) =>
      let result := .typed typ (id.resultFields.map fun field => (field, .data))
      state.push (if id.returnsPair then .container [result, .data] else result)
    | _ => state

/-- `callNative`. What a function checks about its arguments beyond their number is left out. -/
def callNative (state : State) (id : NativeFnId) (argc : ℕ) : State :=
  if id.dispatched runtime.build ∧ id.argumentCount.all (· = argc) then
    if id.checkedScope.all state.scopes.has then
      (state.perform (.native id)).pushResult id
    else state.push .data
  else state

/-- `callHostModule`. -/
def callHostModule (state : State) (callId arity argc : ℕ) : State :=
  if (arity = 255 ∨ arity = argc) ∧ argc ≤ 255 ∧ runtime.hostBackend then
    (state.perform (.host callId)).push .data
  else state

/-- `performCall`, of functions that are not bytecode. -/
def performCall (state : State) (func : Value) (argc : ℕ) : State :=
  match func with
  | .nativeFunction id _ => state.callNative runtime id argc
  | .hostModuleFunction callId arity => state.callHostModule runtime callId arity argc
  | .typed typ _ =>
    if runtime.build .ffi ∧ typ.qualifiedName = callableName then
      (state.perform .ffiCallable).push .data
    else state
  | _ => state

def invoke (state : State) (recv : Value) (hops : ℕ) (mname : Bytes) (argc : ℕ) : State :=
  match recv with
  | .typed typ fields =>
    match state.globals.resolveMethod typ fields hops mname with
    | some (func, passRecv) => state.performCall runtime func (if passRecv then argc + 1 else argc)
    | none => state
  | _ => state

/-- The installation of everything but the standard library. -/
def installModules (gs : Globals) : Globals :=
  (gs.installHostModules runtime.hostModules).installCapabilityModules runtime.capabilityModules

def exec (state : State) : Act → State
  | .constant none => state.push .data
  | .constant (some typ) => state.push (.typeObject typ)
  | .getGlobal name =>
    match state.globals.get name with
    | some value => state.push value
    | none => state
  | .getGlobalSlot slot =>
    match state.globals[slot]? with
    | some entry => state.push entry.2
    | none => state.push .data
  | .defGlobal name value =>
    match state.held[value]? with
    | some value => { state with globals := state.globals.define name value }
    | none => state
  | .setGlobal name value =>
    match state.held[value]? with
    | some value => { state with globals := state.globals.set name value }
    | none => state
  | .part whole index =>
    match state.held[whole]?.bind fun whole => whole.parts[index]? with
    | some part => state.push part
    | none => state
  | .collect items => state.push (.container (items.filterMap fun item => state.held[item]?))
  | .construct typ fields =>
    match state.held[typ]? with
    | some (.typeObject typ) =>
      state.push (.typed typ (fields.filterMap fun field =>
        state.held[field.2]?.map fun value => (field.1, value)))
    | _ => state
  | .call func argc =>
    match state.held[func]? with
    | some func => state.performCall runtime func argc
    | none => state
  | .invoke recv hops mname argc =>
    match state.held[recv]? with
    | some recv => state.invoke runtime recv hops mname argc
    | none => state
  | .spawn => { state with tasks := state.tasks ++ [state.scopes] }
  | .resume task => if task < state.tasks.length then { state with current := task } else state
  | .line =>
    { state with
      globals := installModules runtime state.globals
      tasks := [netScopesFromCapabilities runtime.enabledCapabilities]
      current := 0 }

end State

/-- The globals of the standard library: no function or type of a capability occurs in them, and
no function of the host. -/
structure StdGlobals where
  globals : Globals
  std : ∀ entry ∈ globals, entry.2.Only (fun id => ∃ number, id = .std number) (fun _ => False)
    (fun name => ∀ c : Capability, ∀ typ ∈ c.types, name ≠ typ.qualifiedName ∧
      Globals.baseName name ≠ typ.qualifiedName)

/-- The state in which a program starts to run. -/
def State.start (runtime : Runtime) (std : StdGlobals) : State where
  globals := State.installModules runtime std.globals
  held := []
  tasks := [netScopesFromCapabilities runtime.enabledCapabilities]
  current := 0
  effects := []

end Gengo.Capabilities
