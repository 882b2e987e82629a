import Gengo.Bytecode.Value

/-!
# Capability modules

A capability module is a table of native functions. Its installation defines a global for the
module, whose fields are the functions, and globals for the types of the objects that the
functions return, and for the methods of these types.
-/

namespace Gengo.Capabilities

open Bytecode (Bytes literal dot)

/-- `[` -/
def bracket : UInt8 :=
  91

inductive Capability
  | net
  | fs
  | http
  | env
  | ffi
  deriving DecidableEq, Repr

/-- The element types of a raw buffer. -/
inductive BufType
  | u8
  | i32
  | u32
  | i64
  | u64
  | f32
  | f64
  deriving DecidableEq, Repr

/-- The native functions; those of the standard library are only told apart by a number. -/
inductive NativeFnId
  | std (number : ℕ)
  | capNetDial
  | capNetDialTls
  | capNetListen
  | capNetRead
  | capNetWrite
  | capNetClose
  | capNetLocalAddr
  | capNetRemoteAddr
  | capNetSetDeadline
  | capNetSetReadDeadline
  | capNetSetWriteDeadline
  | capNetListenerAccept
  | capNetListenerClose
  | capNetListenerLocalAddr
  | capNetListenerSetAcceptDeadline
  | capFsRead
  | capFsExists
  | capFsWrite
  | capFsList
  | capFsDelete
  | capFsMkdir
  | capHttpGet
  | capHttpPost
  | capHttpFetch
  | capEnvGet
  | capEnvList
  | capFfiLoad
  | capFfiDeclare
  | capFfiClose
  | capFfiBufAlloc
  | capFfiBufFromPtr
  | capFfiBufFree
  | capFfiBufLen
  | capFfiBufRead (typ : BufType)
  | capFfiBufWrite (typ : BufType)
  deriving DecidableEq, Repr

structure CapModuleFuncDesc where
  name : Bytes
  arity : ℕ
  nativeId : NativeFnId

structure CapModuleDesc where
  name : Bytes
  functions : List CapModuleFuncDesc

namespace Capability

def name : Capability → Bytes
  | net => literal "net"
  | fs => literal "fs"
  | http => literal "http"
  | env => literal "env"
  | ffi => literal "ffi"

/-- `cap_net_desc` and the tables of the other modules. -/
def desc : Capability → CapModuleDesc
  | net => ⟨net.name,
      [⟨literal "dial", 2, .capNetDial⟩,
        ⟨literal "dial_tls", 2, .capNetDialTls⟩,
        ⟨literal "listen", 2, .capNetListen⟩]⟩
  | fs => ⟨fs.name,
      [⟨literal "read", 1, .capFsRead⟩,
        ⟨literal "exists", 1, .capFsExists⟩,
        ⟨literal "write", 2, .capFsWrite⟩,
        ⟨literal "list", 1, .capFsList⟩,
        ⟨literal "delete", 1, .capFsDelete⟩,
        ⟨literal "mkdir", 1, .capFsMkdir⟩]⟩
  | http => ⟨http.name,
      [⟨literal "get", 1, .capHttpGet⟩,
        ⟨literal "post", 2, .capHttpPost⟩,
        ⟨literal "fetch", 2, .capHttpFetch⟩]⟩
  | env => ⟨env.name,
      [⟨literal "get", 1, .capEnvGet⟩, ⟨literal "list", 0, .capEnvList⟩]⟩
  | ffi => ⟨ffi.name, [⟨literal "load", 1, .capFfiLoad⟩]⟩

end Capability

/-- `build_options`: which capabilities a build contains. -/
abbrev BuildOptions : Type :=
  Capability → Bool

/-- `AllCapabilities`. -/
def allCapabilities (build : BuildOptions) : List CapModuleDesc :=
  ([Capability.net, .fs, .http, .env, .ffi].filter build).map Capability.desc

/-- The module that a native function belongs to. -/
def NativeFnId.capability : NativeFnId → Option Capability
  | std _ => none
  | capNetDial | capNetDialTls | capNetListen | capNetRead | capNetWrite | capNetClose
  | capNetLocalAddr | capNetRemoteAddr | capNetSetDeadline | capNetSetReadDeadline
  | capNetSetWriteDeadline | capNetListenerAccept | capNetListenerClose
  | capNetListenerLocalAddr | capNetListenerSetAcceptDeadline => some .net
  | capFsRead | capFsExists | capFsWrite | capFsList | capFsDelete | capFsMkdir => some .fs
  | capHttpGet | capHttpPost | capHttpFetch => some .http
  | capEnvGet | capEnvList => some .env
  | capFfiLoad | capFfiDeclare | capFfiClose | capFfiBufAlloc | capFfiBufFromPtr | capFfiBufFree
  | capFfiBufLen | capFfiBufRead _ | capFfiBufWrite _ => some .ffi

/-- A type object, as far as the lookup of methods goes: `parentName` is the parent of a named
type. -/
structure TypeObj where
  qualifiedName : Bytes
  isNamed : Bool := false
  parentName : Option Bytes := none

/-- What a value gives access to. An object that belongs to a type, whether of structures,
variants, enumerations or named values, is `typed`; every other object with values in it, an
array, a map or a closure with its cells, is a container. -/
inductive Value where
  | data
  | typeObject (typ : TypeObj)
  | typed (typ : TypeObj) (fields : List (Bytes × Value))
  | container (items : List Value)
  | nativeFunction (id : NativeFnId) (arity : ℕ)
  | hostModuleFunction (callId arity : ℕ)

namespace Value

open List

/-- The values that can be taken from a value. -/
def parts : Value → List Value
  | typed _ fields => fields.map Prod.snd
  | container items => items
  | _ => []

/-- Only such native functions, host functions and types occur in a value. -/
inductive Only (native : NativeFnId → Prop) (host : ℕ → Prop) (type : Bytes → Prop) :
    Value → Prop
  | data : Only native host type data
  | typeObject {typ : TypeObj} : type typ.qualifiedName → Only native host type (typeObject typ)
  | typed {typ : TypeObj} {fields : List (Bytes × Value)} : type typ.qualifiedName →
      (∀ field ∈ fields, Only native host type field.2) →
      Only native host type (typed typ fields)
  | container {items : List Value} : (∀ item ∈ items, Only native host type item) →
      Only native host type (container items)
  | nativeFunction {id : NativeFnId} {arity : ℕ} : native id →
      Only native host type (nativeFunction id arity)
  | hostModuleFunction {callId arity : ℕ} : host callId →
      Only native host type (hostModuleFunction callId arity)

variable {native native' : NativeFnId → Prop} {host host' : ℕ → Prop} {type type' : Bytes → Prop}

theorem Only.mono {value : Value} (only : Only native host type value)
    (natives : ∀ id, native id → native' id) (hosts : ∀ callId, host callId → host' callId)
    (types : ∀ name, type name → type' name) : Only native' host' type' value := by
  induction only with
  | data => exact .data
  | typeObject allowed => exact .typeObject (types _ allowed)
  | typed allowed _ fields => exact .typed (types _ allowed) fields
  | container _ items => exact .container items
  | nativeFunction allowed => exact .nativeFunction (natives _ allowed)
  | hostModuleFunction allowed => exact .hostModuleFunction (hosts _ allowed)

theorem Only.part {value part : Value} (only : Only native host type value)
    (member : part ∈ value.parts) : Only native host type part := by
  cases only with
  | typed allowed fields =>
    rcases mem_map.mp member with ⟨field, inFields, rfl⟩
    exact fields field inFields
  | container items => exact items part member
  | data | typeObject _ | nativeFunction _ | hostModuleFunction _ => cases member

end Value

/-- `globals.State`, with the entries in the order of their definition. -/
abbrev Globals : Type :=
  List (Bytes × Value)

namespace Globals

open List

def get (gs : Globals) (name : Bytes) : Option Value :=
  (gs.find? fun entry => entry.1 = name).map Prod.snd

def has (gs : Globals) (name : Bytes) : Bool :=
  gs.any fun entry => entry.1 = name

/-- The definition of a global that does not exist. -/
def defineNew (gs : Globals) (name : Bytes) (value : Value) : Globals :=
  if gs.has name then gs else gs ++ [(name, value)]

/-- A global gets a new value. -/
def set (gs : Globals) (name : Bytes) (value : Value) : Globals :=
  gs.map fun entry => if entry.1 = name then (name, value) else entry

/-- `def`. -/
def define (gs : Globals) (name : Bytes) (value : Value) : Globals :=
  if gs.has name then gs.set name value else gs ++ [(name, value)]

variable {gs : Globals} {name : Bytes} {value : Value} {entry : Bytes × Value}

theorem mem_of_get (found : gs.get name = some value) : (name, value) ∈ gs := by
  rcases Option.map_eq_some_iff.mp found with ⟨entry, isFirst, rfl⟩
  have named : entry.1 = name := by simpa using List.find?_some isFirst
  rw [← named]
  exact mem_of_find?_eq_some isFirst

theorem mem_defineNew (member : entry ∈ gs.defineNew name value) :
    entry ∈ gs ∨ entry = (name, value) := by
  rw [defineNew] at member
  split at member
  · exact .inl member
  · simpa using member

theorem mem_set (member : entry ∈ gs.set name value) : entry ∈ gs ∨ entry = (name, value) := by
  rcases mem_map.mp member with ⟨old, inOld, rfl⟩
  split
  · exact .inr rfl
  · exact .inl inOld

theorem mem_define (member : entry ∈ gs.define name value) :
    entry ∈ gs ∨ entry = (name, value) := by
  rw [define] at member
  split at member
  · exact mem_set member
  · simpa using member

end Globals

/-!
# The installation of modules

Before a program runs, the runtime installs the host's modules and the capability modules. Every
global that the installation of a capability module defines belongs to that capability.
-/

structure HostModuleFuncDesc where
  name : Bytes
  callId : ℕ
  arity : ℕ

structure HostModuleDesc where
  name : Bytes
  functions : List HostModuleFuncDesc

def capGlobalName (name : Bytes) : Bytes :=
  literal "cap:" ++ name

def hostGlobalName (name : Bytes) : Bytes :=
  literal "host:" ++ name

/-- The qualified name of a module's own type. -/
def capTypeName (name : Bytes) : Bytes :=
  literal "@cap_type:" ++ name

/-- The global of a method. -/
def methodName (qualifiedName mname : Bytes) : Bytes :=
  qualifiedName ++ dot :: mname

def connName : Bytes :=
  literal "@cap_type:net.Conn"

def listenerName : Bytes :=
  literal "@cap_type:net.Listener"

def responseName : Bytes :=
  literal "@cap_type:http.Response"

def libName : Bytes :=
  literal "@cap_type:ffi.Lib"

def callableName : Bytes :=
  literal "@cap_type:ffi.Callable"

def bufName : Bytes :=
  literal "@cap_type:ffi.Buf"

/-- The namespace of a function whose name has a dot. -/
def namespaceOf (name : Bytes) : Option Bytes :=
  if dot ∈ name then some (name.takeWhile (· ≠ dot)) else none

/-- The namespaces of a table, of which at most 64 are collected. -/
def namespaces (entries : List CapModuleFuncDesc) : List Bytes :=
  entries.foldl (fun seen entry =>
      match namespaceOf entry.name with
      | none => seen
      | some ns => if ns ∈ seen ∨ 64 ≤ seen.length then seen else seen ++ [ns])
    []

def funcValue (entry : CapModuleFuncDesc) : Value :=
  .nativeFunction entry.nativeId entry.arity

/-- The object of a namespace. -/
def namespaceValue (moduleName : Bytes) (entries : List CapModuleFuncDesc) (ns : Bytes) : Value :=
  .typed { qualifiedName := methodName (capTypeName moduleName) ns }
    ((entries.filter fun entry => (ns ++ [dot]).isPrefixOf entry.name).map fun entry =>
      (entry.name.drop (ns.length + 1), funcValue entry))

/-- The object of a capability module. -/
def moduleValue (cm : CapModuleDesc) : Value :=
  .typed { qualifiedName := capTypeName cm.name }
    (((cm.functions.filter fun entry => dot ∉ entry.name).map fun entry =>
        (entry.name, funcValue entry)) ++
      (namespaces cm.functions).map fun ns => (ns, namespaceValue cm.name cm.functions ns))

/-- The object of `cap:ffi`. -/
def ffiValue : Value :=
  .typed { qualifiedName := literal "@cap_type:ffi" }
    [(literal "load", .nativeFunction .capFfiLoad 1),
      (literal "types", .typed { qualifiedName := literal "@cap_type:ffi.types" }
        ([literal "void", literal "i8", literal "u8", literal "i16", literal "u16", literal "i32",
          literal "u32", literal "i64", literal "u64", literal "f32", literal "f64",
          literal "cstring", literal "pointer"].map fun name => (name, .data))),
      (literal "buf", .nativeFunction .capFfiBufAlloc 1),
      (literal "buf_from_ptr", .nativeFunction .capFfiBufFromPtr 2)]

structure NativeMethod where
  name : Bytes
  id : NativeFnId
  arity : ℕ

def connMethods : List NativeMethod :=
  [⟨literal "read", .capNetRead, 2⟩,
    ⟨literal "write", .capNetWrite, 2⟩,
    ⟨literal "close", .capNetClose, 1⟩,
    ⟨literal "local_addr", .capNetLocalAddr, 1⟩,
    ⟨literal "remote_addr", .capNetRemoteAddr, 1⟩,
    ⟨literal "set_deadline", .capNetSetDeadline, 2⟩,
    ⟨literal "set_read_deadline", .capNetSetReadDeadline, 2⟩,
    ⟨literal "set_write_deadline", .capNetSetWriteDeadline, 2⟩]

def listenerMethods : List NativeMethod :=
  [⟨literal "accept", .capNetListenerAccept, 1⟩,
    ⟨literal "close", .capNetListenerClose, 1⟩,
    ⟨literal "local_addr", .capNetListenerLocalAddr, 1⟩,
    ⟨literal "set_accept_deadline", .capNetListenerSetAcceptDeadline, 2⟩]

def libMethods : List NativeMethod :=
  [⟨literal "declare", .capFfiDeclare, 4⟩, ⟨literal "close", .capFfiClose, 1⟩]

def bufMethods : List NativeMethod :=
  [⟨literal "free", .capFfiBufFree, 1⟩,
    ⟨literal "len", .capFfiBufLen, 1⟩,
    ⟨literal "read_u8", .capFfiBufRead .u8, 2⟩,
    ⟨literal "read_i32", .capFfiBufRead .i32, 2⟩,
    ⟨literal "read_u32", .capFfiBufRead .u32, 2⟩,
    ⟨literal "read_i64", .capFfiBufRead .i64, 2⟩,
    ⟨literal "read_u64", .capFfiBufRead .u64, 2⟩,
    ⟨literal "read_f32", .capFfiBufRead .f32, 2⟩,
    ⟨literal "read_f64", .capFfiBufRead .f64, 2⟩,
    ⟨literal "write_u8", .capFfiBufWrite .u8, 3⟩,
    ⟨literal "write_i32", .capFfiBufWrite .i32, 3⟩,
    ⟨literal "write_u32", .capFfiBufWrite .u32, 3⟩,
    ⟨literal "write_i64", .capFfiBufWrite .i64, 3⟩,
    ⟨literal "write_u64", .capFfiBufWrite .u64, 3⟩,
    ⟨literal "write_f32", .capFfiBufWrite .f32, 3⟩,
    ⟨literal "write_f64", .capFfiBufWrite .f64, 3⟩]

/-- A type whose values a module's functions return, with its methods. -/
structure MethodType where
  qualifiedName : Bytes
  methods : List NativeMethod

/-- The types of a capability module. -/
def Capability.types : Capability → List MethodType
  | net => [⟨connName, connMethods⟩, ⟨listenerName, listenerMethods⟩]
  | fs => []
  | http => [⟨responseName, []⟩]
  | env => []
  | ffi => [⟨libName, libMethods⟩, ⟨callableName, []⟩, ⟨bufName, bufMethods⟩]

def MethodType.typeEntry (typ : MethodType) : Bytes × Value :=
  (typ.qualifiedName, .typeObject { qualifiedName := typ.qualifiedName })

def MethodType.methodEntry (typ : MethodType) (method : NativeMethod) : Bytes × Value :=
  (methodName typ.qualifiedName method.name, .nativeFunction method.id method.arity)

def Capability.moduleEntry : Capability → Bytes × Value
  | ffi => (literal "cap:ffi", ffiValue)
  | c => (capGlobalName c.name, moduleValue c.desc)

/-- What belongs to a capability: the globals that its installation defines. -/
def Capability.globals (c : Capability) : Globals :=
  c.moduleEntry :: c.types.flatMap fun typ => typ.typeEntry :: typ.methods.map typ.methodEntry

namespace Globals

open List

def defineEntries (gs : Globals) (entries : Globals) : Globals :=
  entries.foldl (fun gs entry => gs.defineNew entry.1 entry.2) gs

/-- A type and its methods. -/
def installType (gs : Globals) (typ : MethodType) : Globals :=
  (gs.defineNew typ.typeEntry.1 typ.typeEntry.2).defineEntries (typ.methods.map typ.methodEntry)

/-- `installFfiModule`. The methods of a type are defined with it, except those of buffers. -/
def installFfiModule (gs : Globals) : Globals :=
  if gs.has (literal "cap:ffi") then gs
  else
    let gs := gs.define (literal "cap:ffi") ffiValue
    let gs := if gs.has libName then gs else gs.installType ⟨libName, libMethods⟩
    let gs := if gs.has callableName then gs else gs.installType ⟨callableName, []⟩
    if gs.has bufName then gs else gs.installType ⟨bufName, bufMethods⟩

/-- The types of `cap:net`: that of listeners only together with that of connections. -/
def installNetTypes (gs : Globals) : Globals :=
  if gs.has connName then gs
  else
    let gs := gs.installType ⟨connName, connMethods⟩
    if gs.has listenerName then gs else gs.installType ⟨listenerName, listenerMethods⟩

/-- One round of `installCapabilityModules`. -/
def installCapabilityModule (gs : Globals) (cm : CapModuleDesc) : Globals :=
  if cm.name = literal "ffi" then gs.installFfiModule
  else if gs.has (capGlobalName cm.name) then gs
  else
    let gs := gs.define (capGlobalName cm.name) (moduleValue cm)
    let gs := if cm.name = literal "http" then gs.installType ⟨responseName, []⟩ else gs
    if cm.name = literal "net" then gs.installNetTypes else gs

def installCapabilityModules (gs : Globals) (capModules : List CapModuleDesc) : Globals :=
  capModules.foldl installCapabilityModule gs

/-- The object of a host module. -/
def hostModuleValue (hm : HostModuleDesc) : Value :=
  .typed { qualifiedName := literal "@module_type:" ++ hm.name }
    (hm.functions.map fun entry => (entry.name, .hostModuleFunction entry.callId entry.arity))

def installHostModules (gs : Globals) (hostModules : List HostModuleDesc) : Globals :=
  hostModules.foldl (fun gs hm => gs.defineNew (hostGlobalName hm.name) (hostModuleValue hm)) gs

variable {gs : Globals} {entry : Bytes × Value}

theorem mem_defineEntries {entries : Globals} (member : entry ∈ gs.defineEntries entries) :
    entry ∈ gs ∨ entry ∈ entries := by
  induction entries generalizing gs with
  | nil => exact .inl member
  | cons first rest ih =>
    rcases ih member with before | inRest
    · rcases mem_defineNew before with old | rfl
      · exact .inl old
      · exact .inr (mem_cons_self ..)
    · exact .inr (mem_cons_of_mem first inRest)

theorem mem_installType {typ : MethodType} (member : entry ∈ gs.installType typ) :
    entry ∈ gs ∨ entry ∈ typ.typeEntry :: typ.methods.map typ.methodEntry := by
  rcases mem_defineEntries member with before | inMethods
  · rcases mem_defineNew before with old | rfl
    · exact .inl old
    · exact .inr (mem_cons_self ..)
  · exact .inr (mem_cons_of_mem _ inMethods)

theorem mem_installType_unless {typ : MethodType} {present : Bool}
    (member : entry ∈ if present then gs else gs.installType typ) :
    entry ∈ gs ∨ entry ∈ typ.typeEntry :: typ.methods.map typ.methodEntry := by
  cases present with
  | true => exact .inl member
  | false => exact mem_installType member

theorem mem_globals_of_type {c : Capability} {typ : MethodType} (isType : typ ∈ c.types)
    (member : entry ∈ typ.typeEntry :: typ.methods.map typ.methodEntry) : entry ∈ c.globals :=
  mem_cons_of_mem _ (mem_flatMap.mpr ⟨typ, isType, member⟩)

theorem mem_installFfiModule (member : entry ∈ gs.installFfiModule) :
    entry ∈ gs ∨ entry ∈ Capability.ffi.globals := by
  rw [installFfiModule] at member
  split at member
  · exact .inl member
  · rcases mem_installType_unless member with beforeBuf | inBuf
    · rcases mem_installType_unless beforeBuf with beforeCallable | inCallable
      · rcases mem_installType_unless beforeCallable with beforeLib | inLib
        · rcases mem_define beforeLib with old | rfl
          · exact .inl old
          · exact .inr (mem_cons_self ..)
        · exact .inr (mem_globals_of_type (by simp [Capability.types]) inLib)
      · exact .inr (mem_globals_of_type (by simp [Capability.types]) inCallable)
    · exact .inr (mem_globals_of_type (by simp [Capability.types]) inBuf)

theorem mem_installNetTypes (member : entry ∈ gs.installNetTypes) :
    entry ∈ gs ∨ entry ∈ Capability.net.globals := by
  rw [installNetTypes] at member
  split at member
  · exact .inl member
  · rcases mem_installType_unless member with beforeListener | inListener
    · rcases mem_installType beforeListener with old | inConn
      · exact .inl old
      · exact .inr (mem_globals_of_type (by simp [Capability.types]) inConn)
    · exact .inr (mem_globals_of_type (by simp [Capability.types]) inListener)

theorem mem_installCapabilityModule (c : Capability)
    (member : entry ∈ gs.installCapabilityModule c.desc) :
    entry ∈ gs ∨ entry ∈ c.globals := by
  have ofModule : c ≠ .ffi →
      ∀ {entry}, entry ∈ gs.define (capGlobalName c.desc.name) (moduleValue c.desc) →
        entry ∈ gs ∨ entry ∈ c.globals := by
    intro other entry member
    rcases mem_define member with old | rfl
    · exact .inl old
    · right
      cases c with
      | ffi => exact absurd rfl other
      | net | fs | http | env => exact mem_cons_self ..
  rw [installCapabilityModule] at member
  by_cases isFfi : c = .ffi
  · subst isFfi
    exact mem_installFfiModule member
  · have otherName : c.desc.name ≠ literal "ffi" := by
      cases c with
      | ffi => exact absurd rfl isFfi
      | net | fs | http | env => decide
    rw [if_neg otherName] at member
    split at member
    · exact .inl member
    · cases c with
      | ffi => exact absurd rfl isFfi
      | net =>
        rcases mem_installNetTypes member with defined | owned
        · exact ofModule isFfi defined
        · exact .inr owned
      | http =>
        rcases mem_installType member with defined | inResponse
        · exact ofModule isFfi defined
        · exact .inr (mem_globals_of_type (by simp [Capability.types]) inResponse)
      | fs | env => exact ofModule isFfi member

/-- The installation of capability modules adds what belongs to these capabilities. -/
theorem mem_installCapabilityModules {cs : List Capability}
    (member : entry ∈ gs.installCapabilityModules (cs.map Capability.desc)) :
    entry ∈ gs ∨ ∃ c ∈ cs, entry ∈ c.globals := by
  induction cs generalizing gs with
  | nil => exact .inl member
  | cons c rest ih =>
    rcases ih member with before | ⟨owner, inRest, owned⟩
    · rcases mem_installCapabilityModule c before with old | owned
      · exact .inl old
      · exact .inr ⟨c, mem_cons_self .., owned⟩
    · exact .inr ⟨owner, mem_cons_of_mem c inRest, owned⟩

theorem mem_installHostModules {hostModules : List HostModuleDesc}
    (member : entry ∈ gs.installHostModules hostModules) :
    entry ∈ gs ∨ ∃ hm ∈ hostModules, entry.2 = hostModuleValue hm := by
  induction hostModules generalizing gs with
  | nil => exact .inl member
  | cons hm rest ih =>
    rcases ih member with before | ⟨other, inRest, same⟩
    · rcases mem_defineNew before with old | rfl
      · exact .inl old
      · exact .inr ⟨hm, mem_cons_self .., rfl⟩
    · exact .inr ⟨other, mem_cons_of_mem hm inRest, same⟩

end Globals

end Gengo.Capabilities
