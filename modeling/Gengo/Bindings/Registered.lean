import Gengo.Bindings.Scopes

/-!
# The compiler's stores to globals

What the compiler keeps of the declarations while it compiles a program, its modules, or the
lines of a session, and the statements that store to a global. The right side of a declaration or
an assignment, and the body of a function, come before the statement itself: they declare no
function and no constant of their own, so that it does not matter to its checks. Checks against
the names and the kinds of types, and the limits of tables other than those of the globals and
the locals, are left out: they only reject more.
-/

namespace Gengo.Bindings

open Bytecode (Bytes dot literal)
open Fallible (refuse)

def maxGlobals : ℕ := 1024

/-- A function, by its qualified name, or a constant, by its own. -/
structure Symbol where
  name : Name
  isConst : Bool
  deriving DecidableEq, Repr

/-- The functions and constants that are found by their names. Only the first symbol of a name
is. -/
structure TypeRegistry where
  buckets : List Symbol
  globalCount : ℕ
  deriving DecidableEq, Repr

namespace TypeRegistry

variable (registry : TypeRegistry)

def empty : TypeRegistry :=
  ⟨[], 0⟩

def hasGlobalConst (name : Name) : Prop :=
  ⟨name, true⟩ ∈ registry.buckets

instance (name : Name) : Decidable (registry.hasGlobalConst name) :=
  inferInstanceAs (Decidable (_ ∈ _))

def hasGlobalFunc (name : Name) : Prop :=
  ⟨name, false⟩ ∈ registry.buckets

instance (name : Name) : Decidable (registry.hasGlobalFunc name) :=
  inferInstanceAs (Decidable (_ ∈ _))

/-- `funcSlotForInsert`: a name that has a symbol keeps it. -/
def insert (symbol : Symbol) : TypeRegistry :=
  { globalCount := registry.globalCount + 1
    buckets :=
      if symbol.name ∈ registry.buckets.map Symbol.name then registry.buckets
      else registry.buckets ++ [symbol] }

def addGlobalConst (name : Name) : Except Refusal TypeRegistry := do
  if registry.hasGlobalConst name then return registry
  refuse (maxGlobals ≤ registry.globalCount) .tooManyGlobals
  return registry.insert ⟨name, true⟩

def addGlobalFunc (name : Name) : Except Refusal TypeRegistry := do
  refuse (maxGlobals ≤ registry.globalCount) .tooManyGlobals
  return registry.insert ⟨name, false⟩

/-- `restoreReplCompilerState` passes over a function that does not fit. -/
def restoreGlobalFunc (name : Name) : TypeRegistry :=
  if maxGlobals ≤ registry.globalCount then registry else registry.insert ⟨name, false⟩

end TypeRegistry

/-- Which statement stores to a global. -/
inductive Writer
  | func
  | const
  | importBinding
  | variable
  | assignment
  | multiBind
  | loopVar
  | switchBinding
  | typeObject
  | multiAssignScratch
  | testBlock
  | moduleObject
  deriving DecidableEq, Repr

/-- Functions, constants and bindings of imports are never to be written again. -/
def Writer.immutable : Writer → Bool
  | func | const | importBinding => true
  | _ => false

/-- A `def_global` or `set_global` that was emitted, and the compiler that emitted it. -/
structure Store where
  name : Name
  unit : ℕ
  writer : Writer
  deriving DecidableEq, Repr

/-- The compiler of the program itself, and of every line of a session. -/
def rootUnit : ℕ := 0

structure Compiler where
  unit : ℕ
  modulePrefix : Name
  scope : FuncInfo
  /-- The functions around the one that is being compiled, the innermost first. -/
  enclosing : List FuncInfo
  inLoopInit : Bool
  loopBodyDepth : ℕ
  /-- How many test blocks, one inside the other, are compiled to be thrown away. -/
  skippingTestBody : ℕ
  testCount : ℕ
  registry : TypeRegistry
  deriving DecidableEq, Repr

namespace Compiler

variable (compiler : Compiler)

def fresh (unit : ℕ) (modulePrefix : Name) (registry : TypeRegistry) : Compiler where
  unit := unit
  modulePrefix := modulePrefix
  scope := FuncInfo.empty
  enclosing := []
  inLoopInit := false
  loopBodyDepth := 0
  skippingTestBody := 0
  testCount := 0
  registry := registry

def inFunc : Bool :=
  compiler.enclosing ≠ []

def qualifyGlobalName (name : Name) : Name :=
  if compiler.modulePrefix = [] then name else compiler.modulePrefix ++ dot :: name

/-- Where a name that is not a local is found: as a captured variable, or as a global. -/
def resolveOuter (name : Name) : Option ℕ × Compiler :=
  let (found, scope, enclosing) := resolveUpvalue name compiler.scope compiler.enclosing
  (found, { compiler with scope := scope, enclosing := enclosing })

end Compiler

/-- What is compiled, and what the lines of a session leave for the next. -/
structure Session where
  compiler : Compiler
  /-- The compilers that wait for an import, the last one first. -/
  importers : List Compiler
  unitCount : ℕ
  /-- `repl.const_names` -/
  constNames : List Name
  /-- The functions of earlier lines that no table has any more. -/
  lostFuncs : List Name
  stores : List Store
  deriving DecidableEq, Repr

namespace Session

variable (session : Session)

def init : Session where
  compiler := Compiler.fresh rootUnit [] TypeRegistry.empty
  importers := []
  unitCount := 1
  constNames := []
  lostFuncs := []
  stores := []

def withScope (scope : FuncInfo) : Session :=
  { session with compiler := { session.compiler with scope := scope } }

def withRegistry (registry : TypeRegistry) : Session :=
  { session with compiler := { session.compiler with registry := registry } }

/-- The store is not emitted into the program while a test block is skipped. -/
def emitStore (writer : Writer) (name : Name) : Session :=
  if session.compiler.skippingTestBody = 0 then
    { session with stores := session.stores ++ [⟨name, session.compiler.unit, writer⟩] }
  else session

/-- Only the compiler of a line asks the tables of the session. -/
def checkGlobalIsConst (name : Name) : Prop :=
  session.compiler.unit = rootUnit ∧ name ∈ session.constNames

instance (name : Name) : Decidable (session.checkGlobalIsConst name) :=
  inferInstanceAs (Decidable (_ ∧ _))

def defineLocal (name : Name) (isConst : Bool) : Except Refusal Session := do
  return session.withScope (← session.compiler.scope.defineLocal name isConst)

/-- `emitGetVar`, which may capture a variable. -/
def emitGetVar (name : Name) : Session :=
  match session.compiler.scope.resolveLocal name with
  | some _ => session
  | none => { session with compiler := (session.compiler.resolveOuter name).2 }

def emitSetVar (name : Name) : Session :=
  match session.compiler.scope.resolveLocal name with
  | some _ => session
  | none =>
    let (found, compiler) := session.compiler.resolveOuter name
    let captured := { session with compiler := compiler }
    if found.isSome then captured
    else captured.emitStore .assignment (compiler.qualifyGlobalName name)

def ensureMutableBinding (name : Ident) : Except Refusal Unit :=
  match session.compiler.scope.resolveLocalConst name with
  | some isConst => refuse isConst .assignToConst
  | none =>
    match resolveUpvalueConst name session.compiler.enclosing with
    | some isConst => refuse isConst .assignToConst
    | none => do
      refuse (session.compiler.registry.hasGlobalConst name) .assignToConst
      refuse (session.compiler.registry.hasGlobalFunc
        (session.compiler.qualifyGlobalName name)) .assignToConst
      refuse (session.checkGlobalIsConst name) .assignToConst

/-- `assignStmt`, `compoundStmt`, `incrStmt`, and a target of `multiBindStmt`. -/
def assignStmt (name : Ident) : Except Refusal Session := do
  session.ensureMutableBinding name
  return session.emitSetVar name

/-- One name of a `multiBindStmt` that declares. -/
def multiBindStmt (name : Ident) : Session :=
  if session.compiler.inFunc then session.emitSetVar name
  else session.emitStore .multiBind (session.compiler.qualifyGlobalName name)

/-- The end of `forInStmt` and `cForStmt`: at top level the loop's variable is a global from
here on. -/
def exportLoopVar (name : Ident) : Session :=
  if session.compiler.inFunc then session
  else session.emitStore .loopVar (session.compiler.qualifyGlobalName name)

/-- The binding of a case of `switchStmt`. A guard keeps the scrutinee in a local of its own. -/
def bindPayload (guarded : Bool) (name : Ident) : Except Refusal Session := do
  if session.compiler.inFunc then
    if guarded then
      (← session.defineLocal (literal "_ scrutinee") true).defineLocal name false
    else session.defineLocal name false
  else return session.emitStore .switchBinding (session.compiler.qualifyGlobalName name)

/-- `varDecl`. The right side is an import, or a function whose own name is defined already. -/
def varDecl (isConst isImport selfRefers : Bool) (name : Ident) : Except Refusal Session := do
  if session.compiler.inFunc ∨ session.compiler.inLoopInit ∨ 0 < session.compiler.loopBodyDepth then
    if selfRefers then return session
    session.defineLocal name isConst
  else
    refuse (¬isConst ∧ session.compiler.registry.hasGlobalConst name) .assignToConst
    refuse (session.checkGlobalIsConst name) .assignToConst
    let qname := session.compiler.qualifyGlobalName name
    refuse (session.compiler.skippingTestBody = 0 ∧ session.compiler.registry.hasGlobalFunc qname)
      .duplicateGlobal
    let stored := session.emitStore
      (if isConst then .const else if isImport then .importBinding else .variable) qname
    if session.compiler.skippingTestBody = 0 ∧ isConst then
      return stored.withRegistry (← stored.compiler.registry.addGlobalConst name)
    return stored

/-- What `namedFuncDecl` and `methodDecl` have in common. -/
def funcDecl (localName globalName : Name) : Except Refusal Session := do
  if session.compiler.inFunc then session.defineLocal localName false
  else if session.compiler.skippingTestBody = 0 then
    refuse (session.compiler.registry.hasGlobalFunc globalName) .duplicateField
    let registry ← session.compiler.registry.addGlobalFunc globalName
    return (session.withRegistry registry).emitStore .func globalName
  else return session.emitStore .func globalName

def namedFuncDecl (name : Ident) : Except Refusal Session :=
  session.funcDecl name (session.compiler.qualifyGlobalName name)

def methodDecl (receiver : Name) (name : Ident) : Except Refusal Session :=
  session.funcDecl (receiver ++ dot :: name) (receiver ++ dot :: name)

/-- The declaration of a type, as far as functions and constants are looked at. `subtypeDecl`
does not look for a function of the name. -/
def typeDecl (isSubtype : Bool) (name : Ident) : Except Refusal Session := do
  if session.compiler.inFunc then session.defineLocal name false
  else
    let qname := session.compiler.qualifyGlobalName name
    refuse (¬isSubtype ∧ session.compiler.skippingTestBody = 0 ∧
      session.compiler.registry.hasGlobalFunc qname) .duplicateField
    return session.emitStore .typeObject qname

/-- The beginning of `compileFuncWithPrefix`, `compileDeferBlock`, and of a test block in test
mode. -/
def enterFunc (params : List Local) (returns : List Name) : Except Refusal Session := do
  refuse (maxScopes ≤ session.compiler.enclosing.length + 1) .tooManyNestedFunctions
  let scope ← enterScope params returns
  return { session with
    compiler := { session.compiler with
      scope := scope
      enclosing := session.compiler.scope :: session.compiler.enclosing } }

def leaveFunc : Session :=
  match session.compiler.enclosing with
  | [] => session
  | scope :: enclosing =>
    { session with
      compiler := { session.compiler with scope := scope, enclosing := enclosing } }

def cleanupLocals (base : ℕ) : Session :=
  session.withScope (session.compiler.scope.cleanupLocals base)

def setLoopInit (inLoopInit : Bool) : Session :=
  { session with compiler := { session.compiler with inLoopInit := inLoopInit } }

def setLoopBodyDepth (depth : ℕ) : Session :=
  { session with compiler := { session.compiler with loopBodyDepth := depth } }

def setSkipping (depth : ℕ) : Session :=
  { session with compiler := { session.compiler with skippingTestBody := depth } }

def testName (index : ℕ) : Name :=
  literal ("__test_" ++ toString index)

/-- The end of a `testDecl` in test mode. -/
def testDecl : Session :=
  let counted := { session with
    compiler := { session.compiler with testCount := session.compiler.testCount + 1 } }
  counted.emitStore .testBlock (testName session.compiler.testCount)

def multiAssignValueScratch : Name :=
  literal "__gengo_tmp_value"

def beginModule (modulePrefix : Name) : Session :=
  { session with
    compiler := Compiler.fresh session.unitCount modulePrefix TypeRegistry.empty
    importers := session.compiler :: session.importers
    unitCount := session.unitCount + 1 }

/-- `emitModuleObject`, after which the importer goes on. -/
def endModule : Session :=
  match session.importers with
  | [] => session
  | importer :: importers =>
    let emitted := session.emitStore .moduleObject session.compiler.modulePrefix
    { emitted with compiler := importer, importers := importers }

/-- The next line of a session. The names of the functions are copied inside the buffer that
they are read from, in the order of their hashes, until a table is full: any names may come
back. -/
def nextLine (kept : List Name) : Session :=
  if session.compiler.unit = rootUnit then
    let symbols := session.compiler.registry.buckets
    let registry := kept.foldl TypeRegistry.restoreGlobalFunc TypeRegistry.empty
    { session with
      compiler := Compiler.fresh rootUnit [] registry
      constNames :=
        session.constNames ++ (symbols.filter fun symbol => symbol.isConst).map Symbol.name
      lostFuncs := session.lostFuncs ++
        (symbols.filter fun symbol => ¬symbol.isConst ∧ symbol ∉ registry.buckets).map Symbol.name }
  else session

end Session

/-- What the parser comes to next. -/
inductive Act
  | enterFunc (params : List Local) (returns : List Name)
  | leaveFunc
  | defineLocal (name : Name) (isConst : Bool)
  | cleanupLocals (base : ℕ)
  | enterLoopInit
  | leaveLoopInit
  | enterLoopBody
  | leaveLoopBody
  | getVar (name : Name)
  | assign (name : Ident)
  | assignLoopVar (name : Ident)
  | multiBind (name : Ident)
  | multiAssignScratch
  | exportLoopVar (name : Ident)
  | bindPayload (guarded : Bool) (name : Ident)
  | varDecl (isConst isImport selfRefers : Bool) (name : Ident)
  | namedFuncDecl (name : Ident)
  | methodDecl (receiver : Name) (name : Ident)
  | typeDecl (isSubtype : Bool) (name : Ident)
  /-- A generic type with its arguments, which may occur anywhere. -/
  | instantiate (qname : Name)
  | testDecl
  | skipTestBody
  | endTestBody
  | beginModule (modulePrefix : Name)
  | endModule
  | nextLine (kept : List Name)
  deriving DecidableEq

/-- What the compiler does, unless it refuses. -/
def perform (session : Session) : Act → Except Refusal Session
  | .enterFunc params returns => session.enterFunc params returns
  | .leaveFunc => .ok session.leaveFunc
  | .defineLocal name isConst => session.defineLocal name isConst
  | .cleanupLocals base => .ok (session.cleanupLocals base)
  | .enterLoopInit => .ok (session.setLoopInit true)
  | .leaveLoopInit => .ok (session.setLoopInit false)
  | .enterLoopBody => .ok (session.setLoopBodyDepth (session.compiler.loopBodyDepth + 1))
  | .leaveLoopBody => .ok (session.setLoopBodyDepth (session.compiler.loopBodyDepth - 1))
  | .getVar name => .ok (session.emitGetVar name)
  | .assign name => session.assignStmt name
  | .assignLoopVar name => .ok (session.emitSetVar name)
  | .multiBind name => .ok (session.multiBindStmt name)
  | .multiAssignScratch =>
    .ok (session.emitStore .multiAssignScratch Session.multiAssignValueScratch)
  | .exportLoopVar name => .ok (session.exportLoopVar name)
  | .bindPayload guarded name => session.bindPayload guarded name
  | .varDecl isConst isImport selfRefers name => session.varDecl isConst isImport selfRefers name
  | .namedFuncDecl name => session.namedFuncDecl name
  | .methodDecl receiver name => session.methodDecl receiver name
  | .typeDecl isSubtype name => session.typeDecl isSubtype name
  | .instantiate qname => .ok (session.emitStore .typeObject qname)
  | .testDecl => .ok session.testDecl
  | .skipTestBody => .ok (session.setSkipping (session.compiler.skippingTestBody + 1))
  | .endTestBody => .ok (session.setSkipping (session.compiler.skippingTestBody - 1))
  | .beginModule modulePrefix => .ok (session.beginModule modulePrefix)
  | .endModule => .ok session.endModule
  | .nextLine kept => .ok (session.nextLine kept)

/-- The states of the runs whose acts meet a condition. -/
inductive Run (condition : Session → Act → Prop) : Session → Prop
  | init : Run condition Session.init
  | step {session after : Session} (act : Act) : Run condition session →
      condition session act → perform session act = .ok after → Run condition after

/-!
# What the compiler knows of its stores

The registry of a unit has the constants and the functions that were stored, as long as nothing
else is stored under their names, and the tables of a session keep them from line to line.
-/

open List
open Fallible (bind_eq_ok)

/-- No store goes where a function, a constant or an import is bound, but the one that binds
it. -/
def WrittenOnce (stores : List Store) : Prop :=
  stores.Pairwise fun earlier later => earlier.name = later.name →
    ¬earlier.writer.immutable ∧ ¬later.writer.immutable

instance (stores : List Store) : Decidable (WrittenOnce stores) :=
  inferInstanceAs (Decidable (List.Pairwise _ _))

namespace Session

variable (session : Session)

/-- What is compiled is not thrown away. -/
abbrev Emits : Prop :=
  session.compiler.skippingTestBody = 0

/-- No function, constant or import is bound to the name. -/
def Free (name : Name) : Prop :=
  session.Emits → ∀ old ∈ session.stores, old.name = name → ¬old.writer.immutable

/-- Nothing has been stored under the name. -/
def Fresh (name : Name) : Prop :=
  session.Emits → ∀ old ∈ session.stores, old.name ≠ name

instance (name : Name) : Decidable (session.Free name) :=
  inferInstanceAs (Decidable (_ → _))

instance (name : Name) : Decidable (session.Fresh name) :=
  inferInstanceAs (Decidable (_ → _))

end Session

/-- The constants and functions that a compiler has stored are found by its checks, and the names
that its registry has are theirs. -/
structure Knows (stores : List Store) (constNames lostFuncs : List Name) (compiler : Compiler) :
    Prop where
  consts : ∀ old ∈ stores, old.unit = compiler.unit → old.writer = .const →
    ∃ name, old.name = compiler.qualifyGlobalName name ∧
      (compiler.registry.hasGlobalConst name ∨ compiler.unit = rootUnit ∧ name ∈ constNames)
  funcs : ∀ old ∈ stores, old.unit = compiler.unit → old.writer = .func →
    compiler.registry.hasGlobalFunc old.name ∨ old.name ∈ lostFuncs
  stored : ∀ name, compiler.registry.hasGlobalConst name →
    dot ∉ name ∧ ∃ old ∈ stores, old.name = compiler.qualifyGlobalName name
  dotted : ∀ name, compiler.registry.hasGlobalFunc name → compiler.modulePrefix ≠ [] → dot ∈ name

/-- What holds in every state of a run that meets the condition. -/
structure Valid (session : Session) : Prop where
  once : WrittenOnce session.stores
  knows : ∀ compiler ∈ session.compiler :: session.importers,
    Knows session.stores session.constNames session.lostFuncs compiler
  units : ((session.compiler :: session.importers).map Compiler.unit).Nodup
  begun : ∀ compiler ∈ session.compiler :: session.importers, compiler.unit < session.unitCount
  stored : ∀ old ∈ session.stores, old.unit < session.unitCount
  root : ∀ compiler ∈ session.compiler :: session.importers,
    compiler.unit = rootUnit → compiler.modulePrefix = []

section Registry

variable {registry after : TypeRegistry} {name : Name}

theorem TypeRegistry.mem_insert_iff {symbol other : Symbol} :
    other ∈ (registry.insert symbol).buckets ↔
      other ∈ registry.buckets ∨
        other = symbol ∧ symbol.name ∉ registry.buckets.map Symbol.name := by
  rw [TypeRegistry.insert]
  by_cases taken : symbol.name ∈ registry.buckets.map Symbol.name
  · simp [taken]
  · simp [taken]

theorem TypeRegistry.mem_names_iff :
    name ∈ registry.buckets.map Symbol.name ↔
      registry.hasGlobalConst name ∨ registry.hasGlobalFunc name := by
  rw [mem_map]
  constructor
  · rintro ⟨⟨_, isConst⟩, member, rfl⟩
    cases isConst with
    | true => exact .inl member
    | false => exact .inr member
  · rintro (member | member)
    · exact ⟨_, member, rfl⟩
    · exact ⟨_, member, rfl⟩

/-- A constant is found afterwards, unless a function has its name. -/
theorem TypeRegistry.addGlobalConst_spec (added : registry.addGlobalConst name = .ok after)
    (noFunc : ¬registry.hasGlobalFunc name) (other : Name) :
    (after.hasGlobalConst other ↔ registry.hasGlobalConst other ∨ other = name) ∧
      (after.hasGlobalFunc other ↔ registry.hasGlobalFunc other) := by
  rw [TypeRegistry.addGlobalConst] at added
  split at added
  · rename_i already
    cases added
    constructor
    · constructor
      · exact .inl
      · rintro (had | rfl)
        · exact had
        · exact already
    · exact .rfl
  · rename_i missing
    rcases bind_eq_ok.mp added with ⟨_, _, inserted⟩
    cases inserted
    have untaken : name ∉ registry.buckets.map Symbol.name := by
      rw [TypeRegistry.mem_names_iff]
      exact not_or.mpr ⟨missing, noFunc⟩
    simp [TypeRegistry.hasGlobalConst, TypeRegistry.hasGlobalFunc, TypeRegistry.mem_insert_iff,
      untaken]

/-- A function is found afterwards, unless a constant has its name. -/
theorem TypeRegistry.addGlobalFunc_spec (added : registry.addGlobalFunc name = .ok after)
    (noConst : ¬registry.hasGlobalConst name) (noFunc : ¬registry.hasGlobalFunc name)
    (other : Name) :
    (after.hasGlobalConst other ↔ registry.hasGlobalConst other) ∧
      (after.hasGlobalFunc other ↔ registry.hasGlobalFunc other ∨ other = name) := by
  rw [TypeRegistry.addGlobalFunc] at added
  rcases bind_eq_ok.mp added with ⟨_, _, inserted⟩
  cases inserted
  have untaken : name ∉ registry.buckets.map Symbol.name := by
    rw [TypeRegistry.mem_names_iff]
    exact not_or.mpr ⟨noConst, noFunc⟩
  simp [TypeRegistry.hasGlobalConst, TypeRegistry.hasGlobalFunc, TypeRegistry.mem_insert_iff,
    untaken]

theorem hasGlobalConst_of_restored (kept : List Name)
    (restored : (kept.foldl TypeRegistry.restoreGlobalFunc registry).hasGlobalConst name) :
    registry.hasGlobalConst name := by
  induction kept generalizing registry with
  | nil => exact restored
  | cons first rest ih =>
    have had := ih restored
    rw [TypeRegistry.restoreGlobalFunc] at had
    split at had
    · exact had
    · rcases TypeRegistry.mem_insert_iff.mp had with had | ⟨same, _⟩
      · exact had
      · cases same

end Registry

theorem Compiler.qualifyGlobalName_injective (compiler : Compiler) :
    Function.Injective compiler.qualifyGlobalName := by
  intro name name' same
  rw [qualifyGlobalName, qualifyGlobalName] at same
  split at same
  · exact same
  · exact (List.cons.inj (append_cancel_left same)).2

section Keeping

variable {session after : Session}

/-- The compiler is at another place of the same unit, with the same registry. -/
structure SameUnit (compiler compiler' : Compiler) : Prop where
  unit : compiler'.unit = compiler.unit
  modulePrefix : compiler'.modulePrefix = compiler.modulePrefix
  registry : compiler'.registry = compiler.registry

theorem SameUnit.qualifyGlobalName {compiler compiler' : Compiler}
    (same : SameUnit compiler compiler') (name : Name) :
    compiler'.qualifyGlobalName name = compiler.qualifyGlobalName name := by
  rw [Compiler.qualifyGlobalName, Compiler.qualifyGlobalName, same.modulePrefix]

theorem Knows.sameUnit {stores : List Store} {constNames lostFuncs : List Name}
    {compiler compiler' : Compiler} (knows : Knows stores constNames lostFuncs compiler)
    (same : SameUnit compiler compiler') : Knows stores constNames lostFuncs compiler' := by
  constructor
  · simp only [same.unit, same.qualifyGlobalName, same.registry]
    exact knows.consts
  · simp only [same.unit, same.registry]
    exact knows.funcs
  · simp only [same.qualifyGlobalName, same.registry]
    exact knows.stored
  · simp only [same.modulePrefix, same.registry]
    exact knows.dotted

theorem Knows.extend {stores : List Store} {constNames lostFuncs : List Name}
    {compiler : Compiler} (knows : Knows stores constNames lostFuncs compiler)
    (newConsts newlyLost : List Name) :
    Knows stores (constNames ++ newConsts) (lostFuncs ++ newlyLost) compiler := by
  constructor
  · intro old member sameUnit isConst
    rcases knows.consts old member sameUnit isConst with ⟨name, isName, found | ⟨isRoot, known⟩⟩
    · exact ⟨name, isName, .inl found⟩
    · exact ⟨name, isName, .inr ⟨isRoot, mem_append_left _ known⟩⟩
  · intro old member sameUnit isFunc
    rcases knows.funcs old member sameUnit isFunc with found | lost
    · exact .inl found
    · exact .inr (mem_append_left _ lost)
  · exact knows.stored
  · exact knows.dotted

theorem Valid.sameUnit (valid : Valid session) {compiler : Compiler}
    (same : SameUnit session.compiler compiler) :
    Valid { session with compiler := compiler } := by
  have current : session.compiler ∈ session.compiler :: session.importers := mem_cons_self
  constructor
  · exact valid.once
  · rintro other member
    rcases mem_cons.mp member with rfl | waiting
    · exact (valid.knows _ current).sameUnit same
    · exact valid.knows other (mem_cons_of_mem _ waiting)
  · have units := valid.units
    rw [map_cons] at units ⊢
    rwa [same.unit]
  · rintro other member
    rcases mem_cons.mp member with rfl | waiting
    · exact same.unit ▸ valid.begun _ current
    · exact valid.begun other (mem_cons_of_mem _ waiting)
  · exact valid.stored
  · rintro other member isRoot
    rcases mem_cons.mp member with rfl | waiting
    · rw [same.modulePrefix]
      exact valid.root _ current (same.unit ▸ isRoot)
    · exact valid.root other (mem_cons_of_mem _ waiting) isRoot

end Keeping

section Storing

variable {session after : Session} {writer : Writer} {name : Name}

/-- The store takes no name from a function, a constant or an import. -/
def Session.Clean (session : Session) (writer : Writer) (name : Name) : Prop :=
  session.Emits → ∀ old ∈ session.stores, old.name = name →
    ¬old.writer.immutable ∧ ¬writer.immutable

theorem writtenOnce_append_iff {stores : List Store} {new : Store} :
    WrittenOnce (stores ++ [new]) ↔
      WrittenOnce stores ∧ ∀ old ∈ stores, old.name = new.name →
        ¬old.writer.immutable ∧ ¬new.writer.immutable := by
  rw [WrittenOnce, pairwise_append]
  simp [WrittenOnce]

theorem Session.Fresh.clean (fresh : session.Fresh name) (writer : Writer) :
    session.Clean writer name := by
  intro emits old member same
  exact absurd same (fresh emits old member)

theorem Session.Free.clean (free : session.Free name) (writer : Writer)
    (mutable : ¬writer.immutable) : session.Clean writer name := by
  intro emits old member same
  exact ⟨free emits old member same, mutable⟩

/-- A store of another unit, or of neither a constant nor a function, is nothing to know. -/
theorem Knows.append {stores : List Store} {constNames lostFuncs : List Name}
    {compiler : Compiler} (knows : Knows stores constNames lostFuncs compiler) {new : Store}
    (other : new.unit = compiler.unit → new.writer ≠ .const ∧ new.writer ≠ .func) :
    Knows (stores ++ [new]) constNames lostFuncs compiler := by
  constructor
  · intro old member sameUnit isConst
    rcases mem_append.mp member with before | isNew
    · exact knows.consts old before sameUnit isConst
    · rcases mem_singleton.mp isNew with rfl
      exact absurd isConst (other sameUnit).1
  · intro old member sameUnit isFunc
    rcases mem_append.mp member with before | isNew
    · exact knows.funcs old before sameUnit isFunc
    · rcases mem_singleton.mp isNew with rfl
      exact absurd isFunc (other sameUnit).2
  · intro name found
    rcases knows.stored name found with ⟨undotted, old, before, same⟩
    exact ⟨undotted, old, mem_append_left _ before, same⟩
  · exact knows.dotted

theorem Valid.unit_ne (valid : Valid session) {importer : Compiler}
    (waiting : importer ∈ session.importers) : session.compiler.unit ≠ importer.unit := by
  have units := valid.units
  rw [map_cons, nodup_cons] at units
  intro same
  exact units.1 (same ▸ mem_map_of_mem waiting)

/-- A store that takes no name, when the registry of its compiler goes along. -/
theorem Valid.store (valid : Valid session) {new : Store} {registry : TypeRegistry}
    (unit : new.unit = session.compiler.unit)
    (clean : ∀ old ∈ session.stores, old.name = new.name →
      ¬old.writer.immutable ∧ ¬new.writer.immutable)
    (knows : Knows (session.stores ++ [new]) session.constNames session.lostFuncs
      { session.compiler with registry := registry }) :
    Valid { session with
      stores := session.stores ++ [new]
      compiler := { session.compiler with registry := registry } } := by
  have current : session.compiler ∈ session.compiler :: session.importers := mem_cons_self
  constructor
  · exact writtenOnce_append_iff.mpr ⟨valid.once, clean⟩
  · rintro other member
    rcases mem_cons.mp member with rfl | waiting
    · exact knows
    · apply (valid.knows other (mem_cons_of_mem _ waiting)).append
      intro same
      exact absurd (unit.symm.trans same) (valid.unit_ne waiting)
  · exact valid.units
  · rintro other member
    rcases mem_cons.mp member with rfl | waiting
    · exact valid.begun session.compiler current
    · exact valid.begun other (mem_cons_of_mem _ waiting)
  · intro old member
    rcases mem_append.mp member with before | isNew
    · exact valid.stored old before
    · rcases mem_singleton.mp isNew with rfl
      exact unit ▸ valid.begun _ current
  · rintro other member
    rcases mem_cons.mp member with rfl | waiting
    · exact valid.root session.compiler current
    · exact valid.root other (mem_cons_of_mem _ waiting)

theorem Valid.emitStore (valid : Valid session) (clean : session.Clean writer name)
    (other : writer ≠ .const ∧ writer ≠ .func) : Valid (session.emitStore writer name) := by
  rw [Session.emitStore]
  split
  · rename_i emits
    have current : session.compiler ∈ session.compiler :: session.importers := mem_cons_self
    apply valid.store rfl (clean emits)
    exact (valid.knows _ current).append fun _ => other
  · exact valid

end Storing

end Gengo.Bindings
