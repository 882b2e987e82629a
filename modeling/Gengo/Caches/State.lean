import Gengo.Bytecode.Value
import Mathlib.Data.UInt

/-!
# The table of globals

`globals.State`: an open-addressing hash table. An entry is never removed while a program
runs, so the slot of a name stays the same from its definition on. The compact copy of the
values that the garbage collector scans is left out.
-/

namespace Gengo.Caches

open Bytecode (Bytes)

/-- `MaxGlobals`. -/
def maxGlobals : ℕ :=
  2048

/-- `TableSize`. -/
def tableSize : ℕ :=
  4096

/-- `hashBytes`: FNV-1a. -/
def hashBytes (bytes : Bytes) : UInt64 :=
  bytes.foldl (fun hash byte => (hash ^^^ byte.toUInt64) * 1099511628211) 1469598103934665603

/-- An occupied entry. -/
structure GEntry (ν : Type) where
  name : Bytes
  value : ν

/-- `globals.State`. -/
structure Globals (ν : Type) where
  entries : ℕ → Option (GEntry ν)
  globalsLen : ℕ

namespace Globals

variable {ν : Type} (globals : Globals ν)

def empty : Globals ν :=
  ⟨fun _ => none, 0⟩

/-- The entries that are looked at for a name, from an index on. -/
def slotForFrom (name : Bytes) : ℕ → ℕ → Option ℕ
  | 0, _ => none
  | probes + 1, idx =>
    match globals.entries idx with
    | none => none
    | some entry =>
      if entry.name = name then some idx
      else slotForFrom name probes ((idx + 1) % tableSize)

/-- Where the search for a name begins. -/
def firstSlot (name : Bytes) : ℕ :=
  (hashBytes name).toNat % tableSize

def slotFor (name : Bytes) : Option ℕ :=
  globals.slotForFrom name tableSize (firstSlot name)

def slotForInsertFrom (name : Bytes) : ℕ → ℕ → Option ℕ
  | 0, _ => none
  | probes + 1, idx =>
    match globals.entries idx with
    | none => some idx
    | some entry =>
      if entry.name = name then some idx
      else slotForInsertFrom name probes ((idx + 1) % tableSize)

def slotForInsert (name : Bytes) : Option ℕ :=
  globals.slotForInsertFrom name tableSize (firstSlot name)

/-- `getAt`, where an entry that is not occupied holds null. -/
def getAt (null : ν) (slot : ℕ) : ν :=
  match globals.entries slot with
  | none => null
  | some entry => entry.value

/-- `setAt`, at the slot of a name. -/
def setAt (slot : ℕ) (value : ν) : Globals ν :=
  { globals with
    entries := Function.update globals.entries slot
      ((globals.entries slot).map fun entry => { entry with value := value }) }

def get (name : Bytes) : Option ν :=
  (globals.slotFor name).bind fun slot => (globals.entries slot).map GEntry.value

def has (name : Bytes) : Bool :=
  (globals.slotFor name).isSome

/-- `def`; none stands for `TooManyGlobals`. -/
def define (name : Bytes) (value : ν) : Option (Globals ν) :=
  if globals.globalsLen ≥ maxGlobals ∧ ¬ globals.has name then none
  else
    match globals.slotForInsert name with
    | none => none
    | some idx =>
      some {
        entries := Function.update globals.entries idx (some ⟨name, value⟩)
        globalsLen :=
          if (globals.entries idx).isNone then globals.globalsLen + 1 else globals.globalsLen }

end Globals

namespace Globals

variable {ν : Type} {globals after : Globals ν} {name other : Bytes} {slot probes idx : ℕ}
  {value : ν}

/-- The entries of a table with the same names, and perhaps more of them. -/
def Extends (globals after : Globals ν) : Prop :=
  ∀ slot entry, globals.entries slot = some entry →
    ∃ entry', after.entries slot = some entry' ∧ entry'.name = entry.name

theorem Extends.refl (globals : Globals ν) : globals.Extends globals :=
  fun _ entry occupied => ⟨entry, occupied, rfl⟩

theorem Extends.slotFor (extends_ : globals.Extends after)
    (found : globals.slotFor name = some slot) : after.slotFor name = some slot := by
  rw [Globals.slotFor] at found ⊢
  revert found
  generalize firstSlot name = idx
  generalize tableSize = probes
  intro found
  induction probes generalizing idx with
  | zero => cases found
  | succ probes ih =>
    rw [slotForFrom] at found ⊢
    cases occupied : globals.entries idx with
    | none => rw [occupied] at found; cases found
    | some entry =>
      rcases extends_ idx entry occupied with ⟨entry', occupied', same⟩
      rw [occupied] at found
      rw [occupied']
      dsimp only at found ⊢
      rw [same]
      by_cases matches_ : entry.name = name
      · rwa [if_pos matches_] at found ⊢
      · rw [if_neg matches_] at found ⊢
        exact ih _ found

theorem entries_of_slotForInsertFrom
    (found : globals.slotForInsertFrom name probes idx = some slot) :
    ∀ entry, globals.entries slot = some entry → entry.name = name := by
  induction probes generalizing idx with
  | zero => cases found
  | succ probes ih =>
    rw [slotForInsertFrom] at found
    intro entry occupied
    cases first : globals.entries idx with
    | none =>
      rw [first] at found
      cases found
      rw [first] at occupied
      cases occupied
    | some entry' =>
      rw [first] at found
      dsimp only at found
      by_cases matches_ : entry'.name = name
      · rw [if_pos matches_] at found
        cases found
        rw [first] at occupied
        cases occupied
        exact matches_
      · rw [if_neg matches_] at found
        exact ih found entry occupied

theorem extends_update {slot : ℕ} {entry : Option (GEntry ν)} {len : ℕ}
    (kept : ∀ before, globals.entries slot = some before →
      ∃ entry', entry = some entry' ∧ entry'.name = before.name) :
    globals.Extends ⟨Function.update globals.entries slot entry, len⟩ := by
  intro other before occupied
  by_cases same : other = slot
  · subst same
    rcases kept before occupied with ⟨entry', rfl, sameName⟩
    exact ⟨entry', Function.update_self .., sameName⟩
  · exact ⟨before, (Function.update_of_ne same ..).trans occupied, rfl⟩

theorem extends_setAt (globals : Globals ν) (slot : ℕ) (value : ν) :
    globals.Extends (globals.setAt slot value) := by
  refine extends_update fun before occupied => ?_
  rw [occupied]
  exact ⟨_, rfl, rfl⟩

theorem extends_define (defined : globals.define name value = some after) :
    globals.Extends after := by
  rw [define] at defined
  by_cases full : globals.globalsLen ≥ maxGlobals ∧ ¬ globals.has name
  · rw [if_pos full] at defined
    cases defined
  · rw [if_neg full] at defined
    cases found : globals.slotForInsert name with
    | none => rw [found] at defined; cases defined
    | some idx =>
      rw [found] at defined
      cases defined
      exact extends_update fun before occupied =>
        ⟨_, rfl, (entries_of_slotForInsertFrom found before occupied).symm⟩

end Globals

/-!
# What the caches see of the interpreter

The globals, the object pool, the operand stack and the call frames; everything else that a
program can change is `rest`. An instruction is carried out by a handler, a sequence of
lookups that go through the inline caches and of changes that do not.
-/

open Bytecode (FieldTypeAlt FieldTypeSpec StructType StructFieldSpec)

/-- `0xFFFF`: a pool index or a slot that is not there. -/
def coldIndex : ℕ :=
  65535

/-- `0xFF`: a field index that is not there. -/
def coldField : ℕ :=
  255

/-- What a value points to. Outside the pool there are the type of `std.template`, the only
struct type that is not in the pool, and objects that are not struct types. -/
inductive Ref
  | pool (index : Fin coldIndex)
  | template
  | outside (id : ℕ)
  deriving DecidableEq

/-- A value, where `plain` stands for the ones that hold no object. -/
inductive Value (π : Type)
  | null
  | object (ref : Ref)
  | inlineVariant (value : π)
  | plain (value : π)

structure FuncObj (π : Type) where
  ip : ℕ
  arity : ℕ
  isVariadic : Bool
  variadicType : FieldTypeSpec
  paramTypes : List FieldTypeSpec
  hasTypedParams : Bool
  hasTypedReturns : Bool
  returnsProven : Bool
  namedReturnCount : ℕ
  name : Bytes
  /-- The default values of the last parameters; there are `default_count` of them. -/
  defaults : List (Value π)
  maxStack : ℕ

inductive Object (π : Type)
  | function (func : FuncObj π)
  /-- A closure with the function that it closes. -/
  | closure (func : FuncObj π)
  | structType (type : StructType)
  | structInstance (typ : Ref) (fields : List (Value π))
  | smallStructInstance (typ : Ref) (v : List (Value π))
  | namedValue (value : Value π)
  | cell (value : Value π)
  | other (data : π)

structure Frame where
  retIp : ℕ
  base : ℕ
  callee : Ref
  deferBase : ℕ
  hasTypedReturns : Bool
  namedReturnCount : ℕ
  funcArity : ℕ
  deriving DecidableEq

/-- The state of the interpreter. The operand stack is listed from its base, the frames
from the innermost. -/
structure State (π ρ : Type) where
  globals : Globals (Value π)
  pool : Fin coldIndex → Object π
  template : StructType
  outside : ℕ → Object π
  stack : List (Value π)
  frames : List Frame
  tempRootTop : ℕ
  deferTop : ℕ
  ip : ℕ
  rest : ρ

inductive Error (π : Type)
  | stackOverflow
  | stackUnderflow
  | callStackOverflow
  | badTempRootDiscipline
  | notDefined (name : Bytes) (similar : Option Bytes)
  | notAFunction
  | notAMethodReceiver
  | unknownMethod
  | arityMismatch (func : FuncObj π) (argc : ℕ)
  | argType (func : FuncObj π) (index : ℕ) (spec : FieldTypeSpec) (arg : Value π)
  /-- With the field and the type of the message, where there is one. -/
  | unknownStructField (message : Option (Bytes × Bytes))
  | assignToConst (field : Bytes) (type : Bytes)
  | other (code : ℕ)

namespace State

variable {π ρ : Type} (state : State π ρ)

def deref : Ref → Object π
  | .pool index => state.pool index
  | .template => .structType state.template
  | .outside id => state.outside id

/-- `objectPoolIndex`. -/
def objectPoolIndex : Ref → ℕ
  | .pool index => index
  | .template => coldIndex
  | .outside _ => coldIndex

/-- `objectAt`, where the index is one of the pool. -/
def objectAt (index : ℕ) : Option Ref :=
  if inside : index < coldIndex then some (.pool ⟨index, inside⟩) else none

/-- The struct type that a pointer points to. -/
def structTypeAt : Ref → Option StructType
  | .pool index =>
    match state.pool index with
    | .structType type => some type
    | _ => none
  | .template => some state.template
  | .outside _ => none

def unboxNamed (value : Value π) : Value π :=
  match value with
  | .object ref =>
    match state.deref ref with
    | .namedValue inner => inner
    | _ => value
  | _ => value

/-- `vmFrameBase`. -/
def vmFrameBase : ℕ :=
  match state.frames with
  | [] => 0
  | frame :: _ => frame.base

/-- The slot of the operand stack that is `depth` slots below its top. -/
def fromTop (depth : ℕ) : Value π :=
  state.stack.getD (state.stack.length - depth) .null

/-- The object that a pointer points to is changed. -/
def modify (ref : Ref) (f : Object π → Object π) (state : State π ρ) : State π ρ :=
  match ref with
  | .pool index => { state with pool := Function.update state.pool index (f (state.pool index)) }
  | .template => state
  | .outside id => { state with outside := Function.update state.outside id (f (state.outside id)) }

def setFromTop (depth : ℕ) (value : Value π) : State π ρ :=
  { state with stack := state.stack.set (state.stack.length - depth) value }

end State

section Keeping

variable {π ρ : Type}

/-- Globals are not removed, and a struct type is neither collected nor changed. -/
structure Keeps (state after : State π ρ) : Prop where
  globals : state.globals.Extends after.globals
  structTypes : ∀ index type, state.pool index = .structType type →
    after.pool index = .structType type
  template : after.template = state.template

/-- No global is written. -/
structure Quiet (state after : State π ρ) : Prop where
  globals : after.globals = state.globals
  structTypes : ∀ index type, state.pool index = .structType type →
    after.pool index = .structType type
  template : after.template = state.template

theorem Quiet.refl (state : State π ρ) : Quiet state state :=
  ⟨rfl, fun _ _ there => there, rfl⟩

theorem Quiet.trans {state between after : State π ρ} (first : Quiet state between)
    (second : Quiet between after) : Quiet state after where
  globals := second.globals.trans first.globals
  structTypes index type there := second.structTypes index type (first.structTypes index type there)
  template := second.template.trans first.template

theorem Quiet.keeps {state after : State π ρ} (quiet : Quiet state after) : Keeps state after where
  globals := quiet.globals ▸ Globals.Extends.refl state.globals
  structTypes := quiet.structTypes
  template := quiet.template

theorem quiet_restack (state : State π ρ) (stack : List (Value π)) :
    Quiet state { state with stack := stack } :=
  ⟨rfl, fun _ _ there => there, rfl⟩

theorem Keeps.structTypeAt {state after : State π ρ} (keeps : Keeps state after) {ref : Ref}
    {type : StructType} (there : state.structTypeAt ref = some type) :
    after.structTypeAt ref = some type := by
  cases ref with
  | pool index =>
    have same : state.pool index = .structType type := by
      rw [State.structTypeAt] at there
      generalize state.pool index = object at there ⊢
      cases object with
      | structType type' => cases there; rfl
      | _ => cases there
    rw [State.structTypeAt, keeps.structTypes index type same]
  | template =>
    rw [State.structTypeAt, keeps.template]
    exact there
  | outside id => cases there

/-- A change of the state that no cache takes part in. -/
structure Change (π ρ : Type) where
  apply : State π ρ → State π ρ
  keeps : ∀ state, Keeps state (apply state)

namespace Change

/-- A change that writes no global. -/
def quiet (apply : State π ρ → State π ρ) (quiet : ∀ state, Quiet state (apply state)) :
    Change π ρ :=
  ⟨apply, fun state => (quiet state).keeps⟩

def idle : Change π ρ :=
  quiet id Quiet.refl

/-- The operand stack is changed. -/
def restack (stack : State π ρ → List (Value π)) : Change π ρ :=
  quiet (fun state => { state with stack := stack state }) fun state =>
    quiet_restack state (stack state)

/-- `setAt`. -/
def setGlobal (slot : ℕ) (value : Value π) : Change π ρ where
  apply state := { state with globals := state.globals.setAt slot value }
  keeps state := ⟨state.globals.extends_setAt slot value, fun _ _ there => there, rfl⟩

/-- `def`, which leaves a full table as it is. -/
def defGlobal (name : Bytes) (value : Value π) : Change π ρ where
  apply state := { state with globals := (state.globals.define name value).getD state.globals }
  keeps state := by
    refine ⟨?_, fun _ _ there => there, rfl⟩
    cases defined : state.globals.define name value with
    | none => exact Globals.Extends.refl _
    | some after => exact Globals.extends_define defined

/-- An object is changed, and not into a struct type or out of one. -/
def modify (ref : Ref) (f : Object π → Object π)
    (fixed : ∀ type, f (.structType type) = .structType type) : Change π ρ :=
  quiet (State.modify ref f) fun state => by
    cases ref with
    | pool index =>
      refine ⟨rfl, fun other type there => ?_, rfl⟩
      by_cases same : other = index
      · subst same
        simp only [State.modify, Function.update_self, there, fixed]
      · simp only [State.modify, Function.update_of_ne same, there]
    | template => exact Quiet.refl state
    | outside id => exact ⟨rfl, fun _ _ there => there, rfl⟩

end Change

end Keeping

/-- How a field is read: by `get_field`, by `get_local_get_field` or by `local_add_field`. -/
inductive FieldRead
  | get
  | localGet
  | localAdd
  deriving DecidableEq

/-- What an instruction still has to do. A site is the place in the code of an inline cache. -/
inductive Handler (π ρ : Type)
  /-- The dispatch loop goes on with the next instruction. -/
  | fetch
  /-- The run ends, with an error that nothing has recovered from. -/
  | halt (err : Option (Error π))
  | raise (err : Error π)
  | act (change : Change π ρ) (next : State π ρ → Handler π ρ)
  /-- The slot of the global that is named at a site. -/
  | globalSlot (site : ℕ) (missing : State π ρ → Error π) (found : ℕ → Handler π ρ)
  /-- `tryInlineGetGlobal`, at the end of an instruction. -/
  | inlineGetGlobal
  /-- `performCallIC`. -/
  | call (site argc : ℕ) (preverified : Bool)
  /-- The checks of a call's arguments go on after an argument has been converted. -/
  | enforce (func : FuncObj π) (callee : Ref) (argc index : ℕ) (coerced : Option (Value π))
  | enterFrame (func : FuncObj π) (callee : Ref)
  /-- The value of the field that is named at a site. -/
  | fieldOf (how : FieldRead) (site : ℕ) (raw : Value π) (next : Value π → Handler π ρ)
  /-- The index of the field to be set, and the field's declaration. -/
  | fieldToSet (site : ℕ) (container : Ref) (found : ℕ → StructFieldSpec → Handler π ρ)
  | invoke (site argc : ℕ)

/-- An instruction, with its operands. Those that consult no cache, and what the others do
besides, are any handlers. -/
inductive Instr (π ρ : Type)
  | getGlobal (site : ℕ)
  | setGlobal (site : ℕ)
  /-- `inc_global_const` and the loops that it is fused with. -/
  | incGlobalConst (site : ℕ) (k : Value π) (last : Handler π ρ)
  /-- The instructions that read a global and a constant. -/
  | getGlobalConst (site : ℕ) (k : Value π) (use : Value π → Value π → Handler π ρ)
  | loop (target : ℕ)
  | setGlobalLoop (site target : ℕ)
  /-- `call`, `call_tail` and `call_spread`. -/
  | call (site argc : ℕ) (preverified tail : Bool)
  | getGlobalCall (globalSite site argc : ℕ) (preverified tail : Bool)
  | callGlobalGlobal (funcSite argSite site argc : ℕ) (preverified tail : Bool)
  | getLocalConstSubCall (slot : ℕ) (k : Value π) (site argc : ℕ) (preverified tail : Bool)
  | callGlobalLocalSubConst (globalSite slot : ℕ) (k : Value π) (site argc : ℕ)
      (preverified tail : Bool)
  | getField (site : ℕ)
  | getLocalGetField (slot site : ℕ)
  | localAddField (dst src site : ℕ)
  | fieldAddConst (slot site : ℕ) (k : Value π) (setSite : ℕ)
  | setField (site : ℕ)
  | invokeMethod (site argc : ℕ)
  | other (run : State π ρ → Handler π ρ)

/-- An instruction, and where the one after it begins. -/
structure Fetched (π ρ : Type) where
  instr : Instr π ρ
  next : ℕ

/-- The program, and the parts of the interpreter that consult no cache. -/
structure Vm (π ρ : Type) where
  code : ℕ → Fetched π ρ
  /-- The constants that the instructions with caches refer to. -/
  globalName : ℕ → Bytes
  fieldName : ℕ → Bytes
  methodName : ℕ → Bytes
  /-- `MaxObjects`, the length of the operand stack and the number of frames. -/
  maxObjects : ℕ
  stackLen : ℕ
  framesLen : ℕ
  maxObjects_le : maxObjects ≤ coldIndex
  /-- `dispatchTick`, which comes before an instruction. -/
  tick : State π ρ → State π ρ
  tickError : State π ρ → Option (Error π)
  quiet_tick : ∀ state, Quiet state (tick state)
  /-- The unwinding of an error. -/
  unwind : Error π → Handler π ρ
  findSimilarName : Globals (Value π) → Bytes → Option Bytes
  isModuleNamespaceStruct : StructType → Bool
  matchesTypeAlt : State π ρ → Value π → FieldTypeAlt → Bool
  /-- `reifyErasedNamedInterfaceArg`: at most, it allocates. -/
  reify : Bytes → Value π → State π ρ → State π ρ × Except (Error π) (Option (Value π))
  quiet_reify : ∀ interfaceName arg state, Quiet state (reify interfaceName arg state).1
  /-- The construction of a named type's value from an argument, with its predicates. -/
  constructNamed : Bytes → Value π → (Option (Value π) → Handler π ρ) → Handler π ρ
  prepareVariadicCall : FuncObj π → ℕ → Handler π ρ → Handler π ρ
  /-- `performCall`, of an object that is no function. -/
  callOther : Ref → ℕ → Handler π ρ
  tryTailCall : ℕ → Bool → Handler π ρ → Handler π ρ
  /-- The field of a container that is no struct. -/
  otherField : FieldRead → Bytes → Value π → (Value π → Handler π ρ) → Handler π ρ
  /-- `set_field`, of a container that is no struct. -/
  setOther : Bytes → Value π → Value π → Handler π ρ
  /-- What is checked and converted before a value is stored in a field. -/
  storeField : StructFieldSpec → Value π → (Value π → Handler π ρ) → Handler π ρ
  /-- `invoke_method`, on a receiver that is no struct. -/
  invokeOther : Bytes → ℕ → Handler π ρ
  computeAddResult : Value π → Value π → (Value π → Handler π ρ) → Handler π ρ
  subResult : Value π → Value π → (Value π → Handler π ρ) → Handler π ρ

end Gengo.Caches
