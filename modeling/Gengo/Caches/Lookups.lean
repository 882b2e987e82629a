import Gengo.Caches.Calls

/-!
# Fields and methods

The caches of fields and methods are keyed by the index of the receiver's type in the pool.
A struct type stays where it is, so an index that has been remembered still stands for the
same fields; a method is a global, which may be written.
-/

namespace Gengo.Caches

open Option
open Bytecode (Bytes StructType StructFieldSpec)

/-- `SmallStructMaxFields`. -/
def smallStructMaxFields : ℕ :=
  4

/-- `MaxTempRoots`. -/
def maxTempRoots : ℕ :=
  128

/-- The first field with a name. -/
def findFieldIndex (fields : List StructFieldSpec) (key : Bytes) : Option ℕ :=
  fields.findIdx? fun field => field.name == key

/-- An instance of a struct type: `struct_instance` or `small_struct_instance`. -/
structure Instance (π : Type) where
  typ : Ref
  type : StructType
  small : Bool
  values : List (Value π)

section Reading

variable {π ρ : Type}

namespace Instance

variable (inst : Instance π)

/-- The value of a field. -/
def field (index : ℕ) : Value π :=
  inst.values.getD index .null

/-- The bound that an index out of a cache is checked against when a field is read. -/
def readBound : ℕ :=
  if inst.small then smallStructMaxFields else inst.values.length

/-- The bound when it is set. -/
def setBound : ℕ :=
  if inst.small then inst.type.fields.length else inst.values.length

end Instance

/-- The struct that a value points to. -/
def State.instanceOf (state : State π ρ) (value : Value π) : Option (Instance π) :=
  match value with
  | .object ref =>
    match state.deref ref with
    | .structInstance typ fields =>
      (state.structTypeAt typ).map fun type => ⟨typ, type, false, fields⟩
    | .smallStructInstance typ v =>
      (state.structTypeAt typ).map fun type => ⟨typ, type, true, v⟩
    | _ => none
  | _ => none

theorem structTypeAt_of_instanceOf {state : State π ρ} {value : Value π} {inst : Instance π}
    (found : state.instanceOf value = some inst) :
    state.structTypeAt inst.typ = some inst.type := by
  unfold State.instanceOf at found
  split at found
  · split at found
    · rcases map_eq_some_iff.mp found with ⟨type, there, rfl⟩
      exact there
    · rcases map_eq_some_iff.mp found with ⟨type, there, rfl⟩
      exact there
    · cases found
  · cases found

namespace Vm

variable (vm : Vm π ρ)

/-- The check of a cache before a field is read. -/
def fieldHit (entry : ℕ × ℕ) (inst : Instance π) : Prop :=
  entry.2 ≠ coldField ∧ entry.1 < vm.maxObjects ∧ State.objectAt entry.1 = some inst.typ ∧
    entry.2 < inst.readBound

instance (entry : ℕ × ℕ) (inst : Instance π) : Decidable (vm.fieldHit entry inst) := by
  unfold fieldHit
  infer_instance

/-- `local_add_field` takes the field's value from the operand stack, where
`pushFieldFromObject` has pushed it. -/
def pushed (how : FieldRead) (state : State π ρ) (next : Handler π ρ) : Handler π ρ :=
  if how = .localAdd ∧ state.stack.length ≥ vm.stackLen then .raise .stackOverflow else next

/-- What a cache holds after a field has been found. -/
def warmedField (entry : ℕ × ℕ) (inst : Instance π) (index : ℕ) : ℕ × ℕ :=
  if index ≤ 254 then (State.objectPoolIndex inst.typ, index) else entry

/-- `pushFieldFromObject`, of a struct. -/
def pushFieldFromObject (how : FieldRead) (name : Bytes) (entry : ℕ × ℕ) (inst : Instance π)
    (next : Value π → Handler π ρ) (state : State π ρ) : Outcome π ρ × (ℕ × ℕ) :=
  if vm.fieldHit entry inst then
    ((state, vm.pushed how state (next (inst.field entry.2))), entry)
  else
    match findFieldIndex inst.type.fields name with
    | none => ((state, .raise (.unknownStructField (some (name, inst.type.name)))), entry)
    | some index =>
      ((state, vm.pushed how state (next (inst.field index))), warmedField entry inst index)

/-- `opGetField` protects an object from collection before it looks for the field. -/
def rootsFull (how : FieldRead) (raw : Value π) (state : State π ρ) : Bool :=
  match how, raw with
  | .get, .object _ => decide (state.tempRootTop ≥ maxTempRoots)
  | _, _ => false

/-- `opGetField`, `opGetLocalGetField` and the part of `local_add_field` that reads a field,
without the check of the cache that comes first. -/
def fieldOfMiss (how : FieldRead) (name : Bytes) (entry : ℕ × ℕ) (raw : Value π)
    (next : Value π → Handler π ρ) (state : State π ρ) : Outcome π ρ × (ℕ × ℕ) :=
  let container := state.unboxNamed raw
  if rootsFull how raw state then ((state, .raise .badTempRootDiscipline), entry)
  else
    match state.instanceOf container with
    | some inst => vm.pushFieldFromObject how name entry inst next state
    | none => ((state, vm.otherField how name container next), entry)

def fieldOf (how : FieldRead) (name : Bytes) (entry : ℕ × ℕ) (raw : Value π)
    (next : Value π → Handler π ρ) (state : State π ρ) : Outcome π ρ × (ℕ × ℕ) :=
  match state.instanceOf raw with
  | some inst =>
    if vm.fieldHit entry inst then ((state, next (inst.field entry.2)), entry)
    else vm.fieldOfMiss how name entry raw next state
  | none => vm.fieldOfMiss how name entry raw next state

/-- The part of `opSetField` that finds the field, and that it is not constant. -/
def fieldToSet (name : Bytes) (entry : ℕ × ℕ) (container : Ref)
    (found : ℕ → StructFieldSpec → Handler π ρ) (state : State π ρ) :
    Outcome π ρ × (ℕ × ℕ) :=
  match state.instanceOf (.object container) with
  | none => ((state, .raise (.other 0)), entry)
  | some inst =>
    if entry.1 = State.objectPoolIndex inst.typ ∧ entry.2 ≠ coldField ∧
        entry.2 < inst.setBound then
      ((state, toSet inst entry.2), entry)
    else
      match findFieldIndex inst.type.fields name with
      | none => ((state, .raise (.unknownStructField (some (name, inst.type.name)))), entry)
      | some index => ((state, toSet inst index), warmedField entry inst index)
where
  toSet (inst : Instance π) (index : ℕ) : Handler π ρ :=
    match inst.type.fields[index]? with
    | none => .raise (.other 0)
    | some spec =>
      if spec.isConst then .raise (.assignToConst name inst.type.name) else found index spec

end Vm

/-- `resolveQualifiedReceiverMethod`. -/
def resolveQualifiedReceiverMethod (globals : Globals (Value π)) (qualifiedName mname : Bytes) :
    Except (Error π) (Value π) :=
  if qualifiedName.length + 1 + mname.length > 512 then .error .notAMethodReceiver
  else
    match globals.get (qualifiedName ++ Bytecode.dot :: mname) with
    | none => .error .unknownMethod
    | some func => .ok func

/-- `[` -/
def openBracket : UInt8 :=
  91

/-- The global that is a struct type's method, if there is one: for an instance of a generic
type also the method of the generic type. -/
def methodGlobal (globals : Globals (Value π)) (type : StructType) (mname : Bytes) :
    Except (Error π) (Option (Value π)) :=
  match resolveQualifiedReceiverMethod globals type.qualifiedName mname with
  | .ok func => .ok (some func)
  | .error .unknownMethod =>
    if openBracket ∈ type.qualifiedName then
      match resolveQualifiedReceiverMethod globals
          (type.qualifiedName.takeWhile (· ≠ openBracket)) mname with
      | .ok func => .ok (some func)
      | .error _ => .ok none
    else .ok none
  | .error err => .error err

namespace Vm

variable (vm : Vm π ρ)

/-- `resolveStructMethod` and `resolveSmallStructMethod`: what is called, and whether the
receiver is passed to it. -/
def resolveStructMethod (inst : Instance π) (mname : Bytes) (state : State π ρ) :
    Except (Error π) (Value π × Bool) :=
  match methodGlobal state.globals inst.type mname with
  | .error err => .error err
  | .ok (some func) => .ok (func, true)
  | .ok none =>
    match findFieldIndex inst.type.fields mname with
    | none =>
      if vm.isModuleNamespaceStruct inst.type then .error (.unknownStructField none)
      else .error .unknownMethod
    | some index =>
      if inst.small ∧ inst.values.length ≤ index then .error (.unknownStructField none)
      else .ok (inst.field index, false)

def insertReceiverAndCall (func recv : Value π) (argc : ℕ) (state : State π ρ) : Outcome π ρ :=
  let recvIdx := state.stack.length - (argc + 1)
  if state.stack.length ≥ vm.stackLen then (state, .raise .stackOverflow)
  else
    vm.performCall (argc + 1) { state with
        stack := state.stack.take recvIdx ++ func :: recv :: state.stack.drop (recvIdx + 1) }

/-- What a cache holds after a method has been found. -/
def warmedMethod (entry : ℕ × ℕ) (inst : Instance π) (func : Value π) : ℕ × ℕ :=
  match func with
  | .object ref =>
    if State.objectPoolIndex ref = coldIndex then entry
    else (State.objectPoolIndex inst.typ, State.objectPoolIndex ref)
  | _ => entry

/-- A method that is found by its name is called. -/
def invokeMiss (mname : Bytes) (argc : ℕ) (entry : ℕ × ℕ) (inst : Instance π)
    (recv : Value π) (state : State π ρ) : Outcome π ρ × (ℕ × ℕ) :=
  match vm.resolveStructMethod inst mname state with
  | .error err => ((state, .raise err), entry)
  | .ok (func, true) =>
    (vm.insertReceiverAndCall func recv argc state, warmedMethod entry inst func)
  | .ok (func, false) => (vm.performCall argc (state.setFromTop (argc + 1) func), entry)

/-- The check of a cache before a method is called. -/
def methodHit (entry : ℕ × ℕ) (inst : Instance π) : Prop :=
  entry.2 < vm.maxObjects ∧ entry.1 < vm.maxObjects ∧ State.objectAt entry.1 = some inst.typ

instance (entry : ℕ × ℕ) (inst : Instance π) : Decidable (vm.methodHit entry inst) := by
  unfold methodHit
  infer_instance

/-- `opInvokeMethod`. -/
def invokeMethod (mname : Bytes) (argc : ℕ) (entry : ℕ × ℕ) (state : State π ρ) :
    Outcome π ρ × (ℕ × ℕ) :=
  if state.stack.length < argc + 1 then ((state, .raise .stackUnderflow), entry)
  else
    let recv := state.fromTop (argc + 1)
    match state.instanceOf recv with
    | none => ((state, vm.invokeOther mname argc), entry)
    | some inst =>
      match State.objectAt entry.2 with
      | some func =>
        if vm.methodHit entry inst then
          (vm.insertReceiverAndCall (.object func) recv argc state, entry)
        else vm.invokeMiss mname argc entry inst recv state
      | none => vm.invokeMiss mname argc entry inst recv state

end Vm

end Reading

section Fitting

variable {π ρ : Type} {vm : Vm π ρ} {state after : State π ρ} {name : Bytes} {entry : ℕ × ℕ}
  {inst : Instance π} {next : Value π → Handler π ρ}

/-- The struct type with the remembered index has the field at the remembered place. -/
def FieldFits (name : Bytes) (state : State π ρ) (entry : ℕ × ℕ) : Prop :=
  entry.2 ≠ coldField → ∃ ref type, State.objectPoolIndex ref = entry.1 ∧
    state.structTypeAt ref = some type ∧ findFieldIndex type.fields name = some entry.2

/-- The remembered function is the method of the struct type with the remembered index. -/
def MethodFits (vm : Vm π ρ) (mname : Bytes) (state : State π ρ) (entry : ℕ × ℕ) : Prop :=
  entry.2 < vm.maxObjects → entry.1 < vm.maxObjects → ∃ ref type func,
    State.objectAt entry.1 = some ref ∧ state.structTypeAt ref = some type ∧
      State.objectAt entry.2 = some func ∧
        methodGlobal state.globals type mname = .ok (some (.object func))

theorem fieldFits_cold (name : Bytes) (state : State π ρ) :
    FieldFits name state (coldIndex, coldField) :=
  fun warm => absurd rfl warm

theorem methodFits_cold (mname : Bytes) (state : State π ρ) :
    MethodFits vm mname state (coldIndex, coldIndex) :=
  fun _ inside => absurd (inside.trans_le vm.maxObjects_le) (lt_irrefl _)

theorem FieldFits.of_keeps (keeps : Keeps state after) (fits : FieldFits name state entry) :
    FieldFits name after entry := by
  intro warm
  rcases fits warm with ⟨ref, type, index, there, found⟩
  exact ⟨ref, type, index, keeps.structTypeAt there, found⟩

/-- No global is written that is the method of a struct type with a remembered index. -/
def MethodKept (vm : Vm π ρ) (mname : Bytes) (state after : State π ρ) (entry : ℕ × ℕ) : Prop :=
  entry.2 < vm.maxObjects → ∀ ref type, State.objectAt entry.1 = some ref →
    state.structTypeAt ref = some type →
      methodGlobal after.globals type mname = methodGlobal state.globals type mname

theorem MethodFits.of_keeps (keeps : Keeps state after)
    (kept : MethodKept vm name state after entry) (fits : MethodFits vm name state entry) :
    MethodFits vm name after entry := by
  intro funcInside typeInside
  rcases fits funcInside typeInside with ⟨ref, type, func, index, there, funcAt, method⟩
  exact ⟨ref, type, func, index, keeps.structTypeAt there, funcAt,
    (kept funcInside ref type index there).trans method⟩

theorem MethodFits.of_quiet (quiet : Quiet state after) (fits : MethodFits vm name state entry) :
    MethodFits vm name after entry :=
  fits.of_keeps quiet.keeps fun _ _ _ _ _ => by rw [quiet.globals]

variable {ref : Ref}

theorem structTypeAt_inj {ref' : Ref} {type type' : StructType}
    (same : State.objectPoolIndex ref = State.objectPoolIndex ref')
    (there : state.structTypeAt ref = some type) (there' : state.structTypeAt ref' = some type') :
    type = type' := by
  have bound : ∀ index : Fin coldIndex, (index : ℕ) ≠ coldIndex := fun index => index.isLt.ne
  cases ref with
  | pool index =>
    cases ref' with
    | pool index' =>
      rw [Fin.ext same] at there
      exact some.inj (there.symm.trans there')
    | template => exact absurd same (bound index)
    | outside id => cases there'
  | template =>
    cases ref' with
    | pool index' => exact absurd same.symm (bound index')
    | template => exact some.inj (there.symm.trans there')
    | outside id => cases there'
  | outside id => cases there

theorem objectPoolIndex_of_objectAt {index : ℕ} (found : State.objectAt index = some ref) :
    State.objectPoolIndex ref = index := by
  rw [State.objectAt] at found
  split at found
  · cases found
    rfl
  · cases found

/-- What is remembered for the type of an instance is what is found by the name. -/
theorem FieldFits.find (fits : FieldFits name state entry)
    (there : state.structTypeAt inst.typ = some inst.type)
    (same : entry.1 = State.objectPoolIndex inst.typ) (warm : entry.2 ≠ coldField) :
    findFieldIndex inst.type.fields name = some entry.2 := by
  rcases fits warm with ⟨ref, type, index, typeAt, found⟩
  rw [structTypeAt_inj (index.trans same) typeAt there] at found
  exact found

theorem fieldFits_warmed {index : ℕ} (fits : FieldFits name state entry)
    (there : state.structTypeAt inst.typ = some inst.type)
    (found : findFieldIndex inst.type.fields name = some index) :
    FieldFits name state (Vm.warmedField entry inst index) := by
  rw [Vm.warmedField]
  split_ifs
  · exact fun _ => ⟨inst.typ, inst.type, rfl, there, found⟩
  · exact fits

/-- The condition on a field that is read past the long way: the root table and the operand
stack have room for what that way puts there. -/
def Vm.FieldMeets (vm : Vm π ρ) (how : FieldRead) (state : State π ρ) : Prop :=
  match how with
  | .get => state.tempRootTop < maxTempRoots
  | .localGet => True
  | .localAdd => state.stack.length < vm.stackLen

theorem not_fieldHit_cold (inst : Instance π) : ¬ vm.fieldHit (coldIndex, coldField) inst :=
  fun hit => hit.1 rfl

section

variable (how : FieldRead)
include how

theorem pushFieldFromObject_eq (fits : FieldFits name state entry)
    (there : state.structTypeAt inst.typ = some inst.type) :
    (vm.pushFieldFromObject how name entry inst next state).1 =
      (vm.pushFieldFromObject how name (coldIndex, coldField) inst next state).1 := by
  rw [Vm.pushFieldFromObject, Vm.pushFieldFromObject, if_neg (not_fieldHit_cold inst)]
  by_cases hit : vm.fieldHit entry inst
  · have found := fits.find there (objectPoolIndex_of_objectAt hit.2.2.1).symm hit.1
    rw [if_pos hit, found]
  · rw [if_neg hit]
    cases findFieldIndex inst.type.fields name <;> rfl

theorem fieldFits_pushFieldFromObject (fits : FieldFits name state entry)
    (there : state.structTypeAt inst.typ = some inst.type) :
    FieldFits name state (vm.pushFieldFromObject how name entry inst next state).2 := by
  rw [Vm.pushFieldFromObject]
  split_ifs
  · exact fits
  · cases found : findFieldIndex inst.type.fields name with
    | none => exact fits
    | some index => exact fieldFits_warmed fits there found

theorem pushFieldFromObject_state :
    (vm.pushFieldFromObject how name entry inst next state).1.1 = state := by
  rw [Vm.pushFieldFromObject]
  split_ifs
  · rfl
  · cases findFieldIndex inst.type.fields name <;> rfl

variable (raw : Value π)

theorem fieldOfMiss_eq (fits : FieldFits name state entry) :
    (vm.fieldOfMiss how name entry raw next state).1 =
      (vm.fieldOfMiss how name (coldIndex, coldField) raw next state).1 := by
  rw [Vm.fieldOfMiss, Vm.fieldOfMiss]
  split_ifs
  · rfl
  · cases struct : state.instanceOf (state.unboxNamed raw) with
    | none => rfl
    | some inst => exact pushFieldFromObject_eq how fits (structTypeAt_of_instanceOf struct)

theorem fieldFits_fieldOfMiss (fits : FieldFits name state entry) :
    FieldFits name state (vm.fieldOfMiss how name entry raw next state).2 := by
  rw [Vm.fieldOfMiss]
  split_ifs
  · exact fits
  · cases struct : state.instanceOf (state.unboxNamed raw) with
    | none => exact fits
    | some inst =>
      exact fieldFits_pushFieldFromObject how fits (structTypeAt_of_instanceOf struct)

theorem fieldOfMiss_state : (vm.fieldOfMiss how name entry raw next state).1.1 = state := by
  rw [Vm.fieldOfMiss]
  split_ifs
  · rfl
  · cases state.instanceOf (state.unboxNamed raw) with
    | none => rfl
    | some inst => exact pushFieldFromObject_state how

end

theorem unboxNamed_of_instanceOf {raw : Value π} (struct : state.instanceOf raw = some inst) :
    state.unboxNamed raw = raw := by
  unfold State.instanceOf at struct
  split at struct
  · split at struct
    all_goals first | cases struct | (rename_i object; simp only [State.unboxNamed, object])
  · cases struct

variable {how : FieldRead}

theorem pushed_eq (meets : vm.FieldMeets how state) (last : Handler π ρ) :
    vm.pushed how state last = last := by
  rw [Vm.pushed, if_neg]
  rintro ⟨rfl, full⟩
  exact absurd meets full.not_gt

theorem rootsFull_eq (meets : vm.FieldMeets how state) (raw : Value π) :
    Vm.rootsFull how raw state = false := by
  unfold Vm.rootsFull
  split
  · exact decide_eq_false (Nat.not_le.mpr meets)
  · rfl

theorem fieldOf_eq {raw : Value π} (fits : FieldFits name state entry)
    (meets : ∀ inst, state.instanceOf raw = some inst → vm.fieldHit entry inst →
      vm.FieldMeets how state) :
    (vm.fieldOf how name entry raw next state).1 =
      (vm.fieldOf how name (coldIndex, coldField) raw next state).1 := by
  rw [Vm.fieldOf, Vm.fieldOf]
  cases struct : state.instanceOf raw with
  | none => exact fieldOfMiss_eq how raw fits
  | some inst =>
    dsimp only
    rw [if_neg (not_fieldHit_cold inst)]
    by_cases hit : vm.fieldHit entry inst
    · have room := meets inst struct hit
      have found := fits.find (structTypeAt_of_instanceOf struct)
        (objectPoolIndex_of_objectAt hit.2.2.1).symm hit.1
      rw [if_pos hit, Vm.fieldOfMiss, rootsFull_eq room, if_neg Bool.false_ne_true,
        unboxNamed_of_instanceOf struct, struct]
      dsimp only
      rw [Vm.pushFieldFromObject, if_neg (not_fieldHit_cold inst), found]
      dsimp only
      rw [pushed_eq room]
    · rw [if_neg hit]
      exact fieldOfMiss_eq how raw fits

theorem fieldFits_fieldOf (how : FieldRead) (raw : Value π) (fits : FieldFits name state entry) :
    FieldFits name state (vm.fieldOf how name entry raw next state).2 := by
  rw [Vm.fieldOf]
  cases state.instanceOf raw with
  | none => exact fieldFits_fieldOfMiss how raw fits
  | some inst =>
    dsimp only
    split_ifs
    · exact fits
    · exact fieldFits_fieldOfMiss how raw fits

theorem quiet_fieldOf (how : FieldRead) (raw : Value π) :
    Quiet state (vm.fieldOf how name entry raw next state).1.1 := by
  have missed : (vm.fieldOfMiss how name entry raw next state).1.1 = state :=
    fieldOfMiss_state how raw
  rw [Vm.fieldOf]
  cases state.instanceOf raw with
  | none => exact missed.symm ▸ Quiet.refl state
  | some inst =>
    dsimp only
    split_ifs
    · exact Quiet.refl state
    · exact missed.symm ▸ Quiet.refl state

variable {container : Ref} {found : ℕ → StructFieldSpec → Handler π ρ}

theorem fieldToSet_eq (fits : FieldFits name state entry) :
    (Vm.fieldToSet name entry container found state).1 =
      (Vm.fieldToSet name (coldIndex, coldField) container found state).1 := by
  rw [Vm.fieldToSet, Vm.fieldToSet]
  cases struct : state.instanceOf (.object container) with
  | none => rfl
  | some inst =>
    have cold : ¬ (coldIndex = State.objectPoolIndex inst.typ ∧ coldField ≠ coldField ∧
        coldField < inst.setBound) := fun hit => hit.2.1 rfl
    dsimp only
    rw [if_neg cold]
    by_cases hit : entry.1 = State.objectPoolIndex inst.typ ∧ entry.2 ≠ coldField ∧
        entry.2 < inst.setBound
    · rw [if_pos hit, fits.find (structTypeAt_of_instanceOf struct) hit.1 hit.2.1]
    · rw [if_neg hit]
      cases findFieldIndex inst.type.fields name <;> rfl

theorem fieldFits_fieldToSet (fits : FieldFits name state entry) :
    FieldFits name state (Vm.fieldToSet name entry container found state).2 := by
  rw [Vm.fieldToSet]
  cases struct : state.instanceOf (.object container) with
  | none => exact fits
  | some inst =>
    dsimp only
    split_ifs
    · exact fits
    · cases index : findFieldIndex inst.type.fields name with
      | none => exact fits
      | some index' => exact fieldFits_warmed fits (structTypeAt_of_instanceOf struct) index

theorem quiet_fieldToSet : Quiet state (Vm.fieldToSet name entry container found state).1.1 := by
  rw [Vm.fieldToSet]
  cases state.instanceOf (.object container) with
  | none => exact Quiet.refl state
  | some inst =>
    dsimp only
    split_ifs
    · exact Quiet.refl state
    · cases findFieldIndex inst.type.fields name <;> exact Quiet.refl state

theorem quiet_insertReceiverAndCall (func recv : Value π) (argc : ℕ) (state : State π ρ) :
    Quiet state (vm.insertReceiverAndCall func recv argc state).1 := by
  rw [Vm.insertReceiverAndCall]
  split_ifs
  · exact Quiet.refl state
  · exact (quiet_restack state _).trans (quiet_performCall (argc + 1) _)

variable (argc : ℕ)

variable (recv : Value π)

theorem quiet_invokeMiss (state : State π ρ) :
    Quiet state (vm.invokeMiss name argc entry inst recv state).1.1 := by
  rw [Vm.invokeMiss]
  split
  · exact Quiet.refl state
  · exact quiet_insertReceiverAndCall _ recv argc state
  · exact (quiet_setFromTop state _ _).trans (quiet_performCall argc _)

theorem quiet_invokeMethod (state : State π ρ) :
    Quiet state (vm.invokeMethod name argc entry state).1.1 := by
  rw [Vm.invokeMethod]
  split_ifs
  · exact Quiet.refl state
  · dsimp only
    split
    · exact Quiet.refl state
    · split
      · split_ifs
        · exact quiet_insertReceiverAndCall _ _ argc state
        · exact quiet_invokeMiss argc _ state
      · exact quiet_invokeMiss argc _ state

theorem invokeMiss_fst (entry' : ℕ × ℕ) :
    (vm.invokeMiss name argc entry inst recv state).1 =
      (vm.invokeMiss name argc entry' inst recv state).1 := by
  rw [Vm.invokeMiss, Vm.invokeMiss]
  split <;> rfl

theorem invokeMethod_cold (entry : ℕ × ℕ) {argc : ℕ} (deep : ¬ state.stack.length < argc + 1)
    (struct : state.instanceOf (state.fromTop (argc + 1)) = some inst) :
    (vm.invokeMethod name argc (coldIndex, coldIndex) state).1 =
      (vm.invokeMiss name argc entry inst (state.fromTop (argc + 1)) state).1 := by
  have none_ : State.objectAt coldIndex = none := dif_neg (lt_irrefl _)
  rw [Vm.invokeMethod, if_neg deep]
  simp only [struct, none_]
  exact invokeMiss_fst argc _ entry

theorem invokeMethod_eq (fits : MethodFits vm name state entry) :
    (vm.invokeMethod name argc entry state).1 =
      (vm.invokeMethod name argc (coldIndex, coldIndex) state).1 := by
  by_cases deep : state.stack.length < argc + 1
  · rw [Vm.invokeMethod, if_pos deep, Vm.invokeMethod, if_pos deep]
  · cases struct : state.instanceOf (state.fromTop (argc + 1)) with
    | none => rw [Vm.invokeMethod, if_neg deep, Vm.invokeMethod, if_neg deep]; simp only [struct]
    | some inst =>
      rw [invokeMethod_cold entry deep struct, Vm.invokeMethod, if_neg deep]
      simp only [struct]
      cases funcAt : State.objectAt entry.2 with
      | none => rfl
      | some func =>
        dsimp only
        by_cases hit : vm.methodHit entry inst
        · rw [if_pos hit]
          rcases fits hit.1 hit.2.1 with ⟨ref, type, func', refAt, there, funcAt', method⟩
          have sameFunc : func = func' := some.inj (funcAt.symm.trans funcAt')
          have sameRef : ref = inst.typ := some.inj (refAt.symm.trans hit.2.2)
          subst sameFunc sameRef
          have sameType : type = inst.type :=
            some.inj (there.symm.trans (structTypeAt_of_instanceOf struct))
          subst sameType
          rw [Vm.invokeMiss, Vm.resolveStructMethod, method]
        · rw [if_neg hit]

theorem objectAt_objectPoolIndex (inside : State.objectPoolIndex ref ≠ coldIndex) :
    State.objectAt (State.objectPoolIndex ref) = some ref := by
  cases ref with
  | pool index => exact dif_pos index.isLt
  | template | outside _ => exact absurd rfl inside

theorem methodFits_invokeMiss (fits : MethodFits vm name state entry)
    (there : state.structTypeAt inst.typ = some inst.type) :
    MethodFits vm name state (vm.invokeMiss name argc entry inst recv state).2 := by
  rw [Vm.invokeMiss, Vm.resolveStructMethod]
  cases method : methodGlobal state.globals inst.type name with
  | error err => exact fits
  | ok found =>
    cases found with
    | none =>
      cases findFieldIndex inst.type.fields name with
      | none | some index => dsimp only; split_ifs <;> exact fits
    | some func =>
      dsimp only
      cases func with
      | object ref =>
        rw [Vm.warmedMethod]
        split_ifs with outside
        · exact fits
        · intro _ typeInside
          have typeAt : State.objectPoolIndex inst.typ ≠ coldIndex :=
            (typeInside.trans_le vm.maxObjects_le).ne
          exact ⟨inst.typ, inst.type, ref, objectAt_objectPoolIndex typeAt, there,
            objectAt_objectPoolIndex outside, method⟩
      | null => exact fits
      | inlineVariant value => exact fits
      | plain value => exact fits

theorem methodFits_invokeMethod (fits : MethodFits vm name state entry) :
    MethodFits vm name state (vm.invokeMethod name argc entry state).2 := by
  rw [Vm.invokeMethod]
  split_ifs
  · exact fits
  · dsimp only
    cases struct : state.instanceOf (state.fromTop (argc + 1)) with
    | none => exact fits
    | some inst =>
      have miss := methodFits_invokeMiss argc (state.fromTop (argc + 1)) fits
        (structTypeAt_of_instanceOf struct)
      cases State.objectAt entry.2 with
      | none => exact miss
      | some func =>
        dsimp only
        split_ifs
        · exact fits
        · exact miss

end Fitting

end Gengo.Caches
