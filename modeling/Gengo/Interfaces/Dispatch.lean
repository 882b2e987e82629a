import Gengo.Generics.TypeSpec
import Mathlib.Data.List.Forall2

/-!
# Signatures

What the compiler keeps of a method and of the method of an interface, and how the two are
compared. A method is compiled with its receiver as a first parameter of any type, and the
comparison finds out from the numbers of parameters whether there is one.
-/

namespace Gengo.Interfaces

open Generics (FieldTypeAlt FieldTypeSpec Text)

mutual

/-- `fieldTypeAltEqual`: declared types are compared by their names. -/
def fieldTypeAltEqual : FieldTypeAlt → FieldTypeAlt → Bool
  | .prim a, .prim b => a == b
  | .declared kind a _, .declared kind' b _ => kind == kind' && a == b
  | .typeParam _, .typeParam _ => true
  | .array a, .array b => fieldTypeSpecEqual a b
  | .map aKey aVal, .map bKey bVal => fieldTypeSpecEqual aKey bKey && fieldTypeSpecEqual aVal bVal
  | .func aParams aReturns, .func bParams bReturns =>
    fieldTypeSpecsEqual aParams bParams && fieldTypeSpecsEqual aReturns bReturns
  | _, _ => false

def fieldTypeSpecEqual : List FieldTypeAlt → List FieldTypeAlt → Bool
  | [], [] => true
  | a :: as, b :: bs => fieldTypeAltEqual a b && fieldTypeSpecEqual as bs
  | _, _ => false

/-- The loops over the parameters and the results. -/
def fieldTypeSpecsEqual : List (List FieldTypeAlt) → List (List FieldTypeAlt) → Bool
  | [], [] => true
  | a :: as, b :: bs => fieldTypeSpecEqual a b && fieldTypeSpecsEqual as bs
  | _, _ => false

end

attribute [grind =] fieldTypeAltEqual fieldTypeSpecEqual fieldTypeSpecsEqual

/-- The specification of `any`. -/
def anySpec : FieldTypeSpec :=
  [.prim .any]

def isAny : FieldTypeSpec → Bool
  | [.prim .any] => true
  | _ => false

/-- A method as it is declared, its receiver left out. A variadic one has its last parameter for
the rest of the arguments. -/
structure Signature where
  params : List FieldTypeSpec
  isVariadic : Bool
  returns : List FieldTypeSpec
  variadicLast : isVariadic = true → params ≠ []

/-- What `InterfaceMethodSpec` and `FuncObj` share. -/
structure Shape where
  arity : ℕ
  isVariadic : Bool
  variadicType : FieldTypeSpec
  paramTypes : List FieldTypeSpec
  hasTypedParams : Bool
  returnTypes : List FieldTypeSpec
  hasTypedReturns : Bool

/-- The shape of parameters and results, as `interfaceDeclBody` and `compileFuncWithPrefix` build
it. -/
def Shape.ofParams (params : List FieldTypeSpec) (isVariadic : Bool)
    (returns : List FieldTypeSpec) : Shape where
  arity := params.length
  isVariadic := isVariadic
  variadicType := if isVariadic then params.getLast?.getD anySpec else anySpec
  paramTypes := params
  hasTypedParams := params.any fun param => !isAny param
  returnTypes := returns
  hasTypedReturns := !returns.isEmpty

/-- A method of an interface. -/
structure InterfaceMethod where
  name : Text
  signature : Signature

/-- `InterfaceMethodSpec`. -/
def InterfaceMethod.spec (method : InterfaceMethod) : Shape :=
  .ofParams method.signature.params method.signature.isVariadic method.signature.returns

/-- The `FuncObj` of a method: `methodDecl` puts its receiver in front. -/
def Signature.func (signature : Signature) : Shape :=
  .ofParams (anySpec :: signature.params) signature.isVariadic signature.returns

/-- There is one parameter more on the right, taken for the receiver. -/
def Shape.CountsReceiver (m f : Shape) : Prop :=
  f.arity = m.arity + 1 ∧ f.paramTypes.length = m.paramTypes.length + 1

instance (m f : Shape) : Decidable (m.CountsReceiver f) :=
  inferInstanceAs (Decidable (_ ∧ _))

def interfaceMethodMatches (m f : Shape) : Bool :=
  if m.isVariadic ≠ f.isVariadic then false
  else if ¬m.CountsReceiver f ∧ m.arity ≠ f.arity then false
  else
    let fParamStart := if m.CountsReceiver f then 1 else 0
    if m.hasTypedParams ≠ f.hasTypedParams then false
    else if m.hasTypedReturns ≠ f.hasTypedReturns then false
    else if m.paramTypes.length + fParamStart ≠ f.paramTypes.length then false
    else if m.returnTypes.length ≠ f.returnTypes.length then false
    else if m.isVariadic ∧ ¬fieldTypeSpecEqual m.variadicType f.variadicType then false
    else
      fieldTypeSpecsEqual m.paramTypes (f.paramTypes.drop fParamStart) &&
        fieldTypeSpecsEqual m.returnTypes f.returnTypes

/-- The parameters behind the receiver and the results are the same, as `fieldTypeSpecEqual`
compares them: a parameter of a generic type equals no concrete type. -/
def Signature.Same (wanted found : Signature) : Prop :=
  wanted.isVariadic = found.isVariadic ∧
    fieldTypeSpecsEqual wanted.params found.params = true ∧
      fieldTypeSpecsEqual wanted.returns found.returns = true

/-- The first of the wanted parameters is `any`, and only those behind it are there. -/
def Signature.OneFewer (wanted found : Signature) : Prop :=
  wanted.isVariadic = found.isVariadic ∧
    fieldTypeSpecsEqual wanted.params (anySpec :: found.params) = true ∧
      fieldTypeSpecsEqual wanted.returns found.returns = true

variable {as bs : List FieldTypeSpec}

theorem fieldTypeSpecsEqual_iff :
    fieldTypeSpecsEqual as bs = true ↔
      List.Forall₂ (fun a b => fieldTypeSpecEqual a b = true) as bs := by
  induction as generalizing bs with
  | nil => cases bs <;> simp [fieldTypeSpecsEqual]
  | cons a as ih =>
    cases bs with
    | nil => simp [fieldTypeSpecsEqual]
    | cons b bs => simp [fieldTypeSpecsEqual, ih]

theorem length_eq_of_specsEqual (same : fieldTypeSpecsEqual as bs = true) : as.length = bs.length :=
  (fieldTypeSpecsEqual_iff.mp same).length_eq

variable {spec : FieldTypeSpec}

theorem isAny_eq_true : isAny spec = true ↔ spec = anySpec := by
  unfold isAny anySpec
  split
  · simp
  · next other => simpa using fun same => other same

theorem fieldTypeSpecEqual_anySpec_left :
    fieldTypeSpecEqual anySpec spec = true ↔ spec = anySpec := by
  rcases spec with _ | ⟨alt, _ | ⟨second, rest⟩⟩
  · simp [anySpec, fieldTypeSpecEqual]
  · cases alt with
    | prim typ =>
      simp only [anySpec, fieldTypeSpecEqual, fieldTypeAltEqual, Bool.and_true, beq_iff_eq,
        List.cons.injEq, FieldTypeAlt.prim.injEq, and_true]
      exact eq_comm
    | _ => simp [anySpec, fieldTypeSpecEqual, fieldTypeAltEqual]
  · simp [anySpec, fieldTypeSpecEqual]

theorem fieldTypeSpecEqual_anySpec_right :
    fieldTypeSpecEqual spec anySpec = true ↔ spec = anySpec := by
  rcases spec with _ | ⟨alt, _ | ⟨second, rest⟩⟩
  · simp [anySpec, fieldTypeSpecEqual]
  · cases alt with
    | prim _ | _ => simp [anySpec, fieldTypeSpecEqual, fieldTypeAltEqual]
  · simp [anySpec, fieldTypeSpecEqual]

theorem isAny_eq_of_specEqual {a b : FieldTypeSpec} (same : fieldTypeSpecEqual a b = true) :
    isAny a = isAny b := by
  rw [Bool.eq_iff_iff, isAny_eq_true, isAny_eq_true]
  constructor
  · rintro rfl
    exact fieldTypeSpecEqual_anySpec_left.mp same
  · rintro rfl
    exact fieldTypeSpecEqual_anySpec_right.mp same

/-- Whether some parameter is typed is the same for the same parameters. -/
theorem any_typed_eq_of_specsEqual (same : fieldTypeSpecsEqual as bs = true) :
    (as.any fun spec => !isAny spec) = bs.any fun spec => !isAny spec := by
  induction fieldTypeSpecsEqual_iff.mp same with
  | nil => rfl
  | cons head tail ih =>
    rw [List.any_cons, List.any_cons, isAny_eq_of_specEqual head,
      ih (fieldTypeSpecsEqual_iff.mpr tail)]

theorem getLast_of_specsEqual (same : fieldTypeSpecsEqual as bs = true) (nonempty : as ≠ []) :
    fieldTypeSpecEqual (as.getLast?.getD anySpec) (bs.getLast?.getD anySpec) = true := by
  induction fieldTypeSpecsEqual_iff.mp same with
  | nil => exact absurd rfl nonempty
  | @cons a b as bs head tail ih =>
    cases tail with
    | nil => simpa using head
    | @cons a' b' as bs head' tail =>
      rw [List.getLast?_cons_cons, List.getLast?_cons_cons]
      exact ih (fieldTypeSpecsEqual_iff.mpr (.cons head' tail)) (by simp)

theorem interfaceMethodMatches_checks {m f : Shape} :
    interfaceMethodMatches m f = true ↔
      (m.isVariadic = f.isVariadic ∧ m.hasTypedParams = f.hasTypedParams ∧
        m.hasTypedReturns = f.hasTypedReturns ∧
        (m.isVariadic = true → fieldTypeSpecEqual m.variadicType f.variadicType = true) ∧
        fieldTypeSpecsEqual m.returnTypes f.returnTypes = true) ∧
      ((m.CountsReceiver f ∧ fieldTypeSpecsEqual m.paramTypes (f.paramTypes.drop 1) = true) ∨
        (¬m.CountsReceiver f ∧ m.arity = f.arity ∧
          fieldTypeSpecsEqual m.paramTypes f.paramTypes = true)) := by
  have sameReturns : fieldTypeSpecsEqual m.returnTypes f.returnTypes = true →
      m.returnTypes.length = f.returnTypes.length := length_eq_of_specsEqual
  by_cases receiver : m.CountsReceiver f
  · have start := receiver.2
    simp only [interfaceMethodMatches, receiver, not_true, false_and, if_true, if_false,
      Bool.if_false_left, Bool.and_eq_true, Bool.not_eq_true', decide_eq_false_iff_not, ne_eq,
      not_not, not_and]
    tauto
  · have sameParams : fieldTypeSpecsEqual m.paramTypes f.paramTypes = true →
        m.paramTypes.length = f.paramTypes.length := length_eq_of_specsEqual
    simp only [interfaceMethodMatches, receiver, not_false_eq_true, true_and, false_and, false_or,
      if_false, Bool.if_false_left, Bool.and_eq_true, Bool.not_eq_true', decide_eq_false_iff_not,
      ne_eq, not_not, not_and, Nat.add_zero, List.drop_zero]
    tauto

/-- What is checked next to the parameters and the results follows from them. -/
theorem checks_of_same {params params' returns returns' : List FieldTypeSpec} {isVariadic : Bool}
    (nonempty : isVariadic = true → params ≠ [])
    (sameParams : fieldTypeSpecsEqual params params' = true)
    (sameReturns : fieldTypeSpecsEqual returns returns' = true) :
    let m := Shape.ofParams params isVariadic returns
    let f := Shape.ofParams params' isVariadic returns'
    m.hasTypedParams = f.hasTypedParams ∧ m.hasTypedReturns = f.hasTypedReturns ∧
      (isVariadic = true → fieldTypeSpecEqual m.variadicType f.variadicType = true) := by
  refine ⟨any_typed_eq_of_specsEqual sameParams, ?_, ?_⟩
  · have lengths := length_eq_of_specsEqual sameReturns
    cases returns with
    | nil => simp [Shape.ofParams, List.eq_nil_of_length_eq_zero lengths.symm]
    | cons first rest =>
      cases returns' with
      | nil => exact absurd lengths (by simp)
      | cons first' rest' => rfl
  · intro variadic
    simp only [Shape.ofParams, variadic, if_true]
    exact getLast_of_specsEqual sameParams (nonempty variadic)

theorem countsReceiver_iff {wanted : InterfaceMethod} {found : Signature} :
    wanted.spec.CountsReceiver found.func ↔
      found.params.length = wanted.signature.params.length := by
  simp [Shape.CountsReceiver, InterfaceMethod.spec, Signature.func, Shape.ofParams]

/-- The receiver is not typed, and never the last parameter of a variadic method. -/
theorem Signature.func_checks {signature : Signature} :
    let plain := Shape.ofParams signature.params signature.isVariadic signature.returns
    signature.func.hasTypedParams = plain.hasTypedParams ∧
      (signature.isVariadic = true → signature.func.variadicType = plain.variadicType) := by
  refine ⟨rfl, fun variadic => ?_⟩
  have nonempty := signature.variadicLast variadic
  simp only [Signature.func, Shape.ofParams, variadic, if_true, List.getLast?_cons]
  cases last : signature.params.getLast? with
  | none => exact absurd (List.getLast?_eq_none_iff.mp last) nonempty
  | some param => rfl

/-- A method passes for one of an interface when its parameters are the wanted ones, or when they
are with its receiver counted among them. -/
theorem interfaceMethodMatches_iff {wanted : InterfaceMethod} {found : Signature} :
    interfaceMethodMatches wanted.spec found.func = true ↔
      wanted.signature.Same found ∨ wanted.signature.OneFewer found := by
  rw [interfaceMethodMatches_checks, countsReceiver_iff]
  constructor
  · rintro ⟨⟨sameVariadic, _, _, _, sameReturns⟩, ⟨_, sameParams⟩ | ⟨_, _, sameParams⟩⟩
    · exact .inl ⟨sameVariadic, sameParams, sameReturns⟩
    · exact .inr ⟨sameVariadic, sameParams, sameReturns⟩
  · rintro (⟨sameVariadic, sameParams, sameReturns⟩ | ⟨sameVariadic, sameParams, sameReturns⟩)
    · rcases checks_of_same wanted.signature.variadicLast sameParams sameReturns with
        ⟨typedParams, typedReturns, variadicType⟩
      rcases found.func_checks with ⟨receiverTyped, receiverVariadic⟩
      have lengths := length_eq_of_specsEqual sameParams
      refine ⟨⟨sameVariadic, typedParams.trans receiverTyped.symm, typedReturns, ?_, sameReturns⟩,
        .inl ⟨lengths.symm, sameParams⟩⟩
      intro variadic
      rw [receiverVariadic (sameVariadic.symm.trans variadic), ← sameVariadic]
      exact variadicType variadic
    · rcases checks_of_same wanted.signature.variadicLast sameParams sameReturns with
        ⟨typedParams, typedReturns, variadicType⟩
      have lengths := length_eq_of_specsEqual sameParams
      have shape : found.func = Shape.ofParams (anySpec :: found.params)
          wanted.signature.isVariadic found.returns := by rw [Signature.func, sameVariadic]
      refine ⟨⟨sameVariadic, typedParams, typedReturns, ?_, sameReturns⟩,
        .inr ⟨?_, lengths, sameParams⟩⟩
      · rw [shape]
        exact variadicType
      · rw [lengths, List.length_cons]
        omega

/-!
# Methods of values

A method is a global named by its type and its own name. A call looks for it under the type of its
receiver, then under the generic type that a struct is an instance of or under the parents of a
named type, and last among the fields of a struct. The test for an interface looks under the type
of the value only.
-/

/-- What a global is: a method, declared as a function or as a closure, a native function with the
number of its arguments, an interface type, or something else. -/
inductive Global
  | function (signature : Signature)
  | closure (signature : Signature)
  | nativeFunction (arity : ℕ)
  | interfaceType (methods : List InterfaceMethod)
  | other

/-- The globals by their names. -/
abbrev Globals :=
  Text → Option Global

/-- `StructTypeObj`, with the names of its fields. -/
structure StructType where
  qualifiedName : Text
  fields : List Text

/-- A named type and what `resolveParentType` finds for its parent. -/
inductive NamedType
  | mk (qualifiedName : Text) (parent : Option NamedType)

def NamedType.qualifiedName : NamedType → Text
  | .mk qualifiedName _ => qualifiedName

/-- The values that methods are called on. -/
inductive Value
  | structInstance (typ : StructType)
  | smallStructInstance (typ : StructType) (count : ℕ)
  | namedValue (typ : NamedType)
  | enumValue (qualifiedName : Text)
  | variantValue (qualifiedName : Text)
  | inlineVariant (qualifiedName : Text)
  | map (keys : List Text)
  | other

inductive MethodError
  | notAMethodReceiver
  | unknownMethod
  | unknownStructField
  deriving DecidableEq, Repr

/-- `MethodResolution`: a global that is passed the receiver, or a value that the receiver holds in
a field or as an entry. -/
inductive MethodResolution
  | passRecv (func : Global)
  | held (index : ℕ)

def methodKey (qualifiedName mname : Text) : Text :=
  qualifiedName ++ '.' :: mname

def resolveQualifiedReceiverMethod (globals : Globals) (qualifiedName mname : Text) :
    Except MethodError Global :=
  if 512 < qualifiedName.length + 1 + mname.length then .error .notAMethodReceiver
  else
    match globals (methodKey qualifiedName mname) with
    | some func => .ok func
    | none => .error .unknownMethod

/-- `isModuleNamespaceStruct`. -/
def StructType.isModuleNamespace (typ : StructType) : Bool :=
  "@module_type:".toList.isPrefixOf typ.qualifiedName

/-- The name of the generic type that a struct type is an instance of. -/
def StructType.baseName (typ : StructType) : Option Text :=
  if '[' ∈ typ.qualifiedName then some (typ.qualifiedName.takeWhile (· ≠ '[')) else none

/-- `findFieldIndex`, and for a small struct the test that the field is there. -/
def resolveField (typ : StructType) (count : ℕ) (mname : Text) :
    Except MethodError MethodResolution :=
  match typ.fields.findIdx? (· == mname) with
  | some index => if count ≤ index then .error .unknownStructField else .ok (.held index)
  | none => .error (if typ.isModuleNamespace then .unknownStructField else .unknownMethod)

/-- `resolveStructMethod` and `resolveSmallStructMethod` for a struct that holds so many fields. -/
def resolveStructMethod (globals : Globals) (typ : StructType) (count : ℕ) (mname : Text) :
    Except MethodError MethodResolution :=
  match resolveQualifiedReceiverMethod globals typ.qualifiedName mname with
  | .ok func => .ok (.passRecv func)
  | .error .unknownMethod =>
    match typ.baseName with
    | none => resolveField typ count mname
    | some base =>
      match resolveQualifiedReceiverMethod globals base mname with
      | .ok func => .ok (.passRecv func)
      | .error _ => resolveField typ count mname
  | .error err => .error err

def resolveNamedMethod (globals : Globals) (mname : Text) :
    NamedType → Except MethodError MethodResolution
  | .mk qualifiedName parent =>
    match resolveQualifiedReceiverMethod globals qualifiedName mname with
    | .ok func => .ok (.passRecv func)
    | .error .unknownMethod =>
      match parent with
      | none => .error .unknownMethod
      | some typ => resolveNamedMethod globals mname typ
    | .error err => .error err

def resolveMapMethod (keys : List Text) (mname : Text) : Except MethodError MethodResolution :=
  match keys.findIdx? (· == mname) with
  | some index => .ok (.held index)
  | none => .error .unknownMethod

/-- `resolveMethodReceiver`, and `resolveInlineVariantMethod` for a variant without an object. -/
def resolveMethodReceiver (globals : Globals) (mname : Text) :
    Value → Except MethodError MethodResolution
  | .structInstance typ => resolveStructMethod globals typ typ.fields.length mname
  | .smallStructInstance typ count => resolveStructMethod globals typ count mname
  | .namedValue typ => resolveNamedMethod globals mname typ
  | .enumValue qualifiedName | .variantValue qualifiedName | .inlineVariant qualifiedName =>
    .passRecv <$> resolveQualifiedReceiverMethod globals qualifiedName mname
  | .map keys => resolveMapMethod keys mname
  | .other => .error .notAMethodReceiver

/-- The qualified name of the type of a value that can satisfy an interface. -/
def Value.typeName : Value → Option Text
  | .structInstance typ | .smallStructInstance typ _ => some typ.qualifiedName
  | .namedValue typ => some typ.qualifiedName
  | .enumValue qualifiedName | .variantValue qualifiedName | .inlineVariant qualifiedName =>
    some qualifiedName
  | .map _ | .other => none

/-- One round of the loop in `matchesInterfaceType`. -/
def matchesMethod (globals : Globals) (tname : Text) (method : InterfaceMethod) : Bool :=
  if 512 < tname.length + 1 + method.name.length then false
  else
    match globals (methodKey tname method.name) with
    | some (.function signature) | some (.closure signature) =>
      interfaceMethodMatches method.spec signature.func
    | some (.nativeFunction arity) => arity == method.spec.arity + 1
    | _ => false

def matchesInterfaceType (globals : Globals) (v : Value) (iname : Text) : Bool :=
  match v.typeName with
  | none => false
  | some tname =>
    match globals iname with
    | some (.interfaceType methods) => methods.all (matchesMethod globals tname)
    | _ => false

/-- The names of the parents of a named type, the nearest first. -/
def NamedType.ancestors : NamedType → List Text
  | .mk _ none => []
  | .mk _ (some parent) => parent.qualifiedName :: parent.ancestors

/-- The names under which a call looks for a method once the type of its receiver has none. -/
def Value.laterNames : Value → List Text
  | .structInstance typ | .smallStructInstance typ _ => typ.baseName.toList
  | .namedValue typ => typ.ancestors
  | _ => []

/-- What is declared first under some names, before a name that is too long. -/
def firstDeclared (globals : Globals) (mname : Text) : List Text → Option Global
  | [] => none
  | qualifiedName :: rest =>
    match resolveQualifiedReceiverMethod globals qualifiedName mname with
    | .ok func => some func
    | .error .unknownMethod => firstDeclared globals mname rest
    | .error _ => none

theorem resolveField_ne_passRecv {typ : StructType} {count : ℕ} {mname : Text} {func : Global} :
    resolveField typ count mname ≠ .ok (.passRecv func) := by
  unfold resolveField
  intro resolved
  split at resolved
  · split at resolved
    · cases resolved
    · cases resolved
  · cases resolved

variable {globals : Globals} {mname : Text} {func : Global}

theorem firstDeclared_cons (qualifiedName : Text) (rest : List Text) :
    firstDeclared globals mname (qualifiedName :: rest) =
      match resolveQualifiedReceiverMethod globals qualifiedName mname with
      | .ok func => some func
      | .error .unknownMethod => firstDeclared globals mname rest
      | .error _ => none :=
  rfl

theorem resolveStructMethod_iff {typ : StructType} {count : ℕ} :
    resolveStructMethod globals typ count mname = .ok (.passRecv func) ↔
      firstDeclared globals mname (typ.qualifiedName :: typ.baseName.toList) = some func := by
  unfold resolveStructMethod
  rw [firstDeclared_cons]
  split
  · simp
  · cases typ.baseName with
    | none => simp [resolveField_ne_passRecv, firstDeclared]
    | some base =>
      simp only [Option.toList_some, firstDeclared]
      cases resolved : resolveQualifiedReceiverMethod globals base mname with
      | ok func => simp
      | error err => cases err <;> simp [resolveField_ne_passRecv]
  next err other _ =>
    cases err with
    | unknownMethod => exact absurd rfl other
    | _ => simp

theorem resolveNamedMethod_iff : (typ : NamedType) →
    (resolveNamedMethod globals mname typ = .ok (.passRecv func) ↔
      firstDeclared globals mname (typ.qualifiedName :: typ.ancestors) = some func)
  | .mk qualifiedName parent => by
    unfold resolveNamedMethod
    rw [firstDeclared_cons, NamedType.qualifiedName]
    split
    · simp
    · cases parent with
      | none => simp [NamedType.ancestors, firstDeclared]
      | some typ => exact resolveNamedMethod_iff typ
    next err other _ =>
      cases err with
      | unknownMethod => exact absurd rfl other
      | _ => simp

theorem passRecv_map_iff {qualifiedName : Text} :
    MethodResolution.passRecv <$> resolveQualifiedReceiverMethod globals qualifiedName mname =
        .ok (.passRecv func) ↔
      firstDeclared globals mname [qualifiedName] = some func := by
  rw [firstDeclared_cons]
  cases resolveQualifiedReceiverMethod globals qualifiedName mname with
  | ok found => simp [Functor.map, Except.map]
  | error err => cases err <;> simp [Functor.map, Except.map, firstDeclared]

/-- A call finds a method where it is first declared under the names of its receiver. -/
theorem resolveMethodReceiver_iff {v : Value} {tname : Text} (typed : v.typeName = some tname) :
    resolveMethodReceiver globals mname v = .ok (.passRecv func) ↔
      firstDeclared globals mname (tname :: v.laterNames) = some func := by
  cases v with
  | structInstance _ | smallStructInstance _ _ =>
    cases typed
    exact resolveStructMethod_iff
  | namedValue typ =>
    cases typed
    exact resolveNamedMethod_iff typ
  | map keys => cases typed
  | other => cases typed
  | _ =>
    cases typed
    exact passRecv_map_iff

end Gengo.Interfaces
