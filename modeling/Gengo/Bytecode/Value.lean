import Mathlib.Algebra.GroupWithZero.Nat
import Mathlib.Data.List.TakeWhile

/-!
# Constants and function objects

The values a constant pool can hold, as far as the passes over the bytecode look
at them. Strings are byte sequences and floats are kept as bit patterns. A
function object lives in a table of its own and is referred to by its index
there: several constants may refer to one function, and a pass that moves its
entry must move it once.
-/

namespace Gengo.Bytecode

/-- A string is the sequence of its bytes. -/
abbrev Bytes := List UInt8

instance : LawfulBEq Bytes :=
  inferInstance

/-- One alternative of a field type, with the data its tag gives a meaning to. A
field type is the list of its alternatives. -/
inductive FieldTypeAlt where
  | any | nullT | int | float | decimalT | runeT | boolean | string | errorT | actorRefT
  | array (elemSpec : Option (List FieldTypeAlt))
  | map (keySpec valSpec : Option (List FieldTypeAlt))
  | structT (structName : Bytes) (genericArgs : List (List FieldTypeAlt))
  | interfaceT (interfaceName : Bytes)
  | namedT (namedName : Bytes)
  | variantT (namedName : Bytes) (genericArgs : List (List FieldTypeAlt))
  | funcT (funcParams funcReturns : Option (List (List FieldTypeAlt)))
  | typeParam (paramName : Bytes)

abbrev FieldTypeSpec := List FieldTypeAlt

structure StructFieldSpec where
  name : Bytes
  typ : FieldTypeSpec
  isConst : Bool

structure StructType where
  name : Bytes
  qualifiedName : Bytes
  fields : List StructFieldSpec

structure InterfaceMethodSpec where
  name : Bytes
  arity : UInt8
  isVariadic : Bool
  variadicType : FieldTypeSpec
  paramTypes : List FieldTypeSpec
  returnTypes : List FieldTypeSpec
  hasTypedParams : Bool
  hasTypedReturns : Bool

structure InterfaceType where
  name : Bytes
  qualifiedName : Bytes
  methods : List InterfaceMethodSpec

structure VariantArmSpec where
  name : Bytes
  hasPayload : Bool
  payloadName : Bytes
  payloadType : Option FieldTypeSpec
  fields : List StructFieldSpec

structure VariantType where
  name : Bytes
  qualifiedName : Bytes
  arms : List VariantArmSpec
  sharedFields : List StructFieldSpec

/-- `memberInts` holds the explicit representation values, one for each member. -/
structure EnumType where
  name : Bytes
  qualifiedName : Bytes
  members : List Bytes
  memberInts : Option (List Int64)
  parentName : Option Bytes
  length_memberInts : ∀ ints, memberInts = some ints → ints.length = members.length

inductive NamedTypeBase where
  | int | float | decimal | string | bool | rune | arrayT | mapT | enumT
  deriving DecidableEq, Repr

/-- The object a named type keeps as its predicate. -/
inductive Predicate (Func : Type) where
  | function (func : Func)
  | closure (func : Func) (upvalues : ℕ)
  | other

/-- A default value of a named type. -/
inductive ScalarValue where
  | float (bits : UInt64)
  | string (bytes : Bytes)
  | boolean (value : Bool)
  deriving DecidableEq, Repr

structure NamedType (Func : Type) where
  name : Bytes
  qualifiedName : Bytes
  base : NamedTypeBase
  isAnonymous : Bool
  hasRange : Bool
  isCycle : Bool
  isClamp : Bool
  scale : UInt8
  min : UInt64
  max : UInt64
  parentName : Option Bytes
  elemSpec : Option FieldTypeSpec
  keySpec : Option FieldTypeSpec
  valSpec : Option FieldTypeSpec
  predicate : Option (Predicate Func)
  predicateMsg : Option Bytes
  /-- The default value, when the type has one (`has_default`). -/
  defaultVal : Option ScalarValue

structure TaskType (Func : Type) where
  name : Bytes
  qualifiedName : Bytes
  behavior : Func

/-- An entry of the constant pool, over whatever stands for its function objects.
`other` stands for every value kind that no pass over the bytecode looks into. -/
inductive Constant (Func : Type) where
  | int (value : Int64)
  | float (bits : UInt64)
  | rune (codepoint : Fin 0x200000)
  | boolean (value : Bool)
  | null
  | string (bytes : Bytes)
  | function (func : Func)
  | closure (func : Func) (upvalues : ℕ)
  | structType (type : StructType)
  | namedType (type : NamedType Func)
  | variantType (type : VariantType)
  | interfaceType (type : InterfaceType)
  | enumType (type : EnumType)
  | taskType (type : TaskType Func)
  | other

/-- The index of a function object in the chunk's function table. -/
abbrev FuncRef := ℕ

/-- A function object. `ip` is the offset of its first instruction; `maxStack` is
the operand depth the verifier stamps, and its initial value makes an unstamped
function fail at its first call. -/
structure FuncObj where
  ip : ℕ
  arity : UInt8
  isVariadic : Bool
  variadicType : FieldTypeSpec
  captureSlots : List UInt8
  paramTypes : List FieldTypeSpec
  hasTypedParams : Bool
  returnTypes : List FieldTypeSpec
  hasTypedReturns : Bool
  name : Bytes := []
  namedReturnCount : UInt8 := 0
  defaults : List (Constant FuncRef) := []
  returnsProven : Bool := false
  maxStack : ℕ := 0xFFFF

/-!
# Strings of the source

The byte strings that stand literally in the source, and names that are put together with dots.
-/

/-- The bytes of a string in the source. -/
def literal (text : String) : Bytes :=
  text.toUTF8.data.toList

/-- `.` -/
def dot : UInt8 :=
  46

/-- What comes after the last dot, and what comes before it, can be told from the whole. -/
theorem append_dot_inj {before before' after after' : Bytes} (undotted : dot ∉ after)
    (undotted' : dot ∉ after') (same : before ++ dot :: after = before' ++ dot :: after') :
    before = before' ∧ after = after' := by
  have fromLast : ∀ before {after : Bytes}, dot ∉ after →
      (before ++ dot :: after).reverse.takeWhile (· ≠ dot) = after.reverse ∧
        (before ++ dot :: after).reverse.dropWhile (· ≠ dot) = dot :: before.reverse := by
    intro before after undotted
    have passed : ∀ byte ∈ after.reverse, (byte ≠ dot : Bool) = true := by
      intro byte member
      rw [decide_eq_true_eq]
      rintro rfl
      exact undotted (List.mem_reverse.mp member)
    have reversed : (before ++ dot :: after).reverse = after.reverse ++ dot :: before.reverse := by
      simp
    rw [reversed, List.takeWhile_append_of_pos passed, List.dropWhile_append_of_pos passed]
    simp
  rcases fromLast before undotted with ⟨name, rest⟩
  rcases fromLast before' undotted' with ⟨name', rest'⟩
  rw [same] at name rest
  constructor
  · exact List.reverse_inj.mp (List.cons.inj (rest.symm.trans rest')).2
  · exact List.reverse_inj.mp (name.symm.trans name')

end Gengo.Bytecode
