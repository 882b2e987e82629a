import Gengo.Gbc.Reader
import Gengo.Gbc.Writer

/-!
# What comes back of each record

For every record the two sides exchange, a `wire` function says what the reader
makes of the record that was written: the record it builds, or the error it stops
with. Each is followed by the lemma that this is so.
-/

namespace Gengo.Gbc

open Bytecode Fallible Wire

theorem u8_back (value : UInt8) : ReadsBack (u8 value) readU8 (.ok value) :=
  .byte value _

variable (value : ℕ)

theorem u16_back : ReadsBack (u16 value) readU16 (.ok value) :=
  .le _ _ 2 value

theorem u32_back : ReadsBack (u32 value) readU32 (.ok value) :=
  .le _ _ 4 value

theorem u64_back : ReadsBack (u64 value) readU64 (.ok value) :=
  .le _ _ 8 value

theorem i64_back (value : Int64) : ReadsBack (i64 value) readI64 (.ok value) :=
  (u64_back _).apply (by rw [UInt64.ofNat_toNat, Int64.toInt64_toUInt64])

theorem f64_back (bits : UInt64) : ReadsBack (f64 bits) readF64 (.ok bits) :=
  (u64_back _).apply UInt64.ofNat_toNat

theorem bool8_back (flag : Bool) : ReadsBack (bool8 flag) readBool8 (.ok flag) :=
  .bool flag _ _

theorem str_back (bytes : Bytes) : ReadsBack (str bytes) readStr (.ok bytes) :=
  .str _ _ bytes

theorem optionStr_back (bytes : Option Bytes) :
    ReadsBack (.option str bytes) (readOption readStr) (.ok bytes) := by
  have back := ReadsBack.option_ok .truncatedBody .malformedSection str_back bytes
  rwa [Option.map_id'] at back

/-- An alternative as it comes back: a type parameter as `any`, without generic
arguments, and with both lists of a function type. -/
def wireTypeAlt (wireSpec : FieldTypeSpec → Except ReadError FieldTypeSpec) :
    FieldTypeAlt → Except ReadError FieldTypeAlt
  | .array elemSpec => do return .array (← elemSpec.mapM wireSpec)
  | .map keySpec valSpec => do
    let keySpec ← keySpec.mapM wireSpec
    let valSpec ← valSpec.mapM wireSpec
    return .map keySpec valSpec
  | .structT name _ => .ok (.structT name [])
  | .variantT name _ => .ok (.variantT name [])
  | .funcT params returns => do
    let params ← (params.getD []).mapM wireSpec
    let returns ← (returns.getD []).mapM wireSpec
    return .funcT (some params) (some returns)
  | .typeParam _ => .ok .any
  | alt => .ok alt

theorem typeAlt_back {writeSpec : FieldTypeSpec → Writer WriteError}
    {readSpec : Reader ReadError FieldTypeSpec}
    {wireSpec : FieldTypeSpec → Except ReadError FieldTypeSpec}
    (specs : ∀ spec, ReadsBack (writeSpec spec) readSpec (wireSpec spec)) (alt : FieldTypeAlt) :
    ReadsBack (writeTypeAlt writeSpec alt) (readTypeAlt readSpec) (wireTypeAlt wireSpec alt) := by
  cases alt with
  | any | nullT | int | float | decimalT | runeT | boolean | string | errorT | actorRefT
  | typeParam =>
    exact (u8_back _).finish rfl
  | array elemSpec =>
    exact (u8_back _).andThen ((ReadsBack.option _ _ specs elemSpec).bind_pure _)
  | map keySpec valSpec =>
    exact (u8_back _).andThen ((ReadsBack.option _ _ specs keySpec).bind fun _ _ =>
      (ReadsBack.option _ _ specs valSpec).bind_pure _)
  | structT name | interfaceT name | namedT name | variantT name =>
    exact (u8_back _).andThen ((str_back name).finish rfl)
  | funcT params returns =>
    exact (u8_back _).andThen ((ReadsBack.counted _ _ 2 fun _ _ => specs _).bind fun _ _ =>
      (ReadsBack.counted _ _ 2 fun _ _ => specs _).bind_pure _)

/-- A type spec as it comes back: one without alternatives is refused. -/
def wireTypeSpecDepth : ℕ → FieldTypeSpec → Except ReadError FieldTypeSpec
  | 0, _ => .error .malformedSection
  | room + 1, alts =>
    if alts.length != 0 then alts.mapM (wireTypeAlt (wireTypeSpecDepth room))
    else .error .malformedSection

def wireTypeSpec : FieldTypeSpec → Except ReadError FieldTypeSpec :=
  wireTypeSpecDepth MaxTypeSpecDepth

theorem typeSpecDepth_back (room : ℕ) (spec : FieldTypeSpec) :
    ReadsBack (writeTypeSpecDepth room spec) (readTypeSpecDepth room)
      (wireTypeSpecDepth room spec) := by
  induction room generalizing spec with
  | zero => exact .stopped
  | succ room ih =>
    exact (ReadsBack.le _ _ 1 spec.length).andThen
      (.ensure fun _ => .all fun alt _ => typeAlt_back ih alt)

theorem typeSpec_back (spec : FieldTypeSpec) :
    ReadsBack (writeTypeSpec spec) readTypeSpec (wireTypeSpec spec) :=
  typeSpecDepth_back MaxTypeSpecDepth spec

def wireField (field : StructFieldSpec) : Except ReadError StructFieldSpec := do
  return { field with typ := ← wireTypeSpec field.typ }

theorem field_back (field : StructFieldSpec) :
    ReadsBack (writeField field) readField (wireField field) :=
  (str_back field.name).andThen ((typeSpec_back field.typ).bind fun _ _ =>
    (bool8_back field.isConst).finish rfl)

theorem fieldList_back (fields : List StructFieldSpec) :
    ReadsBack (writeFieldList fields) readFieldList (fields.mapM wireField) :=
  .counted _ _ 2 fun field _ => field_back field

/-- An arm as it comes back: only what its shape on the wire has room for. -/
def wireVariantArm (arm : VariantArmSpec) : Except ReadError VariantArmSpec :=
  if arm.fields ≠ [] then do
    let fields ← arm.fields.mapM wireField
    return { name := arm.name, hasPayload := !fields.isEmpty, payloadName := [],
             payloadType := none, fields }
  else if arm.hasPayload then do
    let payloadType ← wireTypeSpec (arm.payloadType.getD [])
    return { name := arm.name, hasPayload := true, payloadName := arm.payloadName,
             payloadType := some payloadType, fields := [] }
  else
    .ok { name := arm.name, hasPayload := false, payloadName := [], payloadType := none,
          fields := [] }

theorem variantArm_back (arm : VariantArmSpec) :
    ReadsBack (writeVariantArm arm) readVariantArm (wireVariantArm arm) := by
  refine (str_back arm.name).andThen ?_
  rw [wireVariantArm]
  by_cases record : arm.fields ≠ []
  · rw [if_pos record, if_pos record]
    exact (u8_back _).andThen ((fieldList_back arm.fields).bind_pure _)
  · rw [if_neg record, if_neg record]
    split
    case isTrue =>
      refine (u8_back _).andThen ((str_back arm.payloadName).andThen ?_)
      cases arm.payloadType with
      | none => exact .stopped
      | some payloadType => exact (typeSpec_back payloadType).bind_pure _
    case isFalse => exact (u8_back _).finish rfl

/-- The variadic type as it comes back, where only a variadic function has one. -/
def wireVariadicType (isVariadic : Bool) (spec : FieldTypeSpec) : Except ReadError FieldTypeSpec :=
  if isVariadic then wireTypeSpec spec else .ok anyTypeSpec

theorem variadicType_back (isVariadic : Bool) (spec : FieldTypeSpec) :
    ReadsBack (if isVariadic then writeTypeSpec spec else .raw []) (readVariadicType isVariadic)
      (wireVariadicType isVariadic spec) := by
  cases isVariadic with
  | false => exact .value (.ok anyTypeSpec)
  | true => exact typeSpec_back spec

def wireInterfaceMethod (method : InterfaceMethodSpec) : Except ReadError InterfaceMethodSpec := do
  let variadicType ← wireVariadicType method.isVariadic method.variadicType
  if validArityShape method.arity method.isVariadic method.hasTypedParams
      method.paramTypes.length then do
    let paramTypes ← method.paramTypes.mapM wireTypeSpec
    let returnTypes ← method.returnTypes.mapM wireTypeSpec
    return { method with variadicType, paramTypes, returnTypes }
  else .error .malformedSection

theorem interfaceMethod_back (method : InterfaceMethodSpec) :
    ReadsBack (writeInterfaceMethod method) readInterfaceMethod (wireInterfaceMethod method) := by
  refine (str_back _).andThen ((u8_back _).andThen ((bool8_back _).andThen ?_))
  refine (variadicType_back _ _).bind fun variadicType _ => ?_
  refine (bool8_back _).andThen ((bool8_back _).andThen ?_)
  exact .assoc ((u16_back _).andThen (.ensure fun _ =>
    (ReadsBack.all fun spec _ => typeSpec_back spec).bind fun _ _ =>
      (ReadsBack.counted _ _ 2 fun spec _ => typeSpec_back spec).bind_pure _))

/-- A default value as it comes back: its base decides what was written. -/
def wireDefault (base : NamedTypeBase) (value : ScalarValue) : Except ReadError ScalarValue :=
  match base with
  | .arrayT | .mapT | .enumT => .error .malformedSection
  | _ => .ok value

theorem default_back (base : NamedTypeBase) (value : ScalarValue) :
    ReadsBack (writeDefault base value) (readDefault base) (wireDefault base value) := by
  cases base with
  | int | float | rune | decimal =>
    cases value with
    | float bits => exact (f64_back bits).map _
    | string | boolean => exact .stopped
  | string =>
    cases value with
    | string bytes => exact (str_back bytes).map _
    | float | boolean => exact .stopped
  | bool =>
    cases value with
    | boolean flag => exact (bool8_back flag).map _
    | float | string => exact .stopped
  | arrayT | mapT | enumT => exact .stopped

/-- A named type as it comes back, its predicate still an index. -/
def wireNamedType (type : NamedType FuncRef) (predicateFuncIdx : Option ℕ) :
    Except ReadError RawTypeEntry := do
  let elemSpec ← type.elemSpec.mapM wireTypeSpec
  let keySpec ← type.keySpec.mapM wireTypeSpec
  let valSpec ← type.valSpec.mapM wireTypeSpec
  let defaultVal ← type.defaultVal.mapM (wireDefault type.base)
  return .namedT { type with
      parentName := parentOfName (type.parentName.getD []), elemSpec, keySpec, valSpec,
      predicate := none, predicateMsg := predicateFuncIdx.bind fun _ => type.predicateMsg,
      defaultVal }
    predicateFuncIdx

theorem namedType_back (type : NamedType FuncRef) (predicateFuncIdx : Option ℕ) :
    ReadsBack (writeNamedType type predicateFuncIdx) (readNamedType type.name type.qualifiedName)
      (wireNamedType type predicateFuncIdx) := by
  refine (u8_back _).andThen ?_
  simp only [baseOfByte?_baseToByte]
  refine (bool8_back _).andThen ((bool8_back _).andThen ((bool8_back _).andThen ?_))
  refine (f64_back _).andThen ((f64_back _).andThen ((str_back _).andThen ?_))
  refine (ReadsBack.option _ _ typeSpec_back _).bind fun elemSpec _ => ?_
  refine (ReadsBack.option _ _ typeSpec_back _).bind fun keySpec _ => ?_
  refine (ReadsBack.option _ _ typeSpec_back _).bind fun valSpec _ => ?_
  refine (bool8_back _).andThen ((u8_back _).andThen ?_)
  refine (ReadsBack.option_ok _ _ (f := fun index => (index, type.predicateMsg))
    (fun index => (u32_back index).andThen ((optionStr_back _).finish rfl))
    predicateFuncIdx).andThen ?_
  cases predicateFuncIdx with
  | none | some =>
    exact (ReadsBack.option _ _ (default_back type.base) type.defaultVal).bind_pure _

/-- An enumeration comes back unless its parent's name is the empty string. -/
def wireEnumType (type : EnumType) : EnumType :=
  { type with parentName := parentOfName (type.parentName.getD []) }

theorem times_i64_back {ints : List Int64} {count : ℕ} (length : ints.length = count) :
    ReadsBack (.all i64 ints) (Reader.times count readI64) (.ok ints) := by
  subst length
  exact .all_ok i64_back ints

theorem enumType_back (type : EnumType) :
    ReadsBack (.counted .panic 2 str type.members ++ (.option (.all i64) type.memberInts ++
        str (type.parentName.getD [])))
      (readEnumType type.name type.qualifiedName) (.ok (.enumT (wireEnumType type))) := by
  refine (ReadsBack.counted_ok _ _ 2 str_back type.members).andThen ?_
  have ints : ReadsBack (.option (.all i64) type.memberInts)
      (readOption (Reader.times type.members.length readI64)) (.ok type.memberInts) := by
    cases same : type.memberInts with
    | none => exact (bool8_back false).andThen (.value (.ok none))
    | some ints =>
      exact (bool8_back true).andThen
        ((times_i64_back (type.length_memberInts ints same)).finish rfl)
  exact ints.andThen ((str_back _).finish (dif_pos type.length_memberInts))

/-- A type table entry as it comes back. -/
def wireTypeEntry : TypeEntryInfo → Except ReadError RawTypeEntry
  | .structT type => do return .structT { type with fields := ← type.fields.mapM wireField }
  | .variantT type => do
    let sharedFields ← type.sharedFields.mapM wireField
    let arms ← type.arms.mapM wireVariantArm
    return .variantT { type with sharedFields, arms }
  | .namedT type predicateFuncIdx => wireNamedType type predicateFuncIdx
  | .interfaceT type => do
    return .interfaceT { type with methods := ← type.methods.mapM wireInterfaceMethod }
  | .enumT type => .ok (.enumT (wireEnumType type))
  | .taskT type behaviorFuncIdx => .ok (.taskT type.name type.qualifiedName behaviorFuncIdx)

theorem typeEntry_back (entry : TypeEntryInfo) :
    ReadsBack (writeTypeEntry entry) readTypeEntry (wireTypeEntry entry) := by
  cases entry with
  | structT type =>
    exact (u8_back _).andThen ((str_back _).andThen ((str_back _).andThen
      ((fieldList_back type.fields).bind_pure _)))
  | variantT type =>
    exact (u8_back _).andThen ((str_back _).andThen ((str_back _).andThen
      ((fieldList_back type.sharedFields).bind fun _ _ =>
        (ReadsBack.counted _ _ 2 fun arm _ => variantArm_back arm).bind_pure _)))
  | namedT type predicateFuncIdx =>
    exact (u8_back _).andThen ((str_back _).andThen ((str_back _).andThen
      (namedType_back type predicateFuncIdx)))
  | interfaceT type =>
    exact (u8_back _).andThen ((str_back _).andThen ((str_back _).andThen
      ((ReadsBack.counted _ _ 2 fun method _ => interfaceMethod_back method).bind_pure _)))
  | enumT type =>
    exact (u8_back _).andThen ((str_back _).andThen ((str_back _).andThen (enumType_back type)))
  | taskT type behaviorFuncIdx =>
    exact (u8_back _).andThen ((str_back _).andThen ((str_back _).andThen
      ((u32_back behaviorFuncIdx).finish rfl)))

/-- A table as it comes back: one with more than 65536 entries is refused. -/
def wireTable {α β : Type} (tooMany : ReadError) (wire : α → Except ReadError β)
    (entries : List α) : Except ReadError (List β) :=
  if decide (entries.length ≤ 65536) then entries.mapM wire else .error tooMany

theorem table_back {α β : Type} {write : α → Writer WriteError} {read : Reader ReadError β}
    {wire : α → Except ReadError β} (tooMany : ReadError)
    (each : ∀ entry, ReadsBack (write entry) read (wire entry)) (entries : List α) :
    ReadsBack (.counted .panic 4 write entries) (readTable tooMany read)
      (wireTable tooMany wire entries) :=
  (u32_back entries.length).andThen (.ensure fun _ => .all fun entry _ => each entry)

theorem typesSection_back (types : List TypeEntryInfo) :
    ReadsBack (writeTypesSection types) readTypesSection
      (wireTable .tooManyTypes wireTypeEntry types) :=
  table_back _ typeEntry_back types

/-- The name index of a function table entry. -/
def nameIndex (consts : List (Constant FuncRef)) (entry : FuncEntryInfo) : ℕ :=
  (entry.nameConstIdx.or (findStringConstIdx consts entry.name)).getD noName

/-- A function table entry as it comes back: its signature, without a name. -/
def wireFunction (consts : List (Constant FuncRef)) (entry : FuncEntryInfo) :
    Except ReadError RawFuncEntry := do
  let variadicType ← wireVariadicType entry.f.isVariadic entry.f.variadicType
  if validArityShape entry.f.arity entry.f.isVariadic entry.f.hasTypedParams
      entry.f.paramTypes.length then do
    let paramTypes ← entry.f.paramTypes.mapM wireTypeSpec
    let returnTypes ← entry.f.returnTypes.mapM wireTypeSpec
    return {
      nameConstantIdx := nameIndex consts entry
      length := entry.length
      f := { ip := entry.ip
             arity := entry.f.arity
             isVariadic := entry.f.isVariadic
             variadicType
             captureSlots := entry.f.captureSlots
             paramTypes
             hasTypedParams := entry.f.hasTypedParams
             returnTypes
             hasTypedReturns := entry.f.hasTypedReturns
             namedReturnCount := entry.f.namedReturnCount } }
  else .error .malformedSection

theorem function_back (consts : List (Constant FuncRef)) (entry : FuncEntryInfo) :
    ReadsBack (writeFunction consts entry) readFunction (wireFunction consts entry) := by
  refine (u32_back _).andThen ((u32_back _).andThen ((u32_back _).andThen ?_))
  refine (u16_back 0).andThen ((u8_back _).andThen ((bool8_back _).andThen ?_))
  refine (variadicType_back _ _).bind fun variadicType _ => ?_
  refine (bool8_back _).andThen ((bool8_back _).andThen ?_)
  by_cases tooMany : 64 < entry.f.namedReturnCount
  · rw [if_pos tooMany]
    exact .stopped
  · rw [if_neg tooMany]
    refine (u8_back _).andThen (.ensured (by simpa using tooMany) ?_)
    exact .assoc ((u16_back _).andThen (.ensure fun _ =>
      (ReadsBack.all fun spec _ => typeSpec_back spec).bind fun _ _ =>
        (ReadsBack.counted _ _ 2 fun spec _ => typeSpec_back spec).bind fun _ _ =>
          (ReadsBack.counted_ok _ _ 1 u8_back _).finish rfl))

def wireFunctionsSection (consts : List (Constant FuncRef)) (funcs : List FuncEntryInfo) :
    Except ReadError (List RawFuncEntry) :=
  wireTable .tooManyFunctions (wireFunction consts) funcs

theorem functionsSection_back (consts : List (Constant FuncRef)) (funcs : List FuncEntryInfo) :
    ReadsBack (writeFunctionsSection consts funcs) readFunctionsSection
      (wireFunctionsSection consts funcs) :=
  table_back _ (function_back consts) funcs

end Gengo.Gbc
