import Gengo.Bytecode.Slices
import Gengo.Gbc.Format

/-!
# The artifact reader

`read` loads an artifact into a chunk of its own; `readIntoSession` appends one to
a chunk under construction and moves the constant references of the appended
code. Both are one function, `loadSections`.
-/

namespace Gengo.Gbc

open Bytecode Fallible Wire

def readU8 : Reader ReadError UInt8 :=
  .byte .truncatedBody

def readU16 : Reader ReadError ℕ :=
  .le .truncatedBody 2

def readU32 : Reader ReadError ℕ :=
  .le .truncatedBody 4

def readU64 : Reader ReadError ℕ :=
  .le .truncatedBody 8

def readI64 : Reader ReadError Int64 :=
  (fun value => (UInt64.ofNat value).toInt64) <$> readU64

def readF64 : Reader ReadError UInt64 :=
  UInt64.ofNat <$> readU64

def readBool8 : Reader ReadError Bool :=
  .bool .truncatedBody .malformedSection

def readStr : Reader ReadError Bytes :=
  .str .truncatedBody

def readHash32 : Reader ReadError Bytes :=
  .take .truncatedBody 32

/-- A value behind a presence flag. -/
def readOption {α : Type} (read : Reader ReadError α) : Reader ReadError (Option α) :=
  .option .truncatedBody .malformedSection read

/-- A list behind a count of `width` bytes. -/
def readCounted {α : Type} (width : ℕ) (read : Reader ReadError α) : Reader ReadError (List α) :=
  .counted .truncatedBody width read

/-- What a function that is not variadic carries as its variadic type. -/
def anyTypeSpec : FieldTypeSpec :=
  [.any]

def readTypeAlt (readSpec : Reader ReadError FieldTypeSpec) : Reader ReadError FieldTypeAlt := do
  let tag ← readU8
  match FieldTypeTag.ofByte? tag with
  | some .any => return .any
  | some .nullT => return .nullT
  | some .int => return .int
  | some .float => return .float
  | some .decimalT => return .decimalT
  | some .runeT => return .runeT
  | some .boolean => return .boolean
  | some .string => return .string
  | some .errorT => return .errorT
  | some .actorRefT => return .actorRefT
  | some .array => return .array (← readOption readSpec)
  | some .map => do
    let keySpec ← readOption readSpec
    let valSpec ← readOption readSpec
    return .map keySpec valSpec
  | some .structT => return .structT (← readStr) []
  | some .interfaceT => return .interfaceT (← readStr)
  | some .namedT => return .namedT (← readStr)
  | some .variantT => return .variantT (← readStr) []
  | some .funcT => do
    let params ← readCounted 2 readSpec
    let returns ← readCounted 2 readSpec
    return .funcT (some params) (some returns)
  | none => throw .badFieldTypeTag

/-- A type spec with `room` levels left before `MaxTypeSpecDepth`. -/
def readTypeSpecDepth : ℕ → Reader ReadError FieldTypeSpec
  | 0 => throw .malformedSection
  | room + 1 => do
    let altCount ← Reader.le .truncatedBody 1
    Reader.ensure (altCount != 0) .malformedSection
    Reader.times altCount (readTypeAlt (readTypeSpecDepth room))

def readTypeSpec : Reader ReadError FieldTypeSpec :=
  readTypeSpecDepth MaxTypeSpecDepth

/-- A typed function has one parameter type for each parameter that is not variadic. -/
def validArityShape (arity : UInt8) (isVariadic hasTypedParams : Bool) (paramTypeCount : ℕ) :
    Bool :=
  !(isVariadic && arity == 0) &&
    (!hasTypedParams || paramTypeCount == if isVariadic then arity.toNat - 1 else arity.toNat)

def readField : Reader ReadError StructFieldSpec := do
  let name ← readStr
  let typ ← readTypeSpec
  let isConst ← readBool8
  return { name, typ, isConst }

def readFieldList : Reader ReadError (List StructFieldSpec) :=
  readCounted 2 readField

def readVariantArm : Reader ReadError VariantArmSpec := do
  let name ← readStr
  let shape ← readU8
  match ArmShape.ofByte? shape with
  | some .none =>
    return { name, hasPayload := false, payloadName := [], payloadType := none, fields := [] }
  | some .singlePayload => do
    let payloadName ← readStr
    let payloadType ← readTypeSpec
    return { name, hasPayload := true, payloadName, payloadType := some payloadType,
             fields := [] }
  | some .record => do
    let fields ← readFieldList
    return { name, hasPayload := !fields.isEmpty, payloadName := [], payloadType := none, fields }
  | none => throw .malformedSection

/-- The type of the variadic parameter, if the function has one. -/
def readVariadicType (isVariadic : Bool) : Reader ReadError FieldTypeSpec :=
  if isVariadic then readTypeSpec else pure anyTypeSpec

def readInterfaceMethod : Reader ReadError InterfaceMethodSpec := do
  let name ← readStr
  let arity ← readU8
  let isVariadic ← readBool8
  let variadicType ← readVariadicType isVariadic
  let hasTypedParams ← readBool8
  let hasTypedReturns ← readBool8
  let paramTypeCount ← readU16
  Reader.ensure (validArityShape arity isVariadic hasTypedParams paramTypeCount) .malformedSection
  let paramTypes ← Reader.times paramTypeCount readTypeSpec
  let returnTypes ← readCounted 2 readTypeSpec
  return { name, arity, isVariadic, variadicType, paramTypes, returnTypes, hasTypedParams,
           hasTypedReturns }

def readDefault : NamedTypeBase → Reader ReadError ScalarValue
  | .int | .float | .rune | .decimal => ScalarValue.float <$> readF64
  | .string => ScalarValue.string <$> readStr
  | .bool => ScalarValue.boolean <$> readBool8
  | .arrayT | .mapT | .enumT => throw .malformedSection

/-- The empty string stands for no parent. -/
def parentOfName (name : Bytes) : Option Bytes :=
  if name = [] then none else some name

/-- A type table entry. A predicate and a task behavior are still indices into the
function table; the type itself has none yet. -/
inductive RawTypeEntry where
  | structT (type : StructType)
  | variantT (type : VariantType)
  | namedT (type : NamedType FuncRef) (predicateFuncIdx : Option ℕ)
  | interfaceT (type : InterfaceType)
  | enumT (type : EnumType)
  | taskT (name qualifiedName : Bytes) (behaviorFuncIdx : ℕ)

def readNamedType (name qualifiedName : Bytes) : Reader ReadError RawTypeEntry := do
  let baseByte ← readU8
  match baseOfByte? baseByte with
  | none => throw .malformedSection
  | some base => do
    let hasRange ← readBool8
    let isCycle ← readBool8
    let isClamp ← readBool8
    let min ← readF64
    let max ← readF64
    let parentName ← readStr
    let elemSpec ← readOption readTypeSpec
    let keySpec ← readOption readTypeSpec
    let valSpec ← readOption readTypeSpec
    let isAnonymous ← readBool8
    let scale ← readU8
    let predicate ← readOption do
      let index ← readU32
      let message ← readOption readStr
      return (index, message)
    let defaultVal ← readOption (readDefault base)
    return .namedT
      { name, qualifiedName, base, isAnonymous, hasRange, isCycle, isClamp, scale, min, max,
        parentName := parentOfName parentName, elemSpec, keySpec, valSpec, predicate := none,
        predicateMsg := predicate.bind (·.2), defaultVal }
      (predicate.map (·.1))

def readEnumType (name qualifiedName : Bytes) : Reader ReadError RawTypeEntry := do
  let members ← readCounted 2 readStr
  let memberInts ← readOption (Reader.times members.length readI64)
  let parentName ← readStr
  if length_memberInts : ∀ ints, memberInts = some ints → ints.length = members.length then
    return .enumT { name, qualifiedName, members, memberInts,
                    parentName := parentOfName parentName, length_memberInts }
  -- as many integers were read as there are members
  else throw .panic

def readTypeEntry : Reader ReadError RawTypeEntry := do
  let kind ← readU8
  let name ← readStr
  let qualifiedName ← readStr
  match TypeKind.ofByte? kind with
  | some .struct => return .structT { name, qualifiedName, fields := ← readFieldList }
  | some .variant => do
    let sharedFields ← readFieldList
    let arms ← readCounted 2 readVariantArm
    return .variantT { name, qualifiedName, sharedFields, arms }
  | some .named => readNamedType name qualifiedName
  | some .interface => do
    let methods ← readCounted 2 readInterfaceMethod
    return .interfaceT { name, qualifiedName, methods }
  | some .enum => readEnumType name qualifiedName
  | some .task => return .taskT name qualifiedName (← readU32)
  | none => throw .malformedSection

/-- A table of at most 65536 entries. -/
def readTable {α : Type} (tooMany : ReadError) (read : Reader ReadError α) :
    Reader ReadError (List α) := do
  let count ← readU32
  Reader.ensure (count ≤ 65536) tooMany
  Reader.times count read

def readTypesSection : Reader ReadError (List RawTypeEntry) :=
  readTable .tooManyTypes readTypeEntry

/-- A function table entry. Its name is still an index into the constant pool, and
the function object has no name yet. -/
structure RawFuncEntry where
  nameConstantIdx : ℕ
  length : ℕ
  f : FuncObj

def readFunction : Reader ReadError RawFuncEntry := do
  let nameConstantIdx ← readU32
  let ip ← readU32
  let length ← readU32
  let _ ← readU16
  let arity ← readU8
  let isVariadic ← readBool8
  let variadicType ← readVariadicType isVariadic
  let hasTypedParams ← readBool8
  let hasTypedReturns ← readBool8
  let namedReturnCount ← readU8
  Reader.ensure (namedReturnCount ≤ 64) .malformedSection
  let paramTypeCount ← readU16
  Reader.ensure (validArityShape arity isVariadic hasTypedParams paramTypeCount) .malformedSection
  let paramTypes ← Reader.times paramTypeCount readTypeSpec
  let returnTypes ← readCounted 2 readTypeSpec
  let captureSlots ← readCounted 1 readU8
  return { nameConstantIdx, length,
           f := { ip, arity, isVariadic, variadicType, captureSlots, paramTypes,
                  hasTypedParams, returnTypes, hasTypedReturns, namedReturnCount } }

def readFunctionsSection : Reader ReadError (List RawFuncEntry) :=
  readTable .tooManyFunctions readFunction

structure RawExportEntry where
  name : Bytes
  qualifiedName : Bytes
  typeKind : UInt8
  constValue : Option CompileTimeConst

structure RawExportsSection where
  moduleId : Bytes
  exports : List RawExportEntry

def readOptConstValue : Reader ReadError (Option CompileTimeConst) := do
  let tag ← readU8
  match ConstValueTag.ofByte? tag with
  | some .none => return none
  | some .number => return some (.number (← readF64))
  | some .string => return some (.string (← readStr))
  | some .boolean => return some (.boolean (← readBool8))
  | none => throw .malformedSection

def readExport : Reader ReadError RawExportEntry := do
  let name ← readStr
  let qualifiedName ← readStr
  let typeKind ← readU8
  Reader.ensure (typeKind ≤ ExportTypeKind.variantT.toByte) .malformedSection
  let constValue ← readOptConstValue
  return { name, qualifiedName, typeKind, constValue }

def readExportsSection : Reader ReadError RawExportsSection := do
  let moduleId ← readStr
  let count ← readU32
  Reader.ensure (count ≤ MaxModuleExports) .tooManyExports
  let exports ← Reader.times count readExport
  return { moduleId, exports }

structure Header where
  headerSize : ℕ
  flags : ℕ
  targetId : ℕ
  backendId : ℕ
  sourceHash : Bytes
  vmFingerprint : Bytes
  moduleProviderHash : Bytes
  optionsHash : Bytes
  bodyLength : ℕ
  bodyChecksum : ℕ

def readHeader : Reader ReadError Header := do
  let foundMagic ← Reader.take .truncatedBody 8
  Reader.ensure (foundMagic == magic) .invalidMagic
  let size ← readU16
  Reader.ensure (headerSize ≤ size) .headerTooSmall
  let version ← readU16
  Reader.ensure (version == headerVersion) .unsupportedHeaderVersion
  let major ← readU16
  Reader.ensure (major == formatMajor) .formatMajorMismatch
  let _ ← readU16
  let _ ← readU16
  let _ ← readU16
  let flags ← readU32
  let targetId ← readU32
  let backendId ← readU32
  let _ ← readU16
  -- sliced out of the input without a length check
  let reserved ← Reader.take .panic 6
  Reader.ensure (reserved.all (· == 0)) .nonZeroReserved
  let _ ← readU64
  let sourceHash ← readHash32
  let vmFingerprint ← readHash32
  let moduleProviderHash ← readHash32
  let optionsHash ← readHash32
  let bodyLength ← readU64
  let bodyChecksum ← readU64
  return { headerSize := size, flags, targetId, backendId, sourceHash, vmFingerprint,
           moduleProviderHash, optionsHash, bodyLength, bodyChecksum }

structure SectionEntry where
  id : ℕ
  offset : ℕ
  length : ℕ
  deriving DecidableEq

def readSectionEntry (bodyLength : ℕ) : Reader ReadError SectionEntry := do
  let id ← readU32
  let _ ← readU32
  let offset ← readU64
  let length ← readU64
  Reader.ensure (offset ≤ bodyLength) .sectionOutOfBounds
  Reader.ensure (length ≤ bodyLength - offset) .sectionOutOfBounds
  return { id, offset, length }

def readSectionTable (bodyLength : ℕ) : Reader ReadError (List SectionEntry) := do
  let count ← readU32
  Reader.ensure (count ≤ 64) .malformedSectionTable
  Reader.times count (readSectionEntry bodyLength)

structure ParsedHeader where
  body : List UInt8
  sections : List SectionEntry

/-- The hashes in the header agree with the header fields they summarize, and with the
source when the caller has it. -/
def checkHashes (header : Header) (expectedRootSource : Option Bytes) :
    Except ReadError Unit := do
  if header.optionsHash ≠ optionsHash header.targetId header.backendId header.flags then
    throw .optionsMismatch
  if header.vmFingerprint ≠ placeholderVmFingerprint then throw .vmFingerprintMismatch
  if header.moduleProviderHash ≠ placeholderVmFingerprint then throw .vmFingerprintMismatch
  match expectedRootSource with
  | none => return ()
  | some source =>
    match sourceGraphHash source with
    | none => throw .panic
    | some hash => if header.sourceHash ≠ hash then throw .sourceGraphStale

/-- The body behind the header, once its length and its checksum are checked. -/
def openBody (bytes : Bytes) (header : Header) : Except ReadError (List UInt8) :=
  let headerEnd := 8 + header.headerSize
  let body := (bytes.drop headerEnd).take header.bodyLength
  if bytes.length < headerEnd then .error .truncatedHeader
  else if bytes.length - headerEnd < header.bodyLength then .error .truncatedBody
  else if (xxHash64 0 body).toNat ≠ header.bodyChecksum then .error .bodyChecksumMismatch
  else .ok body

def parseHeaderAndSections (bytes : Bytes) (expectedRootSource : Option Bytes) :
    Except ReadError ParsedHeader := do
  let (header, _) ← readHeader bytes
  checkHashes header expectedRootSource
  let body ← openBody bytes header
  let (sections, _) ← readSectionTable body.length body
  return { body, sections }

def findSection (sections : List SectionEntry) (id : ℕ) : Option SectionEntry :=
  sections.find? (·.id == id)

/-- The bytes of a section. -/
def ParsedHeader.slice (parsed : ParsedHeader) (sec : SectionEntry) : List UInt8 :=
  (parsed.body.drop sec.offset).take sec.length

def ParsedHeader.section? (parsed : ParsedHeader) (id : ℕ) : Option (List UInt8) :=
  (findSection parsed.sections id).map parsed.slice

/-- One section of an artifact, after the checks on its header. -/
def findSectionBytes (bytes : Bytes) (sectionId : ℕ) (expectedRootSource : Option Bytes) :
    Except ReadError (Option (List UInt8)) := do
  let parsed ← parseHeaderAndSections bytes expectedRootSource
  return parsed.section? sectionId

/-- Where the function object of a function table entry was put: the constant itself,
the predicate of a named type, or the behavior of a task type. -/
inductive FuncNamePatchTarget where
  | directConst (index : ℕ)
  | predicateConst (index : ℕ)
  | taskBehaviorConst (index : ℕ)

/-- The chunk while its constants are loaded, with the patch target of each function
table entry. -/
structure Loading where
  state : State
  funcPatch : List (Option FuncNamePatchTarget)

/-- `internStr`: only a string of at most 32 bytes is looked for in the table. -/
def State.internStr (state : State) (s : Bytes) : Except ReadError State :=
  if s.length ≤ 32 ∧ s ∈ state.strSlices then .ok state
  else if MaxStrSlices ≤ state.strSlices.length then .error .tooManyConstants
  else .ok { state with strSlices := state.strSlices ++ [s] }

def State.internAll (state : State) : List Bytes → Except ReadError State
  | [] => .ok state
  | s :: rest => do
    let state ← State.internStr state s
    State.internAll state rest

/-- The strings that `readTypesSection` interns for an entry: the keys of struct fields, and a
default value. -/
def RawTypeEntry.strings : RawTypeEntry → List Bytes
  | .structT type => type.fields.map (·.name)
  | .variantT type =>
    type.sharedFields.map (·.name) ++ type.arms.flatMap fun arm => arm.fields.map (·.name)
  | .namedT type _ =>
    match type.defaultVal with
    | some (.string bytes) => [bytes]
    | _ => []
  | _ => []

/-- The strings that are interned for a constant itself. -/
def constStrings : Constant FuncRef → List Bytes
  | .string bytes => [bytes]
  | _ => []

def State.addConst (state : State) (const : Constant FuncRef) : Except ReadError (State × ℕ) :=
  if room : state.consts.length < MaxConst then
    .ok ({ state with
            consts := state.consts ++ [const]
            constCount_le := by
              rw [List.length_append]
              exact room }, state.consts.length)
  else .error .tooManyConstants

/-- Allocate the function object of a function table entry; its entry moves along with
the code. -/
def buildFuncObjFromRaw (state : State) (raw : RawFuncEntry) (codeBase : ℕ) : State × FuncRef :=
  ({ state with funcs := state.funcs ++ [{ raw.f with ip := codeBase + raw.f.ip }] },
    state.funcs.length)

def Loading.addConst (load : Loading) (const : Constant FuncRef) : Except ReadError Loading := do
  let state ← State.internAll load.state (constStrings const)
  let (state, _) ← State.addConst state const
  return { load with state }

/-- Add a constant that holds a new function object, and note where it is. -/
def Loading.addFuncConst (load : Loading) (rawFuncs : List RawFuncEntry) (codeBase fidx : ℕ)
    (target : ℕ → FuncNamePatchTarget) (const : FuncRef → Constant FuncRef) :
    Except ReadError Loading :=
  match rawFuncs[fidx]? with
  | none => .error .funcRefOutOfRange
  | some raw => do
    let (state, func) := buildFuncObjFromRaw load.state raw codeBase
    let (state, stored) ← State.addConst state (const func)
    return { state, funcPatch := load.funcPatch.set fidx (some (target stored)) }

def Loading.addTypeRef (load : Loading) (rawFuncs : List RawFuncEntry) (codeBase : ℕ) :
    RawTypeEntry → Except ReadError Loading
  | .structT type => load.addConst (.structType type)
  | .variantT type => load.addConst (.variantType type)
  | .interfaceT type => load.addConst (.interfaceType type)
  | .enumT type => load.addConst (.enumType type)
  | .namedT type none => load.addConst (.namedType { type with predicate := none })
  | .namedT type (some fidx) =>
    load.addFuncConst rawFuncs codeBase fidx .predicateConst fun func =>
      .namedType { type with predicate := some (.closure func 0) }
  | .taskT name qualifiedName fidx =>
    load.addFuncConst rawFuncs codeBase fidx .taskBehaviorConst fun func =>
      .taskType { name, qualifiedName, behavior := func }

/-- Read one constant and add it to the pool. -/
def readConst (rawFuncs : List RawFuncEntry) (rawTypes : List RawTypeEntry) (codeBase : ℕ)
    (load : Loading) : Reader ReadError Loading := do
  let tag ← readU8
  match ConstTag.ofByte? tag with
  | some .number => do
    let bits ← readF64
    liftM (load.addConst (.float bits))
  | some .int => do
    let value ← readI64
    liftM (load.addConst (.int value))
  | some .string => do
    let bytes ← readStr
    liftM (load.addConst (.string bytes))
  | some .null => liftM (load.addConst .null)
  | some .bool => do
    let flag ← readBool8
    liftM (load.addConst (.boolean flag))
  | some .rune => do
    let codepoint ← readU32
    if inRange : codepoint ≤ 0x10FFFF then
      liftM (load.addConst (.rune ⟨codepoint, by omega⟩))
    else throw .malformedSection
  | some .funcRef => do
    let fidx ← readU32
    liftM (load.addFuncConst rawFuncs codeBase fidx .directConst .function)
  | some .typeRef => do
    let tidx ← readU32
    match rawTypes[tidx]? with
    | none => throw .typeRefOutOfRange
    | some type => liftM (load.addTypeRef rawFuncs codeBase type)
  | none => throw .badConstantTag

def readConsts (rawFuncs : List RawFuncEntry) (rawTypes : List RawTypeEntry) (codeBase : ℕ) :
    ℕ → Loading → Reader ReadError Loading
  | 0, load => pure load
  | count + 1, load => do
    let load ← readConst rawFuncs rawTypes codeBase load
    readConsts rawFuncs rawTypes codeBase count load

def readConstantsSection (rawFuncs : List RawFuncEntry) (rawTypes : List RawTypeEntry)
    (codeBase : ℕ) (load : Loading) : Reader ReadError (Loading × ℕ) := do
  let count ← readU32
  Reader.ensure (count ≤ MaxConst) .tooManyConstants
  let load ← readConsts rawFuncs rawTypes codeBase count load
  return (load, count)

/-- The function object a patch target leads to, through the constant pool. -/
def FuncNamePatchTarget.resolve (consts : List (Constant FuncRef)) :
    FuncNamePatchTarget → Option FuncRef
  | .directConst index =>
    match consts[index]? with
    | some (.function func) => some func
    | _ => none
  | .predicateConst index =>
    match consts[index]? with
    | some (.namedType type) =>
      match type.predicate with
      | some (.closure func _) => some func
      | _ => none
    | _ => none
  | .taskBehaviorConst index =>
    match consts[index]? with
    | some (.taskType type) => some type.behavior
    | _ => none

/-- Name the function object of one function table entry, now that every constant
exists. -/
def patchName (constBase constCount : ℕ) (state : State)
    (entry : RawFuncEntry × Option FuncNamePatchTarget) : State :=
  match entry.2 with
  | none => state
  | some target =>
    let nameIdx := entry.1.nameConstantIdx
    if nameIdx = noName ∨ constCount ≤ nameIdx then state
    else
      match state.consts[constBase + nameIdx]? with
      | some (.string bytes) =>
        match target.resolve state.consts with
        | some func =>
          { state with funcs := state.funcs.modify func fun f => { f with name := bytes } }
        | none => state
      | _ => state

def patchNames (constBase constCount : ℕ) (rawFuncs : List RawFuncEntry) (load : Loading) :
    State :=
  (rawFuncs.zip load.funcPatch).foldl (patchName constBase constCount) load.state

/-- Move the constant index at this position, if there is one. -/
def moveConstIndex (constBase : ℕ) (constIndexPos : Option ℕ) (code : List UInt8) :
    Except ReadError (List UInt8) :=
  match constIndexPos with
  | none => .ok code
  | some cip =>
    let newIdx := u16Of (code.getD cip 0) (code.getD (cip + 1) 0) + constBase
    if 0xFFFF < newIdx then .error .tooManyConstants
    else .ok ((code.set cip (UInt8.ofNat (newIdx / 256))).set (cip + 1) (UInt8.ofNat newIdx))

/-- Move the surfaced constant index of every instruction from `pos` on. -/
def remapConstIndices (constBase : ℕ) : ℕ → ℕ → List UInt8 → Except ReadError (List UInt8)
  | 0, _, code => .ok code
  | fuel + 1, pos, code =>
    if pos < code.length then
      match decodeAt code pos with
      | .error _ => .error .malformedSection
      | .ok decoded =>
        match moveConstIndex constBase decoded.constIndexPos code with
        | .error error => .error error
        | .ok code => remapConstIndices constBase fuel (pos + decoded.width) code
    else .ok code

theorem length_moveConstIndex {constBase : ℕ} {constIndexPos : Option ℕ}
    {code out : List UInt8} (done : moveConstIndex constBase constIndexPos code = .ok out) :
    out.length = code.length := by
  cases constIndexPos with
  | none => exact congrArg List.length (Except.ok.inj done).symm
  | some cip =>
    simp only [moveConstIndex] at done
    split at done
    case isTrue => cases done
    case isFalse =>
      obtain rfl := Except.ok.inj done
      simp

theorem length_remapConstIndices {constBase fuel pos : ℕ} {code out : List UInt8}
    (done : remapConstIndices constBase fuel pos code = .ok out) : out.length = code.length := by
  induction fuel generalizing pos code with
  | zero => exact congrArg List.length (Except.ok.inj done).symm
  | succ fuel ih =>
    rw [remapConstIndices] at done
    split at done
    case isFalse => exact congrArg List.length (Except.ok.inj done).symm
    case isTrue =>
      split at done
      case h_1 => cases done
      case h_2 decoded _ =>
        split at done
        case h_1 => cases done
        case h_2 moved isMoved =>
          exact (ih done).trans (length_moveConstIndex isMoved)

def spliceConstIndices (constBase codeBase : ℕ) (state : State) : Except ReadError State :=
  match remapped : remapConstIndices constBase state.codeLen codeBase state.code with
  | .error error => .error error
  | .ok code =>
    .ok { state with
      code
      codeLen_le := (length_remapConstIndices remapped).symm ▸ state.codeLen_le }

/-- Copy code into the chunk's buffer at `codeBase`, which ends the code there. -/
def installCode (state : State) (codeBase : ℕ) (bytes : List UInt8) : Except ReadError State :=
  if fits : codeBase + bytes.length ≤ MaxCode then
    .ok { state with
      code := state.code.take codeBase ++ bytes
      slack := (state.code ++ state.slack).drop (codeBase + bytes.length)
      codeLen_le := by
        rw [List.length_append, List.length_take]
        omega }
  else .error .codeTooLarge

/-- Take over the position of the embedded standard library. -/
def installStdScript (state : State) (info : Option (List UInt8)) : Except ReadError State :=
  match info with
  | none =>
    .ok { state with stdScriptConstBase := 0, stdScriptConstCount := 0, stdScriptCodeEnd := 0 }
  | some bytes => do
    let ((constBase, constCount, codeEnd), _) ← StateT.run (do
      let constBase ← readU16
      let constCount ← readU16
      let codeEnd ← readU32
      return (constBase, constCount, codeEnd)) bytes
    return { state with
      stdScriptConstBase := UInt16.ofNat constBase
      stdScriptConstCount := UInt16.ofNat constCount
      stdScriptCodeEnd := codeEnd }

/-- Load an artifact. `splice` appends to what the chunk holds; otherwise the code is
overwritten from its start. -/
def loadSections (bytes : Bytes) (state : State) (expectedRootSource : Option Bytes)
    (splice : Bool) : Except ReadError (State × Option RawExportsSection) := do
  let parsed ← parseHeaderAndSections bytes expectedRootSource
  let required (id : ℕ) : Except ReadError (List UInt8) :=
    match parsed.section? id with
    | none => .error .missingRequiredSection
    | some data => .ok data
  let codeBytes ← required secBytecode
  let constantsBytes ← required secConstants
  let functionsBytes ← required secFunctions
  let typesBytes ← required secTypes
  let codeBase := if splice then state.codeLen else 0
  let state ← installCode state codeBase codeBytes
  let state ← if splice then pure state
    else installStdScript state (parsed.section? secStdScriptInfo)
  let constBase := state.consts.length
  let (rawFuncs, _) ← readFunctionsSection.run functionsBytes
  let (rawTypes, _) ← readTypesSection.run typesBytes
  -- The strings are interned one by one while the section is read; together here, which only
  -- tells in the error of a section that is refused anyway.
  let state ← State.internAll state (rawTypes.flatMap (·.strings))
  let ((load, constCount), _) ← (readConstantsSection rawFuncs rawTypes codeBase
    { state, funcPatch := List.replicate rawFuncs.length none }).run constantsBytes
  let state := patchNames constBase constCount rawFuncs load
  if splice then
    let state ← spliceConstIndices constBase codeBase state
    let exportsBytes ← required secExports
    let (exports, _) ← readExportsSection.run exportsBytes
    return (state, some exports)
  else return (state, none)

/-- Load an artifact into a chunk of its own. -/
def read (bytes : Bytes) (state : State) (expectedRootSource : Option Bytes) :
    Except ReadError State :=
  (loadSections bytes state expectedRootSource false).map (·.1)

/-- Append an artifact to a chunk under construction. -/
def readIntoSession (bytes : Bytes) (state : State) (expectedRootSource : Option Bytes) :
    Except ReadError (State × Option RawExportsSection) :=
  loadSections bytes state expectedRootSource true

end Gengo.Gbc
