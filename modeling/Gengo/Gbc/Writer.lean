import Gengo.Gbc.Format

/-!
# The artifact writer

`write` defuses the chunk, serializes its constants together with the function
and type tables they refer to, and assembles header, section table and sections.
-/

namespace Gengo.Gbc

open Bytecode Fallible Wire

def u8 (value : UInt8) : Writer WriteError :=
  .raw [value]

/-- A value cast to `u16`. -/
def u16 (value : ℕ) : Writer WriteError :=
  .le .panic 2 value

/-- A value cast to `u32`. -/
def u32 (value : ℕ) : Writer WriteError :=
  .le .panic 4 value

def u64 (value : ℕ) : Writer WriteError :=
  .le .panic 8 value

def i64 (value : Int64) : Writer WriteError :=
  u64 value.toUInt64.toNat

def f64 (bits : UInt64) : Writer WriteError :=
  u64 bits.toNat

def bool8 (flag : Bool) : Writer WriteError :=
  .bool flag

def str (bytes : Bytes) : Writer WriteError :=
  .str .panic bytes

def writeTypeAlt (writeSpec : FieldTypeSpec → Writer WriteError) :
    FieldTypeAlt → Writer WriteError
  | .any => u8 FieldTypeTag.any.toByte
  | .nullT => u8 FieldTypeTag.nullT.toByte
  | .int => u8 FieldTypeTag.int.toByte
  | .float => u8 FieldTypeTag.float.toByte
  | .decimalT => u8 FieldTypeTag.decimalT.toByte
  | .runeT => u8 FieldTypeTag.runeT.toByte
  | .boolean => u8 FieldTypeTag.boolean.toByte
  | .string => u8 FieldTypeTag.string.toByte
  | .errorT => u8 FieldTypeTag.errorT.toByte
  | .actorRefT => u8 FieldTypeTag.actorRefT.toByte
  | .array elemSpec => u8 FieldTypeTag.array.toByte ++ .option writeSpec elemSpec
  | .map keySpec valSpec =>
    u8 FieldTypeTag.map.toByte ++ (.option writeSpec keySpec ++ .option writeSpec valSpec)
  | .structT name _ => u8 FieldTypeTag.structT.toByte ++ str name
  | .interfaceT name => u8 FieldTypeTag.interfaceT.toByte ++ str name
  | .namedT name => u8 FieldTypeTag.namedT.toByte ++ str name
  | .variantT name _ => u8 FieldTypeTag.variantT.toByte ++ str name
  | .funcT params returns =>
    u8 FieldTypeTag.funcT.toByte ++
      (.counted .unsupportedFieldType 2 writeSpec (params.getD []) ++
        .counted .unsupportedFieldType 2 writeSpec (returns.getD []))
  -- a type parameter is erased, as it is at run time
  | .typeParam _ => u8 FieldTypeTag.any.toByte

/-- A type spec with `room` levels left before `MaxTypeSpecDepth`. -/
def writeTypeSpecDepth : ℕ → FieldTypeSpec → Writer WriteError
  | 0, _ => .error .invalidBytecode
  | room + 1, alts => .counted .panic 1 (writeTypeAlt (writeTypeSpecDepth room)) alts

def writeTypeSpec : FieldTypeSpec → Writer WriteError :=
  writeTypeSpecDepth MaxTypeSpecDepth

/-- An entry of the type table. A predicate or a task behavior is its index in the
function table. -/
inductive TypeEntryInfo where
  | structT (type : StructType)
  | namedT (type : NamedType FuncRef) (predicateFuncIdx : Option ℕ)
  | variantT (type : VariantType)
  | interfaceT (type : InterfaceType)
  | enumT (type : EnumType)
  | taskT (type : TaskType FuncRef) (behaviorFuncIdx : ℕ)

def writeInterfaceMethod (method : InterfaceMethodSpec) : Writer WriteError :=
  str method.name ++ (u8 method.arity ++ (bool8 method.isVariadic ++
    ((if method.isVariadic then writeTypeSpec method.variadicType else .raw []) ++
      (bool8 method.hasTypedParams ++ (bool8 method.hasTypedReturns ++
        (.counted .panic 2 writeTypeSpec method.paramTypes ++
          .counted .panic 2 writeTypeSpec method.returnTypes))))))

def writeField (field : StructFieldSpec) : Writer WriteError :=
  str field.name ++ (writeTypeSpec field.typ ++ bool8 field.isConst)

def writeFieldList (fields : List StructFieldSpec) : Writer WriteError :=
  .counted .panic 2 writeField fields

def writeVariantArm (arm : VariantArmSpec) : Writer WriteError :=
  str arm.name ++
    if arm.fields ≠ [] then u8 ArmShape.record.toByte ++ writeFieldList arm.fields
    else if arm.hasPayload then
      u8 ArmShape.singlePayload.toByte ++ (str arm.payloadName ++
        match arm.payloadType with
        | none => .error .panic
        | some payloadType => writeTypeSpec payloadType)
    else u8 ArmShape.none.toByte

/-- A default value as its base stores it. -/
def writeDefault (base : NamedTypeBase) (value : ScalarValue) : Writer WriteError :=
  match base with
  | .int | .float | .rune | .decimal =>
    match value with | .float bits => f64 bits | _ => .error .panic
  | .string => match value with | .string bytes => str bytes | _ => .error .panic
  | .bool => match value with | .boolean flag => bool8 flag | _ => .error .panic
  | .arrayT | .mapT | .enumT => .error .unsupportedConstant

def writeNamedType (type : NamedType FuncRef) (predicateFuncIdx : Option ℕ) : Writer WriteError :=
  u8 (baseToByte type.base) ++ (bool8 type.hasRange ++ (bool8 type.isCycle ++
    (bool8 type.isClamp ++ (f64 type.min ++ (f64 type.max ++ (str (type.parentName.getD []) ++
      (.option writeTypeSpec type.elemSpec ++ (.option writeTypeSpec type.keySpec ++
        (.option writeTypeSpec type.valSpec ++ (bool8 type.isAnonymous ++ (u8 type.scale ++
          (.option (fun index => u32 index ++ .option str type.predicateMsg) predicateFuncIdx ++
            .option (writeDefault type.base) type.defaultVal))))))))))))

def writeTypeEntry : TypeEntryInfo → Writer WriteError
  | .structT type =>
    u8 TypeKind.struct.toByte ++ (str type.name ++ (str type.qualifiedName ++
      writeFieldList type.fields))
  | .variantT type =>
    u8 TypeKind.variant.toByte ++ (str type.name ++ (str type.qualifiedName ++
      (writeFieldList type.sharedFields ++ .counted .panic 2 writeVariantArm type.arms)))
  | .namedT type predicateFuncIdx =>
    u8 TypeKind.named.toByte ++ (str type.name ++ (str type.qualifiedName ++
      writeNamedType type predicateFuncIdx))
  | .interfaceT type =>
    u8 TypeKind.interface.toByte ++ (str type.name ++ (str type.qualifiedName ++
      .counted .panic 2 writeInterfaceMethod type.methods))
  | .enumT type =>
    u8 TypeKind.enum.toByte ++ (str type.name ++ (str type.qualifiedName ++
      (.counted .panic 2 str type.members ++ (.option (.all i64) type.memberInts ++
        str (type.parentName.getD [])))))
  | .taskT type behaviorFuncIdx =>
    u8 TypeKind.task.toByte ++ (str type.name ++ (str type.qualifiedName ++ u32 behaviorFuncIdx))

def writeTypesSection (types : List TypeEntryInfo) : Writer WriteError :=
  .counted .panic 4 writeTypeEntry types

/-- An entry of the function table. An anonymous function has the empty name. -/
structure FuncEntryInfo where
  name : Bytes
  ip : ℕ
  length : ℕ
  f : FuncObj
  nameConstIdx : Option ℕ

/-- The length of a function body, from the jump over it that stands right before
its entry. -/
def deriveFuncLength (code : List UInt8) (ip : ℕ) : Except WriteError ℕ :=
  if ip < 5 then .error .badBytecode
  else
    match code[ip - 5]? with
    | none => .error .panic
    | some byte =>
      if byte ≠ Op.jump.toByte then .error .badBytecode
      else
        match readU32At code (ip - 4) with
        | .error _ => .error .panic
        | .ok offset =>
          let target := ip - 5 + 5 + offset
          if 2 ^ 32 ≤ target then .error .panic
          else if target < ip then .error .badBytecode
          else .ok (target - ip)

/-- The first string constant with this name. -/
def findStringConstIdx (consts : List (Constant FuncRef)) (name : Bytes) : Option ℕ :=
  if name = [] then none
  else consts.findIdx? fun
    | .string bytes => bytes = name
    | _ => false

def writeFunction (consts : List (Constant FuncRef)) (entry : FuncEntryInfo) : Writer WriteError :=
  let nameIdx := entry.nameConstIdx.or (findStringConstIdx consts entry.name)
  u32 (nameIdx.getD noName) ++ (u32 entry.ip ++ (u32 entry.length ++ (u16 0 ++
    (u8 entry.f.arity ++ (bool8 entry.f.isVariadic ++
      ((if entry.f.isVariadic then writeTypeSpec entry.f.variadicType else .raw []) ++
        (bool8 entry.f.hasTypedParams ++ (bool8 entry.f.hasTypedReturns ++
          ((if 64 < entry.f.namedReturnCount then .error .panic
              else u8 entry.f.namedReturnCount) ++
            (.counted .panic 2 writeTypeSpec entry.f.paramTypes ++
              (.counted .panic 2 writeTypeSpec entry.f.returnTypes ++
                .counted .panic 1 u8 entry.f.captureSlots)))))))))))

def writeFunctionsSection (consts : List (Constant FuncRef)) (funcs : List FuncEntryInfo) :
    Writer WriteError :=
  .counted .panic 4 (writeFunction consts) funcs

/-- The function and type tables as the constants fill them. -/
structure Tables where
  funcs : List FuncEntryInfo := []
  types : List TypeEntryInfo := []

/-- Enter a function object into the table and return its index. -/
def registerFunc (defused : List UInt8) (funcObjs : List FuncObj) (tables : Tables)
    (func : FuncRef) (name : FuncObj → Bytes) : Except WriteError (Tables × ℕ) :=
  match funcObjs[func]? with
  | none => .error .panic
  | some f => do
    if 2 ^ 32 ≤ f.ip then throw .panic
    let length ← deriveFuncLength defused f.ip
    let entry := { name := name f, ip := f.ip, length, f, nameConstIdx := none }
    return ({ tables with funcs := tables.funcs ++ [entry] }, tables.funcs.length)

/-- Enter a type into the table and write the reference to it. -/
def writeTypeRef (tables : Tables) (type : TypeEntryInfo) :
    Except WriteError (Tables × List UInt8) := do
  let bytes ← u8 ConstTag.typeRef.toByte ++ u32 tables.types.length
  return ({ tables with types := tables.types ++ [type] }, bytes)

/-- The function object behind a predicate; one that captures is not supported. -/
def predicateFunc : Predicate FuncRef → Except WriteError FuncRef
  | .function func => .ok func
  | .closure func upvalues => if 0 < upvalues then .error .unsupportedConstant else .ok func
  | .other => .error .unsupportedConstant

def writeConst (defused : List UInt8) (funcObjs : List FuncObj) (tables : Tables) :
    Constant FuncRef → Except WriteError (Tables × List UInt8)
  | .int value => return (tables, ← u8 ConstTag.int.toByte ++ i64 value)
  | .float bits => return (tables, ← u8 ConstTag.number.toByte ++ f64 bits)
  | .rune codepoint => return (tables, ← u8 ConstTag.rune.toByte ++ u32 codepoint.val)
  | .boolean flag => return (tables, ← u8 ConstTag.bool.toByte ++ bool8 flag)
  | .null => return (tables, ← u8 ConstTag.null.toByte)
  | .string bytes => return (tables, ← u8 ConstTag.string.toByte ++ str bytes)
  | .function func => do
    let (tables, index) ← registerFunc defused funcObjs tables func (·.name)
    return (tables, ← u8 ConstTag.funcRef.toByte ++ u32 index)
  | .structType type => writeTypeRef tables (.structT type)
  | .namedType type =>
    match type.predicate with
    | none => writeTypeRef tables (.namedT type none)
    | some predicate => do
      let func ← predicateFunc predicate
      let (tables, index) ← registerFunc defused funcObjs tables func fun _ => []
      writeTypeRef tables (.namedT type (some index))
  | .variantType type => writeTypeRef tables (.variantT type)
  | .interfaceType type => writeTypeRef tables (.interfaceT type)
  | .enumType type => writeTypeRef tables (.enumT type)
  | .taskType type => do
    let (tables, index) ← registerFunc defused funcObjs tables type.behavior fun _ => type.name
    writeTypeRef tables (.taskT type index)
  | .closure _ _ | .other => .error .unsupportedConstant

/-- The constants loop. -/
def writeConsts (defused : List UInt8) (funcObjs : List FuncObj) (tables : Tables) :
    List (Constant FuncRef) → Except WriteError (Tables × List UInt8)
  | [] => .ok (tables, [])
  | const :: consts => do
    let (tables, front) ← writeConst defused funcObjs tables const
    let (tables, back) ← writeConsts defused funcObjs tables consts
    return (tables, front ++ back)

/-- Give every named function the index of a string constant with its name, appending
the names that are not constants yet. `extra` are the names appended so far. -/
def assignNames (consts : List (Constant FuncRef)) :
    List FuncEntryInfo → List Bytes → List FuncEntryInfo × List Bytes
  | [], extra => ([], extra)
  | entry :: entries, extra =>
    if entry.name = [] then
      let (named, extra) := assignNames consts entries extra
      (entry :: named, extra)
    else
      match findStringConstIdx consts entry.name with
      | some index =>
        let (named, extra) := assignNames consts entries extra
        ({ entry with nameConstIdx := some index } :: named, extra)
      | none =>
        let index := consts.length + extra.length
        let (named, extra) := assignNames consts entries (extra ++ [entry.name])
        ({ entry with nameConstIdx := some index } :: named, extra)

def writeOptConstValue : Option CompileTimeConst → Writer WriteError
  | none => u8 ConstValueTag.none.toByte
  | some (.number bits) => u8 ConstValueTag.number.toByte ++ f64 bits
  | some (.string bytes) => u8 ConstValueTag.string.toByte ++ str bytes
  | some (.boolean flag) => u8 ConstValueTag.boolean.toByte ++ bool8 flag

/-- The module prefix, a dot and the name, or the bare name without a prefix. -/
def qualifiedName (modulePrefix name : Bytes) : Bytes :=
  if modulePrefix = [] then name else modulePrefix ++ [0x2E] ++ name

def writeExport (modulePrefix : Bytes) (info : ExportInfo) : Writer WriteError :=
  str info.name ++ (str (qualifiedName modulePrefix info.name) ++
    (u8 info.typeKind.toByte ++ writeOptConstValue info.constValue))

def writeExportsSection (moduleId modulePrefix : Bytes) (exports : List ExportInfo) :
    Writer WriteError :=
  str moduleId ++ .counted .panic 4 (writeExport modulePrefix) exports

def writeDependency (info : DependencyEntryInfo) : Writer WriteError :=
  str info.writtenSpecifier ++ (str info.resolvedId ++ (u8 info.kind.toByte ++
    (.raw info.sourceHash.bytes ++ (.raw info.artifactBodyHash.bytes ++ str info.qualifiedPrefix))))

def writeDependencyTable (dependencies : List DependencyEntryInfo) : Writer WriteError :=
  .counted .panic 4 writeDependency dependencies

structure Section where
  id : ℕ
  data : List UInt8
  required : Bool := true

/-- The sections of a chunk, in the order of the section table. -/
def writeSections (state : State) (opts : WriteOptions) : Except WriteError (List Section) := do
  let (defused, cs) ← (Defuse.buildDefusedCode state).mapError .defuse
  let (tables, constBytes) ← writeConsts defused cs.funcs {} cs.consts
  let (funcs, extra) := assignNames cs.consts tables.funcs []
  let extraBytes ← Writer.all (fun name => u8 ConstTag.string.toByte ++ str name) extra
  let functions ← writeFunctionsSection cs.consts funcs
  let types ← writeTypesSection tables.types
  let nativeImports ← u32 0
  let exports ← writeExportsSection opts.moduleId opts.modulePrefix opts.exports
  let dependencies ← writeDependencyTable opts.dependencies
  if 2 ^ 32 ≤ cs.stdScriptCodeEnd then throw .badBytecode
  let stdScript ← u16 cs.stdScriptConstBase.toNat ++ (u16 cs.stdScriptConstCount.toNat ++
    u32 cs.stdScriptCodeEnd)
  let constCount ← u32 (cs.consts.length + extra.length)
  return [
    { id := secBytecode, data := defused },
    { id := secConstants, data := constCount ++ (constBytes ++ extraBytes) },
    { id := secFunctions, data := functions },
    { id := secNativeImports, data := nativeImports },
    { id := secExports, data := exports },
    { id := secTypes, data := types },
    { id := secDependencyTable, data := dependencies },
    { id := secStdScriptInfo, data := stdScript, required := false }]

/-- The section table, whose first section starts at `offset`. -/
def writeSectionTable (offset : ℕ) : List Section → Writer WriteError
  | [] => .raw []
  | sec :: sections =>
    (u32 sec.id ++ (u32 (if sec.required then sectionFlagRequired else 0) ++
      (u64 offset ++ u64 sec.data.length))) ++
      writeSectionTable (offset + sec.data.length) sections

def writeBody (sections : List Section) : Writer WriteError :=
  u32 sections.length ++ (writeSectionTable (4 + 24 * sections.length) sections ++
    .raw (sections.flatMap (·.data)))

def writeHeader (opts : WriteOptions) (body : List UInt8) : Writer WriteError :=
  match sourceGraphHash opts.rootSource with
  | none => .error .panic
  | some sourceHash =>
    let optHash := optionsHash opts.targetId.toNat opts.backendId.toNat opts.flags.toNat
    .raw magic ++ (u16 headerSize ++ (u16 headerVersion ++ (u16 formatMajor ++
      (u16 formatMinor ++ (u16 opts.languageMajor.toNat ++ (u16 opts.languageMinor.toNat ++
        (u32 opts.flags.toNat ++ (u32 opts.targetId.toNat ++ (u32 opts.backendId.toNat ++
          (u16 opts.entryKind.toNat ++ (.raw (List.replicate 6 0) ++ (u64 0 ++
            (.raw sourceHash ++ (.raw placeholderVmFingerprint ++
              (.raw placeholderVmFingerprint ++ (.raw optHash ++ (u64 body.length ++
                u64 (xxHash64 0 body).toNat)))))))))))))))))

/-- The artifact of a chunk. -/
def write (state : State) (opts : WriteOptions) : Except WriteError Bytes := do
  let sections ← writeSections state opts
  let body ← writeBody sections
  writeHeader opts body ++ Writer.raw body

end Gengo.Gbc
