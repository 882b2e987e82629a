import Gengo.Defuse.Expansion
import Gengo.Wire.Codec

/-!
# The artifact format

What writer and reader share: section numbers, wire tags, header values, the
limits on both sides, and the errors each side can end with.
-/

namespace Gengo.Gbc

open Bytecode Fallible Wire

def magic : List UInt8 :=
  [0x89, 0x47, 0x4E, 0x47, 0x0D, 0x0A, 0x1A, 0x0A]

def headerSize : ℕ := 184
def headerVersion : ℕ := 1
def formatMajor : ℕ := 2
def formatMinor : ℕ := 0

def secBytecode : ℕ := 0x0001
def secConstants : ℕ := 0x0002
def secFunctions : ℕ := 0x0003
def secNativeImports : ℕ := 0x0004
def secExports : ℕ := 0x0005
def secTypes : ℕ := 0x0006
def secDependencyTable : ℕ := 0x0007
def secStdScriptInfo : ℕ := 0x8000
def sectionFlagRequired : ℕ := 0x0001

/-- Nested type specs are refused from this depth on, by both sides. -/
def MaxTypeSpecDepth : ℕ := 64

def MaxModuleExports : ℕ := 256

/-- The name index of an anonymous function. -/
def noName : ℕ := 0xFFFFFFFF

/-- The tag of a constant. -/
inductive ConstTag where
  | number | string | null | bool | rune | int | funcRef | typeRef
  deriving DecidableEq, Repr

def ConstTag.toByte : ConstTag → UInt8
  | .number => 0x01
  | .string => 0x02
  | .null => 0x03
  | .bool => 0x04
  | .rune => 0x05
  | .int => 0x06
  | .funcRef => 0x07
  | .typeRef => 0x08

def ConstTag.ofByte? (byte : UInt8) : Option ConstTag :=
  match byte.toNat with
  | 0x01 => some .number
  | 0x02 => some .string
  | 0x03 => some .null
  | 0x04 => some .bool
  | 0x05 => some .rune
  | 0x06 => some .int
  | 0x07 => some .funcRef
  | 0x08 => some .typeRef
  | _ => none

/-- The kind of a type entry. -/
inductive TypeKind where
  | struct | named | enum | interface | variant | task
  deriving DecidableEq, Repr

def TypeKind.toByte : TypeKind → UInt8
  | .struct => 0x01
  | .named => 0x02
  | .enum => 0x03
  | .interface => 0x04
  | .variant => 0x05
  | .task => 0x06

def TypeKind.ofByte? (byte : UInt8) : Option TypeKind :=
  match byte.toNat with
  | 0x01 => some .struct
  | 0x02 => some .named
  | 0x03 => some .enum
  | 0x04 => some .interface
  | 0x05 => some .variant
  | 0x06 => some .task
  | _ => none

/-- The shape of a variant arm on the wire. -/
inductive ArmShape where
  | none | singlePayload | record
  deriving DecidableEq, Repr

def ArmShape.toByte : ArmShape → UInt8
  | .none => 0x00
  | .singlePayload => 0x01
  | .record => 0x02

def ArmShape.ofByte? (byte : UInt8) : Option ArmShape :=
  match byte.toNat with
  | 0x00 => some .none
  | 0x01 => some .singlePayload
  | 0x02 => some .record
  | _ => none

/-- The tag of an alternative of a field type. -/
inductive FieldTypeTag where
  | any | nullT | int | float | runeT | boolean | string | errorT | array | map | structT
  | interfaceT | namedT | variantT | funcT | decimalT | actorRefT
  deriving DecidableEq, Repr

def FieldTypeTag.toByte : FieldTypeTag → UInt8
  | .any => 0x00
  | .nullT => 0x01
  | .int => 0x02
  | .float => 0x03
  | .runeT => 0x04
  | .boolean => 0x05
  | .string => 0x06
  | .errorT => 0x07
  | .array => 0x08
  | .map => 0x09
  | .structT => 0x0A
  | .interfaceT => 0x0B
  | .namedT => 0x0C
  | .variantT => 0x0D
  | .funcT => 0x0E
  | .decimalT => 0x0F
  | .actorRefT => 0x10

def FieldTypeTag.ofByte? (byte : UInt8) : Option FieldTypeTag :=
  match byte.toNat with
  | 0x00 => some .any
  | 0x01 => some .nullT
  | 0x02 => some .int
  | 0x03 => some .float
  | 0x04 => some .runeT
  | 0x05 => some .boolean
  | 0x06 => some .string
  | 0x07 => some .errorT
  | 0x08 => some .array
  | 0x09 => some .map
  | 0x0A => some .structT
  | 0x0B => some .interfaceT
  | 0x0C => some .namedT
  | 0x0D => some .variantT
  | 0x0E => some .funcT
  | 0x0F => some .decimalT
  | 0x10 => some .actorRefT
  | _ => none

/-- The tag of an exported compile-time constant. -/
inductive ConstValueTag where
  | none | number | string | boolean
  deriving DecidableEq, Repr

def ConstValueTag.toByte : ConstValueTag → UInt8
  | .none => 0x00
  | .number => 0x01
  | .string => 0x02
  | .boolean => 0x03

def ConstValueTag.ofByte? (byte : UInt8) : Option ConstValueTag :=
  match byte.toNat with
  | 0x00 => some .none
  | 0x01 => some .number
  | 0x02 => some .string
  | 0x03 => some .boolean
  | _ => none

/-- The ordinal of a base, as `@intFromEnum` gives it. -/
def baseToByte : NamedTypeBase → UInt8
  | .int => 0 | .float => 1 | .decimal => 2 | .string => 3 | .bool => 4 | .rune => 5
  | .arrayT => 6 | .mapT => 7 | .enumT => 8

def baseOfByte? (byte : UInt8) : Option NamedTypeBase :=
  match byte.toNat with
  | 0 => some .int | 1 => some .float | 2 => some .decimal | 3 => some .string
  | 4 => some .bool | 5 => some .rune | 6 => some .arrayT | 7 => some .mapT
  | 8 => some .enumT | _ => none

@[simp]
theorem baseOfByte?_baseToByte (base : NamedTypeBase) :
    baseOfByte? (baseToByte base) = some base := by
  cases base <;> rfl

inductive EntryKind where
  | unspecified | script | module | replCell | testArtifact
  deriving DecidableEq, Repr

inductive TargetId where
  | unspecified | wasm32Wasi | nativeX86_64 | nativeAarch64
  deriving DecidableEq, Repr

inductive BackendId where
  | unspecified | bytevm
  deriving DecidableEq, Repr

inductive ExportTypeKind where
  | funcOrVar | structT | interfaceT | namedT | variantT
  deriving DecidableEq, Repr

inductive DependencyKind where
  | stdlib | file | hostProvided | linkedArtifact
  deriving DecidableEq, Repr

def EntryKind.toNat : EntryKind → ℕ
  | .unspecified => 0 | .script => 1 | .module => 2 | .replCell => 3 | .testArtifact => 4

def TargetId.toNat : TargetId → ℕ
  | .unspecified => 0 | .wasm32Wasi => 1 | .nativeX86_64 => 2 | .nativeAarch64 => 3

def BackendId.toNat : BackendId → ℕ
  | .unspecified => 0 | .bytevm => 1

def ExportTypeKind.toByte : ExportTypeKind → UInt8
  | .funcOrVar => 0 | .structT => 1 | .interfaceT => 2 | .namedT => 3 | .variantT => 4

def DependencyKind.toByte : DependencyKind → UInt8
  | .stdlib => 0 | .file => 1 | .hostProvided => 2 | .linkedArtifact => 3

/-- A compile-time constant a module exports. -/
inductive CompileTimeConst where
  | number (bits : UInt64)
  | string (bytes : Bytes)
  | boolean (value : Bool)

structure ExportInfo where
  name : Bytes
  typeKind : ExportTypeKind
  constValue : Option CompileTimeConst

/-- A digest of 32 bytes. -/
structure Hash where
  bytes : List UInt8
  length_bytes : bytes.length = 32

def Hash.zero : Hash :=
  ⟨List.replicate 32 0, rfl⟩

structure DependencyEntryInfo where
  writtenSpecifier : Bytes
  resolvedId : Bytes
  kind : DependencyKind
  sourceHash : Hash := .zero
  artifactBodyHash : Hash := .zero
  qualifiedPrefix : Bytes

structure WriteOptions where
  entryKind : EntryKind := .script
  targetId : TargetId := .nativeX86_64
  backendId : BackendId := .bytevm
  languageMajor : UInt16 := 0
  languageMinor : UInt16 := 5
  flags : UInt32 := 0
  rootSource : Bytes
  moduleId : Bytes := []
  modulePrefix : Bytes := []
  exports : List ExportInfo := []
  dependencies : List DependencyEntryInfo := []

/-- What the writer stops with. `panic` is a failed index or integer-cast check. -/
inductive WriteError where
  | defuse (error : Defuse.DefuseError)
  | unsupportedConstant | unsupportedFieldType | badBytecode | invalidBytecode | panic
  deriving DecidableEq, Repr

/-- What the reader stops with. `panic` is a failed index check. -/
inductive ReadError where
  | invalidMagic | unsupportedHeaderVersion | headerTooSmall | nonZeroReserved
  | formatMajorMismatch | truncatedHeader | truncatedBody | bodyChecksumMismatch
  | malformedSectionTable | missingRequiredSection | sectionOutOfBounds | malformedSection
  | badConstantTag | badFieldTypeTag | funcRefOutOfRange | typeRefOutOfRange
  | tooManyFunctions | tooManyTypes | tooManyConstants | tooManyExports | codeTooLarge
  | sourceGraphStale | optionsMismatch | vmFingerprintMismatch | panic
  deriving DecidableEq, Repr

/-- A byte string behind its length, for hashing. -/
def lenPrefixed (bytes : Bytes) : Option Bytes :=
  if bytes.length < 2 ^ 32 then some (leBytes 4 bytes.length ++ bytes) else none

/-- The text `GENGO_SOURCE_GRAPH_V1`. -/
def sourceGraphDomain : Bytes :=
  [0x47, 0x45, 0x4E, 0x47, 0x4F, 0x5F, 0x53, 0x4F, 0x55, 0x52, 0x43, 0x45, 0x5F, 0x47, 0x52,
    0x41, 0x50, 0x48, 0x5F, 0x56, 0x31]

def sourceGraphHash (rootSource : Bytes) : Option Bytes := do
  let domain ← lenPrefixed sourceGraphDomain
  let source ← lenPrefixed rootSource
  return sha256 (domain ++ source)

def optionsHash (targetId backendId flags : ℕ) : Bytes :=
  sha256 ([1] ++ leBytes 4 targetId ++ leBytes 4 backendId ++ leBytes 4 flags)

/-- The hash of the text `GENGO_VM_FINGERPRINT_PLACEHOLDER_V1`. -/
def placeholderVmFingerprint : Bytes :=
  sha256 [0x47, 0x45, 0x4E, 0x47, 0x4F, 0x5F, 0x56, 0x4D, 0x5F, 0x46, 0x49, 0x4E, 0x47, 0x45,
    0x52, 0x50, 0x52, 0x49, 0x4E, 0x54, 0x5F, 0x50, 0x4C, 0x41, 0x43, 0x45, 0x48, 0x4F, 0x4C,
    0x44, 0x45, 0x52, 0x5F, 0x56, 0x31]

end Gengo.Gbc
