import Gengo.Bytecode.Value
import Mathlib.Data.UInt

/-!
# Keys of maps

The values of the language as far as their equality and their hash look at them. An object comes
with its address and with what it holds: two objects are the same when their addresses are. Of a
variant value the tag is left out, which its type and its ordinal give.
-/

namespace Gengo.Maps

open Bytecode (Bytes)

/-- `InlineVariantValue`: a variant whose payload is kept in 36 bits. -/
structure InlineVariant where
  payload : BitVec 36
  ordinal : BitVec 12
  kind : BitVec 4
  typIdx : BitVec 12
  deriving DecidableEq, Repr

/-- A value. Floats are the bits of their numbers, a type is the address of its object, and
`otherObject` is an object of any kind that is only equal to itself: an array, a map, a struct,
a function or a type. -/
inductive Value
  | int (value : Int64)
  | float (bits : UInt64)
  | decimal (value : Int64)
  | rune (value : BitVec 21)
  | boolean (value : Bool)
  | string (bytes : Bytes)
  | errorValue (bytes : Bytes)
  | null
  | inlineVariant (variant : InlineVariant)
  | actorRef (index generation : UInt32)
  | dynString (address : UInt64) (bytes : Bytes)
  | stringView (address : UInt64) (bytes : Bytes)
  | bigint (address : UInt64) (value : ℤ)
  | enumValue (address typ : UInt64) (ordinal : Int64)
  | namedValue (address typ : UInt64) (value : Value)
  | variantValue (address typ : UInt64) (ordinal : ℕ) (payload : Value)
      (sharedValues armFields : List Value)
  | otherObject (address : UInt64)

/-- Where the objects of the pool are, and what the arms of the variant types are called. -/
structure Types where
  objectAtIdx : BitVec 12 → UInt64
  armName : UInt64 → ℕ → Bytes

def isNaN (bits : UInt64) : Bool :=
  0x7FF0000000000000 < (bits &&& 0x7FFFFFFFFFFFFFFF)

/-- `==` of floats: nothing equals a NaN, and the zeros are equal. -/
def floatEquals (first second : UInt64) : Bool :=
  !isNaN first && !isNaN second &&
    (first == second || (first &&& 0x7FFFFFFFFFFFFFFF == 0 && second &&& 0x7FFFFFFFFFFFFFFF == 0))

/-- Half of the numbers between two representable ones go up: those above the middle, and the
middle itself if that gives an even number. -/
def roundHalfEven (magnitude shift : ℕ) : ℕ :=
  let quotient := magnitude / 2 ^ shift
  let rest := magnitude % 2 ^ shift
  if 2 ^ (shift - 1) < rest ∨ (rest = 2 ^ (shift - 1) ∧ quotient % 2 = 1) then quotient + 1
  else quotient

/-- `@floatFromInt` to a 64-bit float. A significand that is rounded up to the next power of two
carries into the exponent. -/
def floatFromInt (value : Int64) : UInt64 :=
  let magnitude := value.toInt.natAbs
  if magnitude = 0 then 0
  else
    let exponent := magnitude.log2
    let significand :=
      if exponent ≤ 52 then magnitude * 2 ^ (52 - exponent)
      else roundHalfEven magnitude (exponent - 52)
    let sign := if value < 0 then 2 ^ 63 else 0
    UInt64.ofNat (sign + (exponent + 1022) * 2 ^ 52 + significand)

def inlineVariantPayload (variant : InlineVariant) : Value :=
  match variant.kind.toNat with
  | 1 => .int (Int64.ofBitVec (variant.payload.signExtend 64))
  | 2 => .boolean (variant.payload ≠ 0)
  | 3 => .rune (variant.payload.setWidth 21)
  | 4 => .decimal (Int64.ofBitVec (variant.payload.signExtend 64))
  | _ => .null

/-- `asStringValue`, of the values that `isStringValue` accepts. -/
def stringBytes? : Value → Option Bytes
  | .string bytes => some bytes
  | .dynString _ bytes => some bytes
  | .stringView _ bytes => some bytes
  | _ => none

/-- `Value.equals` of two values that are no named or variant values. Objects of two kinds are
never the same object. -/
def equalsLeaf (first second : Value) : Bool :=
  match stringBytes? first, stringBytes? second with
  | some bytes, some others => bytes == others
  | _, _ =>
    match first, second with
    | .enumValue _ typ ordinal, .enumValue _ typ' ordinal' => typ == typ' && ordinal == ordinal'
    | .bigint _ value, .bigint _ value' => value == value'
    | .int value, .bigint _ value' => value.toInt == value'
    | .bigint _ value, .int value' => value == value'.toInt
    | .int value, .float bits => floatEquals (floatFromInt value) bits
    | .float bits, .int value => floatEquals bits (floatFromInt value)
    | .int value, .int value' => value == value'
    | .float bits, .float bits' => floatEquals bits bits'
    | .decimal value, .decimal value' => value == value'
    | .rune value, .rune value' => value == value'
    | .boolean value, .boolean value' => value == value'
    | .errorValue bytes, .errorValue bytes' => bytes == bytes'
    | .otherObject address, .otherObject address' => address == address'
    | .null, .null => true
    | .actorRef index generation, .actorRef index' generation' =>
      index == index' && generation == generation'
    | _, _ => false

section

variable (types : Types)

mutual

/-- `Value.equals`. The payload of an inline variant holds no other value. -/
def equals : Value → Value → Bool
  | .namedValue _ typ value, .namedValue _ typ' value' => typ == typ' && equals value value'
  | .variantValue _ typ ordinal payload sharedValues armFields,
      .variantValue _ typ' ordinal' payload' sharedValues' armFields' =>
      typ == typ' && ordinal == ordinal' && equals payload payload' &&
        equalsAll sharedValues sharedValues' && equalsAll armFields armFields'
  | .variantValue _ typ ordinal payload _ _, .inlineVariant variant =>
    typ == types.objectAtIdx variant.typIdx && ordinal == variant.ordinal.toNat &&
      equals payload (inlineVariantPayload variant)
  | .inlineVariant variant, .variantValue _ typ ordinal payload _ _ =>
    types.objectAtIdx variant.typIdx == typ && variant.ordinal.toNat == ordinal &&
      equalsLeaf (inlineVariantPayload variant) payload
  | .inlineVariant variant, .inlineVariant variant' =>
    types.objectAtIdx variant.typIdx == types.objectAtIdx variant'.typIdx &&
      variant.ordinal.toNat == variant'.ordinal.toNat &&
      equalsLeaf (inlineVariantPayload variant) (inlineVariantPayload variant')
  | first, second => equalsLeaf first second

def equalsAll : List Value → List Value → Bool
  | [], [] => true
  | first :: firsts, second :: seconds => equals first second && equalsAll firsts seconds
  | _, _ => false

end

def mapKeyEquals (first second : Value) : Bool :=
  match stringBytes? first, stringBytes? second with
  | some bytes, some others => bytes == others
  | _, _ => equals types first second

end

def hashMultiplier : UInt64 :=
  0x9e3779b97f4a7c15

def hashMix64 (first second : UInt64) : UInt64 :=
  first * hashMultiplier + second

/-- `common.hashBytes`: FNV-1a. -/
def hashBytes (bytes : Bytes) : UInt64 :=
  bytes.foldl (fun hash byte => (hash ^^^ byte.toUInt64) * 1099511628211) 1469598103934665603

/-- `mapHashValue` of a value that is no named or variant value, unless the ordinal of an enum
does not fit an unsigned number: the program stops there. -/
def mapHashLeaf : Value → Option UInt64
  | .int value => some value.toUInt64
  | .float bits => some bits
  | .decimal value => some (floatFromInt value)
  | .rune value => some (UInt64.ofBitVec (value.setWidth 64) * 11400714819323198485)
  | .boolean value => some (if value then 0x9e3779b97f4a7c15 else 0x94d049bb133111eb)
  | .string bytes | .errorValue bytes | .dynString _ bytes | .stringView _ bytes =>
    some (hashBytes bytes)
  | .enumValue _ typ ordinal =>
    if ordinal < 0 then none else some (hashMix64 typ ordinal.toUInt64)
  | .null => some 0xcbf29ce484222325
  | .actorRef index generation => some (hashMix64 index.toUInt64 generation.toUInt64)
  | .bigint address _ | .otherObject address | .namedValue address _ _
  | .variantValue address _ _ _ _ _ => some address
  | .inlineVariant _ => some 0

def mapHashValue (types : Types) : Value → Option UInt64
  | .namedValue _ typ value => do
    let hash ← mapHashValue types value
    return hashMix64 typ hash
  | .variantValue _ typ ordinal payload _ _ => do
    let hash ← mapHashValue types payload
    return hashMix64 (hashMix64 typ (hashBytes (types.armName typ ordinal))) hash
  | .inlineVariant variant => do
    let hash ← mapHashLeaf (inlineVariantPayload variant)
    return hashMix64 (hashMix64 (types.objectAtIdx variant.typIdx)
      (UInt64.ofNat variant.ordinal.toNat)) hash
  | value => mapHashLeaf value

end Gengo.Maps
