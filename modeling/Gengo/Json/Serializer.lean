import Gengo.Json.Texts
import Gengo.Messages.Sendable

/-!
# The serializer

The state machine that writes a JSON text value by value. A comma or a colon that is due is
written by the next value or key; what is written past the state machine leaves it due. The text
is kept as characters, and the bytes that are written are their UTF-8.
-/

namespace Gengo.Json

/-- Why nothing is returned. -/
inductive Trap
  | unreachable
  | typeError
  /-- The bytes that are written are no UTF-8. -/
  | notText
  /-- The recursion goes deeper than the model's bound. -/
  | tooDeep
  deriving DecidableEq, Repr

/-- `next_punctuation`. -/
inductive Punctuation
  | theBeginning | none | comma | colon
  deriving DecidableEq, Repr

inductive Container
  | array | object
  deriving DecidableEq, Repr

/-- A text without whitespace that is written value by value (`std.json.Stringify`). -/
structure Stringify where
  out : List Char := []
  nextPunctuation : Punctuation := .theBeginning
  nesting : List Container := []
  deriving DecidableEq, Repr

/-- The lower hexadecimal digits of a control character. -/
def unicodeEscape (code : ℕ) : List Char :=
  ['\\', 'u', '0', '0', Nat.digitChar (code / 16), Nat.digitChar (code % 16)]

/-- A character inside a string. -/
def charText (c : Char) : List Char :=
  if c = '\\' then ['\\', '\\']
  else if c = '"' then ['\\', '"']
  else if c = '\x08' then ['\\', 'b']
  else if c = '\x0c' then ['\\', 'f']
  else if c = '\n' then ['\\', 'n']
  else if c = '\r' then ['\\', 'r']
  else if c = '\t' then ['\\', 't']
  else if c.toNat < 0x20 then unicodeEscape c.toNat
  else [c]

def encodeJsonString (chars : List Char) : List Char :=
  '"' :: (chars.flatMap charText ++ ['"'])

namespace Stringify

variable (s : Stringify)

def isObjectKeyExpected : Bool :=
  s.nesting.head? == some .object && s.nextPunctuation != .colon

def isComplete : Bool :=
  s.nesting.isEmpty && s.nextPunctuation == .comma

/-- What is due before the next value or key. -/
def due : Punctuation → List Char
  | .theBeginning | .none => []
  | .comma => [',']
  | .colon => [':']

def valueStartAssumeTypeOk : Except Trap Stringify :=
  if s.isComplete then .error .unreachable
  else .ok { s with out := s.out ++ due s.nextPunctuation }

def valueStart : Except Trap Stringify :=
  if s.isObjectKeyExpected then .error .unreachable else s.valueStartAssumeTypeOk

def valueDone : Stringify :=
  { s with nextPunctuation := .comma }

/-- Write past the state machine (`writer.writeAll`). -/
def writeAll (text : List Char) : Stringify :=
  { s with out := s.out ++ text }

/-- Write a value of one piece (`write`). -/
def write (text : List Char) : Except Trap Stringify := do
  let s ← s.valueStart
  return (s.writeAll text).valueDone

def beginContainer (opening : Char) (container : Container) : Except Trap Stringify := do
  let s ← s.valueStart
  return { s.writeAll [opening] with
    nesting := container :: s.nesting
    nextPunctuation := .none }

def endContainer (closing : Char) (container : Container) : Except Trap Stringify :=
  match s.nesting with
  | [] => .error .unreachable
  | top :: nesting =>
    if top = container ∧ (s.nextPunctuation = .none ∨ s.nextPunctuation = .comma) then
      .ok ({ s.writeAll [closing] with nesting } : Stringify).valueDone
    else .error .unreachable

def beginArray : Except Trap Stringify :=
  s.beginContainer '[' .array

def endArray : Except Trap Stringify :=
  s.endContainer ']' .array

def beginObject : Except Trap Stringify :=
  s.beginContainer '{' .object

def endObject : Except Trap Stringify :=
  s.endContainer '}' .object

def objectField (key : List Char) : Except Trap Stringify :=
  if s.isObjectKeyExpected then do
    let s ← s.valueStartAssumeTypeOk
    return { s.writeAll (encodeJsonString key) with nextPunctuation := .colon }
  else .error .unreachable

end Stringify

theorem charSpelling_charText (c : Char) : CharSpelling (charText c) c := by
  unfold charText
  split_ifs with solidus quote backspace feed newline return_ tab control
  · rw [solidus]
    exact .escape rfl
  · rw [quote]
    exact .escape rfl
  · rw [backspace]
    exact .escape rfl
  · rw [feed]
    exact .escape rfl
  · rw [newline]
    exact .escape rfl
  · rw [return_]
    exact .escape rfl
  · rw [tab]
    exact .escape rfl
  · have units : ∀ code < 0x20, hexUnit (['0', '0', Nat.digitChar (code / 16),
        Nat.digitChar (code % 16)]) = some code := by decide
    have spelled : CharSpelling (unicodeEscape c.toNat) (Char.ofNat c.toNat) :=
      .unit (units c.toNat control) fun surrogate => by
        have low := surrogate.1
        omega
    rwa [Char.ofNat_toNat] at spelled
  · exact .plain quote solidus (not_lt.mp control)

theorem stringText_encodeJsonString (chars : List Char) :
    StringText (encodeJsonString chars) chars := by
  refine .mk ?_
  induction chars with
  | nil => exact .nil
  | cons c chars ih =>
    rw [List.flatMap_cons]
    exact .cons (charSpelling_charText c) ih

/-!
# Values as JSON

The walk over a value that writes it as a JSON text. What the objects of the heap do not carry,
the scales of decimal types and the numbers of bigints, is an argument, and so is how a float is
printed.
-/

open Messages (Ref Value MapEntry Object Heap asArraySlice asMapSlice)

/-- What is known of types and bigints. -/
structure Types where
  /-- The scale of a named type, if its base is decimal. -/
  decimalScale : Ref → Option ℕ
  /-- The base of a named type is string. -/
  stringBased : Ref → Bool
  bigint : Ref → ℤ

/-- The characters of bytes that are UTF-8. -/
def decodeUtf8 (bytes : List UInt8) : Option (List Char) :=
  (ByteArray.mk bytes.toArray).utf8Decode?.map Array.toList

/-- `MaxDepth`. -/
def maxDepth : ℕ :=
  32

section

variable (heap : Heap) (types : Types)

/-- `unboxNamed`: one name is taken off. -/
def unboxNamed : Value → Value
  | .object ref =>
    match heap.objects ref with
    | .namedValue _ value => value
    | _ => .object ref
  | value => value

/-- `decimalRawAndScale`, with a bound on the recursion over names. -/
def decimalRawAndScale : ℕ → Value → Except Trap (Option (ℤ × ℕ))
  | 0, _ => .error .tooDeep
  | _ + 1, .decimal raw => .ok (some (raw.toInt, 0))
  | bound + 1, .object ref =>
    match heap.objects ref with
    | .namedValue typ value =>
      match types.decimalScale typ, value with
      | some scale, .decimal raw => .ok (some (raw.toInt, scale))
      | _, _ => decimalRawAndScale bound value
    | _ => .ok none
  | _ + 1, _ => .ok none

/-- `asStringValue`, with a bound on the recursion over names. -/
def asStringValue : ℕ → Value → Except Trap (List UInt8)
  | 0, _ => .error .tooDeep
  | _ + 1, .string bytes => .ok bytes
  | bound + 1, .object ref =>
    match heap.objects ref with
    | .dynString bytes => .ok bytes
    | .stringView bytes _ => .ok bytes
    | .namedValue typ value =>
      if types.stringBased typ then asStringValue bound value else .error .typeError
    | _ => .error .typeError
  | _ + 1, _ => .error .typeError

/-- `write` of a slice of bytes: a string if they are UTF-8, and an array of them otherwise. -/
def writeBytes (bytes : List UInt8) (s : Stringify) : Except Trap Stringify :=
  match decodeUtf8 bytes with
  | some chars => s.write (encodeJsonString chars)
  | none => do
    let s ← s.beginArray
    let s ← bytes.foldlM (fun s byte => s.write (intText byte.toNat)) s
    s.endArray

/-- The key of a member. -/
def writeKey (bytes : List UInt8) (s : Stringify) : Except Trap Stringify :=
  match decodeUtf8 bytes with
  | some chars => s.objectField chars
  | none => .error .notText

variable (printFloat : UInt64 → List Char)

section Containers

variable (bound : ℕ) (stringify : Value → Stringify → Except Trap Stringify)

/-- The elements of an array. -/
def stringifyItems : List Value → Stringify → Except Trap Stringify
  | [], s => .ok s
  | item :: items, s => do
    let s ← stringify item s
    stringifyItems items s

/-- The entries of a map. -/
def stringifyEntries : List MapEntry → Stringify → Except Trap Stringify
  | [], s => .ok s
  | entry :: entries, s => do
    let key ← asStringValue heap types bound (unboxNamed heap entry.key)
    let s ← writeKey key s
    let s ← stringify entry.value s
    stringifyEntries entries s

/-- A container that is no ancestor of itself. -/
def stringifyContainer (ancestors : List Ref) (ref : Ref)
    (write : Stringify → Except Trap Stringify) (s : Stringify) : Except Trap Stringify :=
  if ref ∈ ancestors then s.write ['n', 'u', 'l', 'l'] else write s

end Containers

/-- The switch of `jsonStringifyValueDepth` over a value without its name, given how the parts
inside of ancestors are written. -/
def stringifyUnboxed (bound : ℕ) (stringify : List Ref → Value → Stringify → Except Trap Stringify)
    (ancestors : List Ref) (uv : Value) (s : Stringify) : Except Trap Stringify :=
  match uv with
  | .null | .errorValue _ | .actorRef _ => s.write ['n', 'u', 'l', 'l']
  | .boolean true => s.write ['t', 'r', 'u', 'e']
  | .boolean false => s.write ['f', 'a', 'l', 's', 'e']
  | .int n => s.write (intText n.toInt)
  | .float bits => s.write (printFloat bits)
  | .decimal _ | .inlineVariant _ => .error .unreachable
  | .rune r => s.write (intText r.toNat)
  | .string bytes => writeBytes bytes s
  | .object ref =>
    match heap.objects ref with
    | .dynString bytes => writeBytes bytes s
    | .stringView bytes _ => writeBytes bytes s
    | .array _ | .arrayManaged _ | .arrayView .. | .arrayCapacity .. =>
      stringifyContainer ancestors ref (fun s => do
        let s ← s.beginArray
        match asArraySlice heap (heap.objects ref) with
        | none => .error .typeError
        | some items =>
          let s ← stringifyItems (stringify (ref :: ancestors)) items s
          s.endArray) s
    | .map _ | .mapManaged _ | .mapHashed .. =>
      stringifyContainer ancestors ref (fun s => do
        let s ← s.beginObject
        match asMapSlice (heap.objects ref) with
        | none => .error .typeError
        | some entries =>
          let s ← stringifyEntries heap types bound (stringify (ref :: ancestors)) entries s
          s.endObject) s
    | .shared .bigint => return s.writeAll (intText (types.bigint ref))
    | _ => s.write ['n', 'u', 'l', 'l']

/-- `jsonStringifyValueDepth`, with the levels that are left before `MaxDepth`. -/
def jsonStringifyValueDepth (bound : ℕ) :
    ℕ → List Ref → Value → Stringify → Except Trap Stringify
  | 0, _, _, s => s.write ['n', 'u', 'l', 'l']
  | levels + 1, ancestors, gv, s => do
    match ← decimalRawAndScale heap types bound gv with
    | some (raw, scale) => return s.writeAll (formatDecimalString raw scale)
    | none =>
      stringifyUnboxed heap types printFloat bound (jsonStringifyValueDepth bound levels)
        ancestors (unboxNamed heap gv) s

/-- `jsonStringifyNative`: the text of the value. -/
def jsonStringifyNative (bound : ℕ) (gv : Value) : Except Trap (List Char) := do
  let s ← jsonStringifyValueDepth heap types printFloat bound maxDepth [] gv {}
  return s.out

end

end Gengo.Json
