import Gengo.Blocks.Filling
import Gengo.Bytecode.Value
import Mathlib.Data.Fintype.Basic
import Mathlib.Tactic.FinCases

/-!
# Hexadecimal text

The output of `hex_encode` and `hex_decode` is a block whose length is computed before the loop
that fills it. A write behind the end of the block, or a read behind the end of the input, would
stop the program. The input is read after the allocation, which may have moved it.
-/

namespace Gengo.Encodings

open List
open Blocks
open Bytecode (Bytes)

/-- Why `allocTempRooted` or `vmAllocManagedBytes` fails. -/
inductive Refusal
  | outOfMemory
  | badTempRootDiscipline
  | allocationTooLarge
  deriving DecidableEq, Repr

inductive Failure
  | typeError
  | refused (reason : Refusal)
  /-- A read or a write outside of a slice. -/
  | outOfBounds
  deriving DecidableEq, Repr

/-- What `allocTempRooted` and `vmAllocManagedBytes` take a string and its bytes from. -/
abbrev Memory := Supply UInt8 Refusal

/-! ## Encoding -/

/-- The digit of a value below sixteen. -/
def hexDigit (value : UInt8) : UInt8 :=
  if value < 10 then 48 + value else 97 + value - 10

/-- The loop of `nativeHexEncode`. -/
def hexEncodeLoop : ℕ → Bytes → Bytes → Except Failure Bytes
  | _, [], buf => .ok buf
  | i, b :: s, buf => do
    let hi := (b >>> 4) &&& 0xf
    let lo := b &&& 0xf
    hexEncodeLoop (i + 1) s (← storeAll .outOfBounds buf (i * 2) [hexDigit hi, hexDigit lo])

/-- `nativeHexEncode` -/
def nativeHexEncode (memory : Memory) (s : Bytes) : Except Failure Bytes :=
  memory.fill .refused (s.length * 2) (hexEncodeLoop 0 s)

/-! ## Decoding -/

/-- `hexNibble`, without its `TypeError`. -/
def hexNibble (c : UInt8) : Option UInt8 :=
  if 48 ≤ c ∧ c ≤ 57 then some (c - 48)
  else if 97 ≤ c ∧ c ≤ 102 then some (c - 97 + 10)
  else if 65 ≤ c ∧ c ≤ 70 then some (c - 65 + 10)
  else none

/-- The loop of `nativeHexDecode`, on what is left of the text from the position `i` on. -/
def hexDecodeLoop : ℕ → Bytes → Bytes → Except Failure Bytes
  | _, [], buf => .ok buf
  | _, [first], _ => do
    let _ ← orFail .typeError (hexNibble first)
    .error .outOfBounds
  | i, first :: second :: s, buf => do
    let hi ← orFail .typeError (hexNibble first)
    let lo ← orFail .typeError (hexNibble second)
    hexDecodeLoop (i + 2) s (← storeAll .outOfBounds buf (i / 2) [(hi <<< 4) ||| lo])

/-- `nativeHexDecode` -/
def nativeHexDecode (memory : Memory) (s : Bytes) : Except Failure Bytes :=
  if s.length % 2 ≠ 0 then .error .typeError
  else memory.fill .refused (s.length / 2) (hexDecodeLoop 0 s)

/-! ## The text of a byte string -/

/-- `std.ascii.toLower` -/
def toLower (c : UInt8) : UInt8 :=
  if 65 ≤ c ∧ c ≤ 90 then c + 32 else c

/-- An operation has failed since the memory refuses a block of some length, for that reason. -/
def Refused (memory : Memory) (outcome : Except Failure Bytes) : Prop :=
  ∃ reason, outcome = .error (.refused reason) ∧ ∃ len, memory.take len = .error reason

/-- An encoder and a decoder. -/
structure Codec where
  encode : Memory → Bytes → Except Failure Bytes
  decode : Memory → Bytes → Except Failure Bytes

def hex : Codec :=
  ⟨nativeHexEncode, nativeHexDecode⟩

namespace Codec

variable (codec : Codec)

/-- Decoding gives back what has been encoded, unless the memory refuses a block. -/
def RoundTrips : Prop :=
  ∀ bytes memory, Refused memory (codec.encode memory bytes) ∨
    ∃ text, codec.encode memory bytes = .ok text ∧
      ∀ memory, codec.decode memory text = .ok bytes ∨ Refused memory (codec.decode memory text)

variable {codec} {text : Bytes → Bytes} {bytes : Bytes → Option Bytes}

end Codec

end Gengo.Encodings
