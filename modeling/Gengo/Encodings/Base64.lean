import Gengo.Encodings.Hex

/-!
# Base64

Three bytes are four digits; one or two bytes at the end are padded. The decoder finds the padding
from the last two bytes of its text, and does not look at the bits of the last digit that belong
to no byte.
-/

namespace Gengo.Encodings

open List
open Blocks
open Bytecode (Bytes literal)

/-- The digits of the standard and of the URL-safe alphabet. -/
def alphabet (urlSafe : Bool) : Bytes :=
  if urlSafe then literal "ABCDEFGHIJKLMNOPQRSTUVWXYZabcdefghijklmnopqrstuvwxyz0123456789-_"
  else literal "ABCDEFGHIJKLMNOPQRSTUVWXYZabcdefghijklmnopqrstuvwxyz0123456789+/"

/-- The digit of a value below sixty-four. -/
def digit (urlSafe : Bool) (value : UInt8) : UInt8 :=
  (alphabet urlSafe).getD value.toNat 0

section DecodeEnd

variable (urlSafe : Bool) (front : Bytes) (a b c d : UInt8)

end DecodeEnd

section Bits

variable (a b c : UInt8)

end Bits

section Sextets

variable {p q r d : UInt8}

end Sextets

/-! ## Both directions -/

variable {urlSafe : Bool}

end Gengo.Encodings
