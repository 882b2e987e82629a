import Gengo.Lexing.Scanning
import Mathlib.Data.Nat.Bitwise
import Mathlib.Tactic.Ring

/-!
# What strings spell

A string is a sequence of parts between its quotes: plain bytes, simple escapes, bytes and code
points by their digits. Its text is what the parts denote, one behind the other.
-/

namespace Gengo.Lexing

open List Option Nat
open Bytecode (Bytes)
open Strings (continuation utf8Decode)

/-- A part of a string. -/
inductive Part
  | byte (b : UInt8)
  | simple (esc : UInt8)
  | hex (hi lo : UInt8)
  | short (digits : Bytes)
  | long (digits : Bytes)
  deriving DecidableEq, Repr

/-- The value of a digit of a base, whose letters may be in upper case. -/
def digitBelow (base : ℕ) (ch : UInt8) : Option ℕ :=
  (List.range base).find? fun n => ch = ascii (digitChar n) || ch = ascii (digitChar n).toUpper

/-- The letters that stand for another byte behind a backslash. -/
def simpleEscapes : List (UInt8 × UInt8) :=
  [(ascii 'n', 10), (ascii 't', 9), (ascii 'r', 13)]

/-- The number that hexadecimal digits denote, behind others. -/
def numberFrom : ℕ → Bytes → ℕ
  | val, [] => val
  | val, c :: digits => numberFrom (val * 16 + (digitBelow 16 c).getD 0) digits

def number (digits : Bytes) : ℕ :=
  numberFrom 0 digits

/-- The code points that UTF-8 encodes. -/
def IsScalar (cp : ℕ) : Prop :=
  cp < 0x110000 ∧ ¬(0xD800 ≤ cp ∧ cp ≤ 0xDFFF)

def AreDigits (count : ℕ) (digits : Bytes) : Prop :=
  digits.length = count ∧ ∀ c ∈ digits, (digitBelow 16 c).isSome

namespace Part

/-- How a part is written. -/
def spell : Part → Bytes
  | byte b => [b]
  | simple esc => [ascii '\\', esc]
  | hex hi lo => [ascii '\\', ascii 'x', hi, lo]
  | short digits => ascii '\\' :: ascii 'u' :: digits
  | long digits => ascii '\\' :: ascii 'U' :: digits

/-- The parts that a string with a quote has. Only between double quotes are there escapes. -/
def Allowed (quote : UInt8) : Part → Prop
  | byte b => b ≠ quote ∧ b ≠ newline ∧ ¬(quote = ascii '"' ∧ b = ascii '\\')
  | simple esc =>
    quote = ascii '"' ∧ esc ≠ ascii 'x' ∧ esc ≠ ascii 'u' ∧ esc ≠ ascii 'U'
  | hex hi lo => quote = ascii '"' ∧ (digitBelow 16 hi).isSome ∧ (digitBelow 16 lo).isSome
  | short digits => quote = ascii '"' ∧ AreDigits 4 digits
  | long digits => quote = ascii '"' ∧ AreDigits 8 digits

/-- The bytes that a part denotes, where numbers of code points are read in a certain way. -/
def bytes (read : ℕ → ℕ) : Part → Option Bytes
  | byte b => some [b]
  | simple esc => some [(simpleEscapes.lookup esc).getD esc]
  | hex hi lo => some [UInt8.ofNat (number [hi, lo])]
  | short digits => utf8Encode (read (number digits))
  | long digits => utf8Encode (read (number digits))

/-- The number of a code point has more than 21 bits. -/
def Overflows : Part → Prop
  | long digits => 2 ^ 21 ≤ number digits
  | _ => False

end Part

/-- The bytes that parts denote. -/
def text (read : ℕ → ℕ) : List Part → Option Bytes
  | [] => some []
  | part :: parts => do
    let first ← part.bytes read
    let rest ← text read parts
    return first ++ rest

/-- Parts up to the closing quote, and how long they are with it. -/
inductive Spells (quote : UInt8) : List Part → Bytes → ℕ → Prop
  | close (back : Bytes) : Spells quote [] (quote :: back) 1
  | part {part : Part} {parts : List Part} {rest : Bytes} {len : ℕ} (allowed : part.Allowed quote)
      (spells : Spells quote parts rest len) :
      Spells quote (part :: parts) (part.spell ++ rest) (part.spell.length + len)

theorem utf8Encode_isSome_iff {cp : ℕ} : (utf8Encode cp).isSome ↔ IsScalar cp := by
  unfold utf8Encode IsScalar
  split
  · simp only [isSome_some, true_iff]
    omega
  · split
    · simp only [isSome_some, true_iff]
      omega
    · split
      · split
        · rename_i surrogate
          simp [surrogate]
        · rename_i scalar
          simp only [isSome_some, true_iff]
          exact ⟨by omega, scalar⟩
      · split
        · simp only [isSome_some, true_iff]
          omega
        · simp only [isSome_none, Bool.false_eq_true, false_iff]
          omega

theorem forall_byte {holds : UInt8 → Prop} (all : ∀ n < 256, holds (UInt8.ofNat n)) (ch : UInt8) :
    holds ch := by
  have byte := all ch.toNat (UInt8.toNat_lt ch)
  rwa [UInt8.ofNat_toNat] at byte

theorem digitBelow_lt {base d : ℕ} {c : UInt8} (digit : digitBelow base c = some d) : d < base :=
  List.mem_range.mp (List.mem_of_find?_eq_some digit)

theorem hexVal_eq (c : UInt8) : (hexVal c).map UInt8.toNat = digitBelow 16 c := by
  revert c
  apply forall_byte
  decide +kernel

theorem escaped_eq (esc : UInt8) : escaped esc = (simpleEscapes.lookup esc).getD esc := by
  revert esc
  apply forall_byte
  decide +kernel

section HexVal

variable {c d : UInt8}

theorem digitBelow_of_hexVal (digit : hexVal c = some d) : digitBelow 16 c = some d.toNat := by
  rw [← hexVal_eq, digit]
  rfl

theorem hexVal_lt (digit : hexVal c = some d) : d.toNat < 16 :=
  digitBelow_lt (digitBelow_of_hexVal digit)

theorem exists_hexVal (isDigit : (digitBelow 16 c).isSome) : ∃ d, hexVal c = some d := by
  rw [← hexVal_eq, isSome_map] at isDigit
  exact isSome_iff_exists.mp isDigit

end HexVal

variable {val : ℕ}

theorem shift_or {d : ℕ} (digit : d < 16) :
    ((val <<< 4) % 2 ^ 21) ||| d = (val * 16 + d) % 2 ^ 21 := by
  have shifted : (val <<< 4) % 2 ^ 21 = (val % 2 ^ 17) <<< 4 := by
    rw [shiftLeft_eq, shiftLeft_eq]
    omega
  have added : (val % 2 ^ 17) <<< 4 + d = (val % 2 ^ 17) <<< 4 ||| d :=
    shiftLeft_add_eq_or_of_lt (by omega) _
  rw [shifted, ← added, shiftLeft_eq]
  omega

theorem numberFrom_mod (val : ℕ) (digits : Bytes) :
    numberFrom (val % 2 ^ 21) digits % 2 ^ 21 = numberFrom val digits % 2 ^ 21 := by
  induction digits generalizing val with
  | nil => exact mod_mod _ _
  | cons c digits ih =>
    rw [numberFrom, numberFrom, ← ih, ← ih (val * 16 + _)]
    congr 2
    omega

variable {count : ℕ} {digits : Bytes}

theorem number_lt (areDigits : AreDigits count digits) (val : ℕ) :
    numberFrom val digits < (val + 1) * 16 ^ count := by
  rcases areDigits with ⟨rfl, isHex⟩
  induction digits generalizing val with
  | nil => simp [numberFrom]
  | cons c digits ih =>
    rcases isSome_iff_exists.mp (isHex c mem_cons_self) with ⟨d, digit⟩
    have small := digitBelow_lt digit
    have later := ih (val * 16 + d) fun other isDigit =>
      isHex other (mem_cons_of_mem _ isDigit)
    rw [numberFrom, digit, length_cons]
    refine later.trans_le ?_
    have bound : val * 16 + d + 1 ≤ (val + 1) * 16 := by
      omega
    calc (val * 16 + d + 1) * 16 ^ digits.length
        ≤ (val + 1) * 16 * 16 ^ digits.length := mul_le_mul_right _ bound
      _ = (val + 1) * 16 ^ (digits.length + 1) := by ring

/-- As many digits are read, and the low 21 bits of their number are left. -/
theorem readHexN_of_digits (areDigits : AreDigits count digits) (back : Bytes)
    (small : val < 2 ^ 21) :
    readHexN count (digits ++ back) val = (some (numberFrom val digits % 2 ^ 21), count) := by
  rcases areDigits with ⟨rfl, isHex⟩
  induction digits generalizing val with
  | nil =>
    change (some val, 0) = (some (val % 2 ^ 21), 0)
    rw [mod_eq_of_lt small]
  | cons c digits ih =>
    rcases exists_hexVal (isHex c mem_cons_self) with ⟨d, digit⟩
    have later := ih (mod_lt (val * 16 + d.toNat) (Nat.two_pow_pos 21))
      fun other isDigit => isHex other (mem_cons_of_mem _ isDigit)
    rw [cons_append, length_cons, readHexN, digit]
    dsimp only
    rw [shift_or (hexVal_lt digit), later, numberFrom_mod, numberFrom, digitBelow_of_hexVal digit]
    rfl

variable {rest : Bytes}

theorem digits_of_readHexN {read : ℕ} {cp : ℕ} (found : readHexN count rest val = (some cp, read)) :
    ∃ digits back, rest = digits ++ back ∧ AreDigits count digits := by
  induction count generalizing rest val read cp with
  | zero => exact ⟨[], rest, rfl, rfl, fun c none => absurd none not_mem_nil⟩
  | succ count ih =>
    cases rest with
    | nil => cases found
    | cons c rest =>
      rw [readHexN] at found
      cases digit : hexVal c with
      | none =>
        rw [digit] at found
        cases found
      | some d =>
        rw [digit] at found
        dsimp only at found
        cases more : readHexN count rest (((val <<< 4) % 2 ^ 21) ||| d.toNat) with
        | mk result left =>
          rw [more] at found
          cases found
          rcases ih more with ⟨digits, back, rfl, length, isHex⟩
          refine ⟨c :: digits, back, rfl, congrArg (· + 1) length, ?_⟩
          intro other isDigit
          rcases mem_cons.mp isDigit with rfl | isDigit
          · rw [digitBelow_of_hexVal digit]
            rfl
          · exact isHex other isDigit

theorem byte_of_digits {hi lo hv lv : UInt8} (high : hexVal hi = some hv)
    (low : hexVal lo = some lv) :
    (hv <<< 4) ||| lv = UInt8.ofNat (number [hi, lo]) := by
  have highSmall := hexVal_lt high
  have lowSmall := hexVal_lt low
  have value : number [hi, lo] = hv.toNat * 16 + lv.toNat := by
    rw [number, numberFrom, numberFrom, numberFrom, digitBelow_of_hexVal high,
      digitBelow_of_hexVal low]
    change (0 * 16 + hv.toNat) * 16 + lv.toNat = _
    omega
  have shifted : (hv <<< 4).toNat = hv.toNat <<< 4 := by
    rw [UInt8.toNat_shiftLeft]
    change (hv.toNat <<< 4) % 2 ^ 8 = _
    rw [shiftLeft_eq]
    omega
  apply UInt8.toNat_inj.mp
  rw [value, UInt8.toNat_or, shifted, ← shiftLeft_add_eq_or_of_lt lowSmall, shiftLeft_eq,
    UInt8.toNat_ofNat_of_lt']
  change hv.toNat * 16 + lv.toNat < 2 ^ 8
  omega

/-- The pool has room for a text. -/
def HasRoom (pool text : Bytes) : Prop :=
  pool.length + text.length ≤ strPoolSize

variable {pool : Bytes}

theorem outByte_of_hasRoom {b : UInt8} (room : HasRoom pool [b]) :
    outByte pool b = some (pool ++ [b]) :=
  if_pos room

theorem hasRoom_of_outByte {after : Bytes} {b : UInt8} (written : outByte pool b = some after) :
    HasRoom pool [b] ∧ after = pool ++ [b] := by
  unfold outByte at written
  split at written
  · rename_i room
    cases written
    exact ⟨room, rfl⟩
  · cases written

theorem outBytes_of_hasRoom {text : Bytes} (room : HasRoom pool text) :
    outBytes text pool = (true, text.length, pool ++ text) := by
  induction text generalizing pool with
  | nil => exact congrArg (true, 0, ·) (append_nil pool).symm
  | cons b text ih =>
    unfold HasRoom at room
    rw [length_cons] at room
    have first : HasRoom pool [b] := by
      change pool.length + 1 ≤ _
      omega
    have later : HasRoom (pool ++ [b]) text := by
      unfold HasRoom
      rw [length_append, length_singleton]
      omega
    rw [outBytes, outByte_of_hasRoom first]
    dsimp only
    rw [ih later, append_assoc]
    rfl

theorem hasRoom_of_outBytes {text : Bytes} (fits : pool.length ≤ strPoolSize)
    (all : (outBytes text pool).1 = true) : HasRoom pool text := by
  induction text generalizing pool with
  | nil => exact fits
  | cons b text ih =>
    rw [outBytes] at all
    cases written : outByte pool b with
    | none =>
      rw [written] at all
      cases all
    | some after =>
      rcases hasRoom_of_outByte written with ⟨first, rfl⟩
      rw [written] at all
      have later := ih (length_append ▸ first) all
      unfold HasRoom at later ⊢
      rw [length_append, length_singleton] at later
      rw [length_cons]
      omega

theorem HasRoom.append {first second : Bytes} :
    HasRoom pool (first ++ second) ↔ HasRoom pool first ∧ HasRoom (pool ++ first) second := by
  unfold HasRoom
  rw [length_append, length_append]
  omega

/-- Numbers of code points are read into 21 bits. -/
def low21 (value : ℕ) : ℕ :=
  value % 2 ^ 21

theorem unicodeEscape_of_digits {text : Bytes} (areDigits : AreDigits count digits)
    (encoded : utf8Encode (low21 (number digits)) = some text) (back : Bytes)
    (room : HasRoom pool text) :
    unicodeEscape count (digits ++ back) pool = ⟨none, 1 + count, pool ++ text⟩ := by
  have written : outCodepoint (low21 (number digits)) pool = (true, pool ++ text) := by
    rw [outCodepoint, encoded]
    dsimp only
    rw [outBytes_of_hasRoom room]
  unfold unicodeEscape
  rw [readHexN_of_digits areDigits back (Nat.two_pow_pos 21)]
  dsimp only
  rw [show numberFrom 0 digits % 2 ^ 21 = low21 (number digits) from rfl, written]
  rfl

theorem digits_of_unicodeEscape (fits : pool.length ≤ strPoolSize)
    (fine : (unicodeEscape count rest pool).err = none) :
    ∃ digits back text, rest = digits ++ back ∧ AreDigits count digits ∧
      utf8Encode (low21 (number digits)) = some text ∧ HasRoom pool text := by
  unfold unicodeEscape at fine
  cases found : readHexN count rest 0 with
  | mk result read =>
    rw [found] at fine
    cases result with
    | none => cases fine
    | some cp =>
      rcases digits_of_readHexN found with ⟨digits, back, rfl, areDigits⟩
      rw [readHexN_of_digits areDigits back (Nat.two_pow_pos 21)] at found
      cases found
      dsimp only at fine
      cases all : (outCodepoint (numberFrom 0 digits % 2 ^ 21) pool).1 with
      | false =>
        rw [all] at fine
        cases fine
      | true =>
        unfold outCodepoint at all
        cases encoded : utf8Encode (numberFrom 0 digits % 2 ^ 21) with
        | none =>
          rw [encoded] at all
          cases all
        | some text =>
          rw [encoded] at all
          exact ⟨digits, back, text, rfl, areDigits, encoded, hasRoom_of_outBytes fits all⟩

theorem byteEscape_of_digits {hi lo : UInt8} (high : (digitBelow 16 hi).isSome)
    (low : (digitBelow 16 lo).isSome) (back : Bytes)
    (room : HasRoom pool [UInt8.ofNat (number [hi, lo])]) :
    byteEscape (hi :: lo :: back) pool = ⟨none, 3, pool ++ [UInt8.ofNat (number [hi, lo])]⟩ := by
  rcases exists_hexVal high with ⟨hv, high⟩
  rcases exists_hexVal low with ⟨lv, low⟩
  rw [byteEscape, high, low]
  dsimp only
  rw [byte_of_digits high low, outByte_of_hasRoom room]

theorem digits_of_byteEscape (fine : (byteEscape rest pool).err = none) :
    ∃ hi lo back, rest = hi :: lo :: back ∧ (digitBelow 16 hi).isSome ∧
      (digitBelow 16 lo).isSome ∧
      HasRoom pool [UInt8.ofNat (number [hi, lo])] := by
  match rest, fine with
  | [], fine => cases fine
  | [_], fine => cases fine
  | hi :: lo :: back, fine =>
    rw [byteEscape] at fine
    cases high : hexVal hi with
    | none =>
      rw [high] at fine
      cases fine
    | some hv =>
      cases low : hexVal lo with
      | none =>
        rw [high, low] at fine
        cases fine
      | some lv =>
        rw [high, low] at fine
        dsimp only at fine
        cases written : outByte pool ((hv <<< 4) ||| lv) with
        | none =>
          rw [written] at fine
          cases fine
        | some after =>
          have room := (hasRoom_of_outByte written).1
          rw [byte_of_digits high low] at room
          exact ⟨hi, lo, back, rfl, digitBelow_of_hexVal high ▸ rfl,
            digitBelow_of_hexVal low ▸ rfl, room⟩

namespace Part

/-- A part is an escape. -/
def IsEscape : Part → Prop
  | byte _ => False
  | _ => True

theorem head_spell {part : Part} (isEscape : part.IsEscape) :
    part.spell = ascii '\\' :: part.spell.tail := by
  cases part with
  | byte b => exact isEscape.elim
  | simple esc => rfl
  | hex hi lo => rfl
  | short digits => rfl
  | long digits => rfl

variable {part : Part} {quote : UInt8} {text : Bytes}

theorem escape_of_bytes (isEscape : part.IsEscape) (allowed : part.Allowed quote)
    (denotes : part.bytes low21 = some text) (back : Bytes) (room : HasRoom pool text) :
    escape (part.spell.tail ++ back) pool = ⟨none, part.spell.tail.length, pool ++ text⟩ := by
  cases part with
  | byte b => exact isEscape.elim
  | simple esc =>
    rcases allowed with ⟨_, notX, notU, notLong⟩
    cases denotes
    change escape (esc :: back) pool = _
    rw [escape, if_neg notX, if_neg notU, if_neg notLong, escaped_eq, outByte_of_hasRoom room]
    rfl
  | hex hi lo =>
    cases denotes
    exact byteEscape_of_digits allowed.2.1 allowed.2.2 back room
  | short digits =>
    change unicodeEscape 4 (digits ++ back) pool = _
    rw [unicodeEscape_of_digits allowed.2 denotes back room]
    change _ = Escape.mk none (digits.length + 1) _
    rw [allowed.2.1]
  | long digits =>
    change unicodeEscape 8 (digits ++ back) pool = _
    rw [unicodeEscape_of_digits allowed.2 denotes back room]
    change _ = Escape.mk none (digits.length + 1) _
    rw [allowed.2.1]

end Part

theorem part_of_escape (fits : pool.length ≤ strPoolSize) (fine : (escape rest pool).err = none) :
    ∃ (part : Part) (back text : Bytes), rest = part.spell.tail ++ back ∧ part.IsEscape ∧
      part.Allowed (ascii '"') ∧ part.bytes low21 = some text ∧ HasRoom pool text := by
  cases rest with
  | nil => cases fine
  | cons esc rest =>
    rw [escape] at fine
    split at fine
    · rename_i isX
      rcases digits_of_byteEscape fine with ⟨hi, lo, back, rfl, high, low, room⟩
      exact ⟨.hex hi lo, back, _, isX ▸ rfl, trivial, ⟨rfl, high, low⟩, rfl, room⟩
    · rename_i notX
      split at fine
      · rename_i isU
        rcases digits_of_unicodeEscape fits fine with ⟨digits, back, text, rfl, areDigits, found⟩
        exact ⟨.short digits, back, text, isU ▸ rfl, trivial, ⟨rfl, areDigits⟩, found⟩
      · rename_i notU
        split at fine
        · rename_i isLong
          rcases digits_of_unicodeEscape fits fine with
            ⟨digits, back, text, rfl, areDigits, found⟩
          exact ⟨.long digits, back, text, isLong ▸ rfl, trivial, ⟨rfl, areDigits⟩, found⟩
        · rename_i notLong
          rw [escaped_eq] at fine
          cases written : outByte pool ((simpleEscapes.lookup esc).getD esc) with
          | none =>
            rw [written] at fine
            cases fine
          | some after =>
            exact ⟨.simple esc, rest, _, rfl, trivial, ⟨rfl, notX, notU, notLong⟩, rfl,
              (hasRoom_of_outByte written).1⟩

theorem strLit_part {part : Part} {quote : UInt8} {text : Bytes} (allowed : part.Allowed quote)
    (denotes : part.bytes low21 = some text) (rounds : ℕ) (back : Bytes)
    (room : HasRoom pool text) :
    strLit quote (rounds + 1) (part.spell ++ back) pool =
      (strLit quote rounds back (pool ++ text)).behind (.bytes part.spell.length) := by
  by_cases isEscape : part.IsEscape
  · have isDouble : quote = ascii '"' := by
      cases part with
      | byte b => exact isEscape.elim
      | simple _ | hex _ _ | short _ | long _ => exact allowed.1
    subst isDouble
    rw [Part.head_spell isEscape, cons_append, strLit, if_neg (by decide), if_neg (by decide),
      if_pos ⟨rfl, rfl⟩]
    rw [Part.escape_of_bytes isEscape allowed denotes back room]
    dsimp only
    rw [drop_left, length_cons, add_comm 1]
  · cases part with
    | byte b =>
      rcases allowed with ⟨notQuote, notNewline, notEscape⟩
      cases denotes
      change strLit quote (rounds + 1) (b :: back) pool = _
      rw [strLit, if_neg notQuote, if_neg notNewline, if_neg notEscape, outByte_of_hasRoom room]
      rfl
    | simple _ | hex _ _ | short _ | long _ => exact absurd trivial isEscape

/-- A type of token that says what is wrong with the source. -/
def TT.IsError (typ : TT) : Prop :=
  typ = .errUnterminatedString ∨ typ = .errStringPoolExhausted ∨ typ = .errBadEscape

theorem TT.IsError.ne_string {typ : TT} (isError : typ.IsError) : typ ≠ .string := by
  rcases isError with rfl | rfl | rfl
  · exact nofun
  · exact nofun
  · exact nofun

theorem escape_err {err : TT} (failed : (escape rest pool).err = some err) : err.IsError := by
  have unicode (digits : ℕ) (rest : Bytes)
      (failed : (unicodeEscape digits rest pool).err = some err) : err.IsError := by
    unfold unicodeEscape at failed
    split at failed
    · cases failed
      exact .inr (.inr rfl)
    · dsimp only at failed
      split at failed
      · cases failed
      · cases failed
        exact .inr (.inr rfl)
  cases rest with
  | nil =>
    cases failed
    exact .inl rfl
  | cons esc rest =>
    rw [escape] at failed
    split at failed
    · unfold byteEscape at failed
      split at failed
      · cases failed
        exact .inr (.inr rfl)
      · cases failed
        exact .inr (.inr rfl)
      · split at failed
        · split at failed
          · cases failed
            exact .inr (.inl rfl)
          · cases failed
        · cases failed
          exact .inr (.inr rfl)
    · split at failed
      · exact unicode 4 rest failed
      · split at failed
        · exact unicode 8 rest failed
        · split at failed
          · cases failed
            exact .inr (.inl rfl)
          · cases failed

theorem typ_strLit (quote : UInt8) (rounds : ℕ) (rest pool : Bytes) :
    (strLit quote rounds rest pool).typ = .string ∨
      (strLit quote rounds rest pool).typ.IsError := by
  induction rounds generalizing rest pool with
  | zero => exact .inr (.inl rfl)
  | succ rounds ih =>
    cases rest with
    | nil => exact .inr (.inl rfl)
    | cons c rest =>
      rw [strLit]
      split
      · exact .inl rfl
      · split
        · exact .inr (.inl rfl)
        · split
          · dsimp only
            split
            · rename_i failed
              exact .inr (escape_err failed)
            · exact ih _ _
          · split
            · exact .inr (.inr (.inl rfl))
            · exact ih _ _

theorem text_cons {read : ℕ → ℕ} {part : Part} {parts : List Part} {whole : Bytes} :
    text read (part :: parts) = some whole ↔
      ∃ first rest, part.bytes read = some first ∧ text read parts = some rest ∧
        whole = first ++ rest := by
  change ((part.bytes read).bind fun first => (text read parts).bind fun rest =>
    some (first ++ rest)) = some whole ↔ _
  rw [bind_eq_some_iff]
  constructor
  · rintro ⟨first, denotes, later⟩
    rcases bind_eq_some_iff.mp later with ⟨rest, laterDenotes, same⟩
    exact ⟨first, rest, denotes, laterDenotes, (some.inj same).symm⟩
  · rintro ⟨first, rest, denotes, laterDenotes, rfl⟩
    exact ⟨first, denotes, bind_eq_some_iff.mpr ⟨rest, laterDenotes, rfl⟩⟩

theorem strLit_of_spells {quote : UInt8} {parts : List Part} {whole : Bytes} {len : ℕ}
    (spells : Spells quote parts rest len) (denotes : text low21 parts = some whole) {rounds : ℕ}
    (enough : rest.length < rounds) (room : HasRoom pool whole) :
    strLit quote rounds rest pool = ⟨.string, .bytes len, pool ++ whole⟩ := by
  induction spells generalizing rounds pool whole with
  | close back =>
    cases rounds with
    | zero => exact absurd enough (not_lt_zero _)
    | succ rounds =>
      cases denotes
      rw [strLit, if_pos rfl, append_nil]
  | @part part parts rest len allowed spells ih =>
    rcases text_cons.mp denotes with ⟨first, later, firstDenotes, laterDenotes, rfl⟩
    rcases HasRoom.append.mp room with ⟨firstRoom, laterRoom⟩
    have positive : 0 < part.spell.length := by
      cases part with
      | _ => exact succ_pos _
    rw [length_append] at enough
    cases rounds with
    | zero => exact absurd enough (not_lt_zero _)
    | succ rounds =>
      rw [strLit_part allowed firstDenotes rounds rest firstRoom,
        ih laterDenotes (by omega) laterRoom, append_assoc]
      rfl

/-- What is accepted is parts that denote a text for which there is room. -/
theorem spells_of_strLit {quote : UInt8} {rounds : ℕ} (fits : pool.length ≤ strPoolSize)
    (accepted : (strLit quote rounds rest pool).typ = .string) :
    ∃ parts len whole, Spells quote parts rest len ∧ text low21 parts = some whole ∧
      HasRoom pool whole := by
  induction rounds generalizing rest pool with
  | zero => cases accepted
  | succ rounds ih =>
    cases rest with
    | nil => cases accepted
    | cons c rest =>
      rw [strLit] at accepted
      split at accepted
      · rename_i isQuote
        exact ⟨[], 1, [], isQuote ▸ .close rest, rfl, fits⟩
      · rename_i notQuote
        split at accepted
        · cases accepted
        · rename_i notNewline
          split at accepted
          · rename_i isEscape
            rcases isEscape with ⟨rfl, rfl⟩
            dsimp only at accepted
            cases fine : (escape rest pool).err with
            | some err =>
              rw [fine] at accepted
              cases accepted
              exact absurd rfl (escape_err fine).ne_string
            | none =>
              rw [fine] at accepted
              rcases part_of_escape fits fine with
                ⟨part, back, first, rfl, isEscape, allowed, denotes, room⟩
              have found := Part.escape_of_bytes isEscape allowed denotes back room
              rw [found, drop_left] at accepted
              have later : (pool ++ first).length ≤ strPoolSize := length_append ▸ room
              rcases ih later accepted with
                ⟨parts, len, rest, spells, laterDenotes, laterRoom⟩
              have spelled := Spells.part allowed spells
              rw [Part.head_spell isEscape] at spelled
              exact ⟨part :: parts, _, first ++ rest, spelled,
                text_cons.mpr ⟨first, rest, denotes, laterDenotes, rfl⟩,
                HasRoom.append.mpr ⟨room, laterRoom⟩⟩
          · rename_i notEscape
            cases written : outByte pool c with
            | none =>
              rw [written] at accepted
              cases accepted
            | some after =>
              rw [written] at accepted
              rcases hasRoom_of_outByte written with ⟨room, rfl⟩
              have later : (pool ++ [c]).length ≤ strPoolSize := length_append ▸ room
              rcases ih later accepted with
                ⟨parts, len, rest, spells, denotes, laterRoom⟩
              have allowed : (Part.byte c).Allowed quote :=
                ⟨notQuote, notNewline, notEscape⟩
              exact ⟨.byte c :: parts, _, [c] ++ rest, .part allowed spells,
                text_cons.mpr ⟨[c], rest, rfl, denotes, rfl⟩,
                HasRoom.append.mpr ⟨room, laterRoom⟩⟩

end Gengo.Lexing
