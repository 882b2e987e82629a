import Mathlib.Algebra.GroupWithZero.Nat
import Mathlib.Data.List.DropRight

/-!
# JSON texts

A document, and the texts that spell it. A number of a document is what is kept of it: in the
grammar its own spelling. Lone surrogates denote no character, so a text with one spells nothing.
-/

namespace Gengo.Json

open Nat

inductive Doc (ν : Type)
  | null
  | boolean (value : Bool)
  | number (number : ν)
  | string (chars : List Char)
  | array (items : List (Doc ν))
  | object (members : List (List Char × Doc ν))

def isBlank (c : Char) : Bool :=
  c == ' ' || c == '\t' || c == '\n' || c == '\r'

def Blank (text : List Char) : Prop :=
  ∀ c ∈ text, isBlank c = true

def Digits (text : List Char) : Prop :=
  text ≠ [] ∧ ∀ c ∈ text, c.isDigit = true

/-- The digits before the point: no zero stands in front. -/
inductive IntPart : List Char → Prop
  | zero : IntPart ['0']
  | positive {first : Char} {rest : List Char} (isDigit : first.isDigit = true)
      (notZero : first ≠ '0') (digits : ∀ c ∈ rest, c.isDigit = true) : IntPart (first :: rest)

inductive FracPart : List Char → Prop
  | absent : FracPart []
  | digits {text : List Char} (digits : Digits text) : FracPart ('.' :: text)

inductive ExpPart : List Char → Prop
  | absent : ExpPart []
  | digits {e : Char} {sign text : List Char} (isExp : e = 'e' ∨ e = 'E')
      (isSign : sign = [] ∨ sign = ['+'] ∨ sign = ['-']) (digits : Digits text) :
      ExpPart (e :: (sign ++ text))

inductive Number : List Char → Prop
  | mk {sign int frac exp : List Char} (isSign : sign = [] ∨ sign = ['-']) (isInt : IntPart int)
      (isFrac : FracPart frac) (isExp : ExpPart exp) : Number (sign ++ int ++ frac ++ exp)

/-- The characters that a reversed solidus and a letter stand for. -/
def escaped : Char → Option Char
  | '"' => some '"'
  | '\\' => some '\\'
  | '/' => some '/'
  | 'b' => some '\x08'
  | 'f' => some '\x0c'
  | 'n' => some '\n'
  | 'r' => some '\r'
  | 't' => some '\t'
  | _ => none

def hexValue (c : Char) : Option ℕ :=
  if c.isDigit then some (c.toNat - '0'.toNat)
  else if 'a' ≤ c ∧ c ≤ 'f' then some (c.toNat - 'a'.toNat + 10)
  else if 'A' ≤ c ∧ c ≤ 'F' then some (c.toNat - 'A'.toNat + 10)
  else none

/-- Four hexadecimal digits. -/
def hexUnit : List Char → Option ℕ
  | [a, b, c, d] => do
    let a ← hexValue a
    let b ← hexValue b
    let c ← hexValue c
    let d ← hexValue d
    return ((a * 16 + b) * 16 + c) * 16 + d
  | _ => none

def isSurrogate (unit : ℕ) : Prop :=
  0xd800 ≤ unit ∧ unit < 0xe000

/-- The spelling of one character inside a string. -/
inductive CharSpelling : List Char → Char → Prop
  | plain {c : Char} (notQuote : c ≠ '"') (notEscape : c ≠ '\\') (notControl : 0x20 ≤ c.toNat) :
      CharSpelling [c] c
  | escape {e c : Char} (isEscape : escaped e = some c) : CharSpelling ['\\', e] c
  | unit {digits : List Char} {unit : ℕ} (isUnit : hexUnit digits = some unit)
      (isScalar : ¬isSurrogate unit) : CharSpelling ('\\' :: 'u' :: digits) (Char.ofNat unit)
  | pair {high low : List Char} {first second : ℕ} (isHigh : hexUnit high = some first)
      (isLow : hexUnit low = some second) (highSurrogate : 0xd800 ≤ first ∧ first < 0xdc00)
      (lowSurrogate : 0xdc00 ≤ second ∧ second < 0xe000) :
      CharSpelling ('\\' :: 'u' :: (high ++ '\\' :: 'u' :: low))
        (Char.ofNat (0x10000 + (first - 0xd800) * 0x400 + (second - 0xdc00)))

inductive Chars : List Char → List Char → Prop
  | nil : Chars [] []
  | cons {spelling text : List Char} {c : Char} {chars : List Char}
      (isChar : CharSpelling spelling c) (rest : Chars text chars) :
      Chars (spelling ++ text) (c :: chars)

inductive StringText : List Char → List Char → Prop
  | mk {text chars : List Char} (spells : Chars text chars) :
      StringText ('"' :: (text ++ ['"'])) chars

mutual

/-- A text spells a document. -/
inductive Spells : List Char → Doc (List Char) → Prop
  | null : Spells ['n', 'u', 'l', 'l'] .null
  | true_ : Spells ['t', 'r', 'u', 'e'] (.boolean true)
  | false_ : Spells ['f', 'a', 'l', 's', 'e'] (.boolean false)
  | number {text : List Char} (isNumber : Number text) : Spells text (.number text)
  | string {text chars : List Char} (isString : StringText text chars) :
      Spells text (.string chars)
  | emptyArray {blank : List Char} (isBlank : Blank blank) :
      Spells ('[' :: (blank ++ [']'])) (.array [])
  | array {text : List Char} {items : List (Doc (List Char))} (elements : Elements text items) :
      Spells ('[' :: (text ++ [']'])) (.array items)
  | emptyObject {blank : List Char} (isBlank : Blank blank) :
      Spells ('{' :: (blank ++ ['}'])) (.object [])
  | object {text : List Char} {members : List (List Char × Doc (List Char))}
      (isMembers : Members text members) : Spells ('{' :: (text ++ ['}'])) (.object members)

/-- A document with blanks around it. -/
inductive Padded : List Char → Doc (List Char) → Prop
  | mk {before text after : List Char} {doc : Doc (List Char)} (blankBefore : Blank before)
      (spells : Spells text doc) (blankAfter : Blank after) :
      Padded (before ++ (text ++ after)) doc

inductive Elements : List Char → List (Doc (List Char)) → Prop
  | last {text : List Char} {doc : Doc (List Char)} (element : Padded text doc) :
      Elements text [doc]
  | cons {text rest : List Char} {doc : Doc (List Char)} {docs : List (Doc (List Char))}
      (element : Padded text doc) (elements : Elements rest docs) :
      Elements (text ++ ',' :: rest) (doc :: docs)

inductive Member : List Char → List Char × Doc (List Char) → Prop
  | mk {before key after text name : List Char} {doc : Doc (List Char)}
      (blankBefore : Blank before) (isKey : StringText key name) (blankAfter : Blank after)
      (value : Padded text doc) : Member (before ++ (key ++ after) ++ ':' :: text) (name, doc)

inductive Members : List Char → List (List Char × Doc (List Char)) → Prop
  | last {text : List Char} {entry : List Char × Doc (List Char)} (isMember : Member text entry) :
      Members text [entry]
  | cons {text rest : List Char} {entry : List Char × Doc (List Char)}
      {entries : List (List Char × Doc (List Char))} (isMember : Member text entry)
      (members : Members rest entries) : Members (text ++ ',' :: rest) (entry :: entries)

end

/-- A text of the JSON grammar. -/
def IsText (text : List Char) : Prop :=
  ∃ doc, Padded text doc

/-!
# Numbers as they are written

The decimal digits of integers, and of fixed-point numbers without the zeros at the end of the
fraction. Both are numbers of the grammar, and the digits are read back.
-/

open List

theorem digits_toDigits (n : ℕ) : Digits (Nat.toDigits 10 n) :=
  ⟨toDigits_ne_nil, fun _ mem => isDigit_of_mem_toDigits (by decide) (by decide) mem⟩

theorem intPart_toDigits (n : ℕ) : IntPart (Nat.toDigits 10 n) := by
  induction n using Nat.strong_induction_on with
  | h n ih =>
    by_cases small : n < 10
    · rw [toDigits_of_lt_base small]
      by_cases isZero : n = 0
      · rw [isZero]
        exact .zero
      · refine .positive ?_ ?_ fun c mem => absurd mem not_mem_nil
        · exact (digits_toDigits n).2 _ (by rw [toDigits_of_lt_base small]; simp)
        · intro same
          have read := ofDigitChars_ten_toDigits (n := n)
          rw [toDigits_of_lt_base small, same] at read
          exact isZero read.symm
    · have large := not_lt.mp small
      have rest := ih (n / 10) (by omega)
      have positive : n / 10 ≠ 0 := by omega
      rw [toDigits_of_base_le (by decide) large]
      generalize same : Nat.toDigits 10 (n / 10) = front at rest
      cases rest with
      | zero =>
        have read := ofDigitChars_ten_toDigits (n := n / 10)
        rw [same] at read
        exact absurd read.symm positive
      | positive isDigit notZero digits =>
        refine .positive isDigit notZero fun c mem => ?_
        rcases mem_append.mp mem with inFront | isLast
        · exact digits c inFront
        · rw [mem_singleton.mp isLast]
          have few : n % 10 < 10 := mod_lt n (by decide)
          exact (digits_toDigits (n % 10)).2 _ (by rw [toDigits_of_lt_base few]; simp)

/-- An integer as it is printed. -/
def intText (n : ℤ) : List Char :=
  (if n < 0 then ['-'] else []) ++ Nat.toDigits 10 n.natAbs

theorem number_intText (n : ℤ) : Number (intText n) := by
  have isNumber : Number ((if n < 0 then ['-'] else []) ++ Nat.toDigits 10 n.natAbs ++ [] ++ []) :=
    .mk (by split <;> simp) (intPart_toDigits _) .absent .absent
  rwa [append_nil, append_nil] at isNumber

/-- A text without the zeros at its end, and without a point that is left at its end. -/
def trimFraction (text : List Char) : List Char :=
  let stripped := text.rdropWhile (· == '0')
  if stripped.getLast? = some '.' then stripped.dropLast else stripped

/-- `formatDecimalString`. -/
def formatDecimalString (raw : ℤ) (scale : ℕ) : List Char :=
  if scale = 0 then intText raw
  else
    let factor := 10 ^ scale
    let fracDigits := Nat.toDigits 10 (raw.natAbs % factor)
    trimFraction ((if raw < 0 then ['-'] else []) ++ Nat.toDigits 10 (raw.natAbs / factor) ++
      '.' :: (List.replicate (scale - fracDigits.length) '0' ++ fracDigits))

theorem rdropWhile_fraction (front frac : List Char) :
    (front ++ '.' :: frac).rdropWhile (· == '0') = front ++ '.' :: frac.rdropWhile (· == '0') := by
  induction frac using List.reverseRecOn with
  | nil =>
    rw [rdropWhile_nil]
    exact rdropWhile_concat_neg _ _ _ (by decide)
  | append_singleton frac c ih =>
    rw [← cons_append, ← append_assoc, rdropWhile_concat, rdropWhile_concat]
    split
    · exact ih
    · rw [append_assoc, cons_append]

theorem number_trimFraction {sign int frac : List Char} (isSign : sign = [] ∨ sign = ['-'])
    (isInt : IntPart int) (digits : ∀ c ∈ frac, c.isDigit = true) :
    Number (trimFraction (sign ++ int ++ '.' :: frac)) := by
  have front := rdropWhile_prefix (· == '0') frac
  have kept : ∀ c ∈ frac.rdropWhile (· == '0'), c.isDigit = true :=
    fun c mem => digits c (front.subset mem)
  rw [trimFraction, rdropWhile_fraction]
  generalize frac.rdropWhile (· == '0') = rest at kept
  rcases eq_nil_or_concat rest with rfl | ⟨front, c, rfl⟩
  · have isNumber : Number (sign ++ int ++ [] ++ []) := .mk isSign isInt .absent .absent
    simpa using isNumber
  · rw [concat_eq_append] at kept ⊢
    have isDigit := kept c (by simp)
    have isNumber : Number (sign ++ int ++ '.' :: (front ++ [c]) ++ []) :=
      .mk isSign isInt (.digits ⟨by simp, kept⟩) .absent
    have last : (sign ++ int ++ '.' :: (front ++ [c])).getLast? = some c := by
      rw [← cons_append, ← append_assoc, List.getLast?_concat]
    have notPoint : some c ≠ some '.' := by
      rw [Ne, Option.some.injEq]
      rintro rfl
      cases isDigit
    rw [append_nil] at isNumber
    rw [last, if_neg notPoint]
    exact isNumber

theorem number_formatDecimalString (raw : ℤ) (scale : ℕ) :
    Number (formatDecimalString raw scale) := by
  unfold formatDecimalString
  split
  · exact number_intText raw
  · refine number_trimFraction (by split <;> simp) (intPart_toDigits _) fun c mem => ?_
    rcases mem_append.mp mem with isZero | isDigit
    · rw [eq_of_mem_replicate isZero]
      rfl
    · exact (digits_toDigits _).2 c isDigit

end Gengo.Json
