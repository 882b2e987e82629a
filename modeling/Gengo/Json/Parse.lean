import Gengo.Json.Trees
import Gengo.Maps.Keys

/-!
# A text spells one document

The spellings of characters are told apart by their first characters, and lists of elements and
members by their first separators, so that the grammar is unambiguous.
-/

namespace Gengo.Json

open List Option

theorem length_of_hexUnit {digits : List Char} {unit : ℕ} (isUnit : hexUnit digits = some unit) :
    digits.length = 4 := by
  unfold hexUnit at isUnit
  split at isUnit
  · rfl
  · cases isUnit

variable {text : List Char} {c : Char}

/-- Where two texts begin with the spellings of characters, the characters are the same. -/
theorem CharSpelling.unique {first second text' : List Char} {c' : Char}
    (isChar : CharSpelling first c) (isChar' : CharSpelling second c')
    (same : first ++ text = second ++ text') : c = c' ∧ text = text' := by
  cases isChar with
  | plain notQuote notEscape _ =>
    cases isChar' with
    | plain _ _ _ =>
      rw [singleton_append, singleton_append, List.cons.injEq] at same
      exact same
    | escape _ | unit _ _ | pair _ _ _ _ =>
      rw [singleton_append, cons_append, List.cons.injEq] at same
      exact absurd same.1 notEscape
  | escape isEscape =>
    cases isChar' with
    | plain _ notEscape _ =>
      rw [singleton_append, cons_append, List.cons.injEq] at same
      exact absurd same.1.symm notEscape
    | escape isEscape' =>
      simp only [cons_append, nil_append, List.cons.injEq, true_and] at same
      rw [same.1, isEscape', some.injEq] at isEscape
      exact ⟨isEscape.symm, same.2⟩
    | unit _ _ | pair _ _ _ _ =>
      simp only [cons_append, nil_append, List.cons.injEq, true_and] at same
      rw [same.1] at isEscape
      cases isEscape
  | unit isUnit isScalar =>
    cases isChar' with
    | plain _ notEscape _ =>
      rw [singleton_append, cons_append, List.cons.injEq] at same
      exact absurd same.1.symm notEscape
    | escape isEscape' =>
      simp only [cons_append, nil_append, List.cons.injEq, true_and] at same
      rw [← same.1] at isEscape'
      cases isEscape'
    | unit isUnit' _ =>
      simp only [cons_append, List.cons.injEq, true_and] at same
      rcases append_inj same
        ((length_of_hexUnit isUnit).trans (length_of_hexUnit isUnit').symm) with ⟨rfl, rest⟩
      rw [isUnit, some.injEq] at isUnit'
      exact ⟨congrArg Char.ofNat isUnit', rest⟩
    | pair isHigh _ high _ =>
      simp only [cons_append, append_assoc, List.cons.injEq, true_and] at same
      rcases append_inj same
        ((length_of_hexUnit isUnit).trans (length_of_hexUnit isHigh).symm) with ⟨rfl, -⟩
      rw [isUnit, some.injEq] at isHigh
      unfold isSurrogate at isScalar
      omega
  | pair isHigh isLow high low =>
    cases isChar' with
    | plain _ notEscape _ =>
      rw [singleton_append, cons_append, List.cons.injEq] at same
      exact absurd same.1.symm notEscape
    | escape isEscape' =>
      simp only [cons_append, nil_append, List.cons.injEq, true_and] at same
      rw [← same.1] at isEscape'
      cases isEscape'
    | unit isUnit' isScalar =>
      simp only [cons_append, append_assoc, List.cons.injEq, true_and] at same
      rcases append_inj same
        ((length_of_hexUnit isHigh).trans (length_of_hexUnit isUnit').symm) with ⟨rfl, -⟩
      rw [isUnit', some.injEq] at isHigh
      unfold isSurrogate at isScalar
      omega
    | pair isHigh' isLow' _ _ =>
      simp only [cons_append, append_assoc, List.cons.injEq, true_and] at same
      rcases append_inj same
        ((length_of_hexUnit isHigh).trans (length_of_hexUnit isHigh').symm) with ⟨rfl, rest⟩
      simp only [List.cons.injEq, true_and] at rest
      rcases append_inj rest
        ((length_of_hexUnit isLow).trans (length_of_hexUnit isLow').symm) with ⟨rfl, tail⟩
      rw [isHigh, some.injEq] at isHigh'
      rw [isLow, some.injEq] at isLow'
      subst isHigh' isLow'
      exact ⟨rfl, tail⟩

theorem CharSpelling.ne_nil {spelling : List Char} (isChar : CharSpelling spelling c) :
    spelling ≠ [] := by
  cases isChar <;> exact cons_ne_nil _ _

theorem Chars.unique {chars chars' : List Char} (spells : Chars text chars)
    (spells' : Chars text chars') : chars = chars' := by
  induction spells generalizing chars' with
  | nil =>
    generalize same : [] = text at spells'
    cases spells' with
    | nil => rfl
    | cons isChar _ => exact absurd (append_eq_nil_iff.mp same.symm).1 isChar.ne_nil
  | @cons spelling rest _ _ isChar _ ih =>
    generalize same : spelling ++ rest = text at spells'
    cases spells' with
    | nil => exact absurd (append_eq_nil_iff.mp same).1 isChar.ne_nil
    | cons isChar' spells' =>
      rcases isChar.unique isChar' same with ⟨rfl, rfl⟩
      rw [ih spells']

theorem StringText.unique {chars chars' : List Char} (isString : StringText text chars)
    (isString' : StringText text chars') : chars = chars' := by
  cases isString with
  | @mk body _ spells =>
    generalize same : '"' :: (body ++ ['"']) = text at isString'
    cases isString' with
    | mk spells' =>
      rw [List.cons.injEq, append_cancel_right_eq] at same
      rw [← same.2] at spells'
      exact spells.unique spells'

variable {before : List Char}

theorem dropWhile_isBlank (blank : Blank before)
    (first : ∀ c, text.head? = some c → isBlank c = false) :
    (before ++ text).dropWhile isBlank = text := by
  rw [dropWhile_append_of_pos blank]
  cases text with
  | nil => rfl
  | cons c text => rw [dropWhile_cons, first c rfl, if_neg Bool.false_ne_true]

/-- Blanks around texts that neither begin nor end with one are told by the whole. -/
theorem text_eq_of_blanks {after before' text' after' : List Char} (blankBefore : Blank before)
    (blankAfter : Blank after) (blankBefore' : Blank before') (blankAfter' : Blank after')
    (solid : Solid text) (solid' : Solid text')
    (same : before ++ (text ++ after) = before' ++ (text' ++ after')) : text = text' := by
  have rest : text ++ after = text' ++ after' := by
    have dropped := congrArg (List.dropWhile isBlank) same
    rw [dropWhile_isBlank blankBefore, dropWhile_isBlank blankBefore'] at dropped
    · exact dropped
    · intro c isHead
      rw [List.head?_append_of_ne_nil _ solid'.nonempty] at isHead
      exact solid'.first c isHead
    · intro c isHead
      rw [List.head?_append_of_ne_nil _ solid.nonempty] at isHead
      exact solid.first c isHead
  have reversed := congrArg List.reverse rest
  rw [reverse_append, reverse_append] at reversed
  have dropped := congrArg (List.dropWhile isBlank) reversed
  rw [dropWhile_isBlank (fun c mem => blankAfter c (mem_reverse.mp mem)),
    dropWhile_isBlank (fun c mem => blankAfter' c (mem_reverse.mp mem))] at dropped
  · exact reverse_injective dropped
  · intro c isHead
    rw [List.head?_reverse] at isHead
    exact solid'.last c isHead
  · intro c isHead
    rw [List.head?_reverse] at isHead
    exact solid.last c isHead

theorem Spells.eq_of_head {rest : List Char} {doc : Doc (List Char)}
    (spells : Spells (c :: rest) doc) :
    (c = 'n' → doc = .null) ∧ (c = 't' → doc = .boolean true) ∧ (c = 'f' → doc = .boolean false) ∧
      (c = '"' → ∃ chars, StringText (c :: rest) chars ∧ doc = .string chars) ∧
      (c.isDigit = true ∨ c = '-' → doc = .number (c :: rest)) := by
  generalize same : c :: rest = text at spells
  cases spells with
  | number isNumber =>
    rcases isNumber.exists_head with ⟨first, isHead, numeric⟩
    rw [← same, List.head?_cons, some.injEq] at isHead
    subst isHead
    refine ⟨?_, ?_, ?_, ?_, fun _ => rfl⟩
    all_goals
      rintro rfl
      exact absurd numeric (by decide)
  | string isString =>
    cases isString with
    | mk spells =>
      cases same
      refine ⟨?_, ?_, ?_, fun _ => ⟨_, .mk spells, rfl⟩, ?_⟩
      all_goals exact fun wrong => absurd wrong (by decide)
  | null | true_ | false_ | emptyArray _ | array _ | emptyObject _ | object _ =>
    cases same
    refine ⟨?_, ?_, ?_, ?_, ?_⟩
    all_goals first
      | exact fun _ => rfl
      | exact fun wrong => absurd wrong (by decide)

theorem Blank.not_elements {items : List (Doc (List Char))} (blank : Blank text)
    (elements : Elements text items) : False := by
  have padded : ∀ {before rest : List Char} {doc : Doc (List Char)}, Padded before doc →
      ¬Blank (before ++ rest) := by
    intro before rest doc isPadded isBlank_
    cases isPadded with
    | @mk front middle back _ _ spells _ =>
      have solid := spells.solid
      cases middle with
      | nil => exact solid.nonempty rfl
      | cons c middle =>
        have notBlank := solid.first c rfl
        rw [isBlank_ c (by simp)] at notBlank
        cases notBlank
  cases elements with
  | last element =>
    have isPadded := @padded _ [] _ element
    rw [append_nil] at isPadded
    exact isPadded blank
  | cons element _ => exact padded element blank

theorem Blank.not_members {members : List (List Char × Doc (List Char))} (blank : Blank text)
    (isMembers : Members text members) : False := by
  have colon : ∀ {before : List Char} {entry : List Char × Doc (List Char)}, Member before entry →
      ':' ∈ before := by
    intro before entry isMember
    cases isMember with
    | mk _ _ _ _ => simp
  cases isMembers with
  | last isMember => exact absurd (blank ':' (colon isMember)) (by decide)
  | cons isMember _ =>
    exact absurd (blank ':' (mem_append_left _ (colon isMember))) (by decide)

theorem key_unique {key after name rest before' key' after' name' rest' : List Char}
    (blankBefore : Blank before) (isKey : StringText key name) (blankAfter : Blank after)
    (blankBefore' : Blank before') (isKey' : StringText key' name') (blankAfter' : Blank after')
    (same : before ++ (key ++ after) ++ ':' :: rest = before' ++ (key' ++ after') ++ ':' :: rest') :
    name = name' ∧ rest = rest' := by
  have closed := blankBefore.closed.append (isKey.closed.append blankAfter.closed)
  have closed' := blankBefore'.closed.append (isKey'.closed.append blankAfter'.closed)
  rcases closed.split closed' (.inr rfl) same with ⟨keys, rests⟩
  obtain rfl := text_eq_of_blanks blankBefore blankAfter blankBefore' blankAfter' isKey.solid
    isKey'.solid keys
  exact ⟨isKey.unique isKey', rests⟩

mutual

theorem Spells.unique {text : List Char} {doc doc' : Doc (List Char)} :
    Spells text doc → Spells text doc' → doc = doc'
  | .null, spells' => (spells'.eq_of_head.1 rfl).symm
  | .true_, spells' => (spells'.eq_of_head.2.1 rfl).symm
  | .false_, spells' => (spells'.eq_of_head.2.2.1 rfl).symm
  | .number isNumber, spells' => by
    rcases isNumber.exists_head with ⟨c, isHead, numeric⟩
    rcases List.head?_eq_some_iff.mp isHead with ⟨rest, rfl⟩
    exact (spells'.eq_of_head.2.2.2.2 numeric).symm
  | .string isString, spells' => by
    cases isString with
    | mk spells =>
      rcases spells'.eq_of_head.2.2.2.1 rfl with ⟨chars, isString', rfl⟩
      rw [(StringText.mk spells).unique isString']
  | .emptyArray isBlank, spells' => by
    rcases spells'.array_cases with ⟨-, rfl⟩ | ⟨items, elements, -⟩
    · rfl
    · exact (isBlank.not_elements elements).elim
  | .array elements, spells' => by
    rcases spells'.array_cases with ⟨isBlank, -⟩ | ⟨items, elements', rfl⟩
    · exact (isBlank.not_elements elements).elim
    · rw [elements.unique elements']
  | .emptyObject isBlank, spells' => by
    rcases spells'.object_cases with ⟨-, rfl⟩ | ⟨members, isMembers, -⟩
    · rfl
    · exact (isBlank.not_members isMembers).elim
  | .object isMembers, spells' => by
    rcases spells'.object_cases with ⟨isBlank, -⟩ | ⟨members, isMembers', rfl⟩
    · exact (isBlank.not_members isMembers).elim
    · rw [isMembers.unique isMembers']

theorem Padded.unique {text : List Char} {doc doc' : Doc (List Char)} :
    Padded text doc → Padded text doc' → doc = doc'
  | @Padded.mk before inner after _ blankBefore spells blankAfter, padded' => by
    generalize same : before ++ (inner ++ after) = whole at padded'
    cases padded' with
    | mk blankBefore' spells' blankAfter' =>
      obtain rfl := text_eq_of_blanks blankBefore blankAfter blankBefore' blankAfter'
        spells.solid spells'.solid same
      exact spells.unique spells'

theorem Elements.unique {text : List Char} {docs docs' : List (Doc (List Char))} :
    Elements text docs → Elements text docs' → docs = docs'
  | .last element, elements' => by
    cases elements' with
    | last element' => rw [element.unique element']
    | cons element' _ =>
      exact absurd rfl (element.closed.not_separated element'.closed (.inl rfl))
  | @Elements.cons first rest _ _ element elements, elements' => by
    generalize same : first ++ ',' :: rest = whole at elements'
    cases elements' with
    | last element' =>
      exact absurd same.symm (element'.closed.not_separated element.closed (.inl rfl))
    | cons element' elements' =>
      rcases element.closed.split element'.closed (.inl rfl) same with ⟨rfl, rfl⟩
      rw [element.unique element', elements.unique elements']

theorem Members.unique {text : List Char} {entries entries' : List (List Char × Doc (List Char))} :
    Members text entries → Members text entries' → entries = entries'
  | .last (@Member.mk before key after text _ _ blankBefore isKey blankAfter value), members' => by
    generalize same : before ++ (key ++ after) ++ ':' :: text = whole at members'
    cases members' with
    | last isMember =>
      cases isMember with
      | mk blankBefore' isKey' blankAfter' value' =>
        rcases key_unique blankBefore isKey blankAfter blankBefore' isKey' blankAfter' same
          with ⟨rfl, rfl⟩
        rw [value.unique value']
    | cons isMember _ =>
      cases isMember with
      | mk blankBefore' isKey' blankAfter' value' =>
        rw [append_assoc _ (':' :: _), cons_append] at same
        rcases key_unique blankBefore isKey blankAfter blankBefore' isKey' blankAfter' same
          with ⟨-, rest⟩
        exact absurd rest (value.closed.not_separated value'.closed (.inl rfl))
  | @Members.cons _ rest _ _
      (@Member.mk before key after text _ _ blankBefore isKey blankAfter value) isMembers,
      members' => by
      generalize same : before ++ (key ++ after) ++ ':' :: text ++ ',' :: rest = whole at members'
      rw [append_assoc _ (':' :: _), cons_append] at same
      cases members' with
      | last isMember =>
        cases isMember with
        | mk blankBefore' isKey' blankAfter' value' =>
          rcases key_unique blankBefore isKey blankAfter blankBefore' isKey' blankAfter' same
            with ⟨-, rest⟩
          exact absurd rest.symm (value'.closed.not_separated value.closed (.inl rfl))
      | cons isMember isMembers' =>
        cases isMember with
        | mk blankBefore' isKey' blankAfter' value' =>
          rw [append_assoc _ (':' :: _), cons_append] at same
          rcases key_unique blankBefore isKey blankAfter blankBefore' isKey' blankAfter' same
            with ⟨rfl, rests⟩
          rcases value.closed.split value'.closed (.inl rfl) rests with ⟨rfl, rfl⟩
          rw [value.unique value', isMembers.unique isMembers']

end

/-!
# Reading JSON back

The parser of the standard library gives a document with its numbers read, and the document is
turned into a value. The value is new, so that it is told by the tree that it unfolds to. How
floats are printed and read, and the parser, are arguments.
-/

/-- A number of a document that has been parsed (`std.json.Value`). -/
inductive StdNumber
  | integer (value : Int64)
  | float (bits : UInt64)
  | numberString (text : List Char)

/-- What is known of the standard library: how a float is printed, how the text of a number is
read as one, and what the parser makes of a text. -/
structure Std where
  printFloat : UInt64 → List Char
  parseFloat : List Char → Option UInt64
  parseFromSlice : List Char → Option (Doc StdNumber)

/-- The magnitude of a float is below that of the infinities. -/
def isFinite (bits : UInt64) : Bool :=
  bits &&& 0x7FFFFFFFFFFFFFFF < 0x7FF0000000000000

/-- `isNumberFormattedLikeAnInteger`. -/
def isNumberFormattedLikeAnInteger (text : List Char) : Bool :=
  text != ['-', '0'] && text.all fun c => c != '.' && c != 'e' && c != 'E'

/-- The integer that a text of digits with or without a sign spells. -/
def parseInt : List Char → ℤ
  | '-' :: digits => -(Nat.ofDigitChars 10 digits 0 : ℕ)
  | digits => (Nat.ofDigitChars 10 digits 0 : ℕ)

def fitsInt64 (n : ℤ) : Bool :=
  -2 ^ 63 ≤ n && n < 2 ^ 63

/-- `Value.parseFromNumberSlice`. -/
def parseFromNumberSlice (parseFloat : List Char → Option UInt64) (text : List Char) : StdNumber :=
  if isNumberFormattedLikeAnInteger text then
    if fitsInt64 (parseInt text) then .integer (Int64.ofInt (parseInt text))
    else .numberString text
  else
    match parseFloat text with
    | some bits => if isFinite bits then .float bits else .numberString text
    | none => .numberString text

namespace Doc

variable {ν μ : Type} (f : ν → μ)

mutual

def mapNumbers : Doc ν → Doc μ
  | .null => .null
  | .boolean value => .boolean value
  | .number n => .number (f n)
  | .string chars => .string chars
  | .array items => .array (mapAll items)
  | .object members => .object (mapMembers members)

def mapAll : List (Doc ν) → List (Doc μ)
  | [] => []
  | item :: items => mapNumbers item :: mapAll items

def mapMembers : List (List Char × Doc ν) → List (List Char × Doc μ)
  | [] => []
  | (name, value) :: members => (name, mapNumbers value) :: mapMembers members

end

mutual

/-- No object has two members of one name. -/
def NamesNodup : Doc ν → Prop
  | .array items => AllNamesNodup items
  | .object members => (members.map Prod.fst).Nodup ∧ AllMembersNamesNodup members
  | _ => True

def AllNamesNodup : List (Doc ν) → Prop
  | [] => True
  | item :: items => NamesNodup item ∧ AllNamesNodup items

def AllMembersNamesNodup : List (List Char × Doc ν) → Prop
  | [] => True
  | (_, value) :: members => NamesNodup value ∧ AllMembersNamesNodup members

end

end Doc

/-- What the standard library promises: a finite float is printed as a number that is read as the
float again, and the parser gives the document that a text spells, but refuses one with an object
that has two members of one name. -/
structure Std.Correct (std : Std) : Prop where
  prints : ∀ bits, isFinite bits = true → Number (std.printFloat bits)
  reads : ∀ bits, isFinite bits = true → std.parseFloat (std.printFloat bits) = some bits
  parses : ∀ text doc, Padded text doc → doc.NamesNodup →
    std.parseFromSlice text = some (doc.mapNumbers (parseFromNumberSlice std.parseFloat))
  refuses : ∀ text doc, Padded text doc → ¬doc.NamesNodup → std.parseFromSlice text = none

variable (std : Std)

mutual

/-- `jsonValueToGengo`. -/
def jsonValueToGengo : Doc StdNumber → Except Trap Tree
  | .null => .ok .null
  | .boolean value => .ok (.boolean value)
  | .number (.integer value) => .ok (.int value)
  | .number (.float bits) => .ok (.float bits)
  | .number (.numberString text) =>
    match std.parseFloat text with
    | some bits => .ok (.float bits)
    | none => .error .typeError
  | .string chars => .ok (.string .dynString chars)
  | .array items => do
    let items ← jsonItemsToGengo items
    return .array items
  | .object members => do
    let members ← jsonMembersToGengo members
    return .object members

def jsonItemsToGengo : List (Doc StdNumber) → Except Trap (List Tree)
  | [] => .ok []
  | item :: items => do
    let item ← jsonValueToGengo item
    let items ← jsonItemsToGengo items
    return item :: items

def jsonMembersToGengo : List (List Char × Doc StdNumber) → Except Trap (List (Key × Tree))
  | [] => .ok []
  | (name, value) :: members => do
    let value ← jsonValueToGengo value
    let members ← jsonMembersToGengo members
    return (⟨false, .dynString, name⟩, value) :: members

end

/-- `jsonParseNative`. -/
def jsonParseNative (text : List Char) : Except Trap Tree :=
  match std.parseFromSlice text with
  | none => .error .typeError
  | some doc => jsonValueToGengo std doc

namespace Tree

mutual

/-- A tree of the kinds of JSON: the keys of its maps are strings. -/
def Plain : Tree → Prop
  | .null | .boolean _ | .int _ | .string .. => True
  | .float bits => isFinite bits = true
  | .array items => AllPlain items
  | .object members => AllMembersPlain members
  | _ => False

def AllPlain : List Tree → Prop
  | [] => True
  | item :: items => Plain item ∧ AllPlain items

def AllMembersPlain : List (Key × Tree) → Prop
  | [] => True
  | (key, value) :: members => (key.named = false ∧ Plain value) ∧ AllMembersPlain members

end

mutual

/-- The document that the text of a tree of JSON spells. -/
def doc (printFloat : UInt64 → List Char) : Tree → Doc (List Char)
  | .boolean value => .boolean value
  | .int value => .number (intText value.toInt)
  | .float bits => .number (printFloat bits)
  | .string _ chars => .string chars
  | .array items => .array (docs printFloat items)
  | .object members => .object (memberDocs printFloat members)
  | _ => .null

def docs (printFloat : UInt64 → List Char) : List Tree → List (Doc (List Char))
  | [] => []
  | item :: items => doc printFloat item :: docs printFloat items

def memberDocs (printFloat : UInt64 → List Char) :
    List (Key × Tree) → List (List Char × Doc (List Char))
  | [] => []
  | (key, value) :: members => (key.chars, doc printFloat value) :: memberDocs printFloat members

end

/-- The float is printed like an integer of 64 bits, and so read as one. -/
def printsAsInt (printFloat : UInt64 → List Char) (bits : UInt64) : Bool :=
  isNumberFormattedLikeAnInteger (printFloat bits) && fitsInt64 (parseInt (printFloat bits))

mutual

/-- No map has two keys that are the same string. -/
def KeysDiffer : Tree → Prop
  | .array items => AllKeysDiffer items
  | .object members =>
    (members.map fun member => member.1.chars).Nodup ∧ AllMembersKeysDiffer members
  | _ => True

def AllKeysDiffer : List Tree → Prop
  | [] => True
  | item :: items => KeysDiffer item ∧ AllKeysDiffer items

def AllMembersKeysDiffer : List (Key × Tree) → Prop
  | [] => True
  | (_, value) :: members => KeysDiffer value ∧ AllMembersKeysDiffer members

end

mutual

/-- No float is printed like an integer, and no string is a view of another. -/
def Stays (printFloat : UInt64 → List Char) : Tree → Prop
  | .float bits => printsAsInt printFloat bits = false
  | .string form _ => form ≠ .stringView
  | .array items => AllStay printFloat items
  | .object members => AllMembersStay printFloat members
  | _ => True

def AllStay (printFloat : UInt64 → List Char) : List Tree → Prop
  | [] => True
  | item :: items => Stays printFloat item ∧ AllStay printFloat items

def AllMembersStay (printFloat : UInt64 → List Char) : List (Key × Tree) → Prop
  | [] => True
  | (key, value) :: members =>
    (key.form ≠ .stringView ∧ Stays printFloat value) ∧ AllMembersStay printFloat members

end

/-- `deepEqualValue` on strings: a constant is compared with any string, and one on the heap with
those of its own form. -/
def StringsEqual (form form' : StringForm) (chars chars' : List Char) : Prop :=
  (form = .constant ∨ form' = .constant ∨ form = form') ∧ chars = chars'

/-- Keys that are equal strings. -/
def KeysEqual (key key' : Key) : Prop :=
  (key.named = false ∧ key'.named = false) ∧
    StringsEqual key.form key'.form key.chars key'.chars

mutual

/-- `deepEqualValue` on trees of JSON: numbers of one kind, strings in forms that are compared,
arrays element by element, and maps as finite maps without an order. -/
def DeepEqual : Tree → Tree → Prop
  | .null, .null => True
  | .boolean first, .boolean second => first = second
  | .int first, .int second => first = second
  | .float first, .float second => Maps.floatEquals first second = true
  | .string form first, .string form' second => StringsEqual form form' first second
  | .array items, .array items' => AllDeepEqual items items'
  | .object members, .object members' =>
    members.length = members'.length ∧ EachDeepEqual members members'
  | _, _ => False

def AllDeepEqual : List Tree → List Tree → Prop
  | [], [] => True
  | item :: items, item' :: items' => DeepEqual item item' ∧ AllDeepEqual items items'
  | _, _ => False

/-- Every member has one of the same key and an equal value on the other side. -/
def EachDeepEqual : List (Key × Tree) → List (Key × Tree) → Prop
  | [], _ => True
  | (key, value) :: members, members' =>
    (∃ member ∈ members', KeysEqual key member.1 ∧ DeepEqual value member.2) ∧
      EachDeepEqual members members'

end

end Tree

end Gengo.Json
