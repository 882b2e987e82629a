import Gengo.Json.Grammar
import Mathlib.Data.List.Forall2

/-!
# Where a JSON text can be split

A scan of a text keeps the depth of brackets and whether it stands in a string. A text is closed
if the scan ends where it began and met no comma, no colon and no closing bracket of its own. The
first separator behind a closed text is found in one way only.
-/

namespace Gengo.Json

open List

inductive Mode
  | outside | inString | escaped
  deriving DecidableEq, Repr

/-- One character of a scan: there is no result at a separator outside all brackets. -/
def scanChar : Mode × ℕ → Char → Option (Mode × ℕ)
  | (.inString, depth), c =>
    if c = '"' then some (.outside, depth)
    else if c = '\\' then some (.escaped, depth)
    else some (.inString, depth)
  | (.escaped, depth), _ => some (.inString, depth)
  | (.outside, depth), c =>
    if c = '"' then some (.inString, depth)
    else if c = '[' ∨ c = '{' then some (.outside, depth + 1)
    else if c = ']' ∨ c = '}' then if depth = 0 then none else some (.outside, depth - 1)
    else if (c = ',' ∨ c = ':') ∧ depth = 0 then none
    else some (.outside, depth)

def scan : Mode × ℕ → List Char → Option (Mode × ℕ)
  | state, [] => some state
  | state, c :: text => (scanChar state c).bind fun next => scan next text

def Closed (text : List Char) : Prop :=
  scan (.outside, 0) text = some (.outside, 0)

theorem scan_append (state : Mode × ℕ) (text rest : List Char) :
    scan state (text ++ rest) = (scan state text).bind fun next => scan next rest := by
  induction text generalizing state with
  | nil => rfl
  | cons c text ih =>
    rw [cons_append, scan, scan]
    cases scanChar state c with
    | none => rfl
    | some next => exact ih next

theorem scan_append_of_eq {state next : Mode × ℕ} {text : List Char}
    (scanned : scan state text = some next) (rest : List Char) :
    scan state (text ++ rest) = scan next rest := by
  rw [scan_append, scanned, Option.bind_some]

theorem scanChar_add {mode mode' : Mode} {depth depth' : ℕ} {c : Char}
    (scanned : scanChar (mode, depth) c = some (mode', depth')) (more : ℕ) :
    scanChar (mode, depth + more) c = some (mode', depth' + more) := by
  cases mode with
  | inString | escaped | outside => grind [scanChar]

theorem scan_add {mode mode' : Mode} {depth depth' : ℕ} {text : List Char}
    (scanned : scan (mode, depth) text = some (mode', depth')) (more : ℕ) :
    scan (mode, depth + more) text = some (mode', depth' + more) := by
  induction text generalizing mode depth with
  | nil =>
    rw [scan, Option.some.injEq, Prod.mk.injEq] at scanned
    rw [scan, scanned.1, scanned.2]
  | cons c text ih =>
    rw [scan, Option.bind_eq_some_iff] at scanned
    rcases scanned with ⟨⟨next, nextDepth⟩, first, rest⟩
    rw [scan, scanChar_add first, Option.bind_some]
    exact ih rest

theorem closed_nil : Closed [] :=
  rfl

variable {rest : List Char}

theorem Closed.append {text : List Char} (closed : Closed text) (closedRest : Closed rest) :
    Closed (text ++ rest) := by
  rw [Closed, scan_append_of_eq closed]
  exact closedRest

/-- A character that a scan goes over. -/
def Bare (c : Char) : Prop :=
  c ≠ '"' ∧ c ≠ '[' ∧ c ≠ '{' ∧ c ≠ ']' ∧ c ≠ '}' ∧ c ≠ ',' ∧ c ≠ ':'

instance (c : Char) : Decidable (Bare c) :=
  inferInstanceAs (Decidable (_ ∧ _))

theorem closed_of_bare {text : List Char} (bare : ∀ c ∈ text, Bare c) : Closed text := by
  induction text with
  | nil => exact closed_nil
  | cons c text ih =>
    rcases bare c (mem_cons_self ..) with
      ⟨quote, open_, brace, close, closeBrace, comma, colon⟩
    rw [Closed, scan]
    simp only [scanChar, if_neg quote, open_, brace, close, closeBrace, comma, colon, or_self,
      false_and, if_false, Option.bind_some]
    exact ih fun c mem => bare c (mem_cons_of_mem _ mem)

variable {separator : Char}

/-- Where the first separators behind two closed texts stand, the same text lies before them. -/
theorem Closed.split {first second rest' : List Char} (closed : Closed first)
    (closed' : Closed second) (separates : separator = ',' ∨ separator = ':')
    (same : first ++ separator :: rest = second ++ separator :: rest') :
    first = second ∧ rest = rest' := by
  have stops : ∀ {text more : List Char}, Closed text → ¬Closed (text ++ separator :: more) := by
    intro text more closedText scanned
    rw [Closed, scan_append_of_eq closedText, scan] at scanned
    rcases separates with rfl | rfl
    · cases scanned
    · cases scanned
  rcases append_eq_append_iff.mp same with
    ⟨middle, longer, shorter⟩ | ⟨middle, longer, shorter⟩
  · cases middle with
    | nil =>
      rw [append_nil] at longer
      rw [nil_append, List.cons.injEq] at shorter
      exact ⟨longer.symm, shorter.2⟩
    | cons c middle =>
      rw [cons_append, List.cons.injEq] at shorter
      rw [longer, ← shorter.1] at closed'
      exact absurd closed' (stops closed)
  · cases middle with
    | nil =>
      rw [append_nil] at longer
      rw [nil_append, List.cons.injEq] at shorter
      exact ⟨longer, shorter.2.symm⟩
    | cons c middle =>
      rw [cons_append, List.cons.injEq] at shorter
      rw [longer, ← shorter.1] at closed
      exact absurd closed (stops closed')

theorem Closed.not_separated {text first : List Char} (closed : Closed text)
    (closed' : Closed first) (separates : separator = ',' ∨ separator = ':') :
    text ≠ first ++ separator :: rest := by
  rintro rfl
  rw [Closed, scan_append_of_eq closed', scan] at closed
  rcases separates with rfl | rfl
  · cases closed
  · cases closed

/-- Items with commas between them. -/
def commaSeparated : List (List Char) → List Char
  | [] => []
  | [text] => text
  | text :: next :: rest => text ++ ',' :: commaSeparated (next :: rest)

/-- A text that a scan inside of brackets goes over. -/
def Inner (text : List Char) : Prop :=
  scan (.outside, 1) text = some (.outside, 1)

theorem Closed.inner {text : List Char} (closed : Closed text) : Inner text :=
  scan_add closed 1

theorem Inner.append {text : List Char} (inner : Inner text) (innerRest : Inner rest) :
    Inner (text ++ rest) := by
  rw [Inner, scan_append_of_eq inner]
  exact innerRest

theorem Inner.cons {text : List Char} (separates : separator = ',' ∨ separator = ':')
    (inner : Inner text) : Inner (separator :: text) := by
  rcases separates with rfl | rfl
  · exact inner
  · exact inner

theorem inner_commaSeparated {texts : List (List Char)} (inner : ∀ text ∈ texts, Inner text) :
    Inner (commaSeparated texts) := by
  induction texts with
  | nil => rfl
  | cons text texts ih =>
    have first := inner text (mem_cons_self ..)
    have later := ih fun text mem => inner text (mem_cons_of_mem _ mem)
    cases texts with
    | nil => exact first
    | cons next texts => exact first.append (later.cons (.inl rfl))

/-- A text in brackets is closed if a scan goes over what stands inside. -/
theorem closed_bracketed {opening closing : Char} {body : List Char}
    (isOpening : opening = '[' ∨ opening = '{') (isClosing : closing = ']' ∨ closing = '}')
    (inner : Inner body) : Closed (opening :: (body ++ [closing])) := by
  have opens : scanChar (.outside, 0) opening = some (.outside, 1) := by
    rcases isOpening with rfl | rfl <;> rfl
  have closes : scan (.outside, 1) [closing] = some (.outside, 0) := by
    rcases isClosing with rfl | rfl <;> rfl
  rw [Closed, scan, opens, Option.bind_some, scan_append_of_eq inner, closes]

/-!
# What the texts of the grammar look like

The texts that spell documents are closed, and neither begin nor end with a blank. The first and
the last character tell a number from everything else, and the first one tells the kind.
-/

/-- A text with something in it, and no blank at its ends. -/
structure Solid (text : List Char) : Prop where
  nonempty : text ≠ []
  first : ∀ c, text.head? = some c → isBlank c = false
  last : ∀ c, text.getLast? = some c → isBlank c = false

theorem solid_bracketed {opening closing : Char} (body : List Char)
    (notBlank : isBlank opening = false) (notBlank' : isBlank closing = false) :
    Solid (opening :: (body ++ [closing])) where
  nonempty := cons_ne_nil _ _
  first := by
    rintro c same
    rw [List.head?_cons, Option.some.injEq] at same
    rw [← same]
    exact notBlank
  last := by
    intro c same
    rw [← cons_append, List.getLast?_concat, Option.some.injEq] at same
    rw [← same]
    exact notBlank'

theorem blanks_eq_nil {before text after : List Char} (solid : Solid (before ++ (text ++ after)))
    (blankBefore : Blank before) (blankAfter : Blank after) : before = [] ∧ after = [] := by
  constructor
  · cases before with
    | nil => rfl
    | cons c before =>
      have blank := blankBefore c (mem_cons_self ..)
      rw [solid.first c rfl] at blank
      cases blank
  · rcases eq_nil_or_concat after with none_ | ⟨after, c, rfl⟩
    · exact none_
    · have blank := blankAfter c (by simp)
      rw [solid.last c (by simp)] at blank
      cases blank

/-- The characters of numbers. -/
def Numeric (c : Char) : Prop :=
  c.isDigit = true ∨ c = '-' ∨ c = '+' ∨ c = '.' ∨ c = 'e' ∨ c = 'E'

variable {c : Char}

theorem ne_of_isDigit (isDigit : c.isDigit = true) {other : Char}
    (notDigit : other.isDigit = false) : c ≠ other := by
  rintro rfl
  rw [notDigit] at isDigit
  cases isDigit

theorem Numeric.bare (numeric : Numeric c) : Bare c := by
  rcases numeric with isDigit | rfl | rfl | rfl | rfl | rfl
  · exact ⟨ne_of_isDigit isDigit rfl, ne_of_isDigit isDigit rfl, ne_of_isDigit isDigit rfl,
      ne_of_isDigit isDigit rfl, ne_of_isDigit isDigit rfl, ne_of_isDigit isDigit rfl,
      ne_of_isDigit isDigit rfl⟩
  all_goals decide

theorem Numeric.not_isBlank (numeric : Numeric c) : isBlank c = false := by
  rcases numeric with isDigit | rfl | rfl | rfl | rfl | rfl
  · have space : c ≠ ' ' := ne_of_isDigit isDigit rfl
    have tab : c ≠ '\t' := ne_of_isDigit isDigit rfl
    have newline : c ≠ '\n' := ne_of_isDigit isDigit rfl
    have return_ : c ≠ '\r' := ne_of_isDigit isDigit rfl
    simp [isBlank, space, tab, newline, return_]
  all_goals rfl

theorem IntPart.digits {text : List Char} (isInt : IntPart text) : Digits text := by
  cases isInt with
  | zero =>
    refine ⟨by simp, fun c mem => ?_⟩
    rw [mem_singleton.mp mem]
    rfl
  | positive isDigit _ digits =>
    refine ⟨cons_ne_nil _ _, fun c mem => ?_⟩
    rcases mem_cons.mp mem with rfl | later
    · exact isDigit
    · exact digits c later

theorem Digits.numeric {text : List Char} (digits : Digits text) : ∀ c ∈ text, Numeric c :=
  fun c mem => .inl (digits.2 c mem)

theorem Digits.isDigit_getLast {text before : List Char} (digits : Digits text) :
    ∀ c, (before ++ text).getLast? = some c → c.isDigit = true := by
  intro c last
  rw [List.getLast?_append_of_ne_nil _ digits.1] at last
  exact digits.2 c (mem_of_getLast? last)

theorem FracPart.numeric {text : List Char} (isFrac : FracPart text) : ∀ c ∈ text, Numeric c := by
  cases isFrac with
  | absent => exact fun c mem => absurd mem not_mem_nil
  | digits digits =>
    intro c mem
    rcases mem_cons.mp mem with rfl | later
    · exact .inr (.inr (.inr (.inl rfl)))
    · exact digits.numeric c later

theorem ExpPart.numeric {text : List Char} (isExp : ExpPart text) : ∀ c ∈ text, Numeric c := by
  cases isExp with
  | absent => exact fun c mem => absurd mem not_mem_nil
  | digits isExp isSign digits =>
    intro c mem
    rcases mem_cons.mp mem with rfl | later
    · exact .inr (.inr (.inr (.inr isExp)))
    · rcases mem_append.mp later with inSign | inDigits
      · rcases isSign with rfl | rfl | rfl
        · exact absurd inSign not_mem_nil
        · exact .inr (.inr (.inl (mem_singleton.mp inSign)))
        · exact .inr (.inl (mem_singleton.mp inSign))
      · exact digits.numeric c inDigits

namespace Number

open List

variable {text : List Char}

section

variable (isNumber : Number text)
include isNumber

theorem numeric : ∀ c ∈ text, Numeric c := by
  cases isNumber with
  | mk isSign isInt isFrac isExp =>
    intro c mem
    rw [mem_append, mem_append, mem_append] at mem
    rcases mem with ((inSign | inInt) | inFrac) | inExp
    · rcases isSign with rfl | rfl
      · exact absurd inSign not_mem_nil
      · exact .inr (.inl (mem_singleton.mp inSign))
    · exact isInt.digits.numeric c inInt
    · exact isFrac.numeric c inFrac
    · exact isExp.numeric c inExp

theorem ne_nil : text ≠ [] := by
  cases isNumber with
  | mk _ isInt _ _ => simp [isInt.digits.1]

theorem exists_head : ∃ c, text.head? = some c ∧ (c.isDigit = true ∨ c = '-') := by
  cases isNumber with
  | mk isSign isInt isFrac isExp =>
    rcases isSign with rfl | rfl
    · cases isInt with
      | zero => exact ⟨'0', rfl, .inl rfl⟩
      | positive isDigit _ _ => exact ⟨_, rfl, .inl isDigit⟩
    · exact ⟨'-', rfl, .inr rfl⟩

theorem isDigit_getLast : ∀ c, text.getLast? = some c → c.isDigit = true := by
  cases isNumber with
  | @mk sign int frac exp _ isInt isFrac isExp =>
    cases isExp with
    | absent =>
      rw [append_nil]
      cases isFrac with
      | absent =>
        rw [append_nil]
        exact isInt.digits.isDigit_getLast
      | @digits fracDigits digits =>
        have grouped := append_assoc (sign ++ int) ['.'] fracDigits
        rw [singleton_append] at grouped
        rw [← grouped]
        exact digits.isDigit_getLast
    | @digits e expSign expDigits _ _ digits =>
      have grouped : sign ++ int ++ frac ++ e :: (expSign ++ expDigits) =
          (sign ++ int ++ frac ++ e :: expSign) ++ expDigits := by simp
      rw [grouped]
      exact digits.isDigit_getLast

theorem solid : Solid text where
  nonempty := isNumber.ne_nil
  first c head := (isNumber.numeric c (mem_of_head? head)).not_isBlank
  last c last := (isNumber.numeric c (mem_of_getLast? last)).not_isBlank

theorem closed : Closed text :=
  closed_of_bare fun c mem => (isNumber.numeric c mem).bare

end

end Number

theorem scan_hexUnit {digits : List Char} {unit : ℕ} (isUnit : hexUnit digits = some unit)
    (rest : List Char) : scan (.inString, 0) (digits ++ rest) = scan (.inString, 0) rest := by
  have plain : ∀ {c : Char} {value : ℕ}, hexValue c = some value →
      scanChar (.inString, 0) c = some (.inString, 0) := by
    intro c value isHex
    have notQuote : c ≠ '"' := by
      rintro rfl
      cases isHex
    have notEscape : c ≠ '\\' := by
      rintro rfl
      cases isHex
    simp [scanChar, notQuote, notEscape]
  unfold hexUnit at isUnit
  split at isUnit
  next a b c d =>
    simp only [Option.bind_eq_bind, Option.bind_eq_some_iff] at isUnit
    rcases isUnit with ⟨_, isA, _, isB, _, isC, _, isD, _⟩
    simp only [cons_append, nil_append, scan, plain isA, plain isB, plain isC,
      plain isD, Option.bind_some]
  next => cases isUnit

theorem CharSpelling.scan_eq {spelling : List Char} (isChar : CharSpelling spelling c)
    (rest : List Char) : scan (.inString, 0) (spelling ++ rest) = scan (.inString, 0) rest := by
  cases isChar with
  | plain notQuote notEscape _ =>
    rw [singleton_append, scan, scanChar, if_neg notQuote, if_neg notEscape, Option.bind_some]
  | escape _ => rfl
  | unit isUnit _ => exact scan_hexUnit isUnit rest
  | @pair high low _ _ isHigh isLow _ _ =>
    change scan (.inString, 0) (high ++ '\\' :: 'u' :: low ++ rest) = _
    rw [append_assoc, scan_hexUnit isHigh]
    exact scan_hexUnit isLow rest

variable {chars : List Char}

theorem Chars.scan_eq {text : List Char} (spells : Chars text chars) (rest : List Char) :
    scan (.inString, 0) (text ++ rest) = scan (.inString, 0) rest := by
  induction spells with
  | nil => rfl
  | cons isChar _ ih =>
    rw [append_assoc, isChar.scan_eq, ih]

theorem StringText.closed {text : List Char} (isString : StringText text chars) : Closed text := by
  cases isString with
  | mk spells => exact spells.scan_eq ['"']

theorem StringText.solid {text : List Char} (isString : StringText text chars) : Solid text := by
  cases isString with
  | mk _ => exact solid_bracketed _ rfl rfl

theorem Blank.closed {text : List Char} (blank : Blank text) : Closed text := by
  refine closed_of_bare fun c mem => ?_
  have isBlank_ := blank c mem
  simp only [isBlank, Bool.or_eq_true, beq_iff_eq] at isBlank_
  rcases isBlank_ with ((rfl | rfl) | rfl) | rfl <;> decide

theorem Spells.solid {text : List Char} {doc : Doc (List Char)} (spells : Spells text doc) :
    Solid text := by
  cases spells with
  | null => exact solid_bracketed ['u', 'l'] rfl rfl
  | true_ => exact solid_bracketed ['r', 'u'] rfl rfl
  | false_ => exact solid_bracketed ['a', 'l', 's'] rfl rfl
  | number isNumber | string isNumber => exact isNumber.solid
  | emptyArray _ | array _ | emptyObject _ | object _ => exact solid_bracketed _ rfl rfl

mutual

theorem Spells.closed {text : List Char} {doc : Doc (List Char)} :
    Spells text doc → Closed text
  | .null | .true_ | .false_ => closed_of_bare (by simp [Bare])
  | .number isNumber => isNumber.closed
  | .string isString => isString.closed
  | .emptyArray isBlank => closed_bracketed (.inl rfl) (.inl rfl) isBlank.closed.inner
  | .array elements => closed_bracketed (.inl rfl) (.inl rfl) elements.inner
  | .emptyObject isBlank => closed_bracketed (.inr rfl) (.inr rfl) isBlank.closed.inner
  | .object members => closed_bracketed (.inr rfl) (.inr rfl) members.inner

theorem Padded.closed {text : List Char} {doc : Doc (List Char)} : Padded text doc → Closed text
  | .mk blankBefore spells blankAfter =>
    blankBefore.closed.append (spells.closed.append blankAfter.closed)

theorem Elements.inner {text : List Char} {docs : List (Doc (List Char))} :
    Elements text docs → Inner text
  | .last element => element.closed.inner
  | .cons element elements => element.closed.inner.append (elements.inner.cons (.inl rfl))

theorem Member.inner {text : List Char} {entry : List Char × Doc (List Char)} :
    Member text entry → Inner text
  | .mk blankBefore isKey blankAfter value =>
    (blankBefore.closed.append (isKey.closed.append blankAfter.closed)).inner.append
      (value.closed.inner.cons (.inr rfl))

theorem Members.inner {text : List Char} {entries : List (List Char × Doc (List Char))} :
    Members text entries → Inner text
  | .last isMember => isMember.inner
  | .cons isMember members => isMember.inner.append (members.inner.cons (.inl rfl))

end

variable {doc : Doc (List Char)}

theorem Spells.padded {text : List Char} (spells : Spells text doc) : Padded text doc := by
  have padded : Padded ([] ++ (text ++ [])) doc :=
    .mk (fun c mem => absurd mem not_mem_nil) spells fun c mem => absurd mem not_mem_nil
  rwa [nil_append, append_nil] at padded

/-- A text without blanks at its ends is a text of the grammar if it spells a document. -/
theorem Solid.isText_iff {text : List Char} (solid : Solid text) :
    IsText text ↔ ∃ doc, Spells text doc := by
  constructor
  · rintro ⟨doc, padded⟩
    cases padded with
    | mk blankBefore spells blankAfter =>
      rcases blanks_eq_nil solid blankBefore blankAfter with ⟨rfl, rfl⟩
      rw [nil_append, append_nil]
      exact ⟨doc, spells⟩
  · rintro ⟨doc, spells⟩
    exact ⟨doc, spells.padded⟩

variable {texts : List (List Char)}

theorem elements_of_padded {docs : List (Doc (List Char))} (nonempty : texts ≠ [])
    (padded : List.Forall₂ Padded texts docs) : Elements (commaSeparated texts) docs := by
  induction padded with
  | nil => contradiction
  | cons element padded ih =>
    cases padded with
    | nil => exact .last element
    | cons _ _ => exact .cons element (ih (cons_ne_nil _ _))

theorem isText_iff_elements (nonempty : texts ≠ []) (closed : ∀ text ∈ texts, Closed text) :
    (∃ items, Elements (commaSeparated texts) items) ↔ ∀ text ∈ texts, IsText text := by
  constructor
  · rintro ⟨items, elements⟩
    induction texts generalizing items with
    | nil => contradiction
    | cons text texts ih =>
      have first := closed text (mem_cons_self ..)
      have later : ∀ text ∈ texts, Closed text :=
        fun text mem => closed text (mem_cons_of_mem _ mem)
      generalize same : commaSeparated (text :: texts) = whole at elements
      cases texts with
      | nil =>
        cases elements with
        | @last _ doc element =>
          obtain rfl : text = whole := same
          exact forall_mem_singleton.mpr ⟨doc, element⟩
        | cons element _ => exact absurd same (first.not_separated element.closed (.inl rfl))
      | cons next texts =>
        cases elements with
        | last element =>
          exact absurd same.symm (element.closed.not_separated first (.inl rfl))
        | @cons other rest doc docs element elements =>
          rcases first.split element.closed (.inl rfl) same with ⟨rfl, sameRest⟩
          refine forall_mem_cons.mpr ⟨⟨doc, element⟩, ?_⟩
          exact ih (cons_ne_nil _ _) later docs (sameRest ▸ elements)
  · intro isText
    have padded : ∃ docs, List.Forall₂ Padded texts docs := by
      clear nonempty closed
      induction texts with
      | nil => exact ⟨[], .nil⟩
      | cons text texts ih =>
        rcases isText text (mem_cons_self ..) with ⟨doc, element⟩
        rcases ih fun text mem => isText text (mem_cons_of_mem _ mem) with
          ⟨docs, elements⟩
        exact ⟨doc :: docs, .cons element elements⟩
    rcases padded with ⟨docs, padded⟩
    exact ⟨docs, elements_of_padded nonempty padded⟩

/-- The text of a member. -/
def memberText (entry : List Char × List Char) : List Char :=
  entry.1 ++ ':' :: entry.2

theorem Member.exists_split {text : List Char} {entry : List Char × Doc (List Char)}
    (isMember : Member text entry) : ∃ key value doc, text = key ++ ':' :: value ∧ Closed key ∧
      Padded value doc := by
  cases isMember with
  | @mk before key after value _ doc blankBefore isKey blankAfter padded =>
    exact ⟨before ++ (key ++ after), value, doc, rfl,
      blankBefore.closed.append (isKey.closed.append blankAfter.closed), padded⟩

theorem members_of_member {members : List (List Char × Doc (List Char))} (nonempty : texts ≠ [])
    (each : List.Forall₂ Member texts members) : Members (commaSeparated texts) members := by
  induction each with
  | nil => contradiction
  | cons isMember each ih =>
    cases each with
    | nil => exact .last isMember
    | cons _ _ => exact .cons isMember (ih (cons_ne_nil _ _))

theorem member_of_spells {key name value : List Char} (isKey : StringText key name)
    (padded : Padded value doc) : Member (memberText (key, value)) (name, doc) := by
  have isMember : Member ([] ++ (key ++ []) ++ ':' :: value) (name, doc) :=
    .mk (fun c mem => absurd mem not_mem_nil) isKey (fun c mem => absurd mem not_mem_nil) padded
  rwa [nil_append, append_nil] at isMember

theorem isText_iff_members (entries : List (List Char × List Char)) (nonempty : entries ≠ [])
    (keys : ∀ entry ∈ entries, ∃ name, StringText entry.1 name)
    (closed : ∀ entry ∈ entries, Closed entry.2) :
    (∃ members, Members (commaSeparated (entries.map memberText)) members) ↔
      ∀ entry ∈ entries, IsText entry.2 := by
  constructor
  · rintro ⟨members, isMembers⟩
    induction entries generalizing members with
    | nil => contradiction
    | cons entry entries ih =>
      rcases keys entry (mem_cons_self ..) with ⟨name, isKey⟩
      have first := closed entry (mem_cons_self ..)
      generalize same : commaSeparated ((entry :: entries).map memberText) = whole at isMembers
      cases entries with
      | nil =>
        replace same : entry.1 ++ ':' :: entry.2 = whole := same
        cases isMembers with
        | last isMember =>
          rcases isMember.exists_split with ⟨key, value, doc, rfl, closedKey, padded⟩
          rcases isKey.closed.split closedKey (.inr rfl) same with ⟨_, rfl⟩
          exact forall_mem_singleton.mpr ⟨doc, padded⟩
        | cons isMember _ =>
          rcases isMember.exists_split with ⟨key, value, doc, rfl, closedKey, padded⟩
          rw [append_assoc, cons_append] at same
          rcases isKey.closed.split closedKey (.inr rfl) same with ⟨_, sameValue⟩
          exact absurd sameValue (first.not_separated padded.closed (.inl rfl))
      | cons next entries =>
        replace same : entry.1 ++ ':' :: entry.2 ++
            ',' :: commaSeparated ((next :: entries).map memberText) = whole := same
        rw [append_assoc, cons_append] at same
        cases isMembers with
        | last isMember =>
          rcases isMember.exists_split with ⟨key, value, doc, rfl, closedKey, padded⟩
          rcases isKey.closed.split closedKey (.inr rfl) same with ⟨_, sameValue⟩
          exact absurd sameValue.symm (padded.closed.not_separated first (.inl rfl))
        | @cons _ rest _ members isMember isMembers =>
          rcases isMember.exists_split with ⟨key, value, doc, rfl, closedKey, padded⟩
          rw [append_assoc, cons_append] at same
          rcases isKey.closed.split closedKey (.inr rfl) same with ⟨_, sameValue⟩
          rcases first.split padded.closed (.inl rfl) sameValue with ⟨rfl, sameRest⟩
          refine forall_mem_cons.mpr ⟨⟨doc, padded⟩, ?_⟩
          exact ih (cons_ne_nil _ _)
            (fun entry mem => keys entry (mem_cons_of_mem _ mem))
            (fun entry mem => closed entry (mem_cons_of_mem _ mem)) members
            (sameRest ▸ isMembers)
  · intro isText
    have each : ∃ members, List.Forall₂ Member (entries.map memberText) members := by
      clear nonempty closed
      induction entries with
      | nil => exact ⟨[], .nil⟩
      | cons entry entries ih =>
        rcases keys entry (mem_cons_self ..) with ⟨name, isKey⟩
        rcases isText entry (mem_cons_self ..) with ⟨doc, padded⟩
        rcases ih (fun entry mem => keys entry (mem_cons_of_mem _ mem))
          (fun entry mem => isText entry (mem_cons_of_mem _ mem)) with ⟨members, rest⟩
        exact ⟨(name, doc) :: members, .cons (member_of_spells isKey padded) rest⟩
    rcases each with ⟨members, each⟩
    exact ⟨members, members_of_member (by simpa using nonempty) each⟩

theorem Spells.number_of_head {text : List Char} (spells : Spells text doc)
    (head : text.head? = some c) (numeric : c.isDigit = true ∨ c = '-') : Number text := by
  have other : ∀ {first : Char} {rest : List Char}, (first :: rest).head? = some c →
      first.isDigit = false → first ≠ '-' → False := by
    intro first rest same notDigit notSign
    rw [List.head?_cons, Option.some.injEq] at same
    rcases numeric with isDigit | isSign
    · rw [← same, notDigit] at isDigit
      cases isDigit
    · exact notSign (same.trans isSign)
  cases spells with
  | number isNumber => exact isNumber
  | string isString =>
    cases isString with
    | mk _ => exact (other head rfl (by decide)).elim
  | null | true_ | false_ | emptyArray _ | array _ | emptyObject _ | object _ =>
    exact (other head rfl (by decide)).elim

theorem Spells.number_of_last {text : List Char} (spells : Spells text doc)
    (last : text.getLast? = some c) (isDigit : c.isDigit = true) : Number text := by
  have other : ∀ (before : List Char) {final : Char}, (before ++ [final]).getLast? = some c →
      final.isDigit = false → False := by
    intro before final same notDigit
    rw [List.getLast?_concat, Option.some.injEq] at same
    rw [← same, notDigit] at isDigit
    cases isDigit
  cases spells with
  | number isNumber => exact isNumber
  | string isString =>
    cases isString with
    | @mk body _ _ => exact (other ('"' :: body) last rfl).elim
  | null => exact (other ['n', 'u', 'l'] last rfl).elim
  | true_ => exact (other ['t', 'r', 'u'] last rfl).elim
  | false_ => exact (other ['f', 'a', 'l', 's'] last rfl).elim
  | emptyArray _ | array _ => exact (other ('[' :: _) last rfl).elim
  | emptyObject _ | object _ => exact (other ('{' :: _) last rfl).elim

theorem Spells.array_cases {body : List Char} (spells : Spells ('[' :: (body ++ [']'])) doc) :
    Blank body ∧ doc = .array [] ∨ ∃ items, Elements body items ∧ doc = .array items := by
  generalize same : '[' :: (body ++ [']']) = text at spells
  cases spells with
  | number isNumber =>
    have numeric := isNumber.numeric '[' (same ▸ mem_cons_self ..)
    exact absurd rfl numeric.bare.2.1
  | string isString =>
    cases isString with
    | mk _ => cases same
  | emptyArray isBlank =>
    rw [List.cons.injEq, append_cancel_right_eq] at same
    exact .inl ⟨same.2 ▸ isBlank, rfl⟩
  | @array _ items elements =>
    rw [List.cons.injEq, append_cancel_right_eq] at same
    exact .inr ⟨items, same.2 ▸ elements, rfl⟩
  | null | true_ | false_ | emptyObject _ | object _ => cases same

theorem Spells.object_cases {body : List Char} (spells : Spells ('{' :: (body ++ ['}'])) doc) :
    Blank body ∧ doc = .object [] ∨ ∃ members, Members body members ∧ doc = .object members := by
  generalize same : '{' :: (body ++ ['}']) = text at spells
  cases spells with
  | number isNumber =>
    have numeric := isNumber.numeric '{' (same ▸ mem_cons_self ..)
    exact absurd rfl numeric.bare.2.2.1
  | string isString =>
    cases isString with
    | mk _ => cases same
  | emptyObject isBlank =>
    rw [List.cons.injEq, append_cancel_right_eq] at same
    exact .inl ⟨same.2 ▸ isBlank, rfl⟩
  | @object _ members isMembers =>
    rw [List.cons.injEq, append_cancel_right_eq] at same
    exact .inr ⟨members, same.2 ▸ isMembers, rfl⟩
  | null | true_ | false_ | emptyArray _ | array _ => cases same

end Gengo.Json
