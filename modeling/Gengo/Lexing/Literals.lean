import Gengo.Lexing.Positions
import Gengo.Lexing.Strings

/-!
# Literals of strings

Every string of a source is accepted with the text that it spells, or it is an error. Numbers of
code points with more than 21 bits are the exception: their low bits are taken for them.
-/

namespace Gengo.Lexing

open List Option Nat
open Bytecode (Bytes)

namespace Part

variable {part : Part} {quote : UInt8}

theorem bytes_low21 (allowed : part.Allowed quote) (small : ¬part.Overflows) :
    part.bytes low21 = part.bytes id := by
  cases part with
  | byte b => rfl
  | simple esc => rfl
  | hex hi lo => rfl
  | short digits =>
    have bound : number digits < 2 ^ 21 := (number_lt allowed.2 0).trans_le (by decide)
    change utf8Encode (number digits % 2 ^ 21) = utf8Encode (number digits)
    rw [mod_eq_of_lt bound]
  | long digits =>
    change utf8Encode (number digits % 2 ^ 21) = utf8Encode (number digits)
    rw [mod_eq_of_lt (Nat.lt_of_not_le small)]

theorem bytes_of_overflows (overflows : part.Overflows) : part.bytes id = none := by
  cases part with
  | long digits =>
    apply not_isSome_iff_eq_none.mp
    intro encoded
    have scalar := (utf8Encode_isSome_iff.mp encoded).1
    have large : 2 ^ 21 ≤ number digits := overflows
    change number digits < _ at scalar
    omega
  | _ => exact overflows.elim

/-- The first byte of what is written tells bytes from escapes, and the second one the escapes from
each other. -/
theorem spell_append_inj {part' : Part} {rest rest' : Bytes} (allowed : part.Allowed quote)
    (allowed' : part'.Allowed quote) (same : part.spell ++ rest = part'.spell ++ rest') :
    part = part' ∧ rest = rest' := by
  have digits {count : ℕ} {first second : Bytes} (areFirst : AreDigits count first)
      (areSecond : AreDigits count second) (same : first ++ rest = second ++ rest') :
      first = second ∧ rest = rest' :=
    append_inj same (areFirst.1.trans areSecond.1.symm)
  have marks : ascii 'x' ≠ ascii 'u' ∧ ascii 'x' ≠ ascii 'U' ∧ ascii 'u' ≠ ascii 'U' := by
    decide
  cases part with
  | byte b => cases part' with
    | byte b' => grind [spell]
    | _ => grind [spell, Allowed]
  | simple esc => cases part' with
    | simple esc' => grind [spell]
    | _ => grind [spell, Allowed]
  | hex hi lo => cases part' with
    | hex hi' lo' => grind [spell]
    | _ => grind [spell, Allowed]
  | short first => cases part' with
    | short _ | _ => grind [spell, Allowed]
  | long first => cases part' with
    | long _ | _ => grind [spell, Allowed]

theorem quote_notMem_head (allowed : part.Allowed quote) (rest : Bytes) :
    (part.spell ++ rest).head? ≠ some quote := by
  cases part with
  | byte b => exact fun same => allowed.1 (some.inj same)
  | _ =>
    intro same
    rw [allowed.1] at same
    exact absurd (some.inj same) (by decide)

end Part

variable {quote : UInt8} {parts parts' : List Part} {rest : Bytes} {len len' : ℕ}

theorem Spells.allowed (spells : Spells quote parts rest len) :
    ∀ part ∈ parts, part.Allowed quote := by
  induction spells with
  | close back => exact fun part none => absurd none not_mem_nil
  | part allowed spells ih =>
    exact forall_mem_cons.mpr ⟨allowed, ih⟩

theorem Spells.unique (spells : Spells quote parts rest len)
    (spells' : Spells quote parts' rest len') : parts = parts' ∧ len = len' := by
  induction spells generalizing parts' len' with
  | close back =>
    generalize whole : quote :: back = source at spells'
    cases spells' with
    | close back' => exact ⟨rfl, rfl⟩
    | part allowed later =>
      exact absurd (congrArg List.head? whole.symm) (Part.quote_notMem_head allowed _)
  | @part part parts rest len allowed spells ih =>
    generalize whole : part.spell ++ rest = source at spells'
    cases spells' with
    | close back =>
      exact absurd (congrArg List.head? whole) (Part.quote_notMem_head allowed rest)
    | part allowed' later =>
      rcases Part.spell_append_inj allowed allowed' whole with ⟨rfl, rfl⟩
      rcases ih later with ⟨rfl, rfl⟩
      exact ⟨rfl, rfl⟩

theorem text_low21 (allowed : ∀ part ∈ parts, part.Allowed quote)
    (small : ∀ part ∈ parts, ¬part.Overflows) : text low21 parts = text id parts := by
  induction parts with
  | nil => rfl
  | cons part parts ih =>
    rcases forall_mem_cons.mp allowed with ⟨first, later⟩
    rcases forall_mem_cons.mp small with ⟨firstSmall, laterSmall⟩
    rw [text, text, Part.bytes_low21 first firstSmall, ih later laterSmall]

theorem text_of_overflows {part : Part} (isPart : part ∈ parts) (overflows : part.Overflows) :
    text id parts = none := by
  apply eq_none_iff_forall_ne_some.mpr
  intro whole denotes
  induction parts generalizing whole with
  | nil => cases isPart
  | cons first parts ih =>
    rcases text_cons.mp denotes with ⟨_, rest, firstDenotes, laterDenotes, _⟩
    rcases mem_cons.mp isPart with rfl | later
    · rw [Part.bytes_of_overflows overflows] at firstDenotes
      cases firstDenotes
    · exact ih later rest laterDenotes

/-- The bytes that a line of a string is indented by. -/
def isIndent (c : UInt8) : Bool :=
  c = ascii ' ' || c = ascii '\t'

/-- Lines of a string, each of them behind two backslashes: how long they are, and their text. The
newline of the last line belongs to it. -/
inductive Lines : Bytes → ℕ → Bytes → Prop
  | ended {line : Bytes} (single : newline ∉ line) : Lines line line.length line
  | last {line indent back : Bytes} (single : newline ∉ line)
      (indented : ∀ c ∈ indent, isIndent c) (behind : ∀ c ∈ back.head?, ¬isIndent c)
      (ends : back.take 2 ≠ [ascii '\\', ascii '\\']) :
      Lines (line ++ newline :: (indent ++ back)) (line.length + 1 + indent.length)
        (line ++ [newline])
  | more {line indent rest text : Bytes} {len : ℕ} (single : newline ∉ line)
      (indented : ∀ c ∈ indent, isIndent c) (lines : Lines rest len text) :
      Lines (line ++ newline :: (indent ++ ascii '\\' :: ascii '\\' :: rest))
        (line.length + 1 + indent.length + 2 + len) (line ++ newline :: text)

theorem takeWhile_line {line : Bytes} (single : newline ∉ line) (back : Bytes) :
    (line ++ newline :: back).takeWhile (· != newline) = line := by
  rw [takeWhile_append_of_pos, takeWhile_cons_of_neg, append_nil]
  · decide
  · intro c isByte
    exact bne_iff_ne.mpr fun same => single (same ▸ isByte)

theorem takeWhile_indent {indent back : Bytes} (indented : ∀ c ∈ indent, isIndent c)
    (behind : ∀ c ∈ back.head?, ¬isIndent c) : (indent ++ back).takeWhile isIndent = indent := by
  rw [takeWhile_append_of_pos indented]
  cases back with
  | nil => exact append_nil _
  | cons c back => rw [takeWhile_cons_of_neg (behind c rfl), append_nil]

/-- The result of a scan that accepts a text of so many bytes. -/
structure Scanned.Accepts (scanned : Scanned) (pool : Bytes) (len : ℕ) (whole : Bytes) : Prop where
  typ : scanned.typ = .string
  len : scanned.moved.len = len
  pool : scanned.pool = pool ++ whole

/-- The two steps of a round: the line, and what comes behind its newline. -/
theorem multilineStrLit_line {line : Bytes} (single : newline ∉ line) (rounds : ℕ) (back : Bytes)
    {pool : Bytes} (room : HasRoom pool (line ++ [newline])) :
    let indent := (back.takeWhile isIndent).length
    let next := ((Moved.bytes line.length).followedBy .line).followedBy (.bytes indent)
    multilineStrLit (rounds + 1) (line ++ newline :: back) pool =
      if (back.drop indent).take 2 = [ascii '\\', ascii '\\'] then
        (multilineStrLit rounds (back.drop (indent + 2)) (pool ++ (line ++ [newline]))).behind
          (next.followedBy (.bytes 2))
      else ⟨.string, next, pool ++ (line ++ [newline])⟩ := by
  rcases HasRoom.append.mp room with ⟨lineRoom, breakRoom⟩
  rw [multilineStrLit, takeWhile_line single, outBytes_of_hasRoom lineRoom]
  dsimp only
  rw [drop_left]
  rw [outByte_of_hasRoom breakRoom, append_assoc]
  rfl

theorem multilineStrLit_more {line indent : Bytes} (single : newline ∉ line)
    (indented : ∀ c ∈ indent, isIndent c) (rounds : ℕ) (rest : Bytes) {pool : Bytes}
    (room : HasRoom pool (line ++ [newline])) :
    multilineStrLit (rounds + 1) (line ++ newline :: (indent ++ ascii '\\' :: ascii '\\' :: rest))
        pool =
      (multilineStrLit rounds rest (pool ++ (line ++ [newline]))).behind
        ((((Moved.bytes line.length).followedBy .line).followedBy (.bytes indent.length)).followedBy
          (.bytes 2)) := by
  have behind : ∀ c ∈ (ascii '\\' :: ascii '\\' :: rest).head?, ¬isIndent c := by
    intro c isHead
    cases isHead
    decide
  have continues : (ascii '\\' :: ascii '\\' :: rest).take 2 = [ascii '\\', ascii '\\'] := rfl
  have round := multilineStrLit_line single rounds (indent ++ ascii '\\' :: ascii '\\' :: rest) room
  rw [takeWhile_indent indented behind] at round
  dsimp only at round
  rw [← drop_drop, drop_left, if_pos continues] at round
  exact round

theorem takeWhile_whole {line : Bytes} (single : newline ∉ line) :
    line.takeWhile (· != newline) = line :=
  takeWhile_eq_self_iff.mpr fun _ isByte => bne_iff_ne.mpr fun same => single (same ▸ isByte)

theorem accepts_of_lines {rest text : Bytes} {len : ℕ} (lines : Lines rest len text) {rounds : ℕ}
    (enough : rest.length < rounds) {pool : Bytes} (room : HasRoom pool text) :
    (multilineStrLit rounds rest pool).Accepts pool len text := by
  induction lines generalizing rounds pool with
  | @ended line single =>
    cases rounds with
    | zero => exact absurd enough (not_lt_zero _)
    | succ rounds =>
      rw [multilineStrLit, takeWhile_whole single, outBytes_of_hasRoom room]
      dsimp only
      rw [drop_length]
      exact ⟨rfl, rfl, rfl⟩
  | @last line indent back single indented behind ends =>
    cases rounds with
    | zero => exact absurd enough (not_lt_zero _)
    | succ rounds =>
      have round := multilineStrLit_line single rounds (indent ++ back) room
      rw [takeWhile_indent indented behind] at round
      dsimp only at round
      rw [drop_left, if_neg ends] at round
      rw [round]
      exact ⟨rfl, rfl, rfl⟩
  | @more line indent rest text len single indented lines ih =>
    cases rounds with
    | zero => exact absurd enough (not_lt_zero _)
    | succ rounds =>
      have joined : line ++ newline :: text = (line ++ [newline]) ++ text := by
        rw [append_assoc]
        rfl
      rw [joined] at room ⊢
      rcases HasRoom.append.mp room with ⟨lineRoom, laterRoom⟩
      have shorter : rest.length < rounds := by
        simp only [length_append, length_cons] at enough
        omega
      have later := ih shorter laterRoom
      rw [multilineStrLit_more single indented rounds rest lineRoom]
      exact ⟨later.typ, congrArg (_ + ·) later.len, later.pool.trans (append_assoc _ _ _)⟩

theorem outBytes_of_full {text pool : Bytes} (fits : pool.length ≤ strPoolSize)
    (full : ¬HasRoom pool text) : ∃ tried after, outBytes text pool = (false, tried, after) := by
  cases found : outBytes text pool with
  | mk all last =>
    cases all with
    | false => exact ⟨last.1, last.2, rfl⟩
    | true => exact absurd (hasRoom_of_outBytes fits (found ▸ rfl)) full

theorem multilineStrLit_full {line : Bytes} (single : newline ∉ line) (rounds : ℕ) (back : Bytes)
    {pool : Bytes} (fits : pool.length ≤ strPoolSize) (full : ¬HasRoom pool (line ++ [newline])) :
    (multilineStrLit (rounds + 1) (line ++ newline :: back) pool).typ =
      .errStringPoolExhausted := by
  rw [multilineStrLit, takeWhile_line single]
  by_cases lineRoom : HasRoom pool line
  · have breakFull : ¬HasRoom (pool ++ line) [newline] := fun room =>
      full (HasRoom.append.mpr ⟨lineRoom, room⟩)
    rw [outBytes_of_hasRoom lineRoom]
    dsimp only
    rw [drop_left]
    rw [show outByte (pool ++ line) newline = none from if_neg breakFull]
  · rcases outBytes_of_full fits lineRoom with ⟨tried, after, found⟩
    rw [found]

theorem exhausted_of_lines {rest text : Bytes} {len : ℕ} (lines : Lines rest len text) {rounds : ℕ}
    (enough : rest.length < rounds) {pool : Bytes} (fits : pool.length ≤ strPoolSize)
    (full : ¬HasRoom pool text) :
    (multilineStrLit rounds rest pool).typ = .errStringPoolExhausted := by
  induction lines generalizing rounds pool with
  | @ended line single =>
    cases rounds with
    | zero => exact absurd enough (not_lt_zero _)
    | succ rounds =>
      rcases outBytes_of_full fits full with ⟨tried, after, found⟩
      rw [multilineStrLit, takeWhile_whole single, found]
  | @last line indent back single indented behind ends =>
    cases rounds with
    | zero => exact absurd enough (not_lt_zero _)
    | succ rounds => exact multilineStrLit_full single rounds _ fits full
  | @more line indent rest text len single indented lines ih =>
    cases rounds with
    | zero => exact absurd enough (not_lt_zero _)
    | succ rounds =>
      by_cases lineRoom : HasRoom pool (line ++ [newline])
      · have laterFull : ¬HasRoom (pool ++ (line ++ [newline])) text := by
          intro room
          have both := HasRoom.append.mpr ⟨lineRoom, room⟩
          rw [append_assoc] at both
          exact full both
        have laterFits : (pool ++ (line ++ [newline])).length ≤ strPoolSize := by
          rw [length_append]
          exact lineRoom
        have shorter : rest.length < rounds := by
          simp only [length_append, length_cons] at enough
          omega
        have later := ih shorter laterFits laterFull
        rw [multilineStrLit_more single indented rounds rest lineRoom]
        exact later
      · exact multilineStrLit_full single rounds _ fits lineRoom

/-- Every source is lines up to some byte. -/
theorem exists_lines (rest : Bytes) : ∃ len text, Lines rest len text := by
  induction length : rest.length using Nat.strongRecOn generalizing rest with
  | ind length ih =>
    have split : rest.takeWhile (· != newline) ++ rest.dropWhile (· != newline) = rest :=
      takeWhile_append_dropWhile
    have single := single_takeWhile rest
    have stopped := List.head?_dropWhile_not (· != newline) rest
    generalize rest.takeWhile (· != newline) = line at split single
    generalize rest.dropWhile (· != newline) = behind at split stopped
    subst split
    cases behind with
    | nil =>
      rw [append_nil]
      exact ⟨_, _, .ended single⟩
    | cons c behind =>
      have isBreak : c = newline := by
        simpa using stopped
      subst isBreak
      have splitIndent : behind.takeWhile isIndent ++ behind.dropWhile isIndent = behind :=
        takeWhile_append_dropWhile
      have indented : ∀ c ∈ behind.takeWhile isIndent, isIndent c :=
        fun c isByte => mem_takeWhile_imp isByte
      have stoppedIndent := List.head?_dropWhile_not isIndent behind
      generalize behind.takeWhile isIndent = indent at splitIndent indented
      generalize behind.dropWhile isIndent = back at splitIndent stoppedIndent
      subst splitIndent
      by_cases ends : back.take 2 = [ascii '\\', ascii '\\']
      · have isBack : back = ascii '\\' :: ascii '\\' :: back.drop 2 := by
          have joined := take_append_drop 2 back
          rw [ends] at joined
          exact joined.symm
        rw [isBack] at length ⊢
        simp only [length_append, length_cons] at length
        rcases ih (back.drop 2).length (by omega) _ rfl with
          ⟨len, text, lines⟩
        exact ⟨_, _, .more single indented lines⟩
      · refine ⟨_, _, .last single indented ?_ ends⟩
        intro c isHead
        rw [mem_def.mp isHead] at stoppedIndent
        simpa using stoppedIndent

theorem fits_outByte {pool after : Bytes} {b : UInt8} (written : outByte pool b = some after) :
    after.length ≤ strPoolSize := by
  rcases hasRoom_of_outByte written with ⟨room, rfl⟩
  rw [length_append]
  exact room

theorem fits_outBytes (text : Bytes) {pool : Bytes} (fits : pool.length ≤ strPoolSize) :
    (outBytes text pool).2.2.length ≤ strPoolSize := by
  induction text generalizing pool with
  | nil => exact fits
  | cons b text ih =>
    rw [outBytes]
    cases written : outByte pool b with
    | none => exact fits
    | some after => exact ih (fits_outByte written)

theorem fits_escape (rest : Bytes) {pool : Bytes} (fits : pool.length ≤ strPoolSize) :
    (escape rest pool).pool.length ≤ strPoolSize := by
  have unicode (digits : ℕ) (rest : Bytes) :
      (unicodeEscape digits rest pool).pool.length ≤ strPoolSize := by
    unfold unicodeEscape
    split
    · exact fits
    · dsimp only
      unfold outCodepoint
      split
      · exact fits
      · exact fits_outBytes _ fits
  cases rest with
  | nil => exact fits
  | cons esc rest =>
    rw [escape]
    split
    · unfold byteEscape
      split
      · exact fits
      · exact fits
      · split
        · split
          · exact fits
          · rename_i written
            exact fits_outByte written
        · exact fits
    · split
      · exact unicode 4 rest
      · split
        · exact unicode 8 rest
        · split
          · exact fits
          · rename_i written
            exact fits_outByte written

theorem fits_strLit (quote : UInt8) (rounds : ℕ) (rest : Bytes) {pool : Bytes}
    (fits : pool.length ≤ strPoolSize) :
    (strLit quote rounds rest pool).pool.length ≤ strPoolSize := by
  induction rounds generalizing rest pool with
  | zero => exact fits
  | succ rounds ih =>
    cases rest with
    | nil => exact fits
    | cons c rest =>
      rw [strLit]
      split
      · exact fits
      · split
        · exact fits
        · split
          · dsimp only
            split
            · exact fits_escape rest fits
            · exact ih _ (fits_escape rest fits)
          · split
            · exact fits
            · rename_i written
              exact ih _ (fits_outByte written)

theorem fits_multilineStrLit (rounds : ℕ) (rest : Bytes) {pool : Bytes}
    (fits : pool.length ≤ strPoolSize) :
    (multilineStrLit rounds rest pool).pool.length ≤ strPoolSize := by
  induction rounds generalizing rest pool with
  | zero => exact fits
  | succ rounds ih =>
    have line := fits_outBytes (rest.takeWhile (· != newline)) fits
    rw [multilineStrLit]
    cases found : outBytes (rest.takeWhile (· != newline)) pool with
    | mk all last =>
      rw [found] at line
      cases all with
      | false => exact line
      | true =>
        dsimp only
        split
        · exact line
        · split
          · exact line
          · rename_i written
            split
            · exact ih _ (fits_outByte written)
            · exact fits_outByte written

variable (unicode : Unicode)

theorem fits_scanToken (c : UInt8) (rest : Bytes) {pool : Bytes}
    (fits : pool.length ≤ strPoolSize) :
    (scanToken unicode c rest pool).pool.length ≤ strPoolSize := by
  unfold scanToken
  split
  · exact fits
  · split
    · exact fits
    · split
      · dsimp only
        split
        · exact fits
        · exact fits
      · split
        · exact fits_strLit _ _ _ fits
        · split
          · exact fits
          · split
            · split
              · exact fits_multilineStrLit _ _ fits
              · exact fits
            · exact fits

/-- The quotes of a string of one line. -/
def IsQuote (c : UInt8) : Prop :=
  c = ascii '"' ∨ c = 39

theorem not_isQuote_lines : ¬IsQuote (ascii '\\') := by
  unfold IsQuote
  decide

/-- A literal, how long it is, and the text it spells, where numbers of code points are read in a
certain way. -/
inductive Literal (read : ℕ → ℕ) : Bytes → ℕ → Bytes → Prop
  | quoted {quote : UInt8} {parts : List Part} {rest whole : Bytes} {len : ℕ}
      (isQuote : IsQuote quote) (spells : Spells quote parts rest len)
      (denotes : text read parts = some whole) : Literal read (quote :: rest) (1 + len) whole
  | lines {rest whole : Bytes} {len : ℕ} (lines : Lines rest len whole) :
      Literal read (ascii '\\' :: ascii '\\' :: rest) (2 + len) whole

/-- The bytes with which a literal begins. -/
inductive BeginsLiteral : Bytes → Prop
  | quoted {quote : UInt8} (isQuote : IsQuote quote) (rest : Bytes) : BeginsLiteral (quote :: rest)
  | lines (rest : Bytes) : BeginsLiteral (ascii '\\' :: ascii '\\' :: rest)

/-- A token is accepted exactly if the bytes are a literal with a text for which there is room. It
is as long as the literal, and its text is that one. Else it is an error. -/
structure Scanned.Exact (read : ℕ → ℕ) (scanned : Scanned) (bytes pool : Bytes) : Prop where
  accepts (len : ℕ) (whole : Bytes) :
    scanned.Accepts pool len whole ↔ Literal read bytes len whole ∧ HasRoom pool whole
  rejects : (¬∃ len whole, scanned.Accepts pool len whole) → scanned.typ.IsError

namespace Scanned.Accepts

variable {scanned : Scanned} {pool whole whole' : Bytes} {len len' : ℕ}

theorem behind (accepts : scanned.Accepts pool len whole) (begun : ℕ) :
    (scanned.behind (.bytes begun)).Accepts pool (begun + len) whole :=
  ⟨accepts.typ, congrArg (begun + ·) accepts.len, accepts.pool⟩

theorem unique (accepts : scanned.Accepts pool len whole)
    (accepts' : scanned.Accepts pool len' whole') : len = len' ∧ whole = whole' :=
  ⟨accepts.len.symm.trans accepts'.len, append_cancel_left (accepts.pool.symm.trans accepts'.pool)⟩

end Scanned.Accepts

theorem scanToken_quote {quote : UInt8} (isQuote : IsQuote quote)
    (rest pool : Bytes) :
    scanToken unicode quote rest pool =
      (strLit quote (rest.length + 1) rest pool).behind (.bytes 1) := by
  rcases isQuote with rfl | rfl
  · rfl
  · rfl

theorem scanToken_lines (rest pool : Bytes) :
    scanToken unicode (ascii '\\') (ascii '\\' :: rest) pool =
      (multilineStrLit (rest.length + 2) rest pool).behind (.bytes 2) :=
  rfl

/-- With the low bits of the numbers of code points all literals are read exactly. -/
theorem exact_low21 {c : UInt8} {rest pool : Bytes}
    (begins : BeginsLiteral (c :: rest)) (fits : pool.length ≤ strPoolSize) :
    (scanToken unicode c rest pool).Exact low21 (c :: rest) pool := by
  cases begins with
  | quoted isQuote =>
    rw [scanToken_quote unicode isQuote]
    have accepted {parts : List Part} {len : ℕ} {whole : Bytes} (spells : Spells c parts rest len)
        (denotes : text low21 parts = some whole) (room : HasRoom pool whole) :
        ((strLit c (rest.length + 1) rest pool).behind (.bytes 1)).Accepts pool (1 + len)
          whole := by
      rw [strLit_of_spells spells denotes (lt_succ_self _) room]
      exact ⟨rfl, rfl, rfl⟩
    constructor
    · intro len whole
      constructor
      · intro accepts
        rcases spells_of_strLit fits accepts.typ with ⟨parts, len', whole', spells, denotes, room⟩
        rcases (accepted spells denotes room).unique accepts with ⟨rfl, rfl⟩
        exact ⟨.quoted isQuote spells denotes, room⟩
      · rintro ⟨literal, room⟩
        cases literal with
        | quoted _ spells denotes => exact accepted spells denotes room
        | lines lines =>
          exact absurd isQuote not_isQuote_lines
    · intro rejected
      rcases typ_strLit c (rest.length + 1) rest pool with accepts | isError
      · rcases spells_of_strLit fits accepts with ⟨parts, len, whole, spells, denotes, room⟩
        exact absurd ⟨1 + len, whole, accepted spells denotes room⟩ rejected
      · exact isError
  | lines rest =>
    rw [scanToken_lines]
    rcases exists_lines rest with ⟨len', whole', lines'⟩
    constructor
    · intro len whole
      constructor
      · intro accepts
        by_cases room : HasRoom pool whole'
        · have found := (accepts_of_lines lines' (Nat.lt_add_of_pos_right two_pos) room).behind 2
          rcases found.unique accepts with ⟨rfl, rfl⟩
          exact ⟨.lines lines', room⟩
        · have full := exhausted_of_lines lines' (Nat.lt_add_of_pos_right two_pos) fits room
          exact absurd (full.symm.trans accepts.typ) nofun
      · rintro ⟨literal, room⟩
        cases literal with
        | quoted isQuote =>
          exact absurd isQuote not_isQuote_lines
        | lines lines =>
          exact (accepts_of_lines lines (Nat.lt_add_of_pos_right two_pos) room).behind 2
    · intro rejected
      by_cases room : HasRoom pool whole'
      · have found := (accepts_of_lines lines' (Nat.lt_add_of_pos_right two_pos) room).behind 2
        exact absurd ⟨_, _, found⟩ rejected
      · exact .inr (.inl (exhausted_of_lines lines' (Nat.lt_add_of_pos_right two_pos) fits room))

theorem literal_low21 {bytes whole : Bytes} {len : ℕ} (literal : Literal id bytes len whole) :
    Literal low21 bytes len whole := by
  cases literal with
  | @quoted quote parts rest whole len isQuote spells denotes =>
    have small (part : Part) (isPart : part ∈ parts) : ¬part.Overflows := by
      intro overflows
      rw [text_of_overflows isPart overflows] at denotes
      cases denotes
    exact .quoted isQuote spells ((text_low21 spells.allowed small).trans denotes)
  | lines lines => exact .lines lines

namespace Lexer

variable {unicode : Unicode} {lexer : Lexer}

/-- The next token is a string, so long and with such a text. -/
structure Reads (unicode : Unicode) (lexer : Lexer) (len : ℕ) (whole : Bytes) : Prop where
  typ : (lexer.next unicode).1.typ = .string
  src : (lexer.next unicode).1.src = whole
  pos : (lexer.next unicode).2.pos = lexer.begin.pos + len

theorem fits_next (fits : lexer.strPool.length ≤ strPoolSize) :
    (lexer.next unicode).2.strPool.length ≤ strPoolSize := by
  unfold next
  split
  · exact fits
  · exact fits_scanToken unicode _ _ fits

theorem fits_before (unicode : Unicode) (src : Bytes) (call : ℕ) :
    (before unicode src call).strPool.length ≤ strPoolSize := by
  induction call with
  | zero => exact zero_le _
  | succ call ih => exact fits_next ih

theorem scanned_next {c : UInt8} {rest : Bytes} (isRest : lexer.begin.rest = c :: rest) :
    lexer.next unicode = lexer.begin.finish (scanToken unicode c rest lexer.strPool) := by
  rw [next, isRest]
  rfl

/-- The token is a string or an error, and the string that it is comes from a literal. -/
theorem exact_next (unicode : Unicode) (begins : BeginsLiteral lexer.begin.rest)
    (fits : lexer.strPool.length ≤ strPoolSize) :
    (∀ len whole, Reads unicode lexer len whole ↔
      Literal low21 lexer.begin.rest len whole ∧ HasRoom lexer.strPool whole) ∧
    ((lexer.next unicode).1.typ = .string ∨ (lexer.next unicode).1.typ.IsError) := by
  cases isRest : lexer.begin.rest with
  | nil =>
    rw [isRest] at begins
    cases begins
  | cons c rest =>
    rw [isRest] at begins
    have next : lexer.next unicode =
        lexer.begin.finish (scanToken unicode c rest lexer.strPool) := scanned_next isRest
    have exact := exact_low21 unicode begins fits
    generalize scanToken unicode c rest lexer.strPool = scanned at next exact
    by_cases accepted : ∃ len whole, scanned.Accepts lexer.strPool len whole
    · rcases accepted with ⟨len', whole', accepted⟩
      have token : (lexer.next unicode).1.typ = .string ∧ (lexer.next unicode).1.src = whole' := by
        rw [next, finish]
        rw [if_pos accepted.typ]
        refine ⟨rfl, ?_⟩
        change scanned.pool.drop lexer.strPool.length = whole'
        rw [accepted.pool, drop_left]
      have pos : (lexer.next unicode).2.pos = lexer.begin.pos + len' := by
        rw [next, ← accepted.len]
        rfl
      refine ⟨fun len whole => ?_, .inl token.1⟩
      rw [← exact.accepts]
      constructor
      · intro reads
        have sameText := token.2.symm.trans reads.src
        have sameLen : len' = len := add_left_cancel (pos.symm.trans reads.pos)
        rw [← sameText, ← sameLen]
        exact accepted
      · intro accepts
        rcases accepted.unique accepts with ⟨rfl, rfl⟩
        exact ⟨token.1, token.2, pos⟩
    · have isError := exact.rejects accepted
      have token : (lexer.next unicode).1.typ = scanned.typ := by
        rw [next, finish]
        rw [if_neg isError.ne_string]
        rfl
      refine ⟨fun len whole => ?_, .inr (token ▸ isError)⟩
      rw [← exact.accepts]
      constructor
      · intro reads
        exact absurd (token.symm.trans reads.typ) isError.ne_string
      · intro accepts
        exact absurd ⟨len, whole, accepts⟩ accepted

/-- Every literal of a source is read as what it spells, and what spells nothing is an error. -/
def ExactLiterals (unicode : Unicode) (src : Bytes) : Prop :=
  ∀ call, BeginsLiteral (before unicode src call).begin.rest →
    (∀ len whole, Reads unicode (before unicode src call) len whole ↔
      Literal id (before unicode src call).begin.rest len whole ∧
        HasRoom (before unicode src call).strPool whole) ∧
    ((token unicode src call).typ = .string ∨ (token unicode src call).typ.IsError)

/-- No code point of a literal has a number of more than 21 bits, if its low bits are those of a
code point, and if the text is one otherwise. -/
def SmallNumbers (unicode : Unicode) (src : Bytes) : Prop :=
  ∀ call quote rest, (before unicode src call).begin.rest = quote :: rest → IsQuote quote →
    ∀ parts len whole, Spells quote parts rest len → text low21 parts = some whole →
      HasRoom (before unicode src call).strPool whole → ∀ part ∈ parts, ¬part.Overflows

theorem smallNumbers_of_exactLiterals {src : Bytes} (exact : ExactLiterals unicode src) :
    SmallNumbers unicode src := by
  intro call quote rest isRest isQuote parts len whole spells denotes room part isPart overflows
  have begins : BeginsLiteral (before unicode src call).begin.rest := isRest ▸ .quoted isQuote rest
  have literal : Literal low21 (before unicode src call).begin.rest (1 + len) whole :=
    isRest ▸ .quoted isQuote spells denotes
  have reads :=
    ((exact_next unicode begins (fits_before unicode src call)).1 _ _).mpr ⟨literal, room⟩
  have spelled := (((exact call begins).1 _ _).mp reads).1
  rw [isRest] at spelled
  generalize 1 + len = total at spelled
  cases spelled with
  | quoted isQuote' spells' denotes' =>
    rcases spells.unique spells' with ⟨rfl, rfl⟩
    rw [text_of_overflows isPart overflows] at denotes'
    cases denotes'
  | lines lines =>
    exact absurd isQuote not_isQuote_lines

/-- Literals are read exactly if and only if no number is too large. -/
theorem exactLiterals_iff (unicode : Unicode) (src : Bytes) :
    ExactLiterals unicode src ↔ SmallNumbers unicode src := by
  constructor
  · exact smallNumbers_of_exactLiterals
  · intro small call begins
    rcases exact_next unicode begins (fits_before unicode src call) with
      ⟨reads, typ⟩
    refine ⟨fun len whole => (reads len whole).trans ?_, typ⟩
    constructor
    · rintro ⟨literal, room⟩
      refine ⟨?_, room⟩
      generalize isRest : (before unicode src call).begin.rest = bytes at literal ⊢
      cases literal with
      | quoted isQuote spells denotes =>
        have none := small call _ _ isRest isQuote _ _ _ spells denotes room
        exact .quoted isQuote spells ((text_low21 spells.allowed none).symm.trans denotes)
      | lines lines => exact .lines lines
    · rintro ⟨literal, room⟩
      exact ⟨literal_low21 literal, room⟩

/-- A string of the code point with the number 200041 in hexadecimal, which is none. -/
def largeNumber : Bytes :=
  [34, 92, 85, 48, 48, 50, 48, 48, 48, 52, 49, 34]

theorem not_exactLiterals : ¬∀ unicode src, ExactLiterals unicode src := by
  intro always
  have small := smallNumbers_of_exactLiterals (always asciiOnly largeNumber)
  have allowed : (Part.long [48, 48, 50, 48, 48, 48, 52, 49]).Allowed (ascii '"') :=
    ⟨rfl, rfl, by decide +kernel⟩
  refine small 0 (ascii '"') _ rfl (.inl rfl) _ _ [65] (.part allowed (.close [])) rfl ?_ _
    mem_cons_self ?_
  · unfold HasRoom
    decide
  · unfold Part.Overflows
    decide

end Lexer

end Gengo.Lexing
