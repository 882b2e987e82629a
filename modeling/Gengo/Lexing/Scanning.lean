import Gengo.Strings.Runes

/-!
# Scanning tokens

What the lexer finds at the beginning of the bytes that are left: how long it is, what it writes to
the pool of string texts, and how it moves the counters of lines.
-/

namespace Gengo.Lexing

open Bytecode (Bytes)
open Strings (sequenceLength utf8Decode)

inductive TT
  | eof
  | errInvalidChar | errUnterminatedString | errStringPoolExhausted | errBadEscape
  | ident | number | string | rune
  | kwTrue | kwFalse | kwNull | kwIf | kwElse | kwFor | kwIn | kwSwitch | kwCase | kwReturn
  | kwFunc | kwStruct | kwInterface | kwType | kwEnum | kwImport | kwVar | kwConst | kwBreak
  | kwContinue | kwDefer | kwDiv | kwRem | kwMod | kwAssert | kwTrap | kwVariant | kwSubtype
  | kwPub | kwTest | kwAnd | kwOr | kwNot | kwAs | kwWhen
  | lparen | rparen | lbrace | rbrace | lbracket | rbracket
  | comma | semicolon | colon | dot | dotdot | ellipsis | question | questionQuestion
  | plus | minus | star | starStar | slash | percent | tilde | caret | amp | bang | pipe
  | ampAmp | pipePipe | bangEq | eq | eqEq | lt | ltEq | gt | gtEq
  | colonEq | plusEq | minusEq | starEq | slashEq | percentEq | ampEq | pipeEq | caretEq
  | ltLt | gtGt | ltLtEq | gtGtEq | plusPlus | minusMinus
  deriving DecidableEq, Repr

/-- The byte of a character of the source. -/
def ascii (c : Char) : UInt8 :=
  c.toUInt8

def newline : UInt8 :=
  10

/-- The tables of letters and digits, which do not have the character 0. -/
structure Unicode where
  isLetter : ℕ → Bool
  isDigit : ℕ → Bool
  letter_zero : isLetter 0 = false
  digit_zero : isDigit 0 = false

namespace Unicode

variable (unicode : Unicode)

def isIdentStart (code : ℕ) : Bool :=
  code = 95 || unicode.isLetter code

def isIdentContinue (code : ℕ) : Bool :=
  code = 95 || unicode.isLetter code || unicode.isDigit code

end Unicode

def isAlpha (c : UInt8) : Bool :=
  (97 ≤ c && c ≤ 122) || (65 ≤ c && c ≤ 90) || c = 95

def isDigit (c : UInt8) : Bool :=
  48 ≤ c && c ≤ 57

def isAlphaNum (c : UInt8) : Bool :=
  isAlpha c || isDigit c

def isHexDigit (c : UInt8) : Bool :=
  (48 ≤ c && c ≤ 57) || (97 ≤ c && c ≤ 102) || (65 ≤ c && c ≤ 70)

def hexVal (c : UInt8) : Option UInt8 :=
  if 48 ≤ c ∧ c ≤ 57 then some (c - 48)
  else if 97 ≤ c ∧ c ≤ 102 then some (c - 97 + 10)
  else if 65 ≤ c ∧ c ≤ 70 then some (c - 65 + 10)
  else none

/-- How far the lexer goes, how often it increments `line`, and where it says that the last of
these lines begins. -/
structure Moved where
  len : ℕ
  lines : ℕ
  lineStart : Option ℕ
  deriving DecidableEq, Repr

namespace Moved

/-- So many bytes are gone over, and no line is counted. -/
def bytes (len : ℕ) : Moved :=
  ⟨len, 0, none⟩

/-- A byte is gone over that ends a line. -/
def line : Moved :=
  ⟨1, 1, some 1⟩

/-- One move, and then another one. -/
def followedBy (first second : Moved) : Moved where
  len := first.len + second.len
  lines := first.lines + second.lines
  lineStart := (second.lineStart.map (first.len + ·)).or first.lineStart

end Moved

/-- Up to the end of the line. -/
def lineLength (rest : Bytes) : ℕ :=
  (rest.takeWhile (· != newline)).length

/-- Up to the end of a block comment, whose beginning has been gone over. -/
def skipBlock : Bytes → Moved
  | [] => .bytes 0
  | c :: rest =>
    if c = ascii '*' ∧ rest.head? = some (ascii '/') then .bytes 2
    else (if c = newline then Moved.line else .bytes 1).followedBy (skipBlock rest)

/-- The loop of `skipWS`, for so many rounds at most. -/
def skipBlanks : ℕ → Bytes → Moved
  | 0, _ => .bytes 0
  | _, [] => .bytes 0
  | rounds + 1, c :: rest =>
    if c = ascii ' ' ∨ c = ascii '\r' ∨ c = ascii '\t' then
      (Moved.bytes 1).followedBy (skipBlanks rounds rest)
    else if c = newline then
      Moved.line.followedBy (skipBlanks rounds rest)
    else if c = ascii '/' ∧ rest.head? = some (ascii '/') then
      let comment := lineLength (c :: rest)
      (Moved.bytes comment).followedBy (skipBlanks rounds ((c :: rest).drop comment))
    else if c = ascii '/' ∧ rest.head? = some (ascii '*') then
      let comment := (Moved.bytes 2).followedBy (skipBlock rest.tail)
      comment.followedBy (skipBlanks rounds ((c :: rest).drop comment.len))
    else .bytes 0

/-- `skipWS`, at a position of the source. -/
def skipWS (pos : ℕ) (rest : Bytes) : Moved :=
  let shebang :=
    if pos = 0 ∧ rest.take 2 = [ascii '#', ascii '!'] then lineLength rest else 0
  (Moved.bytes shebang).followedBy (skipBlanks rest.length (rest.drop shebang))

def peekCodepointLen (rest : Bytes) : ℕ :=
  match rest with
  | [] => 0
  | c :: _ =>
    match sequenceLength c with
    | none => 0
    | some len => if rest.length < len then 0 else len

def decodeCodepoint (rest : Bytes) (len : ℕ) : ℕ :=
  (utf8Decode (rest.take len)).getD 0

/-- The loop of `ident`, for so many rounds at most. -/
def identRest (unicode : Unicode) : ℕ → Bytes → ℕ
  | 0, _ => 0
  | _, [] => 0
  | rounds + 1, c :: rest =>
    if isAlphaNum c then 1 + identRest unicode rounds rest
    else if 0x80 ≤ c then
      let len := peekCodepointLen (c :: rest)
      if 0 < len ∧ unicode.isIdentContinue (decodeCodepoint (c :: rest) len) then
        len + identRest unicode rounds ((c :: rest).drop len)
      else 0
    else 0

/-- The words of the language. -/
def keywordMap : List (String × TT) :=
  [("and", .kwAnd), ("as", .kwAs), ("assert", .kwAssert), ("break", .kwBreak), ("case", .kwCase),
    ("const", .kwConst), ("continue", .kwContinue), ("defer", .kwDefer), ("div", .kwDiv),
    ("mod", .kwMod), ("rem", .kwRem), ("else", .kwElse), ("enum", .kwEnum), ("false", .kwFalse),
    ("for", .kwFor), ("func", .kwFunc), ("if", .kwIf), ("import", .kwImport), ("in", .kwIn),
    ("interface", .kwInterface), ("not", .kwNot), ("null", .kwNull), ("or", .kwOr),
    ("pub", .kwPub), ("return", .kwReturn), ("struct", .kwStruct), ("subtype", .kwSubtype),
    ("switch", .kwSwitch), ("test", .kwTest), ("trap", .kwTrap), ("true", .kwTrue),
    ("type", .kwType), ("var", .kwVar), ("variant", .kwVariant), ("when", .kwWhen)]

/-- The type of a word. -/
def wordType (text : Bytes) : TT :=
  match keywordMap.find? fun entry => entry.1.toList.map ascii = text with
  | some entry => entry.2
  | none => .ident

/-- So many bytes from the front that are digits or underscores. -/
def digitsLength (isDigit : UInt8 → Bool) (rest : Bytes) : ℕ :=
  (rest.takeWhile fun c => isDigit c || c = ascii '_').length

/-- `self.src[self.pos + index]`, or 0 behind the end. -/
def peekAt (rest : Bytes) (index : ℕ) : UInt8 :=
  rest[index]?.getD 0

/-- The digits before and behind the dot. -/
def fractionLength (rest : Bytes) : ℕ :=
  let whole := digitsLength isDigit rest
  if peekAt rest whole = ascii '.' ∧ isDigit (peekAt rest (whole + 1)) then
    whole + 1 + digitsLength isDigit (rest.drop (whole + 1))
  else whole

/-- How much comes from the sign on before the digits of an exponent. -/
def signLength (sign : UInt8) : ℕ :=
  if sign = ascii '+' ∨ sign = ascii '-' then 2 else 1

/-- So many bytes, and an exponent if there is one with a digit. -/
def exponentLength (rest : Bytes) (length : ℕ) : ℕ :=
  if peekAt rest length = ascii 'e' ∨ peekAt rest length = ascii 'E' then
    let digitPos := length + signLength (peekAt rest (length + 1))
    if isDigit (peekAt rest digitPos) then
      digitPos + ((rest.drop digitPos).takeWhile isDigit).length
    else length
  else length

/-- How much of a decimal number comes behind its first digit. -/
def decimalLength (rest : Bytes) : ℕ :=
  exponentLength rest (fractionLength rest)

/-- `numLit`, behind its first digit. -/
def numLit (rest : Bytes) : ℕ :=
  let marker := peekAt rest 0
  if marker = ascii 'x' ∨ marker = ascii 'X' then 1 + digitsLength isHexDigit (rest.drop 1)
  else if marker = ascii 'b' ∨ marker = ascii 'B' then
    1 + digitsLength (fun c => c = 48 || c = 49) (rest.drop 1)
  else if marker = ascii 'o' ∨ marker = ascii 'O' then
    1 + digitsLength (fun c => 48 ≤ c && c ≤ 55) (rest.drop 1)
  else decimalLength rest

/-- `StrPoolSize` -/
def strPoolSize : ℕ :=
  128 * 1024

/-- A byte at the end of the pool, if there is room. -/
def outByte (pool : Bytes) (b : UInt8) : Option Bytes :=
  if pool.length < strPoolSize then some (pool ++ [b]) else none

/-- Bytes at the end of the pool, up to the first one without room: whether all of them have been
written, how many have been tried, and the pool. -/
def outBytes : Bytes → Bytes → Bool × ℕ × Bytes
  | [], pool => (true, 0, pool)
  | b :: text, pool =>
    match outByte pool b with
    | none => (false, 1, pool)
    | some pool =>
      let (all, tried, pool) := outBytes text pool
      (all, tried + 1, pool)

/-- `std.unicode.utf8Encode` -/
def utf8Encode (cp : ℕ) : Option Bytes :=
  let tail (bits : ℕ) : UInt8 := UInt8.ofNat (0x80 + bits % 0x40)
  if cp < 0x80 then some [UInt8.ofNat cp]
  else if cp < 0x800 then some [UInt8.ofNat (0xC0 + cp / 0x40), tail cp]
  else if cp < 0x10000 then
    if 0xD800 ≤ cp ∧ cp ≤ 0xDFFF then none
    else some [UInt8.ofNat (0xE0 + cp / 0x1000), tail (cp / 0x40), tail cp]
  else if cp < 0x110000 then
    some [UInt8.ofNat (0xF0 + cp / 0x40000), tail (cp / 0x1000), tail (cp / 0x40), tail cp]
  else none

/-- `outCodepoint`: whether all bytes have been written, and the pool. -/
def outCodepoint (cp : ℕ) (pool : Bytes) : Bool × Bytes :=
  match utf8Encode cp with
  | none => (false, pool)
  | some text =>
    let (all, _, pool) := outBytes text pool
    (all, pool)

/-- `readHexN`, from a value of 21 bits on: the value, and how many bytes have been read. -/
def readHexN : ℕ → Bytes → ℕ → Option ℕ × ℕ
  | 0, _, val => (some val, 0)
  | _ + 1, [], _ => (none, 0)
  | n + 1, c :: rest, val =>
    match hexVal c with
    | none => (none, 1)
    | some d =>
      let (result, read) := readHexN n rest (((val <<< 4) % 2 ^ 21) ||| d.toNat)
      (result, read + 1)

/-- The byte of a simple escape. -/
def escaped (esc : UInt8) : UInt8 :=
  if esc = ascii 'n' then 10
  else if esc = ascii 't' then 9
  else if esc = ascii 'r' then 13
  else esc

/-- A type of token, a move, and the pool afterwards. -/
structure Scanned where
  typ : TT
  moved : Moved
  pool : Bytes
  deriving DecidableEq, Repr

/-- A scan that comes behind a move. -/
def Scanned.behind (scanned : Scanned) (moved : Moved) : Scanned :=
  { scanned with moved := moved.followedBy scanned.moved }

/-- What comes of an escape, behind its backslash: an error or more text, and how long it is. -/
structure Escape where
  err : Option TT
  len : ℕ
  pool : Bytes

/-- A code point of so many digits. -/
def unicodeEscape (digits : ℕ) (rest pool : Bytes) : Escape :=
  match readHexN digits rest 0 with
  | (none, read) => ⟨some .errBadEscape, 1 + read, pool⟩
  | (some cp, read) =>
    let (all, pool) := outCodepoint cp pool
    ⟨if all then none else some .errBadEscape, 1 + read, pool⟩

/-- A byte of two digits. -/
def byteEscape (rest pool : Bytes) : Escape :=
  match rest with
  | [] => ⟨some .errBadEscape, 1, pool⟩
  | [_] => ⟨some .errBadEscape, 2, pool⟩
  | hi :: lo :: _ =>
    match hexVal hi, hexVal lo with
    | some hv, some lv =>
      match outByte pool ((hv <<< 4) ||| lv) with
      | none => ⟨some .errStringPoolExhausted, 3, pool⟩
      | some pool => ⟨none, 3, pool⟩
    | _, _ => ⟨some .errBadEscape, 3, pool⟩

/-- The escapes of `strLit`. -/
def escape (rest pool : Bytes) : Escape :=
  match rest with
  | [] => ⟨some .errUnterminatedString, 0, pool⟩
  | esc :: rest =>
    if esc = ascii 'x' then byteEscape rest pool
    else if esc = ascii 'u' then unicodeEscape 4 rest pool
    else if esc = ascii 'U' then unicodeEscape 8 rest pool
    else
      match outByte pool (escaped esc) with
      | none => ⟨some .errStringPoolExhausted, 1, pool⟩
      | some pool => ⟨none, 1, pool⟩

/-- `strLit` behind the opening quote, for so many rounds at most. -/
def strLit (quote : UInt8) : ℕ → Bytes → Bytes → Scanned
  | 0, _, pool => ⟨.errUnterminatedString, .bytes 0, pool⟩
  | _, [], pool => ⟨.errUnterminatedString, .bytes 0, pool⟩
  | rounds + 1, c :: rest, pool =>
    if c = quote then ⟨.string, .bytes 1, pool⟩
    else if c = newline then ⟨.errUnterminatedString, .bytes 0, pool⟩
    else if quote = ascii '"' ∧ c = ascii '\\' then
      let found := escape rest pool
      match found.err with
      | some err => ⟨err, .bytes (1 + found.len), found.pool⟩
      | none =>
        (strLit quote rounds (rest.drop found.len) found.pool).behind (.bytes (1 + found.len))
    else
      match outByte pool c with
      | none => ⟨.errStringPoolExhausted, .bytes 1, pool⟩
      | some pool => (strLit quote rounds rest pool).behind (.bytes 1)

/-- `multilineStrLit` behind the two backslashes of a line, for so many rounds at most. -/
def multilineStrLit : ℕ → Bytes → Bytes → Scanned
  | 0, _, pool => ⟨.string, .bytes 0, pool⟩
  | rounds + 1, rest, pool =>
    match outBytes (rest.takeWhile (· != newline)) pool with
    | (false, tried, pool) => ⟨.errStringPoolExhausted, .bytes tried, pool⟩
    | (true, len, pool) =>
      match rest.drop len with
      | [] => ⟨.string, .bytes len, pool⟩
      | _ :: rest =>
        let ended := (Moved.bytes len).followedBy .line
        match outByte pool newline with
        | none => ⟨.errStringPoolExhausted, ended, pool⟩
        | some pool =>
          let indent := (rest.takeWhile fun c => c = ascii ' ' || c = ascii '\t').length
          let next := ended.followedBy (.bytes indent)
          if (rest.drop indent).take 2 = [ascii '\\', ascii '\\'] then
            (multilineStrLit rounds (rest.drop (indent + 2)) pool).behind
              (next.followedBy (.bytes 2))
          else ⟨.string, next, pool⟩

/-- `runeLit` behind the opening backtick: the type, and how long it is. -/
def runeLit (rest : Bytes) : TT × ℕ :=
  let len := (rest.takeWhile fun c => c != ascii '\x60' && c != newline).length
  match rest.drop len with
  | [] => (.errUnterminatedString, len)
  | c :: _ => if c = newline then (.errUnterminatedString, len) else (.rune, len + 1)

/-- The tokens that begin with a byte, each with the bytes that must follow; the first one that
fits is taken. -/
def operators : List (Char × List (List Char × TT)) :=
  [('(', [([], .lparen)]), (')', [([], .rparen)]), ('\x7b', [([], .lbrace)]),
    ('\x7d', [([], .rbrace)]), ('[', [([], .lbracket)]), (']', [([], .rbracket)]),
    (',', [([], .comma)]), (';', [([], .semicolon)]),
    (':', [(['='], .colonEq), ([], .colon)]),
    ('.', [(['.', '.'], .ellipsis), (['.'], .dotdot), ([], .dot)]),
    ('?', [(['?'], .questionQuestion), ([], .question)]),
    ('+', [(['+'], .plusPlus), (['='], .plusEq), ([], .plus)]),
    ('-', [(['-'], .minusMinus), (['='], .minusEq), ([], .minus)]),
    ('*', [(['*'], .starStar), (['='], .starEq), ([], .star)]),
    ('/', [(['='], .slashEq), ([], .slash)]),
    ('%', [(['='], .percentEq), ([], .percent)]),
    ('~', [([], .tilde)]),
    ('!', [(['='], .bangEq), ([], .bang)]),
    ('=', [(['='], .eqEq), ([], .eq)]),
    ('<', [(['<', '='], .ltLtEq), (['<'], .ltLt), (['='], .ltEq), ([], .lt)]),
    ('>', [(['>', '='], .gtGtEq), (['>'], .gtGt), (['='], .gtEq), ([], .gt)]),
    ('&', [(['&'], .ampAmp), (['='], .ampEq), ([], .amp)]),
    ('|', [(['|'], .pipePipe), (['='], .pipeEq), ([], .pipe)]),
    ('^', [(['='], .caretEq), ([], .caret)])]

/-- The operators of `next`: the type, and how many bytes follow the first one. -/
def operator (c : UInt8) (rest : Bytes) : TT × ℕ :=
  match operators.find? fun entry => ascii entry.1 = c with
  | none => (.errInvalidChar, 0)
  | some entry =>
    match entry.2.find? fun form => (form.1.map ascii).isPrefixOf rest with
    | none => (.errInvalidChar, 0)
    | some form => (form.2, form.1.length)

/-- A token without a text in the pool. -/
def plain (typ : TT) (len : ℕ) (pool : Bytes) : Scanned :=
  ⟨typ, .bytes len, pool⟩

/-- `ident`, behind so many bytes. -/
def ident (unicode : Unicode) (begun : ℕ) (bytes pool : Bytes) : Scanned :=
  let len := begun + identRest unicode bytes.length (bytes.drop begun)
  plain (wordType (bytes.take len)) len pool

/-- The switch of `next`, on the bytes from the first byte of a token on. -/
def scanToken (unicode : Unicode) (c : UInt8) (rest pool : Bytes) : Scanned :=
  if isAlpha c then ident unicode 1 (c :: rest) pool
  else if isDigit c then plain .number (1 + numLit rest) pool
  else if 0x80 ≤ c then
    let len := peekCodepointLen (c :: rest)
    if 0 < len ∧ unicode.isIdentStart (decodeCodepoint (c :: rest) len) then
      ident unicode len (c :: rest) pool
    else plain .errInvalidChar (if 0 < len then len else 1) pool
  else if c = ascii '"' ∨ c = 39 then (strLit c (rest.length + 1) rest pool).behind (.bytes 1)
  else if c = ascii '\x60' then plain (runeLit rest).1 (1 + (runeLit rest).2) pool
  else if c = ascii '\\' then
    if rest.head? = some (ascii '\\') then
      (multilineStrLit (rest.length + 1) rest.tail pool).behind (.bytes 2)
    else plain .errInvalidChar 1 pool
  else plain (operator c rest).1 (1 + (operator c rest).2) pool

structure Token where
  typ : TT
  src : Bytes
  line : UInt32
  col : UInt32
  deriving DecidableEq, Repr

structure Lexer where
  src : Bytes
  start : ℕ
  pos : ℕ
  line : UInt32
  lineStart : ℕ
  strPool : Bytes

/-- `lineStartFor` -/
def lineStartFor (src : Bytes) : ℕ → ℕ
  | 0 => 0
  | idx + 1 => if src[idx]? = some newline then idx + 1 else lineStartFor src idx

namespace Lexer

/-- `Lexer{ .src = src }` -/
def init (src : Bytes) : Lexer :=
  ⟨src, 0, 0, 1, 0, []⟩

def rest (lexer : Lexer) : Bytes :=
  lexer.src.drop lexer.pos

def move (lexer : Lexer) (moved : Moved) : Lexer :=
  { lexer with
    pos := lexer.pos + moved.len
    line := lexer.line + UInt32.ofNat moved.lines
    lineStart := (moved.lineStart.map (lexer.pos + ·)).getD lexer.lineStart }

/-- `tok` -/
def tok (lexer : Lexer) (typ : TT) : Token where
  typ := typ
  src := (lexer.src.take lexer.pos).drop lexer.start
  line := lexer.line
  col := UInt32.ofNat (lexer.start - lexer.lineStart + 1)

/-- `tokString` -/
def tokString (lexer : Lexer) (startOut : ℕ) : Token where
  typ := .string
  src := lexer.strPool.drop startOut
  line := lexer.line
  col := UInt32.ofNat (lexer.start - lineStartFor lexer.src lexer.start + 1)

/-- The token that has been scanned, and the lexer behind it. -/
def finish (lexer : Lexer) (scanned : Scanned) : Token × Lexer :=
  let after := { lexer.move scanned.moved with strPool := scanned.pool }
  (if scanned.typ = .string then after.tokString lexer.strPool.length else after.tok scanned.typ,
    after)

/-- The lexer where the next token starts. -/
def begin (lexer : Lexer) : Lexer :=
  let skipped := lexer.move (skipWS lexer.pos lexer.rest)
  { skipped with start := skipped.pos }

/-- `next` -/
def next (unicode : Unicode) (lexer : Lexer) : Token × Lexer :=
  match lexer.begin.rest with
  | [] => (lexer.begin.tok .eof, lexer.begin)
  | c :: rest => lexer.begin.finish (scanToken unicode c rest lexer.begin.strPool)

end Lexer

end Gengo.Lexing
