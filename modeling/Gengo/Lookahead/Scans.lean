import Gengo.Bytecode.Value

/-!
# Scans of the tokens ahead

The compiler decides what a statement is by looking at tokens it has not come to yet. Each scan is
a function of the current token and of the tokens that a copy of the lexer gives; behind the last
token the lexer gives `eof` for ever.
-/

namespace Gengo.Lookahead

open Bytecode (Bytes)

/-- The token types that a scan or a dispatch tells apart. `other` numbers the rest. -/
inductive TT
  | eof | ident | number | string
  | kwFunc | kwStruct | kwInterface | kwVariant | kwIn | kwTrap | kwPub | kwTest | kwVar | kwConst
  | kwType | kwSubtype
  | lparen | rparen | lbrace | rbrace | lbracket | rbracket
  | comma | semicolon | colon | dot | question
  | eq | colonEq | plusEq | minusEq | starEq | slashEq | ampEq | pipeEq | caretEq | ltLtEq | gtGtEq
  | plusPlus | minusMinus
  | other (code : ℕ)
  deriving DecidableEq, Repr

structure Token where
  typ : TT
  src : Bytes
  line : ℕ
  col : ℕ
  deriving DecidableEq, Repr

/-- What the lexer gives behind the last token. -/
def endOfFile : Token :=
  ⟨.eof, [], 0, 0⟩

/-- `Lexer.next`. -/
def next : List Token → Token × List Token
  | [] => (endOfFile, [])
  | token :: rest => (token, rest)

/-- The type of the next token. -/
def nextTyp (tokens : List Token) : TT :=
  (next tokens).1.typ

/-- Behind the bracket that matches one that is open, if there is one. -/
def behindBracket : ℕ → List Token → Option (List Token)
  | 0, tokens => some tokens
  | _ + 1, [] => none
  | depth + 1, token :: rest =>
    match token.typ with
    | .lbracket => behindBracket (depth + 2) rest
    | .rbracket => behindBracket depth rest
    | .eof => none
    | _ => behindBracket (depth + 1) rest

/-- `isMethodDecl`. -/
def isMethodDecl (tokens : List Token) : Bool :=
  let (t1, tokens) := next tokens
  let (t2, tokens) := next tokens
  let (t3, tokens) := next tokens
  let (t4, tokens) := next tokens
  if t1.typ ≠ .lparen ∨ t2.typ ≠ .ident ∨ t3.typ ≠ .ident then false
  else if t4.typ = .lbracket then
    match behindBracket 1 tokens with
    | none => false
    | some tokens =>
      let (close, tokens) := next tokens
      let (t5, tokens) := next tokens
      close.typ = .rparen && t5.typ = .ident && nextTyp tokens = .lparen
  else
    let (t5, tokens) := next tokens
    t4.typ = .rparen && t5.typ = .ident && nextTyp tokens = .lparen

/-- Behind the names of type parameters and the bracket that closes them. -/
def behindTypeParams : List Token → Option (List Token)
  | [] => none
  | token :: rest =>
    match token.typ with
    | .rbracket => some rest
    | .ident => behindTypeParams rest
    | .comma => behindTypeParams rest
    | _ => none

/-- `isNamedFuncDecl`. -/
def isNamedFuncDecl (tokens : List Token) : Bool :=
  let (t1, tokens) := next tokens
  let (t2, tokens) := next tokens
  if t1.typ ≠ .ident then false
  else if t2.typ = .lparen then true
  else if t2.typ ≠ .lbracket then false
  else
    match behindTypeParams tokens with
    | none => false
    | some tokens => nextTyp tokens = .lparen

/-- `looksLikeGenericTypeParams`, on the tokens from the buffered one on. -/
def genericTypeParams (tokens : List Token) : Bool :=
  match behindTypeParams tokens with
  | none => false
  | some tokens =>
    nextTyp tokens = .kwStruct || nextTyp tokens = .kwVariant || nextTyp tokens = .kwInterface

/-- The loops of `isTypedVarDecl` that look for the `=` behind a type. One of them gives up at a
bracket that was not opened. -/
def eqBehindType (strict : Bool) : ℤ → List Token → Bool
  | _, [] => false
  | depth, token :: rest =>
    match token.typ with
    | .lparen => eqBehindType strict (depth + 1) rest
    | .lbracket => eqBehindType strict (depth + 1) rest
    | .rparen => if strict && depth < 1 then false else eqBehindType strict (depth - 1) rest
    | .rbracket => if strict && depth < 1 then false else eqBehindType strict (depth - 1) rest
    | .eq => if depth = 0 then true else eqBehindType strict depth rest
    | .lbrace => false
    | .semicolon => false
    | .eof => false
    | _ => eqBehindType strict depth rest

/-- The depth at the bracket that closes a key type, and what is behind it. -/
def behindKeyType : ℤ → List Token → Option (ℤ × List Token)
  | _, [] => none
  | depth, token :: rest =>
    if token.typ = .rbracket ∧ depth ≤ 0 then some (depth, rest)
    else
      match token.typ with
      | .lparen => behindKeyType (depth + 1) rest
      | .lbracket => behindKeyType (depth + 1) rest
      | .rparen => behindKeyType (depth - 1) rest
      | .rbracket => behindKeyType (depth - 1) rest
      | .lbrace => none
      | .semicolon => none
      | .eof => none
      | _ => behindKeyType depth rest

/-- What `isTypedVarDecl` makes of the tokens from a type name on. -/
def typedByName (tokens : List Token) : Bool :=
  let (name, tokens) := next tokens
  if name.typ ≠ .ident then false
  else if nextTyp tokens = .dot then
    let (qualified, tokens) := next (next tokens).2
    if qualified.typ ≠ .ident then false
    else if nextTyp tokens = .lbracket then eqBehindType true 0 tokens
    else nextTyp tokens = .eq
  else if nextTyp tokens = .lbracket then eqBehindType true 0 tokens
  else nextTyp tokens = .eq

/-- `isTypedVarDecl`. A bracket next to the name begins an index. -/
def isTypedVarDecl (cur : Token) (tokens : List Token) : Bool :=
  let tokens := if nextTyp tokens = .question then (next tokens).2 else tokens
  let (t, behind) := next tokens
  match t.typ with
  | .lbracket =>
    if cur.col + cur.src.length = t.col then false
    else
      match nextTyp behind with
      | .rbracket => eqBehindType false 0 (next behind).2
      | .ident => eqBehindKey behind
      | .kwFunc => eqBehindKey behind
      | .lbracket => eqBehindKey behind
      | .question => eqBehindKey behind
      | _ => false
  | .kwFunc => eqBehindType false 0 tokens
  | _ => typedByName tokens
where
  eqBehindKey (tokens : List Token) : Bool :=
    match behindKeyType 0 tokens with
    | none => false
    | some (depth, tokens) => eqBehindType false depth tokens

/-- The loop of `hasInitSemicolon` and `isCStyleFor`, which begins at the current token. -/
def semicolonAhead : Token → List Token → Bool
  | token, tokens =>
    match token.typ with
    | .eof => false
    | .lbrace => false
    | .rbrace => false
    | .semicolon => true
    | _ =>
      match tokens with
      | [] => false
      | token :: rest => semicolonAhead token rest

/-- `hasInitSemicolon`. -/
def hasInitSemicolon (cur : Token) (tokens : List Token) : Bool :=
  semicolonAhead cur tokens

/-- `isCStyleFor`. -/
def isCStyleFor (cur : Token) (tokens : List Token) : Bool :=
  semicolonAhead cur tokens

/-- `isForIn`. -/
def isForIn : Token → List Token → Bool
  | token, tokens =>
    match token.typ with
    | .eof => false
    | .lbrace => false
    | .rbrace => false
    | .kwIn => true
    | .semicolon => false
    | _ =>
      match tokens with
      | [] => false
      | token :: rest => isForIn token rest

/-- The loop of `isIndexAssign`. The depth is a `u32`. -/
def indexAssignFrom (startLine : ℕ) : UInt32 → List Token → Bool
  | _, [] => false
  | depth, token :: rest =>
    if token.typ = .eof then false
    else if startLine < token.line ∧ depth = 0 then false
    else if token.typ = .lbracket then indexAssignFrom startLine (depth + 1) rest
    else if token.typ = .rbracket then
      if depth - 1 = 0 then nextTyp rest = .eq else indexAssignFrom startLine (depth - 1) rest
    else indexAssignFrom startLine depth rest

/-- `isIndexAssign`. -/
def isIndexAssign (cur : Token) (tokens : List Token) : Bool :=
  indexAssignFrom cur.line 0 tokens

/-- The loop of `isMultiAssignEq`. -/
def multiAssignFrom (startLine : ℕ) : ℕ → Bool → List Token → Bool
  | _, _, [] => false
  | depth, sawComma, token :: rest =>
    if token.typ = .eof ∨ startLine < token.line then false
    else
      match token.typ with
      | .lbracket => multiAssignFrom startLine (depth + 1) sawComma rest
      | .lparen => multiAssignFrom startLine (depth + 1) sawComma rest
      | .rbracket =>
        if depth = 0 then false else multiAssignFrom startLine (depth - 1) sawComma rest
      | .rparen =>
        if depth = 0 then false else multiAssignFrom startLine (depth - 1) sawComma rest
      | .comma => multiAssignFrom startLine depth (sawComma || depth = 0) rest
      | .eq => sawComma && depth = 0
      | .colonEq => false
      | .semicolon => false
      | .lbrace => false
      | .rbrace => false
      | _ => multiAssignFrom startLine depth sawComma rest

/-- `isMultiAssignEq`. -/
def isMultiAssignEq (cur : Token) (tokens : List Token) : Bool :=
  multiAssignFrom cur.line 0 false tokens

/-- The loop of `isMultiBind`. -/
def multiBindFrom (op : TT) (startLine : ℕ) : Bool → Bool → List Token → Bool
  | _, _, [] => false
  | sawComma, expectIdent, token :: rest =>
    if token.typ = .eof ∨ startLine < token.line then false
    else if expectIdent then
      if token.typ ≠ .ident ∧ token.typ ≠ .kwTrap then false
      else multiBindFrom op startLine sawComma false rest
    else if token.typ = .comma then multiBindFrom op startLine true true rest
    else sawComma && token.typ = op

/-- `isMultiBind`. -/
def isMultiBind (op : TT) (cur : Token) (tokens : List Token) : Bool :=
  multiBindFrom op cur.line false false tokens

/-- The assignment operators that `isPropertyAssign` accepts. -/
def assigns : TT → Bool
  | .eq | .plusEq | .minusEq | .starEq | .slashEq | .ampEq | .pipeEq | .caretEq | .ltLtEq
  | .gtGtEq => true
  | _ => false

/-- The loop of `isPropertyAssign`. -/
def propertyAssignFrom (startLine : ℕ) : ℕ → Bool → List Token → Bool
  | _, _, [] => false
  | depth, sawPath, token :: rest =>
    if token.typ = .eof then false
    else if startLine < token.line ∧ depth = 0 then false
    else if assigns token.typ then sawPath && depth = 0
    else
      match token.typ with
      | .dot => propertyAssignFrom startLine depth true rest
      | .lbracket => propertyAssignFrom startLine (depth + 1) true rest
      | .rbracket =>
        if depth = 0 then false else propertyAssignFrom startLine (depth - 1) sawPath rest
      | .semicolon => false
      | .lbrace => false
      | .rbrace => false
      | _ => propertyAssignFrom startLine depth sawPath rest

/-- `isPropertyAssign`. -/
def isPropertyAssign (cur : Token) (tokens : List Token) : Bool :=
  propertyAssignFrom cur.line 0 false tokens

/-- What `looksLikeStructLiteral` and `looksLikeNonEmptyStructLiteral` have in common: they differ
in empty braces. -/
def structLiteral (empty : Bool) (tokens : List Token) : Bool :=
  let (t, tokens) := next tokens
  if t.typ = .rbrace then empty
  else if t.typ ≠ .ident ∧ t.typ ≠ .string then false
  else nextTyp tokens = .colon

/-- `looksLikeStructLiteral`. -/
def looksLikeStructLiteral (tokens : List Token) : Bool :=
  structLiteral true tokens

/-- `looksLikeNonEmptyStructLiteral`. -/
def looksLikeNonEmptyStructLiteral (tokens : List Token) : Bool :=
  structLiteral false tokens

end Gengo.Lookahead
