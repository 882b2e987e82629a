import Gengo.Lookahead.Scans
import Gengo.Runs.Along
import Mathlib.Tactic.FinCases

/-!
# Lookahead

The parser has a current token, at most one token that an earlier lookahead has read and buffered,
and the lexer behind it. `advance` and `peekToken` respect the buffered token. The scans take a
copy of the lexer, which is behind the buffered token, so that they pass over it. As long as no
scan is made while a token is buffered, the parser is what it would be without a buffer.
-/

namespace Gengo.Lookahead

open Bytecode (Bytes)
open Runs

/-- The fields of the compiler that hold tokens. The lexer is the list of the tokens to come. -/
structure Parser where
  prev : Token
  cur : Token
  peekTok : Option Token
  lex : List Token

/-- The parser of compile-time constants: the value that it finds from the current token on, and
how many tokens it goes over. -/
structure Constants (κ : Type) where
  parse : Token → List Token → Option (κ × ℕ)

/-- The lookaheads that begin with a copy of the lexer. `payloadName` is the one of a variant arm,
and `compileTimeConst` is `parseCompileTimeConst`. -/
inductive Scan
  | peekTT | isMethodDecl | isNamedFuncDecl | isTypedVarDecl
  | hasInitSemicolon | isCStyleFor | isForIn | isIndexAssign | isMultiAssignEq
  | isMultiBind (op : TT) | isPropertyAssign
  | looksLikeStructLiteral | looksLikeNonEmptyStructLiteral
  | payloadName | compileTimeConst
  deriving DecidableEq, Repr

/-- What a lookahead tells. -/
inductive Answer (κ : Type)
  | nothing
  | token (token : Token)
  | typ (typ : TT)
  | holds (holds : Bool)
  | value (value : Option κ)
  deriving DecidableEq, Repr

variable {κ : Type} (constants : Constants κ)

/-- The answer of a scan, from the current token and those that it takes for the next ones. -/
def Scan.answer (cur : Token) (tokens : List Token) : Scan → Answer κ
  | .peekTT => .typ (nextTyp tokens)
  | .isMethodDecl => .holds (Lookahead.isMethodDecl tokens)
  | .isNamedFuncDecl => .holds (Lookahead.isNamedFuncDecl tokens)
  | .isTypedVarDecl => .holds (Lookahead.isTypedVarDecl cur tokens)
  | .hasInitSemicolon => .holds (Lookahead.hasInitSemicolon cur tokens)
  | .isCStyleFor => .holds (Lookahead.isCStyleFor cur tokens)
  | .isForIn => .holds (Lookahead.isForIn cur tokens)
  | .isIndexAssign => .holds (Lookahead.isIndexAssign cur tokens)
  | .isMultiAssignEq => .holds (Lookahead.isMultiAssignEq cur tokens)
  | .isMultiBind op => .holds (Lookahead.isMultiBind op cur tokens)
  | .isPropertyAssign => .holds (Lookahead.isPropertyAssign cur tokens)
  | .looksLikeStructLiteral => .holds (Lookahead.looksLikeStructLiteral tokens)
  | .looksLikeNonEmptyStructLiteral => .holds (Lookahead.looksLikeNonEmptyStructLiteral tokens)
  | .payloadName => .holds (nextTyp tokens = .ident)
  | .compileTimeConst => .value ((constants.parse cur tokens).map Prod.fst)

/-- What the compiler does with its tokens. -/
inductive Action
  | advance
  | peekToken
  | checkClauseWord (word : Bytes)
  | looksLikeGenericTypeParams
  | scan (scan : Scan)
  | consumeCompileTimeConst
  /-- A declaration that does not compile is given up, in front of the next one. -/
  | rollbackDecl
  deriving DecidableEq, Repr

/-- The token types behind a clause word that make it an identifier. -/
def endsClauseWord : TT → Bool
  | .colonEq | .eq | .plusEq | .minusEq | .starEq | .slashEq | .dot | .lbracket | .comma | .colon
  | .rparen | .rbrace | .semicolon => true
  | _ => false

namespace Parser

/-- `advance`. -/
def advance (parser : Parser) : Parser :=
  match parser.peekTok with
  | some token => { parser with prev := parser.cur, cur := token, peekTok := none }
  | none =>
    { parser with prev := parser.cur, cur := (next parser.lex).1, lex := (next parser.lex).2 }

/-- `peekToken`. -/
def peekToken (parser : Parser) : Token × Parser :=
  match parser.peekTok with
  | some token => (token, parser)
  | none =>
    let (token, rest) := next parser.lex
    (token, { parser with peekTok := some token, lex := rest })

/-- `checkClauseWord`. -/
def checkClauseWord (parser : Parser) (word : Bytes) : Bool × Parser :=
  if parser.cur.typ = .ident ∧ parser.cur.src = word then
    let (token, after) := parser.peekToken
    (!endsClauseWord token.typ, after)
  else (false, parser)

/-- `looksLikeGenericTypeParams`. -/
def looksLikeGenericTypeParams (parser : Parser) : Bool :=
  genericTypeParams (parser.peekTok.toList ++ parser.lex)

/-- The moves of a `ConstExprCursor`. -/
def moveCursor (parser : Parser) : ℕ → Parser
  | 0 => { parser with peekTok := none }
  | number + 1 =>
    moveCursor { parser with
      prev := parser.cur, cur := (next parser.lex).1, lex := (next parser.lex).2 } number

/-- `consumeCompileTimeConst`. -/
def consumeCompileTimeConst (parser : Parser) : Option κ × Parser :=
  match constants.parse parser.cur parser.lex with
  | none => (none, parser)
  | some (value, number) => (some value, parser.moveCursor number)

/-- `rollbackDecl`, which leaves the lexer where it is. -/
def rollbackDecl (parser : Parser) : Parser :=
  { parser with peekTok := none }

/-- What an action tells, and the parser after it. -/
def step (parser : Parser) : Action → Answer κ × Parser
  | .advance => (.token parser.advance.cur, parser.advance)
  | .peekToken => (.token parser.peekToken.1, parser.peekToken.2)
  | .checkClauseWord word =>
    (.holds (parser.checkClauseWord word).1, (parser.checkClauseWord word).2)
  | .looksLikeGenericTypeParams => (.holds parser.looksLikeGenericTypeParams, parser)
  | .scan scan => (scan.answer constants parser.cur parser.lex, parser)
  | .consumeCompileTimeConst =>
    (.value (parser.consumeCompileTimeConst constants).1,
      (parser.consumeCompileTimeConst constants).2)
  | .rollbackDecl => (.nothing, parser.rollbackDecl)

/-- The answers along a run, and the parser after it. -/
def run (parser : Parser) : List Action → List (Answer κ) × Parser
  | [] => ([], parser)
  | action :: rest =>
    let (answer, after) := parser.step constants action
    let (answers, last) := after.run rest
    (answer :: answers, last)

/-- The parser of a source, before its first token. -/
def start (tokens : List Token) : Parser :=
  ⟨endOfFile, endOfFile, none, tokens⟩

end Parser

/-- A place in the source: the current token, the one before it and those that follow. -/
structure Position where
  prev : Token
  cur : Token
  following : List Token

namespace Position

def advance (position : Position) : Position :=
  ⟨position.cur, (next position.following).1, (next position.following).2⟩

/-- What an action is to tell about the tokens that follow, and where it is to go. Only an advance
and a constant that is consumed go on. -/
def step (position : Position) : Action → Answer κ × Position
  | .advance => (.token position.advance.cur, position.advance)
  | .peekToken => (.token (next position.following).1, position)
  | .checkClauseWord word =>
    (.holds (decide (position.cur.typ = .ident ∧ position.cur.src = word) &&
      !endsClauseWord (nextTyp position.following)), position)
  | .looksLikeGenericTypeParams => (.holds (genericTypeParams position.following), position)
  | .scan scan => (scan.answer constants position.cur position.following, position)
  | .consumeCompileTimeConst =>
    match constants.parse position.cur position.following with
    | none => (.value none, position)
    | some (value, number) => (.value (some value), advance^[number] position)
  | .rollbackDecl => (.nothing, position)

def run (position : Position) : List Action → List (Answer κ) × Position
  | [] => ([], position)
  | action :: rest =>
    let (answer, after) := position.step constants action
    let (answers, last) := after.run rest
    (answer :: answers, last)

end Position

/-- The beginning of a source. -/
def Position.start (tokens : List Token) : Position :=
  ⟨endOfFile, endOfFile, tokens⟩

/-- A parser is at a position: the buffered token and those of the lexer follow. An `eof` may have
been buffered behind the last token. -/
structure At (parser : Parser) (position : Position) : Prop where
  prev : parser.prev = position.prev
  cur : parser.cur = position.cur
  following : parser.peekTok.toList ++ parser.lex = position.following ∨
    (parser.peekTok = some endOfFile ∧ parser.lex = [] ∧ position.following = [])

/-- An action that copies the lexer, or forgets the buffer, finds no token buffered. -/
def Unbuffered (parser : Parser) : Action → Prop
  | .scan _ => parser.peekTok = none
  | .consumeCompileTimeConst => parser.peekTok = none
  | .rollbackDecl => parser.peekTok = none
  | _ => True

namespace At

variable {parser : Parser} {position : Position}

section

variable (at_ : At parser position)
include at_

theorem lex_eq (unbuffered : parser.peekTok = none) : parser.lex = position.following := by
  rcases at_.following with same | ⟨buffered, _, _⟩
  · rwa [unbuffered] at same
  · rw [unbuffered] at buffered
    exact absurd buffered (by simp)

theorem next_following {token : Token} (buffered : parser.peekTok = some token) :
    next position.following = (token, parser.lex) := by
  rcases at_.following with same | ⟨isEnd, noMore, none⟩
  · rw [← same, buffered]
    rfl
  · rw [none, noMore, Option.some.inj (buffered.symm.trans isEnd)]
    rfl

theorem advance : At parser.advance position.advance := by
  cases buffered : parser.peekTok with
  | none =>
    have same := at_.lex_eq buffered
    simp only [Parser.advance, Position.advance, buffered, same]
    exact ⟨at_.cur, rfl, .inl rfl⟩
  | some token =>
    have first := at_.next_following buffered
    simp only [Parser.advance, Position.advance, buffered, first]
    exact ⟨at_.cur, rfl, .inl rfl⟩

theorem peekToken :
    parser.peekToken.1 = (next position.following).1 ∧ At parser.peekToken.2 position := by
  cases buffered : parser.peekTok with
  | none =>
    have same := at_.lex_eq buffered
    simp only [Parser.peekToken, buffered, same]
    refine ⟨trivial, at_.prev, at_.cur, ?_⟩
    cases following : position.following with
    | nil => exact .inr ⟨rfl, rfl, rfl⟩
    | cons token rest => exact .inl rfl
  | some token =>
    simp only [Parser.peekToken, buffered]
    exact ⟨by rw [at_.next_following buffered], at_⟩

theorem checkClauseWord (word : Bytes) :
    (parser.checkClauseWord word).1 =
        (decide (position.cur.typ = .ident ∧ position.cur.src = word) &&
          !endsClauseWord (nextTyp position.following)) ∧
      At (parser.checkClauseWord word).2 position := by
  unfold Parser.checkClauseWord
  rw [at_.cur]
  by_cases isWord : position.cur.typ = .ident ∧ position.cur.src = word
  · rw [if_pos isWord, decide_eq_true isWord, Bool.true_and]
    refine ⟨?_, at_.peekToken.2⟩
    change (!endsClauseWord parser.peekToken.1.typ) = _
    rw [at_.peekToken.1, nextTyp]
  · rw [if_neg isWord, decide_eq_false isWord, Bool.false_and]
    exact ⟨rfl, at_⟩

theorem looksLikeGenericTypeParams :
    parser.looksLikeGenericTypeParams = genericTypeParams position.following := by
  rcases at_.following with same | ⟨isEnd, noMore, none⟩
  · rw [Parser.looksLikeGenericTypeParams, same]
  · rw [Parser.looksLikeGenericTypeParams, isEnd, noMore, none]
    rfl

/-- A cursor that goes on where no token is buffered makes so many advances. -/
theorem moveCursor (unbuffered : parser.peekTok = none) (number : ℕ) :
    At (parser.moveCursor number) (Position.advance^[number] position) := by
  induction number generalizing parser position with
  | zero => exact ⟨at_.prev, at_.cur, .inl (at_.lex_eq unbuffered)⟩
  | succ number ih =>
    rw [Function.iterate_succ_apply, Parser.moveCursor]
    have advanced : parser.advance = { parser with
        prev := parser.cur, cur := (next parser.lex).1, lex := (next parser.lex).2 } := by
      rw [Parser.advance, unbuffered]
    exact ih (advanced ▸ at_.advance) unbuffered

/-- What is not copied is told rightly whatever is buffered, and so is what is copied where
nothing is. -/
theorem step {action : Action} (unbuffered : Unbuffered parser action) :
    (parser.step constants action).1 = (position.step constants action).1 ∧
      At (parser.step constants action).2 (position.step constants action).2 := by
  cases action with
  | advance => exact ⟨congrArg Answer.token at_.advance.cur, at_.advance⟩
  | peekToken => exact ⟨congrArg Answer.token at_.peekToken.1, at_.peekToken.2⟩
  | checkClauseWord word =>
    exact ⟨congrArg Answer.holds (at_.checkClauseWord word).1, (at_.checkClauseWord word).2⟩
  | looksLikeGenericTypeParams =>
    exact ⟨congrArg Answer.holds at_.looksLikeGenericTypeParams, at_⟩
  | scan scan =>
    refine ⟨?_, at_⟩
    change scan.answer constants parser.cur parser.lex = _
    rw [at_.cur, at_.lex_eq unbuffered]
    rfl
  | consumeCompileTimeConst =>
    simp only [Parser.step, Position.step, Parser.consumeCompileTimeConst, at_.cur,
      at_.lex_eq unbuffered]
    cases constants.parse position.cur position.following with
    | none => exact ⟨rfl, at_⟩
    | some result => exact ⟨rfl, at_.moveCursor unbuffered result.2⟩
  | rollbackDecl => exact ⟨rfl, at_.prev, at_.cur, .inl (at_.lex_eq unbuffered)⟩

end

end At

/-- The parser after an action. -/
def Parser.after (parser : Parser) (action : Action) : Parser :=
  (parser.step constants action).2

/-- A parser that scans only while no token is buffered tells what the source has. -/
theorem At.run {parser : Parser} {position : Position} {actions : List Action}
    (at_ : At parser position)
    (unbuffered : Along (Parser.after constants) Unbuffered parser actions) :
    (parser.run constants actions).1 = (position.run constants actions).1 := by
  induction actions generalizing parser position with
  | nil => rfl
  | cons action rest ih =>
    have stepped := at_.step constants unbuffered.1
    have later := ih stepped.2 unbuffered.2
    simp only [Parser.run, Position.run, stepped.1, later]

/-- In every run from the beginning of a source in which no scan is made, no constant consumed and
no declaration given up while a token is buffered, every lookahead is about the tokens that follow
the current one, and the advances give the tokens of the source one after the other. -/
theorem lookahead_eq {tokens : List Token} {actions : List Action}
    (unbuffered : Along (Parser.after constants) Unbuffered (Parser.start tokens) actions) :
    ((Parser.start tokens).run constants actions).1 =
      ((Position.start tokens).run constants actions).1 := by
  have at_ : At (Parser.start tokens) (Position.start tokens) := ⟨rfl, rfl, .inl rfl⟩
  exact at_.run constants unbuffered

/-- `type T int` and `range := 5`. -/
def rangeAfterType : List Token :=
  [⟨.kwType, [116, 121, 112, 101], 1, 1⟩, ⟨.ident, [84], 1, 6⟩, ⟨.ident, [105, 110, 116], 1, 8⟩,
    ⟨.ident, [114, 97, 110, 103, 101], 2, 1⟩, ⟨.colonEq, [58, 61], 2, 7⟩, ⟨.number, [53], 2, 10⟩]

/-- What the compiler does with them: the type declaration asks whether `range` is a clause of it,
and the next declaration asks what follows `range`. -/
def declareRange : List Action :=
  [.advance, .advance, .advance, .advance, .checkClauseWord [114, 97, 110, 103, 101], .scan .peekTT]

/-- No constants. -/
def noConstants : Constants Unit :=
  ⟨fun _ _ => none⟩

/-- The next declaration is told that a number follows `range`, not that `:=` does. -/
theorem lookahead_ne :
    ((Parser.start rangeAfterType).run noConstants declareRange).1 ≠
      ((Position.start rangeAfterType).run noConstants declareRange).1 := by
  decide

/-- The question about the clause buffers a token, an advance uses it up, and then a scan is made
and the declaration is given up. -/
def scanBehindRange : List Action :=
  [.advance, .advance, .advance, .advance, .checkClauseWord [114, 97, 110, 103, 101], .advance,
    .scan .peekTT, .rollbackDecl, .advance]

theorem lookahead_eq_scanBehindRange :
    ((Parser.start rangeAfterType).run noConstants scanBehindRange).1 =
      ((Position.start rangeAfterType).run noConstants scanBehindRange).1 :=
  lookahead_eq noConstants ⟨trivial, trivial, trivial, trivial, trivial, trivial, rfl, rfl, trivial,
    trivial⟩

end Gengo.Lookahead
