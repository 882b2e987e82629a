import Gengo.Templates.Code

/-!
# The blocks of a template

A template whose tags are closed is a list of texts and tags. It is well formed if its tags are
actions that are nested like a tree. Then the instructions are those of the tree, with jumps to the
parts and to the ends of its blocks.
-/

namespace Gengo.Templates

open List Option Nat
open Bytecode (Bytes HasSlices)
open Cuts (find)

/-- A piece of a source: what is between the tags, or what is in one. -/
inductive Piece
  | text (bytes : Bytes)
  | tag (bytes : Bytes)
  deriving DecidableEq, Repr

/-- A text, if there is one. -/
def textPiece (bytes : Bytes) : List Piece :=
  if bytes = [] then [] else [.text bytes]

/-- The pieces of a source whose tags are closed, for so many rounds at most. -/
def pieces : ℕ → Bytes → Option (List Piece)
  | 0, _ => some []
  | _ + 1, [] => some []
  | rounds + 1, c :: rest =>
    match find opening (c :: rest) with
    | none => some [.text (c :: rest)]
    | some start =>
      let behind := (c :: rest).drop (start + 2)
      match find closing behind with
      | none => none
      | some stop =>
        (pieces rounds (behind.drop (stop + 2))).map fun later =>
          textPiece ((c :: rest).take start) ++ .tag (behind.take stop) :: later

/-- How a piece is written. -/
def Piece.spell : Piece → Bytes
  | text bytes => bytes
  | tag bytes => opening ++ bytes ++ closing

variable {rounds : ℕ} {src : Bytes}

theorem take_of_find {needle rest : Bytes} {pos : ℕ} (found : find needle rest = some pos) :
    rest = rest.take pos ++ needle ++ rest.drop (pos + needle.length) := by
  have occurs := (Cuts.find_eq_some_iff.mp found).2.1
  rcases occurs with ⟨behind, split⟩
  have whole := (take_append_drop pos rest).symm
  rw [← split, ← append_assoc] at whole
  have dropped : rest.drop (pos + needle.length) = behind := by
    rw [← drop_drop, ← split, drop_left]
  rw [dropped]
  exact whole

theorem spell_textPiece (bytes : Bytes) : (textPiece bytes).flatMap Piece.spell = bytes := by
  unfold textPiece
  split
  · rename_i empty
    exact empty.symm
  · exact append_nil bytes

theorem spell_pieces {found : List Piece} (enough : src.length ≤ rounds)
    (isSource : pieces rounds src = some found) : found.flatMap Piece.spell = src := by
  induction rounds generalizing src found with
  | zero =>
    cases isSource
    exact (length_eq_zero_iff.mp (le_zero.mp enough)).symm
  | succ rounds ih =>
    cases src with
    | nil =>
      cases isSource
      rfl
    | cons c rest =>
      rw [pieces] at isSource
      cases opens : find opening (c :: rest) with
      | none =>
        rw [opens] at isSource
        cases isSource
        exact append_nil _
      | some start =>
        rw [opens] at isSource
        dsimp only at isSource
        have first := take_of_find opens
        generalize (c :: rest).take start = before at isSource first
        change c :: rest = before ++ opening ++ (c :: rest).drop (start + 2) at first
        generalize (c :: rest).drop (start + 2) = behind at isSource first
        cases closes : find closing behind with
        | none =>
          rw [closes] at isSource
          cases isSource
        | some stop =>
          rw [closes] at isSource
          have second := take_of_find closes
          rcases map_eq_some_iff.mp isSource with ⟨later, isLater, rfl⟩
          have shorter : (behind.drop (stop + 2)).length ≤ rounds := by
            have total := congrArg List.length first
            rw [length_cons] at total enough
            simp only [length_append] at total
            rw [length_drop]
            have two : opening.length = 2 := rfl
            omega
          have whole := ih shorter isLater
          change behind = behind.take stop ++ closing ++ behind.drop (stop + 2) at second
          calc (textPiece before ++
                Piece.tag (behind.take stop) :: later).flatMap Piece.spell
              = before ++ (opening ++ behind.take stop ++ closing ++ behind.drop (stop + 2)) := by
                rw [flatMap_append, flatMap_cons, spell_textPiece, whole]
                rfl
            _ = before ++ opening ++ (behind.take stop ++ closing ++ behind.drop (stop + 2)) := by
                simp only [append_assoc]
            _ = c :: rest := by
                rw [← second, ← first]

theorem tplCountInsts_eq (rounds : ℕ) (src : Bytes) (count : ℕ) :
    tplCountInsts rounds src count = (pieces rounds src).map fun found => count + found.length := by
  induction rounds generalizing src count with
  | zero => rfl
  | succ rounds ih =>
    cases src with
    | nil => rfl
    | cons c rest =>
      rw [tplCountInsts, pieces]
      cases opens : find opening (c :: rest) with
      | none => rfl
      | some start =>
        dsimp only
        cases find closing ((c :: rest).drop (start + 2)) with
        | none => rfl
        | some stop =>
          dsimp only
          rw [ih, Option.map_map]
          congr 1
          funext later
          rw [Function.comp_apply, length_append, length_cons, textPiece]
          cases start with
          | zero =>
            change count + 1 + later.length = count + (0 + (later.length + 1))
            omega
          | succ start =>
            change count + 1 + 1 + later.length = count + (1 + (later.length + 1))
            omega

/-- An operation and its argument, as they are parsed. -/
abbrev Token :=
  TplOp × Arg

/-- The texts and actions of a source, if all its actions can be parsed. -/
def tokens : List Piece → Option (List Token)
  | [] => some []
  | .text bytes :: later => (tokens later).map ((.text, .string bytes) :: ·)
  | .tag bytes :: later =>
    if isComment bytes then tokens later
    else
      match tplParseTag bytes with
      | none => none
      | some token => (tokens later).map (token :: ·)

/-- Instructions that are added one behind the other. -/
def Parsing.addAll : Parsing → List Token → Option Parsing
  | state, [] => some state
  | state, token :: later => (state.add token.1 token.2).bind fun state => state.addAll later

variable (state : Parsing)

theorem Parsing.addAll_append (first second : List Token) :
    state.addAll (first ++ second) = (state.addAll first).bind (·.addAll second) := by
  induction first generalizing state with
  | nil => rfl
  | cons token first ih =>
    rw [cons_append, addAll, addAll, bind_assoc]
    congr 1
    funext state
    exact ih state

theorem addAll_textPiece (bytes : Bytes) (later : List Piece) :
    (tokens (textPiece bytes ++ later)).bind state.addAll =
      (tokens later).bind
        (if bytes = [] then state else state.put .text (.string bytes) (-1)).addAll := by
  unfold textPiece
  split
  · rfl
  · change ((tokens later).map _).bind _ = _
    rw [bind_map]
    rfl

theorem addAll_tag {bytes : Bytes} (noComment : isComment bytes = false)
    (later : List Piece) :
    (tokens (.tag bytes :: later)).bind state.addAll = (tplParseTag bytes).bind fun token =>
        (state.add token.1 token.2).bind fun state => (tokens later).bind state.addAll := by
  rw [tokens, if_neg (by rw [noComment]; exact Bool.false_ne_true)]
  cases tplParseTag bytes with
  | none => rfl
  | some token =>
    dsimp only [Option.bind]
    cases tokens later with
    | none =>
      cases state.add token.1 token.2 with
      | none => rfl
      | some state => rfl
    | some found => rfl

theorem parseRounds_eq (rounds : ℕ) (src : Bytes) (state : Parsing) :
    (pieces rounds src).isSome →
    parseRounds rounds src state = ((pieces rounds src).bind tokens).bind state.addAll := by
  induction rounds generalizing src state with
  | zero => exact fun _ => rfl
  | succ rounds ih =>
    cases src with
    | nil => exact fun _ => rfl
    | cons c rest =>
      rw [parseRounds, pieces]
      cases opens : find opening (c :: rest) with
      | none => exact fun _ => rfl
      | some start =>
        dsimp only
        cases find closing ((c :: rest).drop (start + 2)) with
        | none => exact nofun
        | some stop =>
          dsimp only
          generalize (c :: rest).drop (start + 2) = behind
          generalize isLater : pieces rounds (behind.drop (stop + 2)) = found
          cases found with
          | none => exact nofun
          | some later =>
            intro _
            have before : (if (c :: rest).take start = [] then state else
                state.put .text (.string ((c :: rest).take start)) (-1)) =
                if 0 < start then
                  state.put .text (.string ((c :: rest).take start)) (-1)
                else state := by
              cases start with
              | zero => rfl
              | succ start => rfl
            rw [map_some, bind_some, addAll_textPiece, before]
            generalize (if 0 < start then _ else _) = state
            cases comment : isComment (behind.take stop) with
            | true =>
              rw [if_pos rfl, ih _ _ (isLater ▸ rfl), isLater, tokens, comment]
              rfl
            | false =>
              rw [if_neg Bool.false_ne_true, addAll_tag state comment]
              cases tplParseTag (behind.take stop) with
              | none => rfl
              | some token =>
                dsimp only [Option.bind]
                cases state.add token.1 token.2 with
                | none => rfl
                | some state =>
                  dsimp only
                  rw [ih _ _ (isLater ▸ rfl), isLater]
                  rfl

/-- The words that are actions. -/
def words : List Bytes :=
  [ascii "end", ascii "else", ascii "break", ascii "continue"]

/-- A word, a field, a variable with a name, or several words. -/
def WellFormedAction (tag : Bytes) : Prop :=
  let trimmed := trim isSpace tag
  trimmed ∈ words ∨ trimmed.head? = some 46 ∨
    (2 ≤ trimmed.length ∧ trimmed.head? = some 36) ∨ ∃ c ∈ trimmed, isBlank c

theorem blank_of_isPrefixOf {word trimmed : Bytes} (blank : ∃ c ∈ word, isBlank c)
    (isPrefix : word.isPrefixOf trimmed) : ∃ c ∈ trimmed, isBlank c := by
  rcases blank with ⟨c, isByte, isBlank⟩
  exact ⟨c, ( isPrefixOf_iff_prefix.mp isPrefix).subset isByte, isBlank⟩

theorem isSome_ite {α : Type} {condition accepted : Prop} [Decidable condition]
    {first later : Option α} (isFirst : condition → first.isSome ∧ accepted)
    (isLater : ¬condition → (later.isSome ↔ accepted)) :
    (if condition then first else later).isSome ↔ accepted := by
  by_cases holds : condition
  · rw [if_pos holds]
    exact ⟨fun _ => (isFirst holds).2, fun _ => (isFirst holds).1⟩
  · rw [if_neg holds]
    exact isLater holds

theorem tplParseTag_isSome_iff {tag : Bytes} : (tplParseTag tag).isSome ↔ WellFormedAction tag := by
  unfold tplParseTag WellFormedAction
  generalize trim isSpace tag = trimmed
  by_cases empty : trimmed = []
  · subst empty
    exact ⟨Bool.noConfusion, by decide⟩
  rw [if_neg empty]
  refine isSome_ite (fun same => ⟨rfl, .inl (same ▸ by decide)⟩) fun notEnd => ?_
  refine isSome_ite (fun same => ⟨rfl, .inl (same ▸ by decide)⟩) fun notElse => ?_
  refine isSome_ite (fun same => ⟨rfl, .inl (same ▸ by decide)⟩) fun notBreak => ?_
  refine isSome_ite (fun same => ⟨rfl, .inl (same ▸ by decide)⟩) fun notContinue => ?_
  refine isSome_ite (fun same => ⟨rfl, .inr (.inl (same ▸ rfl))⟩) fun _ => ?_
  refine isSome_ite (fun begins => ⟨rfl, .inr (.inr (.inr ?_))⟩) fun _ => ?_
  · exact blank_of_isPrefixOf (by decide) begins
  refine isSome_ite (fun begins => ⟨rfl, .inr (.inr (.inr ?_))⟩) fun _ => ?_
  · exact blank_of_isPrefixOf (by decide) begins
  refine isSome_ite (fun begins => ⟨rfl, .inr (.inr (.inr ?_))⟩) fun _ => ?_
  · exact blank_of_isPrefixOf (by decide) begins
  refine isSome_ite (fun isVariable => ⟨?_, .inr (.inr (.inl isVariable))⟩) fun notVariable => ?_
  · split
    · rfl
    · rfl
  refine isSome_ite (fun isField => ⟨?_, .inr (.inl isField)⟩) fun notField => ?_
  · split
    · rfl
    · rfl
  refine isSome_ite (fun blank => ⟨rfl, .inr (.inr (.inr (any_eq_true.mp blank)))⟩)
    fun noBlank => ⟨Bool.noConfusion, ?_⟩
  rintro (isWord | isField | isVariable | blank)
  · simp only [words, mem_cons, not_mem_nil, or_false] at isWord
    rcases isWord with same | same | same | same
    · exact absurd same notEnd
    · exact absurd same notElse
    · exact absurd same notBreak
    · exact absurd same notContinue
  · exact absurd isField notField
  · exact absurd isVariable notVariable
  · exact absurd (any_eq_true.mpr blank) noBlank

/-- An operation that belongs to no block. -/
def TplOp.IsPlain (op : TplOp) : Prop :=
  op ≠ .ifBegin ∧ op ≠ .rangeBegin ∧ op ≠ .withBegin ∧ op ≠ .ifElse ∧ op ≠ .rangeElse ∧ op ≠ .end

instance (op : TplOp) : Decidable op.IsPlain :=
  inferInstanceAs (Decidable (_ ∧ _))

/-- Texts, actions and blocks one behind the other. -/
inductive Nodes
  | nil
  | plain (op : TplOp) (isPlain : op.IsPlain) (arg : Arg) (rest : Nodes)
  | conditional (arg : Arg) (body rest : Nodes)
  | conditionalElse (arg : Arg) (body other rest : Nodes)
  | range (arg : Arg) (body rest : Nodes)
  | rangeElse (arg : Arg) (body other rest : Nodes)
  | within (arg : Arg) (body rest : Nodes)

namespace Nodes

/-- How nodes are written. -/
def tokens : Nodes → List Token
  | nil => []
  | plain op _ arg rest => (op, arg) :: rest.tokens
  | conditional arg body rest =>
    (.ifBegin, arg) :: (body.tokens ++ (.end, .null) :: rest.tokens)
  | conditionalElse arg body other rest =>
    (.ifBegin, arg) ::
      (body.tokens ++ (.ifElse, .null) :: (other.tokens ++ (.end, .null) :: rest.tokens))
  | range arg body rest =>
    (.rangeBegin, arg) :: (body.tokens ++ (.end, .null) :: rest.tokens)
  | rangeElse arg body other rest =>
    (.rangeBegin, arg) ::
      (body.tokens ++ (.ifElse, .null) :: (other.tokens ++ (.end, .null) :: rest.tokens))
  | within arg body rest =>
    (.withBegin, arg) :: (body.tokens ++ (.end, .null) :: rest.tokens)

/-- How many blocks are in each other. -/
def depth : Nodes → ℕ
  | nil => 0
  | plain _ _ _ rest => rest.depth
  | conditional _ body rest => max (body.depth + 1) rest.depth
  | conditionalElse _ body other rest => max (max (body.depth + 1) (other.depth + 1)) rest.depth
  | range _ body rest => max (body.depth + 1) rest.depth
  | rangeElse _ body other rest => max (max (body.depth + 1) (other.depth + 1)) rest.depth
  | within _ body rest => max (body.depth + 1) rest.depth

/-- How many instructions nodes have. -/
def size : Nodes → ℕ
  | nil => 0
  | plain _ _ _ rest => rest.size + 1
  | conditional _ body rest => body.size + 2 + rest.size
  | conditionalElse _ body other rest => body.size + 1 + other.size + 2 + rest.size
  | range _ body rest => body.size + 2 + rest.size
  | rangeElse _ body other rest => body.size + 1 + other.size + 2 + rest.size
  | within _ body rest => body.size + 2 + rest.size

/-- The beginning of a block, its only part and its end. -/
def block (op : TplOp) (arg : Arg) (pop : ℤ) (start size : ℕ) (body : List Inst) : List Inst :=
  ⟨op, arg, (start + 1 + size : ℕ)⟩ :: (body ++ [⟨.end, .null, pop⟩])

/-- The beginning of a block, its two parts and its end. -/
def blockElse (op : TplOp) (arg : Arg) (pop : ℤ) (start bodySize otherSize : ℕ)
    (body other : List Inst) : List Inst :=
  ⟨op, arg, (start + 1 + bodySize + 1 : ℕ)⟩ ::
    (body ++ ⟨.ifElse, .null, (start + 1 + bodySize + 1 + otherSize : ℕ)⟩ ::
      (other ++ [⟨.end, .null, pop⟩]))

/-- The instructions of nodes from a position on. -/
def flatten : Nodes → ℕ → List Inst
  | nil, _ => []
  | plain op _ arg rest, start => ⟨op, arg, -1⟩ :: rest.flatten (start + 1)
  | conditional arg body rest, start =>
    block .ifBegin arg 0 start body.size (body.flatten (start + 1)) ++
      rest.flatten (start + (body.size + 2))
  | conditionalElse arg body other rest, start =>
    blockElse .ifBegin arg 0 start body.size other.size (body.flatten (start + 1))
        (other.flatten (start + 1 + body.size + 1)) ++
      rest.flatten (start + (body.size + 1 + other.size + 2))
  | range arg body rest, start =>
    block .rangeBegin arg (-2) start body.size (body.flatten (start + 1)) ++
      rest.flatten (start + (body.size + 2))
  | rangeElse arg body other rest, start =>
    blockElse .rangeBegin arg (-2) start body.size other.size (body.flatten (start + 1))
        (other.flatten (start + 1 + body.size + 1)) ++
      rest.flatten (start + (body.size + 1 + other.size + 2))
  | within arg body rest, start =>
    block .withBegin arg (-1) start body.size (body.flatten (start + 1)) ++
      rest.flatten (start + (body.size + 2))

theorem length_block (op : TplOp) (arg : Arg) (pop : ℤ) (start size : ℕ) (body : List Inst) :
    (block op arg pop start size body).length = body.length + 2 := by
  rw [block, length_cons, length_append]
  rfl

theorem length_blockElse (op : TplOp) (arg : Arg) (pop : ℤ) (start bodySize otherSize : ℕ)
    (body other : List Inst) :
    (blockElse op arg pop start bodySize otherSize body other).length =
      body.length + 1 + other.length + 2 := by
  rw [blockElse]
  simp only [length_append, length_cons, length_nil]
  omega

theorem length_flatten (nodes : Nodes) (start : ℕ) : (nodes.flatten start).length = nodes.size := by
  induction nodes generalizing start with
  | nil => rfl
  | plain op isPlain arg rest ih =>
    exact congrArg (· + 1) (ih _)
  | conditional arg body rest ofBody ofRest
  | range arg body rest ofBody ofRest
  | within arg body rest ofBody ofRest =>
    rw [flatten, length_append, length_block, ofBody, ofRest, size]
  | conditionalElse arg body other rest ofBody ofOther ofRest
  | rangeElse arg body other rest ofBody ofOther ofRest =>
    rw [flatten, length_append, length_blockElse, ofBody, ofOther, ofRest, size]

end Nodes

namespace Parsing

theorem patch_append (front : List Inst) (inst : Inst) (back : List Inst) (target : ℤ) :
    patch (front ++ inst :: back) front.length target =
      front ++ { inst with jmp := target } :: back := by
  induction front with
  | nil => rfl
  | cons first front ih => exact congrArg (first :: ·) ih

theorem patchBlock_of_none (insts : List Inst) (kind : TplCtrl) (ifIdx : ℕ) :
    patchBlock insts ⟨kind, ifIdx, none⟩ = patch insts ifIdx insts.length := by
  cases kind with
  | ifBlock => rfl
  | rangeBlock => rfl
  | withBlock => rfl

/-- A block jumps behind its other part's beginning, and from there to its end. -/
theorem patchBlock_of_some {kind : TplCtrl} (notWith : kind ≠ .withBlock) (front : List Inst)
    (first : Inst) (body : List Inst) (second : Inst) (other : List Inst) :
    patchBlock (front ++ first :: (body ++ second :: other))
        ⟨kind, front.length, some (front.length + 1 + body.length)⟩ =
      front ++ { first with jmp := (front.length + 1 + body.length + 1 : ℕ) } ::
        (body ++
          { second with jmp := (front.length + 1 + body.length + 1 + other.length : ℕ) } ::
            other) := by
  have total : (front ++ first :: (body ++ second :: other)).length =
      front.length + 1 + body.length + 1 + other.length := by
    simp only [length_append, length_cons]
    omega
  have atElse (inst : Inst) (target : ℤ) :
      patch (front ++ inst :: (body ++ second :: other)) (front.length + 1 + body.length) target =
        front ++ inst :: (body ++ { second with jmp := target } :: other) := by
    have patched := patch_append (front ++ inst :: body) second other target
    simp only [length_append, length_cons, append_assoc, cons_append] at patched
    rw [show front.length + 1 + body.length = front.length + (body.length + 1) by omega]
    exact patched
  cases kind with
  | ifBlock =>
    rw [patchBlock]
    dsimp only
    rw [patch_append, atElse, total]
    rfl
  | rangeBlock =>
    rw [patchBlock]
    dsimp only
    rw [atElse, patch_append, total]
    rfl
  | withBlock => exact absurd rfl notWith

theorem closeBlock_of_none (front : List Inst) (kind : TplCtrl) (op : TplOp) (arg : Arg)
    (body : List Inst) (ctrl : List TplCtrlEntry) :
    closeBlock ⟨front ++ ⟨op, arg, -1⟩ :: body, ⟨kind, front.length, none⟩ :: ctrl⟩ =
      ⟨front ++ Nodes.block op arg (scopePop kind) front.length body.length body, ctrl⟩ := by
  have total : (front ++ ⟨op, arg, -1⟩ :: body).length = front.length + 1 + body.length := by
    rw [length_append, length_cons]
    omega
  rw [closeBlock]
  dsimp only
  rw [patchBlock_of_none, patch_append, total, put, Nodes.block, append_assoc, cons_append]

theorem closeBlock_of_some {kind : TplCtrl} (notWith : kind ≠ .withBlock) (front : List Inst)
    (op : TplOp) (arg : Arg) (body other : List Inst) (ctrl : List TplCtrlEntry) :
    closeBlock ⟨front ++ ⟨op, arg, -1⟩ :: (body ++ ⟨.ifElse, .null, -1⟩ :: other),
        ⟨kind, front.length, some (front.length + 1 + body.length)⟩ :: ctrl⟩ =
      ⟨front ++ Nodes.blockElse op arg (scopePop kind) front.length body.length other.length body
        other, ctrl⟩ := by
  rw [closeBlock]
  dsimp only
  rw [patchBlock_of_some notWith, put, Nodes.blockElse]
  simp only [append_assoc, cons_append]

/-- Nodes are parsed to their instructions, if their blocks are not too deep. -/
def ParsesTo (nodes : Nodes) : Prop :=
  ∀ insts ctrl, ctrl.length ≤ ctrlLimit →
    addAll ⟨insts, ctrl⟩ nodes.tokens =
      if ctrl.length + nodes.depth ≤ ctrlLimit then
        some ⟨insts ++ nodes.flatten insts.length, ctrl⟩
      else none

section

variable {kind : TplCtrl} {op : TplOp} {body other : Nodes}

theorem addAll_block (opens : ∀ state arg, add state op arg = openBlock state kind op arg)
    (ofBody : ParsesTo body) (insts : List Inst) (ctrl : List TplCtrlEntry)
    (arg : Arg) (later : List Token) :
    addAll ⟨insts, ctrl⟩ ((op, arg) :: (body.tokens ++ (.end, .null) :: later)) =
      if ctrl.length + (body.depth + 1) ≤ ctrlLimit then
        addAll ⟨insts ++ Nodes.block op arg (scopePop kind) insts.length body.size
          (body.flatten (insts.length + 1)), ctrl⟩ later
      else none := by
  rw [addAll, opens, openBlock]
  by_cases full : ctrlLimit ≤ ctrl.length
  · rw [if_pos full, if_neg (by omega)]
    rfl
  · have opened : (⟨kind, insts.length, none⟩ :: ctrl : List TplCtrlEntry).length ≤ ctrlLimit :=
      Nat.lt_of_not_le full
    rw [if_neg full, bind_some, put, addAll_append, ofBody _ _ opened, length_cons]
    by_cases fits : ctrl.length + (body.depth + 1) ≤ ctrlLimit
    · rw [if_pos (by omega), if_pos fits, bind_some, length_append,
        length_singleton, append_assoc, singleton_append]
      have closed := closeBlock_of_none insts kind op arg (body.flatten (insts.length + 1)) ctrl
      rw [Nodes.length_flatten] at closed
      rw [← closed]
      rfl
    · rw [if_neg (by omega), if_neg fits]
      rfl

theorem addAll_blockElse (opens : ∀ state arg, add state op arg = openBlock state kind op arg)
    (notWith : kind ≠ .withBlock) (ofBody : ParsesTo body) (ofOther : ParsesTo other)
    (insts : List Inst) (ctrl : List TplCtrlEntry) (arg : Arg) (later : List Token) :
    addAll ⟨insts, ctrl⟩ ((op, arg) ::
        (body.tokens ++ (.ifElse, .null) :: (other.tokens ++ (.end, .null) :: later))) =
      if ctrl.length + max (body.depth + 1) (other.depth + 1) ≤ ctrlLimit then
        addAll ⟨insts ++ Nodes.blockElse op arg (scopePop kind) insts.length body.size other.size
          (body.flatten (insts.length + 1)) (other.flatten (insts.length + 1 + body.size + 1)),
          ctrl⟩ later
      else none := by
  rw [addAll, opens, openBlock]
  by_cases full : ctrlLimit ≤ ctrl.length
  · rw [if_pos full, if_neg (by omega)]
    rfl
  · have opened (entry : TplCtrlEntry) : (entry :: ctrl).length ≤ ctrlLimit :=
      Nat.lt_of_not_le full
    rw [if_neg full, bind_some, put, addAll_append, ofBody _ _ (opened _), length_cons]
    by_cases bodyFits : ctrl.length + (body.depth + 1) ≤ ctrlLimit
    · rw [if_pos (by omega), bind_some, length_append, length_singleton,
        append_assoc, singleton_append]
      have begun : (insts ++ ⟨op, arg, -1⟩ :: body.flatten (insts.length + 1)).length =
          insts.length + 1 + body.size := by
        rw [length_append, length_cons, Nodes.length_flatten]
        omega
      rw [addAll]
      change Option.bind (some (elsePart _ .ifElse)) _ = _
      rw [bind_some, elsePart]
      rw [put, begun, addAll_append, ofOther _ _ (opened _), length_cons]
      by_cases fits : ctrl.length + (other.depth + 1) ≤ ctrlLimit
      · rw [if_pos (by omega), if_pos (by omega), bind_some, length_append, begun, length_singleton]
        have closed := closeBlock_of_some notWith insts op arg (body.flatten (insts.length + 1))
          (other.flatten (insts.length + 1 + body.size + 1)) ctrl
        rw [Nodes.length_flatten, Nodes.length_flatten] at closed
        rw [← closed]
        simp only [append_assoc, cons_append]
        rfl
      · rw [if_neg (by omega), if_neg (by omega)]
        rfl
    · rw [if_neg (by omega), if_neg (by omega)]
      rfl

end

theorem add_plain {op : TplOp} (isPlain : op.IsPlain) (state : Parsing) (arg : Arg) :
    state.add op arg = some (state.put op arg (-1)) := by
  rcases isPlain with ⟨notIf, notRange, notWith, notElse, notRangeElse, notEnd⟩
  cases op with
  | ifBegin => exact absurd rfl notIf
  | rangeBegin => exact absurd rfl notRange
  | withBegin => exact absurd rfl notWith
  | ifElse => exact absurd rfl notElse
  | rangeElse => exact absurd rfl notRangeElse
  | «end» => exact absurd rfl notEnd
  | _ => rfl

/-- Every tree is parsed to its instructions, if its blocks are not too deep. -/
theorem parsesTo (nodes : Nodes) : ParsesTo nodes := by
  have assembled {insts first : List Inst} {ctrl : List TplCtrlEntry} {rest : Nodes}
      (ofRest : ParsesTo rest) (opened : ctrl.length ≤ ctrlLimit) {depth size : ℕ}
      (length : first.length = size) :
      (if ctrl.length + depth ≤ ctrlLimit then addAll ⟨insts ++ first, ctrl⟩ rest.tokens
        else none) =
        if ctrl.length + max depth rest.depth ≤ ctrlLimit then
          some ⟨insts ++ (first ++ rest.flatten (insts.length + size)), ctrl⟩
        else none := by
    by_cases fits : ctrl.length + depth ≤ ctrlLimit
    · rw [if_pos fits, ofRest _ _ opened, length_append, length, append_assoc]
      congr 1
      rw [eq_iff_iff]
      omega
    · rw [if_neg fits, if_neg (by omega)]
  induction nodes with
  | nil =>
    intro insts ctrl opened
    rw [Nodes.depth, if_pos (by exact opened), Nodes.flatten, append_nil]
    rfl
  | plain op isPlain arg rest ofRest =>
    intro insts ctrl opened
    rw [Nodes.tokens, addAll, add_plain isPlain, bind_some, put, ofRest _ _ opened,
      Nodes.depth, Nodes.flatten, length_append, length_singleton, append_assoc, singleton_append]
  | conditional arg body rest ofBody ofRest | range arg body rest ofBody ofRest
  | within arg body rest ofBody ofRest =>
    intro insts ctrl opened
    rw [Nodes.tokens, addAll_block ?opens ofBody]
    case opens => exact fun _ _ => rfl
    exact assembled ofRest opened (by rw [Nodes.length_block, Nodes.length_flatten])
  | conditionalElse arg body other rest ofBody ofOther ofRest
  | rangeElse arg body other rest ofBody ofOther ofRest =>
    intro insts ctrl opened
    rw [Nodes.tokens, addAll_blockElse ?opens ?notWith ofBody ofOther]
    case opens => exact fun _ _ => rfl
    case notWith => nofun
    exact assembled ofRest opened (by
      rw [Nodes.length_blockElse, Nodes.length_flatten, Nodes.length_flatten])

end Parsing

/-- The tags of a source are closed, each of them is an action or a comment, and the blocks are
nested. -/
def WellFormed (src : Bytes) : Prop :=
  ∃ found nodes, pieces src.length src = some found ∧
    (∀ tag, .tag tag ∈ found → isComment tag ∨ WellFormedAction tag) ∧
    tokens found = some (Nodes.tokens nodes)

theorem actions_of_tokens {found : List Piece} {later : List Token}
    (isTokens : tokens found = some later) :
    ∀ tag, .tag tag ∈ found → isComment tag ∨ WellFormedAction tag := by
  induction found generalizing later with
  | nil => exact fun tag isPiece => absurd isPiece not_mem_nil
  | cons piece found ih =>
    intro tag isPiece
    cases piece with
    | text bytes =>
      rcases map_eq_some_iff.mp isTokens with ⟨_, isLater, _⟩
      rcases mem_cons.mp isPiece with same | isPiece
      · cases same
      · exact ih isLater tag isPiece
    | tag bytes =>
      rw [tokens] at isTokens
      cases comment : isComment bytes with
      | true =>
        rw [comment, if_pos rfl] at isTokens
        rcases mem_cons.mp isPiece with same | isPiece
        · cases same
          exact .inl comment
        · exact ih isTokens tag isPiece
      | false =>
        rw [comment, if_neg Bool.false_ne_true] at isTokens
        cases action : tplParseTag bytes with
        | none =>
          rw [action] at isTokens
          cases isTokens
        | some token =>
          rw [action] at isTokens
          rcases map_eq_some_iff.mp isTokens with ⟨_, isLater, _⟩
          rcases mem_cons.mp isPiece with same | isPiece
          · cases same
            exact .inr (tplParseTag_isSome_iff.mp (action ▸ rfl))
          · exact ih isLater tag isPiece

variable {found : List Piece} (tables : Tables)

/-- The tables have room for a template with these texts and actions, where some roots are in use
for what is parsed. -/
def Tables.HaveRoom (held : ℕ) (parsed : List Token) : Prop :=
  tables.tempRootTop + held + parsed.countP (·.2.isPath) + 4 ≤ maxTempRoots ∧
    HasSlices tables.strSlices (parsed.flatMap (·.2.slices) ++ fieldNames)

instance (held : ℕ) (parsed : List Token) : Decidable (tables.HaveRoom held parsed) :=
  inferInstanceAs (Decidable (_ ∧ _))

/-- The instructions of nodes have the arguments that are parsed. -/
theorem Nodes.args_flatten (nodes : Nodes) (start : ℕ) :
    (nodes.flatten start).map (·.arg) = nodes.tokens.map (·.2) := by
  induction nodes generalizing start with
  | nil => rfl
  | plain op isPlain arg rest ofRest =>
    simp only [flatten, Nodes.tokens, map_cons, ofRest]
  | conditional arg body rest ofBody ofRest | range arg body rest ofBody ofRest
  | within arg body rest ofBody ofRest =>
    simp only [flatten, block, Nodes.tokens, map_cons, map_append, cons_append, append_assoc,
      nil_append, ofBody, ofRest]
  | conditionalElse arg body other rest ofBody ofOther ofRest
  | rangeElse arg body other rest ofBody ofOther ofRest =>
    simp only [flatten, blockElse, Nodes.tokens, map_cons, map_append, cons_append, append_assoc,
      nil_append, ofBody, ofOther, ofRest]

theorem tplBuildObj_flatten (held : ℕ) (nodes : Nodes) (start : ℕ) :
    tplBuildObj { tables with tempRootTop := tables.tempRootTop + held } (nodes.flatten start) =
      if tables.HaveRoom held nodes.tokens then some (nodes.flatten start) else none := by
  have args := nodes.args_flatten start
  have paths := congrArg (List.countP Arg.isPath) args
  have slices := congrArg (List.flatMap Arg.slices) args
  rw [countP_map, countP_map] at paths
  rw [flatMap_map, flatMap_map] at slices
  unfold tplBuildObj Tables.HaveRoom
  rw [slices]
  change countP (fun inst : Inst => inst.arg.isPath) _ =
    countP (fun token : Token => token.2.isPath) _ at paths
  rw [paths]
  exact if_congr Iff.rfl rfl rfl

section

variable {src : Bytes} (nonempty : src ≠ [])
include nonempty

omit tables in
theorem pieces_ne_nil {rounds : ℕ} (enough : src.length ≤ rounds)
    (isSource : pieces rounds src = some found) : found ≠ [] := by
  rintro rfl
  exact nonempty (spell_pieces enough isSource).symm

theorem tplParse_eq (isSource : pieces src.length src = some found) :
    tplParse tables src =
      ((tokens found).bind (Parsing.addAll ⟨[], []⟩)).bind fun state =>
        tplBuildObj { tables with tempRootTop := tables.tempRootTop + 3 } state.insts := by
  have some := pieces_ne_nil nonempty (le_refl _) isSource
  have positive : 0 + found.length ≠ 0 := by
    rw [zero_add]
    exact fun none => some (length_eq_zero_iff.mp none)
  rw [tplParse, if_neg nonempty, tplCountInsts_eq, isSource, map_some]
  dsimp only
  rw [if_neg positive, parseRounds_eq _ _ _ (isSource ▸ rfl), isSource]
  rfl

/-- A source that is written like a tree is parsed to the instructions of the tree, if its blocks
are not too deep and the tables have room. -/
theorem tplParse_of_nodes {nodes : Nodes} (isSource : pieces src.length src = some found)
    (isTree : tokens found = some nodes.tokens) :
    tplParse tables src =
      if nodes.depth ≤ ctrlLimit ∧ tables.HaveRoom 3 nodes.tokens then some (nodes.flatten 0)
      else none := by
  rw [tplParse_eq tables nonempty isSource, isTree, bind_some,
    Parsing.parsesTo nodes [] [] (zero_le _), length_nil, zero_add]
  by_cases shallow : nodes.depth ≤ ctrlLimit
  · rw [if_pos shallow, bind_some, nil_append, tplBuildObj_flatten]
    exact if_congr (and_iff_right shallow).symm rfl rfl
  · rw [if_neg shallow, if_neg fun both => shallow both.1]
    rfl

theorem tplParse_of_open (isSource : pieces src.length src = none) :
    tplParse tables src = none := by
  rw [tplParse, if_neg nonempty, tplCountInsts_eq, isSource]
  rfl

end

theorem tplValid_iff {src : Bytes} :
    tplValid src = true ↔ src ≠ [] ∧ pieces src.length src ≠ none := by
  rw [tplValid, tplCountInsts_eq]
  cases isSource : pieces src.length src with
  | none => exact ⟨nofun, fun valid => absurd rfl valid.2⟩
  | some found =>
    simp only [map_some, zero_add, decide_eq_true_eq, ne_eq, reduceCtorEq,
      not_false_eq_true, and_true]
    constructor
    · rintro positive rfl
      cases isSource
      exact absurd positive (lt_irrefl 0)
    · intro nonempty
      exact length_pos_iff.mpr (pieces_ne_nil nonempty (le_refl _) isSource)

/-- A source is valid if and only if it can be parsed, and that is so if and only if it is well
formed. -/
def Agrees (src : Bytes) : Prop :=
  (tplValid src = true ↔ (tplParse tables src).isSome) ∧
    ((tplParse tables src).isSome ↔ WellFormed src)

/-- A tag with characters that are no action. -/
def noAction : Bytes :=
  ascii "\x7b\x7b???\x7d\x7d"

theorem not_agrees_noAction : ¬∀ tables src, Agrees tables src := by
  intro always
  have parsed := (always ⟨0, []⟩ noAction).1.mp (by decide)
  exact absurd parsed (by decide)

/-- What `valid` and `parse` tell about a source. -/
structure Scans (src : Bytes) : Prop where
  valid : tplValid src = true ↔ src ≠ [] ∧ ∃ found, pieces src.length src = some found
  parsed : (tplParse tables src).isSome → ∃ found, pieces src.length src = some found ∧
    ∀ tag, .tag tag ∈ found → isComment tag ∨ WellFormedAction tag
  nested : ∀ found nodes, pieces src.length src = some found →
    tokens found = some (Nodes.tokens nodes) →
      ((tplParse tables src).isSome ↔
        nodes.depth ≤ ctrlLimit ∧ tables.HaveRoom (if src = [] then 0 else 3) nodes.tokens)

theorem actions_of_tplParse {src : Bytes} (parsed : (tplParse tables src).isSome) :
    ∃ found, pieces src.length src = some found ∧
      ∀ tag, .tag tag ∈ found → isComment tag ∨ WellFormedAction tag := by
  by_cases nonempty : src = []
  · subst nonempty
    exact ⟨[], rfl, fun tag isPiece => absurd isPiece not_mem_nil⟩
  · cases isSource : pieces src.length src with
    | none =>
      rw [tplParse_of_open tables nonempty isSource] at parsed
      cases parsed
    | some found =>
      refine ⟨found, rfl, ?_⟩
      rw [tplParse_eq tables nonempty isSource] at parsed
      cases isTokens : tokens found with
      | none =>
        rw [isTokens] at parsed
        cases parsed
      | some later => exact actions_of_tokens isTokens

theorem tplParse_nil (nodes : Nodes) (isTree : tokens [] = some nodes.tokens) :
    (tplParse tables []).isSome ↔ nodes.depth ≤ ctrlLimit ∧ tables.HaveRoom 0 nodes.tokens := by
  cases nodes with
  | nil =>
    have built := tplBuildObj_flatten tables 0 .nil 0
    have whole : tplParse tables [] = tplBuildObj tables [] := rfl
    rw [whole]
    change tplBuildObj tables [] = _ at built
    rw [built, Option.isSome_ite]
    exact (and_iff_right (zero_le _)).symm
  | _ => cases isTree

theorem scans (src : Bytes) : Scans tables src where
  valid := by
    rw [tplValid_iff, Option.ne_none_iff_exists']
  parsed := actions_of_tplParse tables
  nested found nodes isSource isTree := by
    by_cases nonempty : src = []
    · subst nonempty
      cases isSource
      rw [if_pos rfl]
      exact tplParse_nil tables nodes isTree
    · rw [if_neg nonempty, tplParse_of_nodes tables nonempty isSource isTree, Option.isSome_ite]

end Gengo.Templates
