import Gengo.Bytecode.Slices
import Gengo.Cuts.Separators

/-!
# Templates

A template is parsed to a list of instructions with jumps, and a loop with a stack of values and one
of iterations executes them.
-/

namespace Gengo.Templates

open Bytecode (Bytes HasSlices)
open Cuts (find)

/-- The bytes of a text of the source. -/
def ascii (text : String) : Bytes :=
  text.toList.map Char.toUInt8

inductive TplOp
  | text | field | chain | varRef | rootRef | callFn | ifBegin | ifElse | «end» | rangeBegin
  | rangeElse | withBegin | breakInst | continueInst | assign
  deriving DecidableEq, Repr

/-- An argument of an instruction: nothing, a string or the names of a path. -/
inductive Arg
  | null
  | string (name : Bytes)
  | path (names : List Bytes)
  deriving DecidableEq, Repr

/-- An instruction, with its entries of `__ops`, `__args` and `__jmp`. -/
structure Inst where
  op : TplOp
  arg : Arg
  jmp : ℤ
  deriving DecidableEq, Repr

def opening : Bytes :=
  [123, 123]

def closing : Bytes :=
  [125, 125]

/-- `std.mem.trim` -/
def trim (blank : UInt8 → Bool) (text : Bytes) : Bytes :=
  ((text.dropWhile blank).reverse.dropWhile blank).reverse

/-- One of `" \t\n\r"`. -/
def isSpace (c : UInt8) : Bool :=
  c = 32 || c = 9 || c = 10 || c = 13

/-- One of `" \t"`. -/
def isBlank (c : UInt8) : Bool :=
  c = 32 || c = 9

/-- `tplSplitPath` at the dots. -/
def tplSplitPath (path : Bytes) : List Bytes :=
  path.splitOn 46

/-- `tplEncodeExpr` -/
def tplEncodeExpr (expr : Bytes) : Arg :=
  match trim isSpace expr with
  | [] => .null
  | first :: rest =>
    if first :: rest = ascii "." then .null
    else if first = 36 then .string rest
    else if first = 46 then if 46 ∈ rest then .path (tplSplitPath rest) else .string rest
    else .string (first :: rest)

/-- The name of a variable to which a tag assigns. -/
def assigned (trimmed : Bytes) (pos : ℕ) : Bytes :=
  trim isBlank ((trimmed.take pos).drop 1)

/-- `tplParseTag` -/
def tplParseTag (tag : Bytes) : Option (TplOp × Arg) :=
  let trimmed := trim isSpace tag
  if trimmed = [] then none
  else if trimmed = ascii "end" then some (.end, .null)
  else if trimmed = ascii "else" then some (.ifElse, .null)
  else if trimmed = ascii "break" then some (.breakInst, .null)
  else if trimmed = ascii "continue" then some (.continueInst, .null)
  else if trimmed = ascii "." then some (.rootRef, .null)
  else if (ascii "if ").isPrefixOf trimmed then
    some (.ifBegin, tplEncodeExpr (trim isBlank (trimmed.drop 3)))
  else if (ascii "range ").isPrefixOf trimmed then
    some (.rangeBegin, tplEncodeExpr (trim isBlank (trimmed.drop 6)))
  else if (ascii "with ").isPrefixOf trimmed then
    some (.withBegin, tplEncodeExpr (trim isBlank (trimmed.drop 5)))
  else if 2 ≤ trimmed.length ∧ trimmed.head? = some 36 then
    match find (ascii ":=") trimmed with
    | some pos => some (.assign, .string (assigned trimmed pos))
    | none => some (.varRef, .string trimmed.tail)
  else if trimmed.head? = some 46 then
    if 46 ∈ trimmed.tail then some (.chain, .path (tplSplitPath trimmed.tail))
    else some (.field, .string trimmed.tail)
  else if trimmed.any isBlank then
    some (.callFn, .string (trimmed.takeWhile fun c => !isBlank c))
  else none

/-- `tplCountInsts`, for so many rounds at most. -/
def tplCountInsts : ℕ → Bytes → ℕ → Option ℕ
  | 0, _, count => some count
  | _ + 1, [], count => some count
  | rounds + 1, c :: rest, count =>
    match find opening (c :: rest) with
    | none => some (count + 1)
    | some start =>
      let count := if 0 < start then count + 1 else count
      let behind := (c :: rest).drop (start + 2)
      match find closing behind with
      | none => none
      | some stop => tplCountInsts rounds (behind.drop (stop + 2)) (count + 1)

/-- `tplValid` -/
def tplValid (src : Bytes) : Bool :=
  match tplCountInsts src.length src 0 with
  | none => false
  | some count => 0 < count

inductive TplCtrl
  | ifBlock
  | rangeBlock
  | withBlock
  deriving DecidableEq, Repr

/-- A block that is open: where it begins, and where its last `else` is. -/
structure TplCtrlEntry where
  kind : TplCtrl
  ifIdx : ℕ
  elseIdx : Option ℕ
  deriving DecidableEq, Repr

/-- How many blocks can be open. -/
def ctrlLimit : ℕ :=
  64

/-- The instructions so far, and the blocks that are open, from the innermost one on. -/
structure Parsing where
  insts : List Inst
  ctrl : List TplCtrlEntry

namespace Parsing

/-- One more instruction. -/
def put (state : Parsing) (op : TplOp) (arg : Arg) (jmp : ℤ) : Parsing :=
  { state with insts := state.insts ++ [⟨op, arg, jmp⟩] }

/-- `jmp[idx] = target` -/
def patch (insts : List Inst) (idx : ℕ) (target : ℤ) : List Inst :=
  insts.modify idx fun inst => { inst with jmp := target }

/-- A block begins. -/
def openBlock (state : Parsing) (kind : TplCtrl) (op : TplOp) (arg : Arg) : Option Parsing :=
  if ctrlLimit ≤ state.ctrl.length then none
  else
    let entry : TplCtrlEntry := ⟨kind, state.insts.length, none⟩
    some { state.put op arg (-1) with ctrl := entry :: state.ctrl }

/-- The innermost block has another part. -/
def elsePart (state : Parsing) (op : TplOp) : Parsing :=
  let ctrl :=
    match state.ctrl with
    | [] => []
    | entry :: outer => { entry with elseIdx := some state.insts.length } :: outer
  { state.put op .null (-1) with ctrl := ctrl }

/-- The jumps of a block whose end is the next instruction. -/
def patchBlock (insts : List Inst) (entry : TplCtrlEntry) : List Inst :=
  match entry.kind, entry.elseIdx with
  | .ifBlock, some elseIdx =>
    patch (patch insts entry.ifIdx (elseIdx + 1)) elseIdx insts.length
  | .ifBlock, none => patch insts entry.ifIdx insts.length
  | .rangeBlock, some elseIdx =>
    patch (patch insts elseIdx insts.length) entry.ifIdx (elseIdx + 1)
  | .rangeBlock, none => patch insts entry.ifIdx insts.length
  | .withBlock, _ => patch insts entry.ifIdx insts.length

/-- What the end of a block has to do to the stacks. -/
def scopePop : TplCtrl → ℤ
  | .ifBlock => 0
  | .rangeBlock => -2
  | .withBlock => -1

/-- The innermost block ends. -/
def closeBlock (state : Parsing) : Parsing :=
  match state.ctrl with
  | [] => state.put .end .null 0
  | entry :: outer =>
    let patched : Parsing := ⟨patchBlock state.insts entry, outer⟩
    patched.put .end .null (scopePop entry.kind)

/-- An instruction that has been parsed. -/
def add (state : Parsing) (op : TplOp) (arg : Arg) : Option Parsing :=
  match op with
  | .end => some state.closeBlock
  | .ifElse => some (state.elsePart .ifElse)
  | .rangeElse => some (state.elsePart .rangeElse)
  | .ifBegin => state.openBlock .ifBlock .ifBegin arg
  | .rangeBegin => state.openBlock .rangeBlock .rangeBegin arg
  | .withBegin => state.openBlock .withBlock .withBegin arg
  | op => some (state.put op arg (-1))

end Parsing

/-- A tag is a comment. -/
def isComment (tag : Bytes) : Bool :=
  (ascii "/*").isPrefixOf (trim isSpace tag)

/-- The loop of `tplParse`, for so many rounds at most. -/
def parseRounds : ℕ → Bytes → Parsing → Option Parsing
  | 0, _, state => some state
  | _ + 1, [], state => some state
  | rounds + 1, c :: rest, state =>
    match find opening (c :: rest) with
    | none => some (state.put .text (.string (c :: rest)) (-1))
    | some start =>
      let state :=
        if 0 < start then state.put .text (.string ((c :: rest).take start)) (-1) else state
      let behind := (c :: rest).drop (start + 2)
      match find closing behind with
      | none => none
      | some stop =>
        let tag := behind.take stop
        if isComment tag then parseRounds rounds (behind.drop (stop + 2)) state
        else
          match tplParseTag tag with
          | none => none
          | some (op, arg) =>
            match state.add op arg with
            | none => none
            | some state => parseRounds rounds (behind.drop (stop + 2)) state

/-- The tables of the machine: how many temporary roots are in use, and the interned strings. -/
structure Tables where
  tempRootTop : ℕ
  strSlices : List Bytes

/-- `MaxTempRoots` -/
def maxTempRoots : ℕ :=
  128

/-- The argument is an object. -/
def Arg.isPath : Arg → Bool
  | path _ => true
  | _ => false

/-- The string that is interned for an argument. -/
def Arg.slices : Arg → List Bytes
  | string name => [name]
  | _ => []

/-- The names of the fields of a template. -/
def fieldNames : List Bytes :=
  [ascii "__ops", ascii "__args", ascii "__jmp", ascii "__src", ascii "funcs"]

/-- `tplBuildObj`: a root for every path, then one for the template and one for each of its three
arrays. What the arguments are has been interned before, one after the other; that can fail only
together with the names here, since a template that cannot be parsed leaves nothing behind. -/
def tplBuildObj (tables : Tables) (insts : List Inst) : Option (List Inst) :=
  if tables.tempRootTop + insts.countP (·.arg.isPath) + 4 ≤ maxTempRoots ∧
      HasSlices tables.strSlices (insts.flatMap (·.arg.slices) ++ fieldNames) then some insts
  else none

/-- `tplParse`, where three roots are in use until the template has been built. -/
def tplParse (tables : Tables) (src : Bytes) : Option (List Inst) :=
  if src = [] then tplBuildObj tables []
  else
    match tplCountInsts src.length src 0 with
    | none => none
    | some count =>
      if count = 0 then tplBuildObj tables []
      else
        (parseRounds src.length src ⟨[], []⟩).bind fun state =>
          tplBuildObj { tables with tempRootTop := tables.tempRootTop + 3 } state.insts

inductive Value (F : Type)
  | null
  | boolean (b : Bool)
  | int (n : ℤ)
  | float (x : F)
  | string (bytes : Bytes)
  | array (items : List (Value F))
  | map (entries : List (Value F × Value F))
  | struct (fields : List (Bytes × Value F))
  | named (inner : Value F)
  | other

namespace Value

variable {F : Type}

/-- `tplAsStringVal` -/
def asString : Value F → Option Bytes
  | .string bytes => some bytes
  | _ => none

/-- `tplAsArraySlice` of what `tplIsArray`. -/
def elements : Value F → List (Value F)
  | .array items => items
  | _ => []

/-- `asBool` -/
def asBool : Value F → Option Bool
  | .boolean b => some b
  | .named (.boolean b) => some b
  | _ => none

/-- `tplResolveField` -/
def resolveField (data : Value F) (field : Bytes) : Value F :=
  match data with
  | .map entries =>
    match entries.find? fun entry => entry.1.asString = some field with
    | some entry => entry.2
    | none => .null
  | .struct fields =>
    match fields.find? fun entry => entry.1 = field with
    | some entry => entry.2
    | none => .null
  | _ => .null

/-- The fields of fields along a path. -/
def resolvePath (data : Value F) (names : List Bytes) : Value F :=
  names.foldl resolveField data

/-- `tplEvalExpr` -/
def evalExpr (arg : Arg) (dot : Value F) : Value F :=
  match arg with
  | .null => dot
  | .string name => dot.resolveField name
  | .path names => dot.resolvePath names

/-- The size of the buffer that numbers are printed to. -/
def numberBuffer : ℕ :=
  64

/-- `tplValToDynStr`, where floats are printed in a certain way. -/
def toText (formatFloat : F → Bytes) : Value F → Option Bytes
  | .null => some (ascii "null")
  | .boolean b => some (ascii (if b then "true" else "false"))
  | .int n => some (ascii (toString n))
  | .float x => if (formatFloat x).length ≤ numberBuffer then some (formatFloat x) else none
  | .string bytes => some bytes
  | .named inner => inner.toText formatFloat
  | _ => some (ascii "?")

end Value

section

variable {F : Type} (formatFloat : F → Bytes)

/-- `IterState` -/
structure IterState (F : Type) where
  arr : List (Value F)
  index : ℕ
  bodyIp : ℕ

/-- A state of the loop: the value in scope before those of the outer scopes, the iterations from
the innermost one on, and what has been written. -/
structure State (F : Type) where
  ip : ℕ
  dot : Value F
  scopes : List (Value F)
  iters : List (IterState F)
  out : Bytes

inductive Result (F : Type)
  | next (state : State F)
  | done (out : Bytes)
  | failed

def dotLimit : ℕ :=
  256

def iterLimit : ℕ :=
  64

namespace State

variable (state : State F)

def advance : State F :=
  { state with ip := state.ip + 1 }

/-- A value is written. -/
def emit (value : Value F) : Result F :=
  match value.toText formatFloat with
  | none => .failed
  | some text => .next { state.advance with out := state.out ++ text }

/-- A jump into so many instructions. -/
def jump (count : ℕ) (target : ℤ) : Result F :=
  if target < 0 ∨ count ≤ target then .failed else .next { state with ip := target.toNat }

/-- So many scopes are left, if there are others behind them. -/
def popScopes (pop : ℕ) : State F :=
  match (state.dot :: state.scopes).drop pop with
  | [] => state
  | dot :: scopes => { state with dot := dot, scopes := scopes }

/-- The end of a range: the innermost iteration goes on to its next element, or it is over. -/
def endRange : Result F :=
  match state.iters with
  | [] => .next state.advance
  | iter :: outer =>
    match iter.arr[iter.index + 1]? with
    | some item =>
      .next { state with
        ip := iter.bodyIp
        dot := item
        iters := { iter with index := iter.index + 1 } :: outer }
    | none => .next { (state.popScopes 1).advance with iters := outer }

/-- The beginning of a range. -/
def beginRange (count : ℕ) (inst : Inst) : Result F :=
  match (state.dot.evalExpr inst.arg).elements with
  | [] => state.jump count inst.jmp
  | item :: items =>
    if iterLimit ≤ state.iters.length then .failed
    else if dotLimit - 1 ≤ state.scopes.length then .failed
    else
      .next { state.advance with
        dot := item
        scopes := state.dot :: state.scopes
        iters := ⟨item :: items, 0, state.ip + 1⟩ :: state.iters }

/-- A round of `tplExec`. -/
def step (insts : List Inst) : Result F :=
  match insts[state.ip]? with
  | none => .done state.out
  | some inst =>
    match inst.op with
    | .text =>
      match inst.arg with
      | .string text => .next { state.advance with out := state.out ++ text }
      | _ => .failed
    | .field =>
      match inst.arg with
      | .string name => state.emit formatFloat (state.dot.resolveField name)
      | _ => .failed
    | .chain =>
      match inst.arg with
      | .path names => state.emit formatFloat (state.dot.resolvePath names)
      | _ => .failed
    | .rootRef => state.emit formatFloat state.dot
    | .varRef | .callFn | .assign | .breakInst | .continueInst => .next state.advance
    | .ifBegin =>
      match (state.dot.evalExpr inst.arg).asBool with
      | none => .failed
      | some true => .next state.advance
      | some false => state.jump insts.length inst.jmp
    | .ifElse | .rangeElse => state.jump insts.length inst.jmp
    | .end =>
      if inst.jmp = -2 then state.endRange
      else if inst.jmp < 0 then .next (state.popScopes (-inst.jmp).toNat).advance
      else .next state.advance
    | .rangeBegin => state.beginRange insts.length inst
    | .withBegin =>
      if dotLimit - 1 ≤ state.scopes.length then .failed
      else
        .next { state.advance with
          dot := state.dot.evalExpr inst.arg
          scopes := state.dot :: state.scopes }

/-- The state before the first round. -/
def init (data : Value F) : State F :=
  ⟨0, data, [], [], []⟩

end State

/-- `tplExec`, for so many rounds: what it returns, where nothing is an error. -/
def tplExec (insts : List Inst) : ℕ → State F → Option (Option Bytes)
  | 0, _ => none
  | rounds + 1, state =>
    match state.step formatFloat insts with
    | .next state => tplExec insts rounds state
    | .done out => some (some out)
    | .failed => some none

end

end Gengo.Templates
