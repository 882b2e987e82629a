import Gengo.Bytecode.Chunk
import Gengo.Tables.Sparse

/-!
# Constant folding

What the emitter makes of an operator whose operands are constants. An operation that would
fail when it is run is left to the run.
-/

namespace Gengo.Positions

open Bytecode

/-- The comparison operators, generic and typed. -/
def foldCompareOp {T : Type} [BEq T] [LT T] [LE T] [DecidableLT T] [DecidableLE T]
    (op : Op) (a b : T) : Option Bool :=
  match op with
  | .eq | .eqFloat => some (a == b)
  | .ne | .neFloat => some (a != b)
  | .lt | .ltFloat => some (decide (a < b))
  | .le | .leFloat => some (decide (a ≤ b))
  | .gt | .gtFloat => some (decide (b < a))
  | .ge | .geFloat => some (decide (b ≤ a))
  | _ => none

/-- The result of an operation with an overflow check. -/
def withoutOverflow (result : ℤ) : Option (Constant FuncRef) :=
  if -(2 ^ 63) ≤ result ∧ result < 2 ^ 63 then some (.int (Int64.ofInt result)) else none

def foldInts (op : Op) (lhs rhs : Int64) : Option (Constant FuncRef) :=
  match foldCompareOp op lhs rhs with
  | some result => some (.boolean result)
  | none =>
    match op with
    | .add => withoutOverflow (lhs.toInt + rhs.toInt)
    | .sub => withoutOverflow (lhs.toInt - rhs.toInt)
    | .mul => withoutOverflow (lhs.toInt * rhs.toInt)
    -- Division of integers gives a float.
    | .div => if rhs = 0 then none else some (.float (lhs.toFloat / rhs.toFloat).toBits)
    | .rem =>
      if rhs = 0 ∨ lhs = Int64.minValue ∧ rhs = -1 then none
      else some (.int (Int64.ofInt (lhs.toInt.tmod rhs.toInt)))
    | .mod =>
      if rhs = 0 ∨ lhs = Int64.minValue ∧ rhs = -1 then none
      else some (.int (Int64.ofInt (lhs.toInt.fmod rhs.toInt)))
    | .bitAnd => some (.int (lhs &&& rhs))
    | .bitOr => some (.int (lhs ||| rhs))
    | .bitXor => some (.int (lhs ^^^ rhs))
    | .shl =>
      let shift := min rhs 63
      if rhs < 0 then none
      else if lhs > 0 ∧ lhs > Int64.maxValue >>> shift then none
      else if lhs < 0 ∧ lhs < Int64.minValue >>> shift then none
      else some (.int (lhs <<< shift))
    | .shr => if rhs < 0 then none else some (.int (lhs >>> min rhs 63))
    | _ => none

/-- `@trunc`. -/
def truncate (x : Float) : Float :=
  if x < 0 then x.ceil else x.floor

def fmod (a b : Float) : Float :=
  if b == 0 then 0 else a - truncate (a / b) * b

/-- A result that is not finite is left to the run, which reports it. -/
def ifFinite (result : Float) : Option (Constant FuncRef) :=
  if result.isFinite then some (.float result.toBits) else none

def foldFloats (op : Op) (lhs rhs : Float) : Option (Constant FuncRef) :=
  match foldCompareOp op lhs rhs with
  | some result => some (.boolean result)
  | none =>
    match op with
    | .add => ifFinite (lhs + rhs)
    | .sub => ifFinite (lhs - rhs)
    | .mul => ifFinite (lhs * rhs)
    | .div => if rhs == 0 then none else ifFinite (lhs / rhs)
    | .rem => if rhs == 0 then none else some (.float (fmod lhs rhs).toBits)
    | .mod =>
      if rhs == 0 then none else some (.float (lhs - (lhs / rhs).floor * rhs).toBits)
    | _ => none

def foldBinOp (op : Op) (lhs rhs : Constant FuncRef) : Option (Constant FuncRef) :=
  match lhs, rhs with
  | .int lhs, .int rhs => foldInts op lhs rhs
  | .float lhs, .float rhs => foldFloats op (Float.ofBits lhs) (Float.ofBits rhs)
  | _, _ => none

/-- An operator applied in place to the constant before it. -/
def foldUnaryOp (op : Op) (operand : Constant FuncRef) : Option (Constant FuncRef) :=
  match op, operand with
  | .neg, .int value => if value = Int64.minValue then none else some (.int (-value))
  | .neg, .float bits => some (.float (bits ^^^ 0x8000000000000000))
  | .bitNot, .int value => some (.int (~~~value))
  | .not, .boolean value => some (.boolean !value)
  | _, _ => none

/-!
# Emission into a chunk

The chunk as the compiler fills it: code is appended byte by byte, folded back, truncated and
cut out, and the table of lines and the table of modules are kept beside it. Calls, jumps,
global and field accesses are emitted as runs of single bytes, some after a name was added to
the pool, and patching a jump patches four bytes.
-/

open Tables

def MaxLineEntries : ℕ := 16384

def MaxModuleBoundaries : ℕ := 64

def MaxModuleSourcePath : ℕ := 256

def MaxStrSlices : ℕ := MaxConst * 4

inductive EmitError where
  | chunkFull | tooManyConstants | outOfMemory
  deriving DecidableEq, Repr

/-- Move a position that lies behind a deleted range. -/
def moveIp (tailStart len ip : ℕ) : ℕ :=
  if tailStart ≤ ip then ip - len else ip

/-- An entry of the line table: the code from `ip` on has this position. -/
structure LineEntry where
  ip : ℕ
  line : ℕ
  col : ℕ
  deriving DecidableEq, Repr

namespace LineEntry

def position (entry : LineEntry) : ℕ × ℕ :=
  (entry.line, entry.col)

end LineEntry

/-- The line table (`line_table`) with the position last written to it (`last_emitted_line`,
`last_emitted_col`). -/
structure LineTable where
  entries : List LineEntry := []
  lastLine : ℕ := 0
  lastCol : ℕ := 0xffff
  deriving DecidableEq, Repr

namespace LineTable

/-- Write a position to the table, if it differs from the last one and there is room. -/
def record (table : LineTable) (room ip line col : ℕ) : LineTable :=
  if (line ≠ table.lastLine ∨ col ≠ table.lastCol) ∧ table.entries.length < room then
    { entries := table.entries ++ [{ ip, line, col }], lastLine := line, lastCol := col }
  else table

/-- A table with the position of its last entry as the last one. -/
def ofEntries (entries : List LineEntry) : LineTable where
  entries
  lastLine := (entries.getLast?.map LineEntry.line).getD 0
  lastCol := (entries.getLast?.map LineEntry.col).getD 0xffff

/-- The entries before `pos`, as far as the table goes back from its end (`truncateTo`). -/
def truncateTo (table : LineTable) (pos : ℕ) : LineTable :=
  ofEntries (table.entries.rdropWhile fun entry => pos ≤ entry.ip)

/-- The entries without those of a range, and those behind it moved up (`deleteCodeRange`). -/
def deleteRange (table : LineTable) (start len : ℕ) : LineTable :=
  ofEntries <| (table.entries.filter fun entry => ¬(start ≤ entry.ip ∧ entry.ip < start + len)).map
    fun entry => { entry with ip := moveIp (start + len) len entry.ip }

/-- The entry the search of `lineAt` and `colAt` ends at. -/
def entryAt (table : LineTable) (i : ℕ) : Option LineEntry :=
  match table.entries.head? with
  | none => none
  | some first =>
    if i < first.ip then none
    else table.entries[Sparse.bisect (table.entries.map LineEntry.ip) i 0 table.entries.length]?

def lineAt (table : LineTable) (i : ℕ) : ℕ :=
  ((table.entryAt i).map LineEntry.line).getD 0

def colAt (table : LineTable) (i : ℕ) : ℕ :=
  ((table.entryAt i).map LineEntry.col).getD 0

end LineTable

/-- A chunk under emission (`chunk.State`): the code, the pools and the positions, and what the
emitter remembers of the instructions it wrote last. -/
structure State where
  chunk : Bytecode.State
  strSlices : List Bytes := []
  lineTable : LineTable := {}
  pendingCol : ℕ := 0
  lastConstCodePos : Option ℕ := none
  lastConstIdx : ℕ := 0
  prevConstCodePos : Option ℕ := none
  prevConstIdx : ℕ := 0
  lastConstWasNew : Bool := false
  prevConstWasNew : Bool := false
  lastBoolLitPos : Option ℕ := none

namespace State

variable (state : State)

def codeLen : ℕ :=
  state.chunk.codeLen

def boundaries : List ModuleBoundary :=
  state.chunk.moduleBoundaries

def setCol (col : ℕ) : State :=
  { state with pendingCol := min col 0xffff }

def emitByte (b : UInt8) (line : ℕ) : Except EmitError State :=
  if room : state.chunk.code.length < MaxCode then
    .ok { state with
      chunk := { state.chunk with
        code := state.chunk.code ++ [b]
        slack := state.chunk.slack.tail
        codeLen_le := by
          rw [List.length_append, List.length_singleton]
          exact room }
      lineTable := state.lineTable.record MaxLineEntries state.codeLen (min line 0xffff)
        state.pendingCol }
  else .error .chunkFull

/-- Set the code length back to a position in the code. -/
def setCodeLen (pos : ℕ) : State :=
  { state with
    chunk := { state.chunk with
      code := state.chunk.code.take pos
      slack := state.chunk.code.drop pos ++ state.chunk.slack
      codeLen_le := (List.length_take_le' _ _).trans state.chunk.codeLen_le } }

/-- Overwrite a byte of the code. -/
def patchByte (offset : ℕ) (val : UInt8) : State :=
  { state with
    chunk := { state.chunk with
      code := state.chunk.code.set offset val
      codeLen_le := by
        rw [List.length_set]
        exact state.chunk.codeLen_le } }

def setConstCount (count : ℕ) : State :=
  { state with
    chunk := { state.chunk with
      consts := state.chunk.consts.take count
      constCount_le := (List.length_take_le' _ _).trans state.chunk.constCount_le } }

def setConst (idx : ℕ) (v : Constant FuncRef) : State :=
  { state with
    chunk := { state.chunk with
      consts := state.chunk.consts.set idx v
      constCount_le := by
        rw [List.length_set]
        exact state.chunk.constCount_le } }

def addConst (v : Constant FuncRef) : Except EmitError (State × ℕ) :=
  if room : state.chunk.consts.length < MaxConst then
    .ok ({ state with
      chunk := { state.chunk with
        consts := state.chunk.consts ++ [v]
        constCount_le := by
          rw [List.length_append, List.length_singleton]
          exact room } }, state.chunk.consts.length)
  else .error .tooManyConstants

def internStr (s : Bytes) : Except EmitError State :=
  if s.length ≤ 32 ∧ s ∈ state.strSlices then .ok state
  else if MaxStrSlices ≤ state.strSlices.length then .error .tooManyConstants
  else .ok { state with strSlices := state.strSlices ++ [s] }

end State

/-- A constant is this string. -/
def isString (s : Bytes) : Constant FuncRef → Bool
  | .string bytes => bytes == s
  | _ => false

namespace State

variable (state : State)

/-- The index of the string in the pool, where it is added if it is not there. `bump` tells
whether the heap has room for its copy. -/
def addStringConst (s : Bytes) (bump : Bool) : Except EmitError (State × ℕ) :=
  match state.chunk.consts.findIdx? (isString s) with
  | some idx => .ok (state, idx)
  | none =>
    if bump then do
      let state ← state.internStr s
      state.addConst (.string s)
    else .error .outOfMemory

def emitConstIdx (op : Op) (idx line : ℕ) : Except EmitError State := do
  let state ← state.emitByte op.toByte line
  let state ← state.emitByte (UInt8.ofNat (idx / 256)) line
  state.emitByte (UInt8.ofNat idx) line

/-- Remember the constant instruction just written; any other one breaks the chain. -/
def trackConst (op : Op) (idx preCount : ℕ) : State :=
  if op = .constant then
    { state with
      prevConstCodePos := state.lastConstCodePos
      prevConstIdx := state.lastConstIdx
      prevConstWasNew := state.lastConstWasNew
      lastConstCodePos := some (state.codeLen - 3)
      lastConstIdx := idx
      lastConstWasNew := idx == preCount }
  else { state with lastConstCodePos := none, prevConstCodePos := none }

def emitOpConst (op : Op) (v : Constant FuncRef) (line : ℕ) : Except EmitError State := do
  let (after, idx) ← state.addConst v
  let after ← after.emitConstIdx op idx line
  return after.trackConst op idx state.chunk.consts.length

def emitOpStringConst (op : Op) (s : Bytes) (bump : Bool) (line : ℕ) :
    Except EmitError State := do
  let (after, idx) ← state.addStringConst s bump
  let after ← after.emitConstIdx op idx line
  return after.trackConst op idx state.chunk.consts.length

/-- A boolean has an instruction of its own. -/
def emitFoldedResult (result : Constant FuncRef) (line : ℕ) : Except EmitError State :=
  match result with
  | .boolean value =>
    { state with
      lastConstCodePos := none
      prevConstCodePos := none
      lastBoolLitPos := some state.codeLen }.emitByte
      (if value then Op.trueVal else Op.falseVal).toByte line
  | result => state.emitOpConst .constant result line

/-- Where the constant instruction that ends the code begins. -/
def constPos? : Option ℕ :=
  state.lastConstCodePos.filter fun pos => pos + 3 == state.codeLen

/-- Where the two constant instructions that end the code begin. -/
def constPairPos? : Option ℕ :=
  state.constPos?.bind fun rhsPos =>
    state.prevConstCodePos.filter fun lhsPos => lhsPos + 3 == rhsPos

/-- The operands of an operator that follows two constants, and where they begin. -/
def constPair? : Option (ℕ × Constant FuncRef × Constant FuncRef) :=
  match state.constPairPos?, state.chunk.consts[state.prevConstIdx]?,
    state.chunk.consts[state.lastConstIdx]? with
  | some lhsPos, some lhs, some rhs => some (lhsPos, lhs, rhs)
  | _, _, _ => none

/-- An operator over two constants that folds, with where they begin and the result. -/
def binFold? (op : Op) : Option (ℕ × Constant FuncRef) :=
  state.constPair?.bind fun (lhsPos, lhs, rhs) =>
    (foldBinOp op lhs rhs).map fun result => (lhsPos, result)

/-- Two string literals under `+`, with where they begin and their concatenation. -/
def concat? (op : Op) : Option (ℕ × Bytes) :=
  match op, state.constPair? with
  | .add, some (lhsPos, .string a, .string b) => some (lhsPos, a ++ b)
  | _, _ => none

/-- The operators that `emitOp` folds itself. -/
def foldsInEmitOp (op : Op) : Bool :=
  op ∈ [.mul, .div, .intDiv, .rem, .mod, .bitAnd, .bitOr, .bitXor, .shl, .shr]

/-- Where the boolean literal begins that a `not` follows. -/
def boolLitPos? (op : Op) : Option ℕ :=
  if op = .not then state.lastBoolLitPos.filter fun pos => pos + 1 == state.codeLen else none

/-- The constant that takes the place of the one a unary operator follows. -/
def unaryFold? (op : Op) : Option (Constant FuncRef) :=
  if state.constPos?.isSome then
    state.chunk.consts[state.lastConstIdx]?.bind (foldUnaryOp op)
  else none

/-- Go back to where two constants begin, with this many constants left in the pool. -/
def dropConstPair (lhsPos count : ℕ) : State :=
  { (state.setCodeLen lhsPos).setConstCount count with
    lastConstCodePos := none
    prevConstCodePos := none }

/-- Replace two constant instructions by the result of an operator. -/
def emitFolded (lhsPos : ℕ) (result : Constant FuncRef) (line : ℕ) : Except EmitError State :=
  (state.dropConstPair lhsPos (state.chunk.consts.length - 2)).emitFoldedResult result line

/-- An operator that does not fold; a boolean literal is remembered. -/
def emitPlainOp (op : Op) (line : ℕ) : Except EmitError State :=
  { state with
    lastBoolLitPos :=
      if op = Op.trueVal ∨ op = Op.falseVal then some state.codeLen
      else state.lastBoolLitPos }.emitByte op.toByte line

def emitOp (op : Op) (line : ℕ) : Except EmitError State :=
  match if foldsInEmitOp op then state.binFold? op else none with
  | some (lhsPos, result) => state.emitFolded lhsPos result line
  | none =>
    match state.boolLitPos? op with
    | some pos =>
      { state.setCodeLen pos with lastBoolLitPos := some pos }.emitByte
        (if state.chunk.codeAt pos = Op.trueVal.toByte then Op.falseVal
          else Op.trueVal).toByte line
    | none =>
      match state.unaryFold? op with
      | some v => .ok (state.setConst state.lastConstIdx v)
      | none => state.emitPlainOp op line

/-- The index of a concatenation in the pool, where it is added if it is not there. -/
def addConcat (bytes : Bytes) : Except EmitError (State × ℕ) :=
  match state.chunk.consts.findIdx? (isString bytes) with
  | some idx => .ok (state, idx)
  | none =>
    if MaxConst ≤ state.chunk.consts.length then .error .tooManyConstants
    else do
      let state ← state.internStr bytes
      state.addConst (.string bytes)

/-- Replace two string literals by their concatenation; only slots that were new to the pool
are given back. -/
def emitConcat (lhsPos : ℕ) (bytes : Bytes) (line : ℕ) : Except EmitError State := do
  let restored := state.dropConstPair lhsPos (state.chunk.consts.length -
    state.lastConstWasNew.toNat - state.prevConstWasNew.toNat)
  let (after, idx) ← restored.addConcat bytes
  let after ← after.emitConstIdx .constant idx line
  return { after with
    prevConstCodePos := none
    prevConstWasNew := false
    lastConstCodePos := some (after.codeLen - 3)
    lastConstIdx := idx
    lastConstWasNew := (restored.chunk.consts.findIdx? (isString bytes)).isNone }

def emitBinOpFused (op : Op) (bump : Bool) (line : ℕ) : Except EmitError State :=
  match state.binFold? op with
  | some (lhsPos, result) => state.emitFolded lhsPos result line
  | none =>
    match if bump then state.concat? op else none with
    | some (lhsPos, bytes) => state.emitConcat lhsPos bytes line
    | none => { state with lastConstCodePos := none }.emitOp op line

def truncateTo (pos : ℕ) : State :=
  { state.setCodeLen pos with
    lastConstCodePos := none
    lineTable := state.lineTable.truncateTo pos }

end State

/-- Move the entry of the function a constant holds or closes over. -/
def moveFunc (tailStart len : ℕ) (funcs : List FuncObj) : Constant FuncRef → List FuncObj
  | .function func | .closure func _ =>
    funcs.modify func fun obj => { obj with ip := moveIp tailStart len obj.ip }
  | _ => funcs

namespace State

variable (state : State)

def deleteCodeRange (start len : ℕ) : State :=
  if len = 0 ∨ state.codeLen ≤ start ∨ state.codeLen < start + len then state
  else
    { state with
      chunk := { state.chunk with
        code := state.chunk.code.take start ++ state.chunk.code.drop (start + len)
        slack := state.chunk.code.drop (state.codeLen - len) ++ state.chunk.slack
        funcs := state.chunk.consts.foldl (moveFunc (start + len) len) state.chunk.funcs
        moduleBoundaries := state.chunk.moduleBoundaries.map fun boundary =>
          { boundary with ipStart := moveIp (start + len) len boundary.ipStart }
        codeLen_le := by
          have bound := state.chunk.codeLen_le
          rw [List.length_append, List.length_take, List.length_drop]
          omega }
      lineTable := state.lineTable.deleteRange start len
      lastConstCodePos := none }

/-- Note that a module's code begins here. The length of the path is narrowed to a byte: there
is no result where it does not fit one. A module that the table has no room for is left out. -/
def addModuleBoundary (path : Bytes) : Option State :=
  if MaxModuleBoundaries ≤ state.boundaries.length then some state
  else if min path.length MaxModuleSourcePath < 256 then
    some { state with
      chunk := { state.chunk with
        moduleBoundaries := state.chunk.moduleBoundaries ++
          [{ ipStart := state.codeLen, path := path.take MaxModuleSourcePath }] } }
  else none

/-- The path of the last module that begins at or before a position. -/
def pathAt (ip : ℕ) : Bytes :=
  ((state.boundaries.reverse.find? fun boundary => boundary.ipStart ≤ ip).map
    ModuleBoundary.path).getD []

def lineAt (i : ℕ) : ℕ :=
  state.lineTable.lineAt i

def colAt (i : ℕ) : ℕ :=
  state.lineTable.colAt i

/-- Append the code of a linked artifact (`readIntoSession`). -/
def splice (code : List UInt8) : Option State :=
  if room : state.chunk.code.length + code.length ≤ MaxCode then
    some { state with
      chunk := { state.chunk with
        code := state.chunk.code ++ code
        slack := state.chunk.slack.drop code.length
        codeLen_le := by
          rw [List.length_append]
          exact room } }
  else none

end State

end Gengo.Positions
