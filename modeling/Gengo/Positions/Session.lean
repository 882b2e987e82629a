import Gengo.Imports.Paths
import Gengo.Positions.Effects
import Gengo.Positions.Fusion

/-!
# Compilations and the positions they promise

A compilation fills one chunk with the code of several modules: it emits and rewrites code,
begins and ends modules, links finished artifacts and fuses. Beside the chunk stands what the
positions are to be compared with: where every byte of the code comes from.
-/

namespace Gengo.Positions

open Bytecode Tables Imports

/-- A place in the source. -/
structure Position where
  path : Bytes
  line : ℕ
  col : ℕ
  deriving DecidableEq, Repr

/-- Where a byte comes from: it was emitted under a position, and so was the first of the
instructions folded into its own, or it was linked with the artifact of a module. -/
inductive Origin where
  | emitted (own : Position) (folded : List Position)
  | linked (path : Bytes)
  deriving DecidableEq, Repr

/-- The positions that stand for the instruction of a byte. -/
def Origin.positions : Origin → List Position
  | .emitted own folded => own :: folded
  | .linked _ => []

/-- A compilation: the chunk, where its bytes come from, the modules being compiled, those begun
so far, and the column last set. -/
structure Session where
  chunk : State
  origins : List Origin := []
  compiling : List Bytes := []
  begun : List Bytes := []
  col : ℕ := 0

/-- What the compiler, the linker and the pass do to the chunk. -/
inductive Event where
  | setCol (col : ℕ)
  | emitByte (b : UInt8) (line : ℕ)
  | emitOp (op : Op) (line : ℕ)
  | emitOpConst (op : Op) (v : Constant FuncRef) (line : ℕ)
  | emitOpStringConst (op : Op) (s : Bytes) (bump : Bool) (line : ℕ)
  | emitBinOpFused (op : Op) (bump : Bool) (line : ℕ)
  | addConst (v : Constant FuncRef)
  | addStringConst (s : Bytes) (bump : Bool)
  | patchByte (offset : ℕ) (val : UInt8)
  | truncateTo (pos : ℕ)
  | deleteCodeRange (start len : ℕ)
  | beginModule (path : Bytes)
  | endModule
  | linkModule (path : Bytes) (code : List UInt8)
  | fuse (out : ℕ → UInt8)

/-- Where an event leaves a compilation: it goes on, it is refused with an error, or the
compiler itself traps. -/
inductive Outcome where
  | running (session : Session)
  | rejected
  | trapped

namespace Session

variable (session : Session)

/-- The module that is being compiled. -/
def path : Bytes :=
  session.compiling.headD []

/-- The position under which the next byte is emitted. -/
def position (line : ℕ) : Position where
  path := session.path
  line
  col := session.col

/-- Code was emitted under a line, behind the operands it folds if it folds any. -/
def emit (foldPos : Option ℕ) (line : ℕ) : Except EmitError State → Outcome
  | .error _ => .rejected
  | .ok after =>
    let keep := foldPos.getD session.chunk.codeLen
    let folded := (foldPos.bind (session.origins[·]?)).elim [] Origin.positions
    .running { session with
      chunk := after
      origins := session.origins.take keep ++
        List.replicate (after.codeLen - keep) (.emitted (session.position line) folded) }

/-- A pool grew. -/
def pool : Except EmitError (State × ℕ) → Outcome
  | .error _ => .rejected
  | .ok (after, _) => .running { session with chunk := after }

/-- What is left of a list about the bytes when a range of the code is cut out. -/
def cut {α : Type} (codeLen start len : ℕ) (items : List α) : List α :=
  if len = 0 ∨ codeLen ≤ start ∨ codeLen < start + len then items
  else items.take start ++ items.drop (start + len)

/-- A fused instruction comes from where its first one does. -/
def fusedOrigins (groups : List Group) : List Origin :=
  groups.flatMap fun group =>
    List.replicate group.width (session.origins.getD group.src (.linked []))

def step : Event → Outcome
  | .setCol col => .running { session with chunk := session.chunk.setCol col, col }
  | .emitByte b line => session.emit none line (session.chunk.emitByte b line)
  | .emitOp op line =>
    session.emit (session.chunk.opFoldPos? op) line (session.chunk.emitOp op line)
  | .emitOpConst op v line => session.emit none line (session.chunk.emitOpConst op v line)
  | .emitOpStringConst op s bump line =>
    session.emit none line (session.chunk.emitOpStringConst op s bump line)
  | .emitBinOpFused op bump line =>
    session.emit (session.chunk.fusedFoldPos? op bump) line
      (session.chunk.emitBinOpFused op bump line)
  | .addConst v => session.pool (session.chunk.addConst v)
  | .addStringConst s bump => session.pool (session.chunk.addStringConst s bump)
  | .patchByte offset val =>
    .running { session with chunk := session.chunk.patchByte offset val }
  | .truncateTo pos =>
    .running { session with
      chunk := session.chunk.truncateTo pos
      origins := session.origins.take pos }
  | .deleteCodeRange start len =>
    .running { session with
      chunk := session.chunk.deleteCodeRange start len
      origins := cut session.chunk.codeLen start len session.origins }
  | .beginModule path =>
    if maxModulePathBytes < path.length then .rejected
    else
      match session.chunk.addModuleBoundary path with
      | none => .trapped
      | some after =>
        .running { session with
          chunk := after
          compiling := path :: session.compiling
          begun := session.begun ++ [path] }
  | .endModule => .running { session with compiling := session.compiling.tail }
  | .linkModule path code =>
    match session.chunk.splice code with
    | none => .rejected
    | some after =>
      .running { session with
        chunk := after
        origins := session.origins ++ List.replicate code.length (.linked path) }
  | .fuse out =>
    match session.chunk.fuseOnce out with
    | .error _ => .rejected
    | .ok none => .running session
    | .ok (some (groups, after)) =>
      .running { session with chunk := after, origins := session.fusedOrigins groups }

/-- What the tables tell of a byte is admitted by where it comes from. -/
def Admits (pos : ℕ) : Origin → Prop
  | .emitted own folded =>
    { path := session.chunk.pathAt pos
      line := session.chunk.lineAt pos
      col := session.chunk.colAt pos : Position } ∈ own :: folded
  | .linked path => session.chunk.pathAt pos = [] ∨ session.chunk.pathAt pos = path

instance (pos : ℕ) (origin : Origin) : Decidable (session.Admits pos origin) := by
  cases origin <;> unfold Admits <;> infer_instance

/-- The promise: the line table is ordered, every byte of the code has its own position and no
other, and every module begun is recorded under its path. -/
structure Located : Prop where
  ordered : Sparse.Ordered LineEntry.ip session.chunk.lineTable.entries
  covered : session.origins.length = session.chunk.codeLen
  admitted : ∀ pos origin, session.origins[pos]? = some origin → session.Admits pos origin
  recorded : session.chunk.boundaries.map ModuleBoundary.path = session.begun

/-- Code can be written under a line. The position fits the table, the table has room, the
module being compiled is the last one begun, and a fold leaves nothing behind its operands. -/
structure CanEmit (foldPos : Option ℕ) (line : ℕ) : Prop where
  line_le : line ≤ 0xffff
  col_le : session.col ≤ 0xffff
  proper : (line, session.col) ≠ (0, 0xffff)
  room : session.chunk.lineTable.entries.length < MaxLineEntries
  module_ : session.chunk.pathAt session.chunk.codeLen = session.path
  lines : ∀ pos, foldPos = some pos → ∀ entry ∈ session.chunk.lineTable.entries, entry.ip ≤ pos
  modules : ∀ pos, foldPos = some pos → ∀ boundary ∈ session.chunk.boundaries,
    boundary.ipStart ≤ pos

instance (foldPos : Option ℕ) (line : ℕ) : Decidable (session.CanEmit foldPos line) :=
  decidable_of_iff (line ≤ 0xffff ∧ session.col ≤ 0xffff ∧ (line, session.col) ≠ (0, 0xffff) ∧
      session.chunk.lineTable.entries.length < MaxLineEntries ∧
      session.chunk.pathAt session.chunk.codeLen = session.path ∧
      (∀ pos ∈ foldPos, ∀ entry ∈ session.chunk.lineTable.entries, entry.ip ≤ pos) ∧
      ∀ pos ∈ foldPos, ∀ boundary ∈ session.chunk.boundaries, boundary.ipStart ≤ pos)
    ⟨fun ⟨line_le, col_le, proper, room, module_, lines, modules⟩ =>
      ⟨line_le, col_le, proper, room, module_, lines, modules⟩,
    fun can => ⟨can.line_le, can.col_le, can.proper, can.room, can.module_, can.lines, can.modules⟩⟩

/-- A range can be cut out. The entry that governs the code behind it does not lie in it, and
no module begins inside. -/
structure CanDelete (start len : ℕ) : Prop where
  lines : start + len < session.chunk.codeLen → ∀ entry,
    Sparse.governing LineEntry.ip session.chunk.lineTable.entries (start + len) = some entry →
      ¬(start ≤ entry.ip ∧ entry.ip < start + len)
  modules : ∀ boundary ∈ session.chunk.boundaries,
    ¬(start < boundary.ipStart ∧ boundary.ipStart < start + len)

/-- The condition of each event on the compilation before it. -/
def Permits : Event → Prop
  | .emitByte _ line | .emitOpConst _ _ line | .emitOpStringConst _ _ _ line =>
    session.CanEmit none line
  | .emitOp op line => session.CanEmit (session.chunk.opFoldPos? op) line
  | .emitBinOpFused op bump line => session.CanEmit (session.chunk.fusedFoldPos? op bump) line
  | .truncateTo pos =>
    pos ≤ session.chunk.codeLen ∧ ∀ boundary ∈ session.chunk.boundaries, boundary.ipStart ≤ pos
  | .deleteCodeRange start len => session.CanDelete start len
  | .beginModule path =>
    path.length < MaxModuleSourcePath ∧ session.chunk.boundaries.length < MaxModuleBoundaries
  -- A linked artifact has no module of its own: it must come before every other module.
  | .linkModule path _ =>
    session.chunk.pathAt session.chunk.codeLen = [] ∨
      session.chunk.pathAt session.chunk.codeLen = path
  -- The table begins with the code, and modules begin with an instruction.
  | .fuse _ =>
    (∀ entry, session.chunk.lineTable.entries.head? = some entry → entry.ip = 0) ∧
      ∀ boundary ∈ session.chunk.boundaries, Sweep session.chunk.chunk.code boundary.ipStart
  | .setCol _ | .addConst _ | .addStringConst _ _ | .patchByte _ _ | .endModule => True

end Session

/-- A chunk that nothing was emitted into (`reset`). -/
def State.empty : State where
  chunk := { code := [], codeLen_le := Nat.zero_le _ }

def Session.start : Session where
  chunk := State.empty

def Outcome.next (outcome : Outcome) (event : Event) : Outcome :=
  match outcome with
  | .running session => session.step event
  | .rejected => .rejected
  | .trapped => .trapped

def run (events : List Event) : Outcome :=
  events.foldl Outcome.next (.running Session.start)

/-- A compilation that goes on keeps the promise, and the compiler does not trap. -/
def Outcome.Kept : Outcome → Prop
  | .running session => session.Located
  | .rejected => True
  | .trapped => False

/-- The promise holds after every step of a run. -/
def PositionsSurvive (events : List Event) : Prop :=
  ∀ count, (run (events.take count)).Kept

/-- Every step of a run meets its condition. -/
def PermittedRun (events : List Event) : Prop :=
  ∀ count event, events[count]? = some event → ∀ session,
    run (events.take count) = .running session → session.Permits event

end Gengo.Positions
