import Gengo.Positions.Groups
import Gengo.Positions.Session

/-!
# Source positions survive the pipeline

A compilation is sound when its tables say of every byte what its origin demands. Every event
keeps that under its condition, so that in a run whose steps all meet theirs the positions
survive. A fold over operands with positions of their own does not, nor does the module whose
path fills its buffer.
-/

namespace Gengo.Positions

open Bytecode Fallible Tables Imports Nat

/-- What the line table is to say of a byte: where its instruction was emitted. -/
def Origin.lineDemand : Origin → Demand (ℕ × ℕ)
  | .emitted own _ => fun value => value = some (own.line, own.col)
  | .linked _ => fun _ => True

/-- What the module table is to say of a byte. -/
def Origin.moduleDemand : Origin → Demand Bytes
  | .emitted own _ => fun value => value.getD [] = own.path
  | .linked path => fun value => value.getD [] = [] ∨ value.getD [] = path

namespace Session

variable {session : Session} {foldPos : Option ℕ} {line count : ℕ}

/-- The tables say what the origins demand, and remember the column that was set. -/
structure Sound (session : Session) : Prop where
  covered : session.origins.length = session.chunk.codeLen
  lines : session.chunk.lineTable.Sound (session.origins.map Origin.lineDemand)
  modules : ModulesSound session.chunk.boundaries (session.origins.map Origin.moduleDemand)
  recorded : session.chunk.boundaries.map ModuleBoundary.path = session.begun
  pending : session.chunk.pendingCol = min session.col 0xffff

theorem sound_start : Sound start where
  covered := rfl
  lines := LineTable.sound_empty
  modules := ⟨nofun, .nil⟩
  recorded := rfl
  pending := rfl

namespace Sound

section

variable (sound : Sound session)
include sound

theorem length_lines : (session.origins.map Origin.lineDemand).length = session.chunk.codeLen := by
  rw [List.length_map, sound.covered]

theorem length_modules :
    (session.origins.map Origin.moduleDemand).length = session.chunk.codeLen := by
  rw [List.length_map, sound.covered]

theorem located : session.Located where
  ordered := sound.lines.ordered
  covered := sound.covered
  recorded := sound.recorded
  admitted := by
    intro pos origin at_
    have lineTold := sound.lines.follows pos origin.lineDemand (by rw [List.getElem?_map, at_]; rfl)
    have moduleTold := sound.modules.follows pos origin.moduleDemand
      (by rw [List.getElem?_map, at_]; rfl)
    have path_eq := session.chunk.pathAt_eq_valueAt pos
    cases origin with
    | emitted own folded =>
      have position_eq := LineTable.lineAt_colAt sound.lines.ordered pos
      rw [Origin.lineDemand] at lineTold
      rw [lineTold, Option.getD_some, Prod.mk.injEq] at position_eq
      rw [Admits, path_eq, State.lineAt, State.colAt, position_eq.1, position_eq.2,
        show _ = own.path from moduleTold]
      exact List.mem_cons_self
    | linked path =>
      rw [Admits, path_eq]
      exact moduleTold

theorem pathAt_end :
    session.chunk.pathAt session.chunk.codeLen =
      (session.chunk.boundaries.getLast?.map ModuleBoundary.path).getD [] := by
  rw [State.pathAt_eq_valueAt, sound.modules.valueAt_of_le sound.length_modules.le]

variable {after : State}

theorem emit (can : session.CanEmit foldPos line)
    (le : ∀ pos, foldPos = some pos → pos ≤ session.chunk.codeLen) (folded : List Position)
    (emits : session.chunk.Emits (foldPos.getD session.chunk.codeLen) line count after) :
    Sound { session with
      chunk := after
      origins := session.origins.take (foldPos.getD session.chunk.codeLen) ++
        List.replicate (after.codeLen - foldPos.getD session.chunk.codeLen)
          (.emitted (session.position line) folded) } := by
  have keep_le : foldPos.getD session.chunk.codeLen ≤ session.chunk.codeLen := by
    cases foldPos with
    | none => exact le_rfl
    | some pos => exact le pos rfl
  have entries_le : ∀ entry ∈ session.chunk.lineTable.entries,
      entry.ip ≤ foldPos.getD session.chunk.codeLen := by
    cases foldPos with
    | none => exact sound.length_lines ▸ sound.lines.inside
    | some pos => exact can.lines pos rfl
  have boundaries_le : ∀ boundary ∈ session.chunk.boundaries,
      boundary.ipStart ≤ foldPos.getD session.chunk.codeLen := by
    cases foldPos with
    | none => exact sound.length_modules ▸ sound.modules.inside
    | some pos => exact can.modules pos rfl
  have module_eq : (session.chunk.boundaries.getLast?.map ModuleBoundary.path).getD [] =
      session.path := by
    rw [← sound.pathAt_end, can.module_]
  have lineCap : min line 0xffff = line := min_eq_left can.line_le
  have colCap : session.chunk.pendingCol = session.col :=
    sound.pending.trans (min_eq_left can.col_le)
  generalize foldPos.getD session.chunk.codeLen = keep at *
  have count_eq : after.codeLen - keep = count := by
    rw [emits.codeLen, Nat.add_sub_cancel_left]
  have length_keep : ((session.origins.map Origin.lineDemand).take keep).length = keep := by
    rw [List.length_take, sound.length_lines, min_eq_left keep_le]
  rw [count_eq]
  constructor
  · rw [List.length_append, List.length_take, List.length_replicate, sound.covered,
      min_eq_left keep_le]
    exact emits.codeLen.symm
  · have written := ((sound.lines.rewind entries_le).recordRun MaxLineEntries
      (Origin.emitted (session.position line) folded).lineDemand can.proper
      (.inr can.room) rfl count).1
    rw [length_keep] at written
    change after.lineTable.Sound _
    rw [emits.lineTable, lineCap, colCap, List.map_append, List.map_take, List.map_replicate]
    exact written
  · have written := (sound.modules.rewind boundaries_le).append
      (List.replicate count (Origin.emitted (session.position line) folded).moduleDemand)
      fun demand mem => by
        rw [List.eq_of_mem_replicate mem]
        exact module_eq
    change ModulesSound after.boundaries _
    rw [emits.boundaries, List.map_append, List.map_take, List.map_replicate]
    exact written
  · change after.boundaries.map _ = _
    rw [emits.boundaries]
    exact sound.recorded
  · exact emits.pendingCol.trans sound.pending

/-- What writes nothing keeps the tables. -/
theorem quiet (emits : session.chunk.Emits session.chunk.codeLen line 0 after) :
    Sound { session with chunk := after } where
  covered := sound.covered.trans emits.codeLen.symm
  lines := by
    change after.lineTable.Sound _
    rw [emits.lineTable]
    exact sound.lines
  modules := by
    change ModulesSound after.boundaries _
    rw [emits.boundaries]
    exact sound.modules
  recorded := by
    change after.boundaries.map _ = _
    rw [emits.boundaries]
    exact sound.recorded
  pending := emits.pendingCol.trans sound.pending

theorem truncateTo {pos : ℕ} (le : pos ≤ session.chunk.codeLen)
    (boundaries_le : ∀ boundary ∈ session.chunk.boundaries, boundary.ipStart ≤ pos) :
    Sound { session with
      chunk := session.chunk.truncateTo pos
      origins := session.origins.take pos } where
  covered := by
    have emits : session.chunk.Emits pos 0 0 (session.chunk.setCodeLen pos) :=
      State.emits_setCodeLen le 0
    rw [List.length_take, sound.covered, min_eq_left le]
    exact emits.codeLen.symm
  lines := by
    rw [List.map_take]
    exact sound.lines.truncateTo pos
  modules := by
    rw [List.map_take]
    exact sound.modules.rewind boundaries_le
  recorded := sound.recorded
  pending := sound.pending

theorem deleteCodeRange {start len : ℕ} (can : session.CanDelete start len) : Sound { session with
      chunk := session.chunk.deleteCodeRange start len
      origins := cut session.chunk.codeLen start len session.origins } := by
  rw [cut, State.deleteCodeRange]
  split
  · exact sound
  · rename_i proper
    have inside : start + len ≤ session.chunk.codeLen := by omega
    constructor
    · change _ = (_ ++ _ : List UInt8).length
      have covered : session.origins.length = session.chunk.chunk.code.length := sound.covered
      rw [List.length_append, List.length_take, List.length_drop, List.length_append,
        List.length_take, List.length_drop, covered]
    · rw [List.map_append, List.map_take, List.map_drop]
      exact sound.lines.deleteRange (sound.length_lines ▸ inside)
        fun lt => can.lines (sound.length_lines ▸ lt)
    · rw [List.map_append, List.map_take, List.map_drop]
      exact sound.modules.deleteRange (sound.length_modules ▸ inside) can.modules
    · rw [← sound.recorded]
      exact List.map_map
    · exact sound.pending

theorem addModuleBoundary {path : Bytes}
    (room : session.chunk.boundaries.length < MaxModuleBoundaries)
    (short : path.length < MaxModuleSourcePath)
    (added : session.chunk.addModuleBoundary path = some after) :
    Sound { session with
      chunk := after
      compiling := path :: session.compiling
      begun := session.begun ++ [path] } := by
  rw [State.addModuleBoundary, if_neg (not_le.mpr room), min_eq_left short.le,
    List.take_of_length_le short.le] at added
  split at added
  · cases added
    have begins := sound.modules.begin_ path
    rw [sound.length_modules] at begins
    exact
      { covered := sound.covered
        lines := sound.lines
        modules := begins
        recorded := by
          rw [← sound.recorded]
          exact List.map_append
        pending := sound.pending }
  · cases added

theorem splice {path : Bytes} {code : List UInt8}
    (own : session.chunk.pathAt session.chunk.codeLen = [] ∨
      session.chunk.pathAt session.chunk.codeLen = path)
    (spliced : session.chunk.splice code = some after) :
    Sound { session with
      chunk := after
      origins := session.origins ++ List.replicate code.length (.linked path) } := by
  rw [State.splice] at spliced
  split at spliced
  · cases spliced
    rw [sound.pathAt_end] at own
    constructor
    · rw [List.length_append, List.length_replicate, sound.covered]
      exact List.length_append.symm
    · rw [List.map_append, List.map_replicate]
      refine sound.lines.append_free fun demand mem value => ?_
      rw [List.eq_of_mem_replicate mem]
      exact trivial
    · rw [List.map_append, List.map_replicate]
      refine sound.modules.append _ fun demand mem => ?_
      rw [List.eq_of_mem_replicate mem]
      exact own
    · exact sound.recorded
    · exact sound.pending
  · cases spliced

variable {groups : List Group}

/-- The groups of a round tile the code, and every module begins with one of them. -/
theorem tiles_of_groups (ok : session.chunk.groups = .ok groups)
    (swept : ∀ boundary ∈ session.chunk.boundaries,
      Sweep session.chunk.chunk.code boundary.ipStart) :
    Tiles session.chunk.codeLen 0 groups ∧ ∀ boundary ∈ session.chunk.boundaries,
      Tiles.Kept session.chunk.codeLen groups boundary.ipStart := by
  have agrees : ∀ pos raw, session.chunk.chunk.code[pos]? = some raw →
      session.chunk.chunk.codeAt pos = raw := by
    intro pos raw at_
    have inside := (List.getElem?_eq_some_iff.mp at_).1
    rw [Bytecode.State.getElem?_code inside] at at_
    exact Option.some.inj at_
  rcases tiles_of_groupsFrom agrees (by rw [zero_add]; exact le_rfl) ok with ⟨tiles, covers⟩
  refine ⟨tiles, fun boundary mem => ?_⟩
  rcases swept boundary mem with ⟨insts, run⟩
  have le : boundary.ipStart ≤ session.chunk.codeLen :=
    sound.length_modules ▸ sound.modules.inside boundary mem
  rcases le.eq_or_lt with isEnd | inside
  · exact .inl isEnd
  · refine .inr (covers boundary.ipStart insts run inside ?_)
    rw [State.isTarget, Bool.or_eq_true]
    exact .inr (List.any_eq_true.mpr ⟨boundary, mem, beq_self_eq_true _⟩)

end

theorem map_fusedOrigins {β : Type} (told : Origin → Demand β)
    (inside : ∀ group ∈ groups, group.src < session.origins.length) :
    (session.fusedOrigins groups).map told = groups.flatMap fun group =>
      List.replicate group.width ((session.origins.map told).getD group.src fun _ => True) := by
  rw [fusedOrigins, List.map_flatMap]
  refine List.flatMap_congr fun group mem => ?_
  have lt := inside group mem
  rw [List.map_replicate, List.getD_eq_getElem _ _ lt, List.getD_eq_getElem _ _ (by simpa using lt),
    List.getElem_map]

theorem fuseOnce (sound : Sound session) {out : ℕ → UInt8}
    (head : ∀ entry, session.chunk.lineTable.entries.head? = some entry → entry.ip = 0)
    (swept : ∀ boundary ∈ session.chunk.boundaries, Sweep session.chunk.chunk.code boundary.ipStart)
    (ok : session.chunk.fuseOnce out = .ok (some (groups, after))) :
    Sound { session with chunk := after, origins := session.fusedOrigins groups } := by
  rcases bind_eq_ok.mp ok with ⟨groups', groupsOk, ok⟩
  split at ok
  · split at ok
    · rename_i fits
      cases ok
      rcases sound.tiles_of_groups groupsOk swept with ⟨tiles, kept⟩
      have inside : ∀ group ∈ groups, group.src < session.origins.length :=
        sound.covered ▸ tiles.inside
      have length_fused : (session.fusedOrigins groups).length = newLength groups := by
        rw [fusedOrigins, List.length_flatMap, newLength]
        exact congrArg List.sum (List.map_congr_left fun group _ => List.length_replicate)
      constructor
      · rw [length_fused]
        change _ = ((List.range _).map _).length
        rw [List.length_map, List.length_range]
      · rw [map_fusedOrigins _ inside]
        have closed : ∀ demand ∈ session.origins.map Origin.lineDemand,
            demand none → demand (some (0, 0)) := by
          intro demand mem
          rcases List.mem_map.mp mem with ⟨origin, -, rfl⟩
          cases origin with
          | emitted own folded =>
            intro missing
            cases missing
          | linked path => exact fun _ => trivial
        have unrecorded : ∀ pos, (none : Option ℕ) = some pos →
            ∀ group ∈ groups, pos ≤ group.src := by
          intro pos missing
          cases missing
        have rebuilt := sound.lines.rebuildLines head closed tiles.increasing
          (sound.length_lines ▸ tiles.inside) tiles.wide LineTable.sound_empty
          (show LineTable.RebuiltTo session.chunk.lineTable {} none from rfl) unrecorded
        rw [List.nil_append] at rebuilt
        exact rebuilt.ofEntries
      · rw [map_fusedOrigins _ inside]
        rw [← sound.length_modules] at tiles kept
        have fused := sound.modules.fuse tiles kept
        rw [sound.length_modules] at fused
        exact fused
      · rw [← sound.recorded]
        exact List.map_map
      · exact sound.pending
    · cases ok
  · cases ok

end Sound

end Session

/-- A compilation that goes on is sound, and the compiler does not trap. -/
def Outcome.Sound : Outcome → Prop
  | .running session => session.Sound
  | .rejected => True
  | .trapped => False

theorem Outcome.Sound.kept {outcome : Outcome} (sound : outcome.Sound) : outcome.Kept := by
  cases outcome with
  | running session => exact Session.Sound.located sound
  | rejected => trivial
  | trapped => exact sound

namespace Session.Sound

variable {session : Session}

theorem sound_emit (sound : Sound session) {foldPos : Option ℕ} {line : ℕ}
    {result : Except EmitError State} (can : session.CanEmit foldPos line)
    (le : ∀ pos, foldPos = some pos → pos ≤ session.chunk.codeLen)
    (emits : ∀ after, result = .ok after →
      ∃ count, session.chunk.Emits (foldPos.getD session.chunk.codeLen) line count after) :
    (session.emit foldPos line result).Sound := by
  cases result with
  | error _ => trivial
  | ok after =>
    rcases emits after rfl with ⟨count, written⟩
    exact sound.emit can le _ written

theorem sound_pool (sound : Sound session) {result : Except EmitError (State × ℕ)}
    (emits : ∀ after idx, result = .ok (after, idx) →
      session.chunk.Emits session.chunk.codeLen 0 0 after) : (session.pool result).Sound := by
  cases result with
  | error _ => trivial
  | ok result => exact sound.quiet (emits result.1 result.2 rfl)

/-- Under its condition, an event keeps a compilation sound and does not trap. -/
theorem step (sound : Sound session) {event : Event} (permits : session.Permits event) :
    (session.step event).Sound := by
  cases event with
  | setCol col => exact ⟨sound.covered, sound.lines, sound.modules, sound.recorded, rfl⟩
  | emitByte b line =>
    exact sound.sound_emit permits nofun fun after ok => ⟨1, State.emits_emitByte ok⟩
  | emitOp op line =>
    exact sound.sound_emit permits (fun _ => State.le_of_opFoldPos?)
      fun after ok => State.emits_emitOp ok
  | emitOpConst op v line =>
    exact sound.sound_emit permits nofun fun after ok => ⟨3, State.emits_emitOpConst ok⟩
  | emitOpStringConst op s bump line =>
    exact sound.sound_emit permits nofun fun after ok => ⟨3, State.emits_emitOpStringConst ok⟩
  | emitBinOpFused op bump line =>
    exact sound.sound_emit permits (fun _ => State.le_of_fusedFoldPos?)
      fun after ok => State.emits_emitBinOpFused ok
  | addConst v => exact sound.sound_pool fun after idx ok => State.emits_addConst ok 0
  | addStringConst s bump =>
    exact sound.sound_pool fun after idx ok => State.emits_addStringConst ok 0
  | patchByte offset val => exact sound.quiet (State.emits_patchByte session.chunk offset val 0)
  | truncateTo pos => exact sound.truncateTo permits.1 permits.2
  | deleteCodeRange start len => exact sound.deleteCodeRange permits
  | beginModule path =>
    rw [Session.step]
    by_cases long : maxModulePathBytes < path.length
    · rw [if_pos long]
      trivial
    · rw [if_neg long]
      cases added : session.chunk.addModuleBoundary path with
      | none =>
        rw [State.addModuleBoundary, if_neg (not_le.mpr permits.2),
          min_eq_left permits.1.le, if_pos (show path.length < 256 from permits.1)] at added
        cases added
      | some after => exact sound.addModuleBoundary permits.2 permits.1 added
  | endModule => exact ⟨sound.covered, sound.lines, sound.modules, sound.recorded, sound.pending⟩
  | linkModule path code =>
    rw [Session.step]
    cases spliced : session.chunk.splice code with
    | none => trivial
    | some after => exact sound.splice permits spliced
  | fuse out =>
    rw [Session.step]
    cases fused : session.chunk.fuseOnce out with
    | error _ => trivial
    | ok result =>
      cases result with
      | none => exact sound
      | some result => exact sound.fuseOnce permits.1 permits.2 fused

end Session.Sound

/-- Compilations stay sound along a run whose steps meet their conditions. -/
theorem sound_of_permittedRun {events : List Event} (permitted : PermittedRun events) (count : ℕ) :
    (run (events.take count)).Sound := by
  induction count with
  | zero => exact Session.sound_start
  | succ count ih =>
    rcases lt_or_ge count events.length with more | done
    · have next_eq : run (events.take (count + 1)) =
          (run (events.take count)).next events[count] := by
        rw [run, List.take_succ_eq_append_getElem more, List.foldl_append]
        rfl
      have permits := permitted count events[count] (List.getElem?_eq_getElem more)
      rw [next_eq]
      generalize run (events.take count) = outcome at ih permits
      cases outcome with
      | running session => exact Session.Sound.step ih (permits session rfl)
      | rejected => trivial
      | trapped => exact ih
    · rw [List.take_of_length_le (by omega)]
      rwa [List.take_of_length_le done] at ih

/-- Source positions survive every run whose steps meet their conditions. -/
theorem positionsSurvive_of_permittedRun (events : List Event) (permitted : PermittedRun events) :
    PositionsSurvive events :=
  fun count => (sound_of_permittedRun permitted count).kept

/-- A sum of two literals that share a position, and an instruction on the next line. -/
def sharedSum : List Event :=
  [.beginModule [109], .setCol 5, .emitOpConst .constant (.int 1) 1,
    .emitOpConst .constant (.int 2) 1, .emitBinOpFused .add true 1, .setCol 1, .emitOp .pop 2]

theorem permittedRun_sharedSum : PermittedRun sharedSum := by
  intro count event at_ session running
  rcases count with _ | _ | _ | _ | _ | _ | _ | count
  · cases at_
    obtain rfl := Outcome.running.inj running
    exact ⟨by decide, by decide⟩
  · cases at_
    trivial
  · cases at_
    obtain rfl := Outcome.running.inj running
    change Session.CanEmit _ none 1
    decide
  · cases at_
    obtain rfl := Outcome.running.inj running
    change Session.CanEmit _ none 1
    decide
  · cases at_
    obtain rfl := Outcome.running.inj running
    change Session.CanEmit _ (State.fusedFoldPos? _ .add true) 1
    decide
  · cases at_
    trivial
  · cases at_
    obtain rfl := Outcome.running.inj running
    change Session.CanEmit _ (State.opFoldPos? _ .pop) 2
    decide
  · cases at_

theorem positionsSurvive_sharedSum : PositionsSurvive sharedSum :=
  positionsSurvive_of_permittedRun sharedSum permittedRun_sharedSum

/-- A literal on one line, a comparison of two literals on the next, and an instruction on the
third: the fold leaves an entry behind that the search stops at. -/
def foldedComparison : List Event :=
  [.beginModule [109], .setCol 1, .emitOp .nullVal 1,
    .setCol 6, .emitOpConst .constant (.int 1) 2, .setCol 10, .emitOpConst .constant (.int 2) 2,
    .setCol 8, .emitBinOpFused .lt true 2, .setCol 1, .emitOp .pop 3]

/-- An artifact that is linked behind another module. -/
def linkedBehind : List Event :=
  [.beginModule [97], .endModule, .linkModule [98] [0]]

theorem not_positionsSurvive_of_length {path : Bytes} (full : path.length = maxModulePathBytes) :
    ¬PositionsSurvive [.beginModule path] := by
  intro survives
  have trapped : run [.beginModule path] = .trapped := by
    change Session.step Session.start (.beginModule path) = .trapped
    rw [Session.step, full, State.addModuleBoundary, full]
    rfl
  have kept := survives 1
  rw [List.take_of_length_le (List.length_singleton).le, trapped] at kept
  exact kept

theorem not_positionsSurvive :
    ¬PositionsSurvive foldedComparison ∧
      ¬PositionsSurvive [.beginModule (List.replicate maxModulePathBytes 97)] ∧
      ¬PositionsSurvive linkedBehind := by
  refine ⟨fun survives => ?_, not_positionsSurvive_of_length List.length_replicate,
    fun survives => ?_⟩
  · have located : Session.Located _ := survives 11
    have admitted := located.admitted 2 (.emitted { path := [109], line := 3, col := 1 } []) rfl
    exact absurd admitted (by decide)
  · have located : Session.Located _ := survives 3
    have admitted := located.admitted 0 (.linked [98]) rfl
    exact absurd admitted (by decide)

end Gengo.Positions
