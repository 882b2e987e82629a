import Gengo.Positions.Emission

/-!
# Fusion

One round of the pass that merges neighbouring instructions: which instructions it merges, how
wide the result is, and where it puts positions, lines and modules. The bytes it writes are
left open, since no position depends on them.
-/

namespace Gengo.Positions

open Bytecode Tables

/-- The fused opcode for two neighbours. -/
def pairFusion (a b : Op) : Option Op :=
  match a, b with
  | .constant, .eq => some .constEq
  | .constant, .sub => some .constSub
  | .constant, .add => some .constAdd
  | .constant, .lt => some .constLt
  | .constant, .gt => some .constGt
  | .constant, .ret => some .retConst
  | .getLocal, .constEq => some .getLocalConstEq
  | .getLocal, .constSub => some .getLocalConstSub
  | .getLocal, .constAdd => some .getLocalConstAdd
  | .getLocal, .constLt => some .getLocalConstLt
  | .getLocal, .constGt => some .getLocalConstGt
  | .getLocal, .getField => some .getLocalGetField
  | .getLocal, .ret => some .getLocalRet
  | .getGlobal, .constEq => some .getGlobalConstEq
  | .getGlobal, .constSub => some .getGlobalConstSub
  | .getGlobal, .constAdd => some .getGlobalConstAdd
  | .getGlobal, .constLt => some .getGlobalConstLt
  | .getGlobal, .getLocalConstSubCall => some .callGlobalLocalSubConst
  | .getGlobal, .getLocalConstSubCallTail => some .callGlobalLocalSubConstTail
  | .getGlobal, .getGlobalCall => some .callGlobalGlobal
  | .getGlobal, .getGlobalCallTail => some .callGlobalGlobalTail
  | .getLocalConstSub, .call => some .getLocalConstSubCall
  | .getLocalConstSub, .callTail => some .getLocalConstSubCallTail
  | .getLocalConstEq, .jifPop => some .getLocalConstEqJifPop
  | .getLocalConstLt, .jifPop => some .getLocalConstLtJifPop
  | .getLocalConstGt, .jifPop => some .getLocalConstGtJifPop
  | .getGlobalConstLt, .jifPop => some .getGlobalConstLtJifPop
  | .getLocalConstLtJifPop, .jump => some .getLocalConstLtJifPopJump
  | .localAddConst, .loop => some .localAddConstLoop
  | .setGlobal, .loop => some .setGlobalLoop
  | .closeUpvalue, .loop => some .closeUpvalueLoop
  | .incGlobalConst, .closeUpvalueLoop => some .incGlobalConstLoop
  | .incGlobalConst, .loop => some .incGlobalConstLoopNc
  | .add, .ret => some .addRet
  | _, _ => none

/-- The fused opcode for two neighbours, with the operands that must agree. A global that is
loaded before a call is its last argument only if the call has arguments. -/
def pairFusionFull (read : ℕ → UInt8) (aPos : ℕ) (a : Op) (bPos : ℕ) (b : Op) : Option Op :=
  if a = .getLocalConstAdd then
    if b = .setLocal ∧ read (aPos + 1) = read (bPos + 1) then some .localAddConst
    else if b = .ret then some .getLocalConstAddRet
    else none
  else if a = .getGlobal ∧ b = .call ∧ 0 < read (bPos + 1) &&& 0x7F then some .getGlobalCall
  else if a = .getGlobal ∧ b = .callTail ∧ 0 < read (bPos + 1) &&& 0x7F then
    some .getGlobalCallTail
  else if a = .getGlobalConstAdd then
    if b = .setGlobal ∧ read (aPos + 1) = read (bPos + 1) ∧ read (aPos + 2) = read (bPos + 2) then
      some .incGlobalConst
    else if b = .setGlobalLoop ∧ read (aPos + 1) = read (bPos + 1) ∧
        read (aPos + 2) = read (bPos + 2) then some .incGlobalConstLoopNc
    else none
  else pairFusion a b

/-- The opcode at a position of the code buffer. -/
def opAt (read : ℕ → UInt8) (pos : ℕ) : Option Op :=
  Op.ofByte? (read pos)

/-- The fused opcode for a load and the three instructions after it. The first of these has
been cleared as a target; the other two are checked here. -/
def fuse4At (read : ℕ → UInt8) (aPos bPos : ℕ) (b : Op) (oldLen : ℕ) (targets : ℕ → Bool) :
    Option Op :=
  if b = .getLocal ∨ b = .getLocalGetField then
    let cPos := bPos + b.width
    if oldLen ≤ cPos then none
    else if opAt read cPos = some .constAdd ∧ b = .getLocalGetField then
      let dPos := cPos + Op.constAdd.width
      -- The receiver and the field of the load are those of the store.
      if dPos + 6 ≤ oldLen ∧ opAt read dPos = some .setField ∧
          read (aPos + 1) = read (bPos + 1) ∧
          read (bPos + 3) = read (dPos + 1) ∧ read (bPos + 4) = read (dPos + 2) ∧
          targets cPos = false ∧ targets dPos = false then some .fieldAddConst
      else none
    else
      let dPos := cPos + Op.add.width
      if dPos + 2 ≤ oldLen ∧ opAt read cPos = some .add ∧ opAt read dPos = some .setLocal ∧
          read (aPos + 1) = read (dPos + 1) ∧
          targets cPos = false ∧ targets dPos = false then
        some (if b = .getLocal then .localAddLocal else .localAddField)
      else none
  else none

def fuse4Consumed (f : Op) : ℕ :=
  if f = .localAddLocal then 7 else if f = .localAddField then 13 else 19

def fuse4ThirdWidth (f : Op) : ℕ :=
  if f = .fieldAddConst then 3 else 1

/-- The width of a fused instruction is the one the decoder reads it with. -/
def fusedWidth (f : Op) : ℕ :=
  f.width

inductive Decision where
  | keep
  | flipTail
  | fuse (op : Op)
  | fuse4 (op : Op)
  deriving DecidableEq

def decideAt (read : ℕ → UInt8) (ip : ℕ) (inst : DecodedInstruction) (oldLen : ℕ)
    (targets : ℕ → Bool) : Decision :=
  let bPos := ip + inst.width
  if oldLen ≤ bPos then .keep
  else
    match opAt read bPos with
    | none => .keep
    | some b =>
      if inst.op = .call ∧ b = .ret then .flipTail
      else if targets bPos then .keep
      else
        match if inst.op = .getLocal then fuse4At read ip bPos b oldLen targets else none with
        | some f => .fuse4 f
        | none =>
          match pairFusionFull read ip inst.op bPos b with
          | some f => .fuse f
          | none => .keep

/-- What becomes one instruction: where its first instruction stands, where those merged into
it stand, how wide the result is, and where the next one begins. -/
structure Group where
  src : ℕ
  inner : List ℕ
  width : ℕ
  next : ℕ
  changed : Bool

def groupAt (read : ℕ → UInt8) (code : List UInt8) (targets : ℕ → Bool) (ip : ℕ) :
    Except DecodeError Group := do
  let inst ← decodeAt code ip
  let bPos := ip + inst.width
  match decideAt read ip inst code.length targets with
  | .keep => return { src := ip, inner := [], width := inst.width, next := bPos, changed := false }
  | .flipTail =>
    return { src := ip, inner := [], width := inst.width, next := bPos, changed := true }
  | .fuse f =>
    let bInst ← decodeAt code bPos
    return { src := ip, inner := [bPos], width := fusedWidth f, next := bPos + bInst.width,
             changed := true }
  | .fuse4 f =>
    let bInst ← decodeAt code bPos
    let cPos := bPos + bInst.width
    return { src := ip, inner := [bPos, cPos, cPos + fuse4ThirdWidth f], width := fusedWidth f,
             next := ip + fuse4Consumed f, changed := true }

/-- The groups of the code from `ip` on. -/
def groupsFrom (read : ℕ → UInt8) (code : List UInt8) (targets : ℕ → Bool) :
    ℕ → ℕ → Except DecodeError (List Group)
  | 0, _ => .ok []
  | fuel + 1, ip =>
    if ip < code.length then do
      let group ← groupAt read code targets ip
      let groups ← groupsFrom read code targets fuel group.next
      return group :: groups
    else .ok []

/-- The new position of every instruction from a group on, and of the end. -/
def slots (oldLen : ℕ) : List Group → ℕ → List (ℕ × ℕ)
  | [], newIp => [(oldLen, newIp)]
  | group :: groups, newIp =>
    (group.src, newIp) :: group.inner.map (fun pos => (pos, newIp)) ++
      slots oldLen groups (newIp + group.width)

/-- The position map: one entry for each old position and one for the end, with zero where no
instruction begins. -/
def ipMapOf (oldLen : ℕ) (groups : List Group) : List ℕ :=
  (List.range (oldLen + 1)).map fun pos => ((slots oldLen groups 0).lookup pos).getD 0

/-- The line table for the groups: each has the position of its first instruction. -/
def rebuildLines (table : LineTable) (room : ℕ) : List Group → ℕ → LineTable → LineTable
  | [], _, out => out
  | group :: groups, newIp, out =>
    rebuildLines table room groups (newIp + group.width)
      (out.record room newIp (table.lineAt group.src) (table.colAt group.src))

def newLength (groups : List Group) : ℕ :=
  (groups.map Group.width).sum

/-- The second branch offset of the quint, which the decoder does not surface. -/
def bodyTarget (read : ℕ → UInt8) (ip : ℕ) (inst : DecodedInstruction) : Option ℕ :=
  if inst.op = .getLocalConstLtJifPopJump then
    some (ip + 13 + u32Of (read (ip + 9)) (read (ip + 10)) (read (ip + 11)) (read (ip + 12)))
  else none

/-- The function whose entry a constant makes a target. -/
def entryFunc : Constant FuncRef → Option FuncRef
  | .function func | .closure func _ => some func
  | .namedType type =>
    match type.predicate with
    | some (.function func) | some (.closure func _) => some func
    | _ => none
  | _ => none

namespace State

variable (state : State)

/-- The positions that control can reach directly: branch targets, function entries and the
beginnings of modules. -/
def isTarget (pos : ℕ) : Bool :=
  (listing state.chunk.code).any (fun (ip, inst) =>
    inst.jumpTarget == some pos || bodyTarget state.chunk.codeAt ip inst == some pos) ||
  state.chunk.consts.any (fun const =>
    ((entryFunc const).bind fun func => state.chunk.funcs[func]?.map FuncObj.ip) == some pos) ||
  state.boundaries.any fun boundary => boundary.ipStart == pos

def groups : Except DecodeError (List Group) :=
  groupsFrom state.chunk.codeAt state.chunk.code state.isTarget state.codeLen 0

/-- Put the output of a round in place; `out` is the output buffer. -/
def install (groups : List Group) (out : ℕ → UInt8) (fits : newLength groups ≤ state.codeLen) :
    State :=
  let ipMap := ipMapOf state.codeLen groups
  let chunk := state.chunk.remapConstFuncIps ipMap
  { state with
    chunk := { chunk with
      code := (List.range (newLength groups)).map out
      slack := state.chunk.code.drop (newLength groups) ++ state.chunk.slack
      moduleBoundaries := state.boundaries.map fun boundary =>
        { boundary with
          ipStart :=
            if boundary.ipStart ≤ state.codeLen then ipMap.getD boundary.ipStart 0
            else boundary.ipStart }
      stdScriptCodeEnd :=
        if state.chunk.stdScriptCodeEnd ≤ state.codeLen then
          ipMap.getD state.chunk.stdScriptCodeEnd 0
        else state.chunk.stdScriptCodeEnd
      codeLen_le := by
        rw [List.length_map, List.length_range]
        exact fits.trans state.chunk.codeLen_le }
    lineTable := LineTable.ofEntries
      (rebuildLines state.lineTable (max state.lineTable.entries.length 1) groups 0 {}).entries }

/-- One round: the groups with the chunk they lead to, or nothing if no instruction changes.
An output longer than the code would run out of its buffer. -/
def fuseOnce (out : ℕ → UInt8) : Except DecodeError (Option (List Group × State)) := do
  let groups ← state.groups
  if groups.any Group.changed then
    if fits : newLength groups ≤ state.codeLen then
      return some (groups, state.install groups out fits)
    else throw .bytecodeOutOfBounds
  else return none

end State

end Gengo.Positions
