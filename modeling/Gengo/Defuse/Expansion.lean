import Gengo.Bytecode.Chunk

/-!
# The defuse pass

`buildDefusedCode` rewrites fused instructions into the instructions they were
built from and resets inline caches. A first sweep measures every instruction
and maps old offsets to new ones; a second sweep emits; at last the function
entries move through the map.
-/

namespace Gengo.Defuse

open Bytecode

/-- What the pass can end with instead of code. `panic` is a failed index or
integer-cast check. -/
inductive DefuseError where
  | decode (error : DecodeError)
  | defusedCodeTooLarge
  | panic
  deriving DecidableEq, Repr

/-- The size of the defused form of an instruction. -/
def expandedWidth (op : Op) (oldWidth : ℕ) : ℕ :=
  match op with
  | .retConst => 4
  | .getLocalRet => 3
  | .addRet => 2
  | .localAddLocal => 7
  | .localAddConst => 8
  | .constEq | .constSub | .constAdd | .constLt | .constGt => 4
  | .getLocalConstEq | .getLocalConstSub | .getLocalConstAdd | .getLocalConstLt
  | .getLocalConstGt => 6
  | .getLocalConstSubCall | .getLocalConstSubCallTail => 10
  | .getLocalConstEqJifPop | .getLocalConstLtJifPop | .getLocalConstGtJifPop => 10
  | .getGlobalConstLtJifPop => 13
  | .setGlobalLoop => 10
  | .closeUpvalueLoop => 7
  | .localAddConstLoop => 13
  | .callGlobalLocalSubConst | .callGlobalLocalSubConstTail => 13
  | .getLocalConstAddRet => 7
  | .getGlobalCall | .getGlobalCallTail => 9
  | .callGlobalGlobal | .callGlobalGlobalTail => 13
  | .incGlobalConst => 13
  | .incGlobalConstLoop => 15
  | .incGlobalConstLoopNc => 13
  | .getLocalConstLtJifPopJump => 15
  | .getGlobalConstEq | .getGlobalConstSub | .getGlobalConstAdd | .getGlobalConstLt => 8
  | .getLocalGetField => 8
  | .localAddField => 13
  | _ => oldWidth

/-- The four bytes of a big-endian `u32` (`pu32`). -/
def u32Bytes (value : ℕ) : List UInt8 :=
  [UInt8.ofNat (value / 256 ^ 3), UInt8.ofNat (value / 256 ^ 2), UInt8.ofNat (value / 256),
    UInt8.ofNat value]

/-- A value that fits the four bytes (`@intCast` to `u32`). -/
def castU32 (value : ℕ) : Option ℕ :=
  if value < 2 ^ 32 then some value else none

/-- Forward jump offset: new target minus new instruction end. -/
def fwdOff (ipMap : List ℕ) (oldTarget newEnd : ℕ) : Option ℕ := do
  let newTarget ← ipMap[oldTarget]?
  if newTarget < newEnd then none else castU32 (newTarget - newEnd)

/-- Backward jump offset: new instruction end minus new target. -/
def bwdOff (ipMap : List ℕ) (oldTarget newEnd : ℕ) : Option ℕ := do
  let newTarget ← ipMap[oldTarget]?
  if newEnd < newTarget then none else castU32 (newEnd - newTarget)

/-- The bytes written for one instruction, which starts at `newIp` in the new code.
`rb` reads the instruction's own bytes. `none` is a failed check. -/
def emitExpanded (rb : ℕ → UInt8) (oldIp : ℕ) (instr : DecodedInstruction)
    (ipMap : List ℕ) (newIp : ℕ) : Option (List UInt8) :=
  let newEnd := newIp + expandedWidth instr.op instr.width
  match instr.op with
  | .retConst => some [Op.constant.toByte, rb 1, rb 2, Op.ret.toByte]
  | .getLocalRet => some [Op.getLocal.toByte, rb 1, Op.ret.toByte]
  | .addRet => some [Op.add.toByte, Op.ret.toByte]
  | .localAddLocal =>
    some [Op.getLocal.toByte, rb 1, Op.getLocal.toByte, rb 2, Op.add.toByte,
      Op.setLocal.toByte, rb 1]
  | .localAddConst =>
    some [Op.getLocal.toByte, rb 1, Op.constant.toByte, rb 2, rb 3, Op.add.toByte,
      Op.setLocal.toByte, rb 1]
  | .localAddField =>
    some [Op.getLocal.toByte, rb 1, Op.getLocalGetField.toByte, rb 2, rb 3, rb 4, rb 5, rb 6,
      rb 7, rb 8, Op.add.toByte, Op.setLocal.toByte, rb 1]
  | .constEq => some [Op.constant.toByte, rb 1, rb 2, Op.eq.toByte]
  | .constSub => some [Op.constant.toByte, rb 1, rb 2, Op.sub.toByte]
  | .constAdd => some [Op.constant.toByte, rb 1, rb 2, Op.add.toByte]
  | .constLt => some [Op.constant.toByte, rb 1, rb 2, Op.lt.toByte]
  | .constGt => some [Op.constant.toByte, rb 1, rb 2, Op.gt.toByte]
  | .getLocalConstEq =>
    some [Op.getLocal.toByte, rb 1, Op.constant.toByte, rb 3, rb 4, Op.eq.toByte]
  | .getLocalConstSub =>
    some [Op.getLocal.toByte, rb 1, Op.constant.toByte, rb 3, rb 4, Op.sub.toByte]
  | .getLocalConstAdd =>
    some [Op.getLocal.toByte, rb 1, Op.constant.toByte, rb 3, rb 4, Op.add.toByte]
  | .getLocalConstLt =>
    some [Op.getLocal.toByte, rb 1, Op.constant.toByte, rb 3, rb 4, Op.lt.toByte]
  | .getLocalConstGt =>
    some [Op.getLocal.toByte, rb 1, Op.constant.toByte, rb 3, rb 4, Op.gt.toByte]
  | .getLocalConstSubCall =>
    some [Op.getLocal.toByte, rb 1, Op.constant.toByte, rb 3, rb 4, Op.sub.toByte,
      Op.call.toByte, rb 5, 0xFF, 0xFF]
  | .getLocalConstSubCallTail =>
    some [Op.getLocal.toByte, rb 1, Op.constant.toByte, rb 3, rb 4, Op.sub.toByte,
      Op.callTail.toByte, rb 5, 0xFF, 0xFF]
  | .getLocalConstEqJifPop => do
    let off ← fwdOff ipMap (← instr.jumpTarget) newEnd
    return [Op.getLocal.toByte, rb 1, Op.constEq.toByte, rb 3, rb 4, Op.jifPop.toByte] ++
      u32Bytes off
  | .getLocalConstLtJifPop => do
    let off ← fwdOff ipMap (← instr.jumpTarget) newEnd
    return [Op.getLocal.toByte, rb 1, Op.constLt.toByte, rb 3, rb 4, Op.jifPop.toByte] ++
      u32Bytes off
  | .getLocalConstGtJifPop => do
    let off ← fwdOff ipMap (← instr.jumpTarget) newEnd
    return [Op.getLocal.toByte, rb 1, Op.constGt.toByte, rb 3, rb 4, Op.jifPop.toByte] ++
      u32Bytes off
  | .getGlobalConstLtJifPop => do
    let off ← fwdOff ipMap (← instr.jumpTarget) newEnd
    return [Op.getGlobal.toByte, rb 1, rb 2, 0xFF, 0xFF, Op.constLt.toByte, rb 6, rb 7,
      Op.jifPop.toByte] ++ u32Bytes off
  | .setGlobalLoop => do
    let off ← bwdOff ipMap (← instr.jumpTarget) newEnd
    return [Op.setGlobal.toByte, rb 1, rb 2, 0xFF, 0xFF, Op.loop.toByte] ++ u32Bytes off
  | .incGlobalConst =>
    some [Op.getGlobalConstAdd.toByte, rb 1, rb 2, rb 3, rb 4, rb 5, rb 6, rb 7,
      Op.setGlobal.toByte, rb 1, rb 2, 0xFF, 0xFF]
  | .incGlobalConstLoop => do
    let off ← bwdOff ipMap (← instr.jumpTarget) newEnd
    return [Op.getGlobalConstAdd.toByte, rb 1, rb 2, rb 3, rb 4, rb 5, rb 6, rb 7,
      Op.setGlobal.toByte, rb 1, rb 2, 0xFF, 0xFF, Op.closeUpvalue.toByte, rb 8,
      Op.loop.toByte] ++ u32Bytes off
  | .incGlobalConstLoopNc => do
    let off ← bwdOff ipMap (← instr.jumpTarget) newEnd
    return [Op.incGlobalConst.toByte, rb 1, rb 2, rb 3, rb 4, rb 5, rb 6, rb 7,
      Op.loop.toByte] ++ u32Bytes off
  | .callGlobalLocalSubConst =>
    some [Op.getGlobal.toByte, rb 1, rb 2, rb 3, rb 4, rb 5, rb 6, rb 7, rb 8, rb 9, rb 10,
      rb 11, rb 12]
  | .callGlobalLocalSubConstTail =>
    some [Op.getGlobal.toByte, rb 1, rb 2, rb 3, rb 4, Op.getLocalConstSubCallTail.toByte,
      rb 6, rb 7, rb 8, rb 9, rb 10, rb 11, rb 12]
  | .getLocalConstAddRet =>
    some [Op.getLocal.toByte, rb 1, Op.constant.toByte, rb 3, rb 4, Op.add.toByte, Op.ret.toByte]
  | .getGlobalCall =>
    some [Op.getGlobal.toByte, rb 1, rb 2, rb 3, rb 4, Op.call.toByte, rb 5, 0xFF, 0xFF]
  | .getGlobalCallTail =>
    some [Op.getGlobal.toByte, rb 1, rb 2, rb 3, rb 4, Op.callTail.toByte, rb 5, 0xFF, 0xFF]
  | .callGlobalGlobal =>
    some [Op.getGlobal.toByte, rb 1, rb 2, rb 3, rb 4, Op.getGlobalCall.toByte, rb 5, rb 6,
      rb 7, rb 8, rb 9, rb 10, rb 11]
  | .callGlobalGlobalTail =>
    some [Op.getGlobal.toByte, rb 1, rb 2, rb 3, rb 4, Op.getGlobalCallTail.toByte, rb 5,
      rb 6, rb 7, rb 8, rb 9, rb 10, rb 11]
  | .localAddConstLoop => do
    let off ← bwdOff ipMap (← instr.jumpTarget) newEnd
    return [Op.getLocal.toByte, rb 1, Op.constant.toByte, rb 2, rb 3, Op.add.toByte,
      Op.setLocal.toByte, rb 1, Op.loop.toByte] ++ u32Bytes off
  | .closeUpvalueLoop => do
    let off ← bwdOff ipMap (← instr.jumpTarget) newEnd
    return [Op.closeUpvalue.toByte, rb 1, Op.loop.toByte] ++ u32Bytes off
  | .getLocalConstLtJifPopJump => do
    let bodyTarget := oldIp + 13 + u32Of (rb 9) (rb 10) (rb 11) (rb 12)
    let exitOff ← fwdOff ipMap (← instr.jumpTarget) (newEnd - 5)
    let bodyOff ← fwdOff ipMap bodyTarget newEnd
    return [Op.getLocal.toByte, rb 1, Op.constLt.toByte, rb 3, rb 4, Op.jifPop.toByte] ++
      u32Bytes exitOff ++ [Op.jump.toByte] ++ u32Bytes bodyOff
  | .getGlobalConstEq =>
    some [Op.getGlobal.toByte, rb 1, rb 2, 0xFF, 0xFF, Op.constEq.toByte, rb 6, rb 7]
  | .getGlobalConstSub =>
    some [Op.getGlobal.toByte, rb 1, rb 2, 0xFF, 0xFF, Op.constSub.toByte, rb 6, rb 7]
  | .getGlobalConstAdd =>
    some [Op.getGlobal.toByte, rb 1, rb 2, 0xFF, 0xFF, Op.constAdd.toByte, rb 6, rb 7]
  | .getGlobalConstLt =>
    some [Op.getGlobal.toByte, rb 1, rb 2, 0xFF, 0xFF, Op.constLt.toByte, rb 6, rb 7]
  | .getLocalGetField =>
    some [Op.getLocal.toByte, rb 1, Op.getField.toByte, rb 3, rb 4, 0xFF, 0xFF, 0xFF]
  | .jump | .jumpIfFalse | .jifPop => do
    let off ← fwdOff ipMap (← instr.jumpTarget) newEnd
    return [rb 0] ++ u32Bytes off
  | .loop => do
    let off ← bwdOff ipMap (← instr.jumpTarget) newEnd
    return [Op.loop.toByte] ++ u32Bytes off
  | .getGlobal | .setGlobal => some [rb 0, rb 1, rb 2, 0xFF, 0xFF]
  | .getField | .setField => some [rb 0, rb 1, rb 2, 0xFF, 0xFF, 0xFF]
  | .invokeMethod => some [rb 0, rb 1, rb 2, rb 3, 0xFF, 0xFF, 0xFF, 0xFF]
  | _ => some ((List.range instr.width).map rb)

/-- Pass 1: the new offset of every instruction start, and the new length. -/
def measure (code : List UInt8) :
    ℕ → ℕ → ℕ → List ℕ → Except DefuseError (List ℕ × ℕ)
  | 0, _, newIp, ipMap => .ok (ipMap, newIp)
  | fuel + 1, oldIp, newIp, ipMap =>
    if oldIp < code.length then
      match decodeAt code oldIp with
      | .error error => .error (.decode error)
      | .ok instr =>
        measure code fuel (oldIp + instr.width)
          (newIp + expandedWidth instr.op instr.width) (ipMap.set oldIp newIp)
    else .ok (ipMap, newIp)

/-- The position map of the pass: one entry per old offset and one for the end of
the code, with zero where no instruction starts. -/
def buildIpMap (code : List UInt8) : Except DefuseError (List ℕ × ℕ) := do
  let (ipMap, newLen) ← measure code code.length 0 0 (List.replicate (code.length + 1) 0)
  return (ipMap.set code.length newLen, newLen)

/-- Pass 2: the new code from `newIp` on. The bytes of an instruction are written
into a slot of its expanded width: past the slot is a failed index check, and what
the slot does not receive stays undefined. -/
def emitAll (code : List UInt8) (ipMap : List ℕ) :
    ℕ → ℕ → ℕ → Except DefuseError (List UInt8)
  | 0, _, _ => .ok []
  | fuel + 1, oldIp, newIp =>
    if oldIp < code.length then
      match decodeAt code oldIp with
      | .error error => .error (.decode error)
      | .ok instr =>
        let slot := expandedWidth instr.op instr.width
        match emitExpanded (fun off => code.getD (oldIp + off) 0) oldIp instr ipMap newIp with
        | none => .error .panic
        | some bytes =>
          if slot < bytes.length then .error .panic
          else
            (emitAll code ipMap fuel (oldIp + instr.width) (newIp + slot)).map
              (bytes ++ List.replicate (slot - bytes.length) 0xAA ++ ·)
    else .ok []

/-- The defused code, and the chunk with its function entries moved. -/
def buildDefusedCode (state : State) : Except DefuseError (List UInt8 × State) :=
  if state.codeLen = 0 then .ok ([], state)
  else do
    let (ipMap, newLen) ← buildIpMap state.code
    if newLen > MaxCode then throw .defusedCodeTooLarge
    let out ← emitAll state.code ipMap state.codeLen 0 0
    return (out, state.remapConstFuncIps ipMap)

/-!
# What an instruction expands to

`expansion` lists the instructions that the defuse pass means to emit for one
instruction, given the branch offsets it computes. The bytes of the pass are the
bytes of that list, and the list is as wide as the slot measured for it, except
for the fused global increment with a captured loop variable.
-/

open Records List

/-- The bytes behind the global read of a hexa-fused call, copied unread. -/
def callTailBytes (instr : Instr) : List UInt8 :=
  (List.range 8).map fun offset => instr.byte (offset + 5)

/-- The instructions emitted for `instr` when its branch offset becomes `exit`, and
the body offset of the quint becomes `body`. -/
def expansion (instr : Instr) (exit body : ℕ) : List Instr :=
  let b := instr.byte
  match instr.op with
  | .retConst => [⟨.constant, [b 1, b 2], rfl⟩, ⟨.ret, [], rfl⟩]
  | .getLocalRet => [⟨.getLocal, [b 1], rfl⟩, ⟨.ret, [], rfl⟩]
  | .addRet => [⟨.add, [], rfl⟩, ⟨.ret, [], rfl⟩]
  | .localAddLocal =>
    [⟨.getLocal, [b 1], rfl⟩, ⟨.getLocal, [b 2], rfl⟩, ⟨.add, [], rfl⟩, ⟨.setLocal, [b 1], rfl⟩]
  | .localAddConst =>
    [⟨.getLocal, [b 1], rfl⟩, ⟨.constant, [b 2, b 3], rfl⟩, ⟨.add, [], rfl⟩,
      ⟨.setLocal, [b 1], rfl⟩]
  | .localAddField =>
    [⟨.getLocal, [b 1], rfl⟩, ⟨.getLocalGetField, [b 2, b 3, b 4, b 5, b 6, b 7, b 8], rfl⟩,
      ⟨.add, [], rfl⟩, ⟨.setLocal, [b 1], rfl⟩]
  | .constEq => [⟨.constant, [b 1, b 2], rfl⟩, ⟨.eq, [], rfl⟩]
  | .constSub => [⟨.constant, [b 1, b 2], rfl⟩, ⟨.sub, [], rfl⟩]
  | .constAdd => [⟨.constant, [b 1, b 2], rfl⟩, ⟨.add, [], rfl⟩]
  | .constLt => [⟨.constant, [b 1, b 2], rfl⟩, ⟨.lt, [], rfl⟩]
  | .constGt => [⟨.constant, [b 1, b 2], rfl⟩, ⟨.gt, [], rfl⟩]
  | .getLocalConstEq =>
    [⟨.getLocal, [b 1], rfl⟩, ⟨.constant, [b 3, b 4], rfl⟩, ⟨.eq, [], rfl⟩]
  | .getLocalConstSub =>
    [⟨.getLocal, [b 1], rfl⟩, ⟨.constant, [b 3, b 4], rfl⟩, ⟨.sub, [], rfl⟩]
  | .getLocalConstAdd =>
    [⟨.getLocal, [b 1], rfl⟩, ⟨.constant, [b 3, b 4], rfl⟩, ⟨.add, [], rfl⟩]
  | .getLocalConstLt =>
    [⟨.getLocal, [b 1], rfl⟩, ⟨.constant, [b 3, b 4], rfl⟩, ⟨.lt, [], rfl⟩]
  | .getLocalConstGt =>
    [⟨.getLocal, [b 1], rfl⟩, ⟨.constant, [b 3, b 4], rfl⟩, ⟨.gt, [], rfl⟩]
  | .getLocalConstSubCall =>
    [⟨.getLocal, [b 1], rfl⟩, ⟨.constant, [b 3, b 4], rfl⟩, ⟨.sub, [], rfl⟩,
      ⟨.call, [b 5, 0xFF, 0xFF], rfl⟩]
  | .getLocalConstSubCallTail =>
    [⟨.getLocal, [b 1], rfl⟩, ⟨.constant, [b 3, b 4], rfl⟩, ⟨.sub, [], rfl⟩,
      ⟨.callTail, [b 5, 0xFF, 0xFF], rfl⟩]
  | .getLocalConstEqJifPop =>
    [⟨.getLocal, [b 1], rfl⟩, ⟨.constEq, [b 3, b 4], rfl⟩, ⟨.jifPop, u32Bytes exit, rfl⟩]
  | .getLocalConstLtJifPop =>
    [⟨.getLocal, [b 1], rfl⟩, ⟨.constLt, [b 3, b 4], rfl⟩, ⟨.jifPop, u32Bytes exit, rfl⟩]
  | .getLocalConstGtJifPop =>
    [⟨.getLocal, [b 1], rfl⟩, ⟨.constGt, [b 3, b 4], rfl⟩, ⟨.jifPop, u32Bytes exit, rfl⟩]
  | .getGlobalConstLtJifPop =>
    [⟨.getGlobal, [b 1, b 2, 0xFF, 0xFF], rfl⟩, ⟨.constLt, [b 6, b 7], rfl⟩,
      ⟨.jifPop, u32Bytes exit, rfl⟩]
  | .setGlobalLoop =>
    [⟨.setGlobal, [b 1, b 2, 0xFF, 0xFF], rfl⟩, ⟨.loop, u32Bytes exit, rfl⟩]
  | .incGlobalConst =>
    [⟨.getGlobalConstAdd, [b 1, b 2, b 3, b 4, b 5, b 6, b 7], rfl⟩,
      ⟨.setGlobal, [b 1, b 2, 0xFF, 0xFF], rfl⟩]
  | .incGlobalConstLoop =>
    [⟨.getGlobalConstAdd, [b 1, b 2, b 3, b 4, b 5, b 6, b 7], rfl⟩,
      ⟨.setGlobal, [b 1, b 2, 0xFF, 0xFF], rfl⟩, ⟨.closeUpvalue, [b 8], rfl⟩,
      ⟨.loop, u32Bytes exit, rfl⟩]
  | .incGlobalConstLoopNc =>
    [⟨.incGlobalConst, [b 1, b 2, b 3, b 4, b 5, b 6, b 7], rfl⟩, ⟨.loop, u32Bytes exit, rfl⟩]
  | .callGlobalLocalSubConst =>
    ⟨.getGlobal, [b 1, b 2, b 3, b 4], rfl⟩ :: (disassemble (callTailBytes instr)).getD []
  | .callGlobalLocalSubConstTail =>
    [⟨.getGlobal, [b 1, b 2, b 3, b 4], rfl⟩,
      ⟨.getLocalConstSubCallTail, [b 6, b 7, b 8, b 9, b 10, b 11, b 12], rfl⟩]
  | .getLocalConstAddRet =>
    [⟨.getLocal, [b 1], rfl⟩, ⟨.constant, [b 3, b 4], rfl⟩, ⟨.add, [], rfl⟩, ⟨.ret, [], rfl⟩]
  | .getGlobalCall =>
    [⟨.getGlobal, [b 1, b 2, b 3, b 4], rfl⟩, ⟨.call, [b 5, 0xFF, 0xFF], rfl⟩]
  | .getGlobalCallTail =>
    [⟨.getGlobal, [b 1, b 2, b 3, b 4], rfl⟩, ⟨.callTail, [b 5, 0xFF, 0xFF], rfl⟩]
  | .callGlobalGlobal =>
    [⟨.getGlobal, [b 1, b 2, b 3, b 4], rfl⟩,
      ⟨.getGlobalCall, [b 5, b 6, b 7, b 8, b 9, b 10, b 11], rfl⟩]
  | .callGlobalGlobalTail =>
    [⟨.getGlobal, [b 1, b 2, b 3, b 4], rfl⟩,
      ⟨.getGlobalCallTail, [b 5, b 6, b 7, b 8, b 9, b 10, b 11], rfl⟩]
  | .localAddConstLoop =>
    [⟨.getLocal, [b 1], rfl⟩, ⟨.constant, [b 2, b 3], rfl⟩, ⟨.add, [], rfl⟩,
      ⟨.setLocal, [b 1], rfl⟩, ⟨.loop, u32Bytes exit, rfl⟩]
  | .closeUpvalueLoop => [⟨.closeUpvalue, [b 1], rfl⟩, ⟨.loop, u32Bytes exit, rfl⟩]
  | .getLocalConstLtJifPopJump =>
    [⟨.getLocal, [b 1], rfl⟩, ⟨.constLt, [b 3, b 4], rfl⟩, ⟨.jifPop, u32Bytes exit, rfl⟩,
      ⟨.jump, u32Bytes body, rfl⟩]
  | .getGlobalConstEq =>
    [⟨.getGlobal, [b 1, b 2, 0xFF, 0xFF], rfl⟩, ⟨.constEq, [b 6, b 7], rfl⟩]
  | .getGlobalConstSub =>
    [⟨.getGlobal, [b 1, b 2, 0xFF, 0xFF], rfl⟩, ⟨.constSub, [b 6, b 7], rfl⟩]
  | .getGlobalConstAdd =>
    [⟨.getGlobal, [b 1, b 2, 0xFF, 0xFF], rfl⟩, ⟨.constAdd, [b 6, b 7], rfl⟩]
  | .getGlobalConstLt =>
    [⟨.getGlobal, [b 1, b 2, 0xFF, 0xFF], rfl⟩, ⟨.constLt, [b 6, b 7], rfl⟩]
  | .getLocalGetField =>
    [⟨.getLocal, [b 1], rfl⟩, ⟨.getField, [b 3, b 4, 0xFF, 0xFF, 0xFF], rfl⟩]
  | .jump => [⟨.jump, u32Bytes exit, rfl⟩]
  | .jumpIfFalse => [⟨.jumpIfFalse, u32Bytes exit, rfl⟩]
  | .jifPop => [⟨.jifPop, u32Bytes exit, rfl⟩]
  | .loop => [⟨.loop, u32Bytes exit, rfl⟩]
  | .getGlobal => [⟨.getGlobal, [b 1, b 2, 0xFF, 0xFF], rfl⟩]
  | .setGlobal => [⟨.setGlobal, [b 1, b 2, 0xFF, 0xFF], rfl⟩]
  | .getField => [⟨.getField, [b 1, b 2, 0xFF, 0xFF, 0xFF], rfl⟩]
  | .setField => [⟨.setField, [b 1, b 2, 0xFF, 0xFF, 0xFF], rfl⟩]
  | .invokeMethod => [⟨.invokeMethod, [b 1, b 2, b 3, 0xFF, 0xFF, 0xFF, 0xFF], rfl⟩]
  | _ => [instr]

/-- The branch offsets the pass computes for the instruction at `pos` when its
expansion ends at `newEnd`. The null-coalescing jump keeps its old offset. -/
def retarget (instr : Instr) (pos : ℕ) (ipMap : List ℕ) (newEnd : ℕ) : Option (ℕ × ℕ) :=
  match instr.op with
  | .jumpIfNotNull => some (instr.u32 1, 0)
  | .getLocalConstLtJifPopJump =>
    (fwdOff ipMap (pos + 9 + instr.u32 5) (newEnd - 5)).bind fun exit =>
      (fwdOff ipMap (pos + 13 + instr.u32 9) newEnd).bind fun body => some (exit, body)
  | op =>
    match op.layout.branch with
    | none => some (0, 0)
    | some (.forward offsetPos base) =>
      (fwdOff ipMap (pos + base + instr.u32 offsetPos) newEnd).map (·, 0)
    | some (.backward offsetPos) =>
      (bwdOff ipMap (pos + instr.width - instr.u32 offsetPos) newEnd).map (·, 0)

variable {instr : Instr} {offset : ℕ}

theorem byte_of_width_le (past : instr.width ≤ offset) : instr.byte offset = 0 :=
  getD_eq_default _ _ (by rwa [instr.length_bytes])

theorem bytes_eq_map_range (instr : Instr) :
    instr.bytes = (List.range instr.width).map instr.byte := by
  apply ext_getElem
  · simp
  · intro offset inside _
    rw [getElem_map, getElem_range, Instr.byte, getD_eq_getElem _ _ inside]

private theorem emitExpanded_inside (rb : ℕ → UInt8) (instr : Instr) (pos : ℕ)
    (ipMap : List ℕ) (newIp : ℕ) :
    emitExpanded rb pos (instr.decoded pos) ipMap newIp =
      emitExpanded (fun offset => if offset < instr.width then rb offset else 0) pos
        (instr.decoded pos) ipMap newIp := by
  obtain ⟨op, operands, fits⟩ := instr
  cases op <;> rfl

theorem emitExpanded_of_agree {rb : ℕ → UInt8}
    (agree : ∀ offset < instr.width, rb offset = instr.byte offset) (pos : ℕ) (ipMap : List ℕ)
    (newIp : ℕ) :
    emitExpanded rb pos (instr.decoded pos) ipMap newIp =
      emitExpanded instr.byte pos (instr.decoded pos) ipMap newIp := by
  have same : (fun offset => if offset < instr.width then rb offset else 0) = instr.byte := by
    funext offset
    by_cases inside : offset < instr.width
    · rw [if_pos inside, agree offset inside]
    · rw [if_neg inside, byte_of_width_le (Nat.not_lt.mp inside)]
  rw [emitExpanded_inside, same]

private theorem bind_exit (offset : Option ℕ) (emit : ℕ → List UInt8) :
    (offset.bind fun exit => some (emit exit)) =
      (offset.map fun exit => (exit, 0)).map fun offsets => emit offsets.1 := by
  cases offset <;> rfl

private theorem bind_exit_body (exit body : Option ℕ) (emit : ℕ → ℕ → List UInt8) :
    (exit.bind fun first => body.bind fun second => some (emit first second)) =
      (exit.bind fun first => body.bind fun second => some (first, second)).map
        fun offsets => emit offsets.1 offsets.2 := by
  cases exit <;> cases body <;> rfl

theorem emitExpanded_eq (notHexa : instr.op ≠ .callGlobalLocalSubConst) (pos : ℕ) (ipMap : List ℕ)
    (newIp : ℕ) :
    emitExpanded instr.byte pos (instr.decoded pos) ipMap newIp =
      (retarget instr pos ipMap (newIp + expandedWidth instr.op instr.width)).map
        fun offsets => assemble (expansion instr offsets.1 offsets.2) := by
  have verbatim : some ((List.range instr.width).map instr.byte) = some (assemble [instr]) := by
    rw [assemble_cons, assemble_nil, append_nil, bytes_eq_map_range]
  obtain ⟨op, operands, fits⟩ := instr
  cases op
  all_goals first
    | rfl
    | exact verbatim
    | exact absurd rfl notHexa
    | exact bind_exit _ _
    | exact bind_exit_body _ _ _

/-- The width of the slot an instruction gets. -/
def newWidth (instr : Instr) : ℕ :=
  expandedWidth instr.op instr.width

theorem width_le_expandedWidth (op : Op) : op.width ≤ expandedWidth op op.width := by
  cases op <;> decide

theorem width_le_newWidth (instr : Instr) : instr.width ≤ newWidth instr :=
  width_le_expandedWidth instr.op

/-- The expansion is as wide as its slot, except for the captured increment loop. -/
theorem extent_expansion (notHexa : instr.op ≠ .callGlobalLocalSubConst)
    (notIncLoop : instr.op ≠ .incGlobalConstLoop) (exit body : ℕ) :
    extent Instr.width (expansion instr exit body) = newWidth instr := by
  obtain ⟨op, operands, fits⟩ := instr
  cases op
  all_goals first
    | rfl
    | exact absurd rfl notHexa
    | exact absurd rfl notIncLoop

/-- The expansion of the captured increment loop is five bytes wider than its slot. -/
theorem extent_expansion_incGlobalConstLoop (incLoop : instr.op = .incGlobalConstLoop)
    (exit body : ℕ) : extent Instr.width (expansion instr exit body) = newWidth instr + 5 := by
  obtain ⟨op, operands, fits⟩ := instr
  obtain rfl : op = .incGlobalConstLoop := incLoop
  rfl

theorem u32Of_u32Bytes {value : ℕ} (fits : value < 2 ^ 32) :
    u32Of (UInt8.ofNat (value / 256 ^ 3)) (UInt8.ofNat (value / 256 ^ 2))
      (UInt8.ofNat (value / 256)) (UInt8.ofNat value) = value := by
  simp only [u32Of, UInt8.toNat_ofNat']
  omega

theorem fwdOff_eq_some_iff {ipMap : List ℕ} {oldTarget newEnd : ℕ} :
    fwdOff ipMap oldTarget newEnd = some offset ↔
      ipMap[oldTarget]? = some (newEnd + offset) ∧ offset < 2 ^ 32 := by
  rw [fwdOff]
  cases ipMap[oldTarget]? with
  | none => simp
  | some newTarget =>
    change (if newTarget < newEnd then none else castU32 (newTarget - newEnd)) = _ ↔ _
    rw [castU32]
    split_ifs with before small <;> simp only [Option.some.injEq, false_iff] <;> omega

theorem bwdOff_eq_some_iff {ipMap : List ℕ} {oldTarget newEnd : ℕ} :
    bwdOff ipMap oldTarget newEnd = some offset ↔
      offset ≤ newEnd ∧ ipMap[oldTarget]? = some (newEnd - offset) ∧ offset < 2 ^ 32 := by
  rw [bwdOff]
  cases ipMap[oldTarget]? with
  | none => simp
  | some newTarget =>
    change (if newEnd < newTarget then none else castU32 (newEnd - newTarget)) = _ ↔ _
    rw [castU32]
    split_ifs with before small <;> simp only [Option.some.injEq, false_iff] <;> omega

/-- The targets that the branch offsets of an expansion at `newIp` stand for. -/
def newTargets (instr : Instr) (newIp exit body : ℕ) : List ℕ :=
  let newEnd := newIp + newWidth instr
  match instr.op with
  | .getLocalConstLtJifPopJump => [newIp + 10 + exit, newEnd + body]
  | op =>
    match op.layout.branch with
    | none => []
    | some (.forward _ _) => [newEnd + exit]
    | some (.backward _) => [newEnd - exit]

/-- Offsets that fit their operands and do not leave the code. -/
structure OffsetsFit (instr : Instr) (newIp exit body : ℕ) : Prop where
  exit_lt : exit < 2 ^ 32
  body_lt : body < 2 ^ 32
  exit_le : ∀ offsetPos, instr.op.layout.branch = some (.backward offsetPos) →
    exit ≤ newIp + newWidth instr
  verbatim : instr.op = .jumpIfNotNull → exit = instr.u32 1

variable {exit : ℕ}

theorem targets_expansion {newIp body : ℕ} (notHexa : instr.op ≠ .callGlobalLocalSubConst)
    (notIncLoop : instr.op ≠ .incGlobalConstLoop) (offsetsFit : OffsetsFit instr newIp exit body) :
    (decodedFrom newIp (expansion instr exit body)).filterMap (·.jumpTarget) =
      newTargets instr newIp exit body := by
  have exitEq := u32Of_u32Bytes offsetsFit.exit_lt
  have bodyEq := u32Of_u32Bytes offsetsFit.body_lt
  have verbatim := offsetsFit.verbatim
  obtain ⟨op, operands, fits⟩ := instr
  have forward := congrArg (fun offset => [newIp + newWidth ⟨op, operands, fits⟩ + offset]) exitEq
  have backward := congrArg (fun offset => [newIp + newWidth ⟨op, operands, fits⟩ - offset]) exitEq
  cases op
  case callGlobalLocalSubConst => exact absurd rfl notHexa
  case incGlobalConstLoop => exact absurd rfl notIncLoop
  case jumpIfNotNull => exact congrArg (fun offset => [newIp + 5 + offset]) (verbatim rfl).symm
  case getLocalConstLtJifPopJump =>
    exact congrArg₂ (fun exit body => [newIp + 10 + exit, newIp + 15 + body]) exitEq bodyEq
  case jump | jumpIfFalse | jifPop | getLocalConstEqJifPop | getLocalConstLtJifPop
    | getLocalConstGtJifPop | getGlobalConstLtJifPop => exact forward
  case loop | setGlobalLoop | closeUpvalueLoop | localAddConstLoop | incGlobalConstLoopNc =>
    exact backward
  all_goals rfl

/-- An opcode whose branch leads backward. -/
def loopsBack (op : Op) : Bool :=
  match op.layout.branch with
  | some (.backward _) => true
  | _ => false

private theorem inRange_of_not_loopsBack (pos : ℕ) (forwardOnly : loopsBack instr.op = false) :
    instr.InRange pos := by
  rw [loopsBack] at forwardOnly
  rw [Instr.InRange]
  rcases branch : instr.op.layout.branch with _ | ⟨_, _⟩ | _
  · trivial
  · trivial
  · simp [branch] at forwardOnly

private theorem inRange_of_all {instrs : List Instr} (base : ℕ)
    (forwardOnly : instrs.all (fun instr => !loopsBack instr.op) = true) :
    ∀ item ∈ placed Instr.width base instrs, item.2.InRange item.1 := by
  rintro ⟨pos, instr⟩ itemMem
  obtain ⟨before, after, rfl, -⟩ := mem_placed_iff.mp itemMem
  apply inRange_of_not_loopsBack
  have held := all_eq_true.mp forwardOnly instr (by simp)
  simpa using held

private theorem inRange_concat_loop (base : ℕ) (instrs : List Instr)
    (forwardOnly : instrs.all (fun instr => !loopsBack instr.op) = true) (small : exit < 2 ^ 32)
    (le : exit ≤ base + extent Instr.width instrs + 5) :
    ∀ item ∈ placed Instr.width base (instrs ++ [⟨.loop, u32Bytes exit, rfl⟩]),
      item.2.InRange item.1 := by
  intro item itemMem
  rw [placed_append, mem_append] at itemMem
  rcases itemMem with earlier | last
  · exact inRange_of_all base forwardOnly item earlier
  · obtain rfl := mem_singleton.mp last
    exact le_of_eq_of_le (u32Of_u32Bytes small) le

theorem inRange_expansion {newIp body : ℕ} (notHexa : instr.op ≠ .callGlobalLocalSubConst)
    (notIncLoop : instr.op ≠ .incGlobalConstLoop) (offsetsFit : OffsetsFit instr newIp exit body) :
    ∀ item ∈ placed Instr.width newIp (expansion instr exit body), item.2.InRange item.1 := by
  have small := offsetsFit.exit_lt
  have exitLe := offsetsFit.exit_le
  obtain ⟨op, operands, fits⟩ := instr
  cases op
  case callGlobalLocalSubConst => exact absurd rfl notHexa
  case incGlobalConstLoop => exact absurd rfl notIncLoop
  case loop => exact inRange_concat_loop newIp [] rfl small (exitLe _ rfl)
  case setGlobalLoop | closeUpvalueLoop | incGlobalConstLoopNc =>
    exact inRange_concat_loop newIp [_] rfl small (exitLe _ rfl)
  case localAddConstLoop =>
    exact inRange_concat_loop newIp [_, _, _, _] rfl small (exitLe _ rfl)
  all_goals exact inRange_of_all newIp rfl

end Gengo.Defuse
