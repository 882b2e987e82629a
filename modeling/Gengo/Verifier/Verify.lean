import Gengo.Bytecode.Chunk
import Gengo.Dataflow.Worklist
import Gengo.Fallible.Sequencing

/-!
# Stack effects

The verifier's tables: how many values an instruction takes off the operand stack
and puts there, and which instructions branch or return. `read` is the code
buffer from the instruction's opcode on.
-/

namespace Gengo.Verifier

open Bytecode

def isReturnOp : Op → Bool
  | .ret | .retConst | .getLocalRet | .addRet | .getLocalConstAddRet => true
  | _ => false

def isUnconditionalBranch : Op → Bool
  | .jump | .loop | .setGlobalLoop | .closeUpvalueLoop | .localAddConstLoop
  | .incGlobalConstLoop | .incGlobalConstLoopNc => true
  | _ => false

def isConditionalBranch : Op → Bool
  | .jumpIfFalse | .jumpIfNotNull | .jifPop | .getLocalConstEqJifPop | .getLocalConstLtJifPop
  | .getLocalConstGtJifPop | .getGlobalConstLtJifPop | .getLocalConstLtJifPopJump => true
  | _ => false

/-- What an instruction takes off the operand stack and puts there. -/
structure Effect where
  pop : ℕ
  push : ℕ
  deriving DecidableEq, Repr

namespace Effect

/-- The change of the depth. -/
def net (effect : Effect) : ℤ :=
  effect.push - effect.pop

end Effect

/-- The argument count of a call; its top bit is the args-preverified flag. -/
def argcOf (byte : UInt8) : ℕ :=
  (byte &&& 0x7F).toNat

/-- The number of bits set in a byte (`@popCount`). -/
def popCount (byte : UInt8) : ℕ :=
  ((List.range 8).filter fun bit => byte.toNat.testBit bit).length

/-- The stack effect of the instruction whose opcode is `op`. The counts of the
source are bytes until they are returned: at an argument count of 255 without flag
its `argc + 1` overflows, which stops a safe build. -/
def stackEffect (op : Op) (read : ℕ → UInt8) : Effect :=
  match op with
  | .constant | .nullVal | .trueVal | .falseVal | .getLocal | .getUpvalue | .getGlobal
  | .makeClosure | .tupleGetKeep | .getLocalConstEq | .getLocalConstSub | .getLocalConstAdd
  | .getLocalConstLt | .getLocalConstGt | .getGlobalConstEq | .getGlobalConstSub
  | .getGlobalConstAdd | .getGlobalConstLt | .getLocalGetField | .taskSelf | .taskReceive =>
    ⟨0, 1⟩
  | .pop | .defGlobal | .setGlobal | .setLocal | .setUpvalue | .jifPop | .opAssert
  | .setNamedPredicate => ⟨1, 0⟩
  | .setField => ⟨2, 0⟩
  | .add | .sub | .mul | .div | .intDiv | .rem | .mod | .pow | .eqFloat | .neFloat | .ltFloat
  | .leFloat | .gtFloat | .geFloat | .bitAnd | .bitOr | .bitXor | .shl | .shr | .eq | .ne | .lt
  | .le | .gt | .ge | .min | .max => ⟨2, 1⟩
  | .clamp => ⟨3, 1⟩
  | .eqzInt | .nezInt | .ltzInt | .lezInt | .gtzInt | .gezInt => ⟨1, 1⟩
  | .neg | .not | .bitNot | .abs | .floor | .ceil | .trunc | .nearest | .sign | .sqrt | .castInt
  | .castFloat | .castDecimal | .castBool | .castString | .castRune | .castBigint | .typeName
  | .len | .bytelen | .variantCheck | .variantPayload | .namedInner | .constEq | .constSub
  | .constAdd | .constLt | .constGt | .assertType | .assertInterface | .assertStruct
  | .assertVariant | .tupleGet | .getField | .getIndexConstStr => ⟨1, 1⟩
  | .swap => ⟨2, 2⟩
  | .setIndex => ⟨3, 0⟩
  | .getIndex | .bytesDecode => ⟨2, 1⟩
  | .call | .callTail => ⟨argcOf (read 1) + 1, 1⟩
  | .callSpread => ⟨(read 1).toNat + 1, (read 2).toNat⟩
  | .deferCall => ⟨(read 1).toNat + 1, 0⟩
  | .invokeMethod => ⟨(read 3).toNat + 1, 1⟩
  | .deferInvokeMethod => ⟨(read 3).toNat + 1, 0⟩
  | .buildArray | .append | .buildTuple => ⟨(read 1).toNat, 1⟩
  | .buildMap => ⟨(read 1).toNat * 2, 1⟩
  | .buildStructInstance => ⟨1 + (read 1).toNat * 2, 1⟩
  | .zeroStruct => ⟨1, 1⟩
  | .getSlice => ⟨1 + popCount (read 1), 1⟩
  | .iterInit => ⟨1, 1⟩
  | .iterNext1 => ⟨0, 2⟩
  | .iterNext2 => ⟨0, 3⟩
  | .dup => ⟨0, 1⟩
  | .dup2 => ⟨0, 2⟩
  | .closeUpvalue | .tupleCheckArity | .validateTypeDefault | .checkNamedPredicate
  | .validateNamedRange => ⟨0, 0⟩
  | .getLocalConstSubCall | .getLocalConstSubCallTail => ⟨argcOf (read 5), 1⟩
  -- The argument count is read and dropped here.
  | .callGlobalLocalSubConst | .callGlobalLocalSubConstTail => ⟨0, 1⟩
  | .incGlobalConst | .localAddLocal | .localAddConst | .localAddConstLoop | .localAddField
  | .fieldAddConst => ⟨0, 0⟩
  | .opAssertMsg => ⟨2, 0⟩
  | .opTrapCheck => ⟨1, 0⟩
  | .ret => ⟨1, 0⟩
  | .retConst | .getLocalRet | .getLocalConstAddRet => ⟨0, 0⟩
  | .addRet => ⟨2, 0⟩
  | .getGlobalCall | .getGlobalCallTail => ⟨argcOf (read 5), 1⟩
  | .callGlobalGlobal | .callGlobalGlobalTail =>
    ⟨if 0 < argcOf (read 9) then argcOf (read 9) - 1 else 0, 1⟩
  | .jump | .loop | .setGlobalLoop | .closeUpvalueLoop | .jumpIfFalse | .jumpIfNotNull
  | .incGlobalConstLoop | .incGlobalConstLoopNc => ⟨0, 0⟩
  | .getLocalConstEqJifPop | .getLocalConstLtJifPop | .getLocalConstGtJifPop
  | .getLocalConstLtJifPopJump | .getGlobalConstLtJifPop => ⟨0, 0⟩
  | .halt | .opUnreachable => ⟨0, 0⟩

/-!
# The chunk verifier

`verify` runs once before a chunk executes. A first sweep marks the instruction
starts, a second one checks the branch targets against them, and from offset zero
and from every function entry a worklist follows the code with the depth of the
operand stack. The largest depth it meets is stamped on the chunk and on the
function objects.
-/

open Dataflow Fallible

/-- What the verifier fails with, with the values its message shows. -/
inductive VerifyError where
  /-- `ip={d}: {s}` with the name of the decoder's error. -/
  | decode (ip : ℕ) (err : DecodeError)
  /-- `BadConstantIndex`: `ip={d} ({s}): constant index {d} >= {d}`. -/
  | badConstantIndex (ip : ℕ) (op : Op) (index count : ℕ)
  /-- `BadOpcode`: `ip={d} ({s}): expected embedded {s}, got {d}`. -/
  | badEmbedded (ip : ℕ) (op expected : Op) (got : UInt8)
  /-- `BadJumpTarget`: `ip={d} ({s}): jump target {d} lands inside operand bytes`. -/
  | badJumpTarget (ip : ℕ) (op : Op) (target : ℕ)
  /-- `InvalidBytecode`, without a message: more than 4096 function bodies. -/
  | tooManyBodies
  /-- `InvalidBytecode`: `ip={d} ({s}): local slot {d} out of range (limit={d})`. -/
  | badLocalSlot (ip : ℕ) (op : Op) (slot : ℕ) (limit : ℤ)
  /-- `InvalidBytecode`: `ip={d} ({s}): upvalue index {d} out of range (count={d})`. -/
  | badUpvalueIndex (ip : ℕ) (op : Op) (slot count : ℕ)
  /-- `ReturnAtTopLevel`: `ip={d} ({s}): return at top level`. -/
  | returnAtTopLevel (ip : ℕ) (op : Op)
  /-- `StackUnderflow`: `ip={d} ({s}): stack depth {d} < {d}`. -/
  | stackDepth (ip : ℕ) (op : Op) (depth : ℤ) (pop : ℕ)
  /-- `StackUnderflow`: `ip={d} ({s}): stack underflow (new depth {d})`. -/
  | stackUnderflow (ip : ℕ) (op : Op) (newDepth : ℤ)
  /-- `StackOverflow`: `ip={d}: function max stack depth {d} exceeds u16`. -/
  | stackOverflow (ip : ℕ) (maxDepth : ℤ)
  /-- The worklist's fuel ran out. -/
  | outOfFuel
  deriving DecidableEq

def decode (state : State) (ip : ℕ) : Except VerifyError DecodedInstruction :=
  (decodeAt state.code ip).mapError (.decode ip)

def checkConstIndex (state : State) (ip : ℕ) (inst : DecodedInstruction) :
    Except VerifyError Unit :=
  match inst.constIndex with
  | none => .ok ()
  | some index =>
    refuse (state.consts.length ≤ index) (.badConstantIndex ip inst.op index state.consts.length)

def checkEmbedded (state : State) (ip : ℕ) (op : Op) : Except VerifyError Unit :=
  match op.embedded with
  | none => .ok ()
  | some (offset, expected) =>
    refuse (state.readAt ip offset ≠ expected.toByte)
      (.badEmbedded ip op expected (state.readAt ip offset))

/-- A sweep over the instructions from `ip` on. Every instruction takes a byte, so
the code's length is fuel enough. -/
def sweepFrom {α : Type} (state : State)
    (body : α → ℕ → DecodedInstruction → Except VerifyError α) :
    ℕ → ℕ → α → Except VerifyError α
  | 0, _, acc => .ok acc
  | fuel + 1, ip, acc =>
    if ip < state.codeLen then do
      let inst ← decode state ip
      let acc ← body acc ip inst
      sweepFrom state body fuel (ip + inst.width) acc
    else .ok acc

def markStart (state : State) (starts : List ℕ) (ip : ℕ) (inst : DecodedInstruction) :
    Except VerifyError (List ℕ) := do
  checkConstIndex state ip inst
  checkEmbedded state ip inst.op
  return ip :: starts

def markStarts (state : State) : Except VerifyError (List ℕ) :=
  sweepFrom state (markStart state) state.codeLen 0 []

def checkTarget (state : State) (starts : List ℕ) (ip : ℕ) (inst : DecodedInstruction) :
    Except VerifyError Unit :=
  match inst.jumpTarget with
  | none => .ok ()
  | some target =>
    refuse (state.codeLen ≤ target ∨ target ∉ starts) (.badJumpTarget ip inst.op target)

def checkTargets (state : State) (starts : List ℕ) : Except VerifyError Unit :=
  sweepFrom state (fun _ => checkTarget state starts) state.codeLen 0 ()

/-- The slot checks, made on these five opcodes only. -/
def checkSlots (state : State) (localBase upvalueCount : ℕ) (ip : ℕ) (depth : ℤ) (op : Op) :
    Except VerifyError Unit :=
  let slot := (state.readAt ip 1).toNat
  match op with
  | .getLocal | .setLocal | .closeUpvalue =>
    refuse (localBase + depth ≤ slot) (.badLocalSlot ip op slot (localBase + depth))
  | .getUpvalue | .setUpvalue =>
    refuse (upvalueCount ≤ slot) (.badUpvalueIndex ip op slot upvalueCount)
  | _ => .ok ()

/-- Where the worklist goes on after an instruction: the next one, unless the
instruction returns or always branches, and the branch target the decoder
surfaces. -/
def flowNext (codeLen : ℕ) (ip : ℕ) (inst : DecodedInstruction) : List ℕ :=
  (if isReturnOp inst.op = false ∧ isUnconditionalBranch inst.op = false ∧
      ip + inst.width < codeLen then [ip + inst.width] else []) ++
    if isConditionalBranch inst.op ∨ isUnconditionalBranch inst.op then inst.jumpTarget.toList
    else []

/-- One turn of the worklist, at an instruction that has no depth yet. -/
def visit (state : State) (checkRet : Bool) (localBase upvalueCount : ℕ) (maxDepth : ℤ)
    (ip : ℕ) (depth : ℤ) : Except VerifyError (ℤ × List (ℕ × ℤ)) := do
  let inst ← decode state ip
  checkSlots state localBase upvalueCount ip depth inst.op
  let effect := stackEffect inst.op (state.readAt ip)
  refuse (isReturnOp inst.op ∧ checkRet) (.returnAtTopLevel ip inst.op)
  refuse (depth < effect.pop) (.stackDepth ip inst.op depth effect.pop)
  let newDepth := depth - effect.pop + effect.push
  refuse (newDepth < 0) (.stackUnderflow ip inst.op newDepth)
  return (max maxDepth newDepth, (flowNext state.codeLen ip inst).map (·, newDepth))

/-- The worklist skips what is no instruction start. -/
def isStart (state : State) (starts : List ℕ) (ip : ℕ) : Bool :=
  ip < state.codeLen && starts.contains ip

/-- `BfsRunner.run`: the largest depth met from an entry. An instruction is taken
once, with the first depth it is queued at. -/
def run (state : State) (starts : List ℕ) (entryIp : ℕ) (checkRet : Bool)
    (localBase upvalueCount : ℕ) : Except VerifyError ℤ :=
  (explore (isStart state starts) (visit state checkRet localBase upvalueCount)
    (2 * state.codeLen + 1) 0 [(entryIp, 0)] fun _ => none).getD (.error .outOfFuel)

/-- The function objects the pool leads to whose entry is an instruction start. -/
def bodies (state : State) (starts : List ℕ) : List FuncObj :=
  (state.poolFuncs.filterMap (state.funcs[·]?)).filter fun func => isStart state starts func.ip

/-- Stamp a depth on every function object of the pool with this entry. -/
def stamp (state : State) (ip maxStack : ℕ) : State :=
  { state with
    funcs := state.funcs.mapIdx fun ref func =>
      if ref ∈ state.poolFuncs ∧ func.ip = ip then { func with maxStack } else func }

def MaxBodies : ℕ := 4096

/-- Verify one function body and stamp its depth. -/
def verifyBody (starts : List ℕ) (state : State) (func : FuncObj) : Except VerifyError State := do
  let maxDepth ← run state starts func.ip false func.arity.toNat func.captureSlots.length
  refuse (0xFFFF < maxDepth) (.stackOverflow func.ip maxDepth)
  return stamp state func.ip maxDepth.toNat

/-- Verify a chunk: the chunk with its depths stamped, or the first error. -/
def verify (state : State) : Except VerifyError State :=
  if state.codeLen = 0 then .ok state
  else do
    let starts ← markStarts state
    checkTargets state starts
    refuse (MaxBodies < (bodies state starts).length) .tooManyBodies
    let maxDepth ← run state starts 0 true 0 0
    (bodies state starts).foldlM (verifyBody starts) { state with mainMaxStack := maxDepth.toNat }

end Gengo.Verifier
