import Gengo.Verifier.Verify

/-!
# Paths through a frame

What the handlers of the virtual machine do to the operand stack of the frame
they run in, and where the frame goes on. Values are left out: what depends on
them is a `Finding`. A path follows one frame from the entry of its function. A
call is one step of it: the callee has a frame, and a path, of its own. A tail
call that reuses the frame ends the path, and so does an error.
-/

namespace Gengo.Vm

open Bytecode Verifier

/-- What a handler finds at run time. -/
structure Finding where
  /-- A tested value is true (for `jumpIfNotNull`: is not null), an iterator has
  another element, a mailbox holds a message. -/
  holds : Bool
  /-- The number of values a callee leaves: one, or as many as it has named results,
  or return types when it recovered from a panic. -/
  results : ℕ

/-- How a handler ends: where the frame goes on, how many values it takes off the
operand stack, and how many it leaves there. -/
structure Outcome where
  next : ℕ
  takes : ℕ
  leaves : ℕ
  deriving DecidableEq, Repr

section Handlers

variable (op : Op) (read : ℕ → UInt8) (ip : ℕ) (found : Finding)

/-- A four-byte operand (`opInt`). -/
def opInt (offset : ℕ) : ℕ :=
  u32Of (read offset) (read (offset + 1)) (read (offset + 2)) (read (offset + 3))

/-- Go on at the next instruction. -/
def onward (takes leaves : ℕ) : Option Outcome :=
  some ⟨ip + op.width, takes, leaves⟩

/-- Go on before the next instruction, at a distance the operand names; out of the
code it is `InvalidChunkShape`. -/
def backward (offsetPos takes : ℕ) : Option Outcome :=
  if opInt read offsetPos ≤ ip + op.width then
    some ⟨ip + op.width - opInt read offsetPos, takes, 0⟩
  else none

/-- Push a number of values and perform a call, which takes the arguments and the
callee below them. -/
def performCall (pushed argc : ℕ) : Option Outcome :=
  onward op ip (argc + 1 - pushed) (pushed - (argc + 1) + found.results)

/-- The handlers (`execOne`). -/
def handler : Option Outcome :=
  match op with
  | .halt | .opUnreachable => none
  | .ret | .retConst | .getLocalRet | .addRet | .getLocalConstAddRet => none
  | .constant | .nullVal | .trueVal | .falseVal | .dup | .getGlobal | .getLocal | .getUpvalue
  | .taskSelf | .tupleGetKeep | .makeClosure | .getLocalConstEq | .getLocalConstSub
  | .getLocalConstAdd | .getLocalConstLt | .getLocalConstGt | .getLocalGetField
  | .getGlobalConstEq | .getGlobalConstSub | .getGlobalConstAdd | .getGlobalConstLt =>
    onward op ip 0 1
  | .dup2 => onward op ip 0 2
  | .pop | .defGlobal | .setGlobal | .setLocal | .setUpvalue | .setNamedPredicate | .opAssert
  | .opTrapCheck => onward op ip 1 0
  | .opAssertMsg | .setField => onward op ip 2 0
  | .setIndex => onward op ip 3 0
  -- These change values in place, or only look at them.
  | .incGlobalConst | .closeUpvalue | .localAddLocal | .localAddConst | .localAddField
  | .fieldAddConst | .validateTypeDefault | .checkNamedPredicate | .validateNamedRange
  | .tupleCheckArity | .assertType | .assertInterface | .assertStruct | .assertVariant =>
    onward op ip 0 0
  | .eqzInt | .nezInt | .ltzInt | .lezInt | .gtzInt | .gezInt | .neg | .not | .bitNot | .abs
  | .floor | .ceil | .trunc | .nearest | .sign | .sqrt | .castInt | .castFloat | .castDecimal
  | .castBool | .castString | .castRune | .castBigint | .typeName | .len | .bytelen
  | .constEq | .constSub | .constAdd | .constLt | .constGt | .zeroStruct | .tupleGet
  | .getIndexConstStr | .iterInit | .namedInner | .variantCheck | .variantPayload
  | .getField => onward op ip 1 1
  | .add | .sub | .mul | .div | .intDiv | .rem | .mod | .pow | .bitAnd | .bitOr | .bitXor | .shl
  | .shr | .eq | .ne | .lt | .le | .gt | .ge | .eqFloat | .neFloat | .ltFloat | .leFloat
  | .gtFloat | .geFloat | .min | .max | .bytesDecode | .getIndex => onward op ip 2 1
  | .swap => onward op ip 2 2
  | .clamp => onward op ip 3 1
  | .buildArray | .buildTuple | .append => onward op ip (read 1).toNat 1
  | .buildMap => onward op ip ((read 1).toNat * 2) 1
  | .buildStructInstance => onward op ip ((read 1).toNat * 2 + 1) 1
  -- Only the two lowest bits of the flags are looked at.
  | .getSlice =>
    onward op ip (1 + (read 1 &&& 0b01).toNat + (read 1 &&& 0b10).toNat / 2) 1
  -- An exhausted iterator leaves nothing but `false`.
  | .iterNext1 => onward op ip 0 (if found.holds then 2 else 1)
  | .iterNext2 => onward op ip 0 (if found.holds then 3 else 1)
  -- An empty mailbox makes the task wait on this instruction.
  | .taskReceive => if found.holds then onward op ip 0 1 else some ⟨ip, 0, 0⟩
  | .jump => some ⟨ip + 5 + opInt read 1, 0, 0⟩
  | .jumpIfFalse => if found.holds then onward op ip 0 0 else some ⟨ip + 5 + opInt read 1, 0, 0⟩
  | .jumpIfNotNull =>
    if found.holds then some ⟨ip + 5 + opInt read 1, 0, 0⟩ else onward op ip 0 0
  | .jifPop => if found.holds then onward op ip 1 0 else some ⟨ip + 5 + opInt read 1, 1, 0⟩
  | .loop => backward op read ip 1 0
  | .setGlobalLoop => backward op read ip 5 1
  | .closeUpvalueLoop => backward op read ip 2 0
  | .localAddConstLoop => backward op read ip 4 0
  | .incGlobalConstLoop => backward op read ip 9 0
  | .incGlobalConstLoopNc => backward op read ip 8 0
  | .getLocalConstEqJifPop | .getLocalConstLtJifPop | .getLocalConstGtJifPop =>
    if found.holds then onward op ip 0 0 else some ⟨ip + 9 + opInt read 5, 0, 0⟩
  | .getGlobalConstLtJifPop =>
    if found.holds then onward op ip 0 0 else some ⟨ip + 12 + opInt read 8, 0, 0⟩
  | .getLocalConstLtJifPopJump =>
    if found.holds then some ⟨ip + 13 + opInt read 9, 0, 0⟩
    else some ⟨ip + 9 + opInt read 5, 0, 0⟩
  | .call | .callTail => performCall op ip found 0 (argcOf (read 1))
  | .callSpread => performCall op ip found 0 (read 1).toNat
  | .invokeMethod => performCall op ip found 0 (read 3).toNat
  | .deferCall => onward op ip ((read 1).toNat + 1) 0
  | .deferInvokeMethod => onward op ip ((read 3).toNat + 1) 0
  | .getLocalConstSubCall | .getLocalConstSubCallTail | .getGlobalCall | .getGlobalCallTail =>
    performCall op ip found 1 (argcOf (read 5))
  | .callGlobalLocalSubConst | .callGlobalLocalSubConstTail =>
    performCall op ip found 2 (argcOf (read 10))
  | .callGlobalGlobal | .callGlobalGlobalTail =>
    performCall op ip found 2 (argcOf (read 9))

end Handlers

/-- A frame about to run the instruction at `ip`, with this many operands. -/
structure Point where
  ip : ℕ
  depth : ℕ
  deriving DecidableEq, Repr

/-- One step of a frame. There is none at the end of the code, and none when the
handler takes what lies below the frame's operands. -/
def step (state : State) (found : Finding) (point : Point) : Option Point :=
  if state.codeLen ≤ point.ip then none
  else do
    let op ← Op.ofByte? (state.codeAt point.ip)
    let outcome ← handler op (state.readAt point.ip) point.ip found
    if outcome.takes ≤ point.depth then
      some ⟨outcome.next, point.depth - outcome.takes + outcome.leaves⟩
    else none

/-- The points a frame reaches from an entry by steps that all meet a condition. -/
inductive Path (state : State) (allowed : Point → Finding → Prop) (entryIp : ℕ) : Point → Prop
  where
  | entry : Path state allowed entryIp ⟨entryIp, 0⟩
  | step {point next : Point} {found : Finding} :
      Path state allowed entryIp point → allowed point found → step state found point = some next →
        Path state allowed entryIp next

/-- An entry into the code, with the operand depth stamped for it. -/
inductive IsEntry (state : State) : ℕ → ℕ → Prop where
  | main : IsEntry state 0 state.mainMaxStack
  | function {ref : FuncRef} {func : FuncObj} :
      ref ∈ state.poolFuncs → state.funcs[ref]? = some func → IsEntry state func.ip func.maxStack

end Gengo.Vm
