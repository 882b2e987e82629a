import Gengo.Bytecode.Stream
import Gengo.Bytecode.Value

/-!
# Chunks

The state the compiler fills and the bytecode passes rewrite: the code buffer,
the constant pool with its function objects, and the positions in the code that
a pass has to keep up to date.
-/

namespace Gengo.Bytecode

/-- The largest code length a chunk accepts. -/
def MaxCode : ℕ := 1048576

/-- The largest constant pool. -/
def MaxConst : ℕ := 4096

structure ModuleBoundary where
  ipStart : ℕ
  path : Bytes
  deriving DecidableEq

theorem length_noConsts : ([] : List (Constant FuncRef)).length ≤ MaxConst :=
  Nat.zero_le MaxConst

/-- A chunk (`chunk.State`). `code` is the code buffer below `code_len` and `slack`
is what the buffer holds from there on; reads past both see zero. `strSlices` is the table
of interned strings. -/
structure State where
  code : List UInt8
  slack : List UInt8 := []
  consts : List (Constant FuncRef) := []
  strSlices : List Bytes := []
  funcs : List FuncObj := []
  moduleBoundaries : List ModuleBoundary := []
  stdScriptConstBase : UInt16 := 0
  stdScriptConstCount : UInt16 := 0
  stdScriptCodeEnd : ℕ := 0
  mainMaxStack : ℕ := 0
  codeLen_le : code.length ≤ MaxCode
  constCount_le : consts.length ≤ MaxConst := by
    first
      | exact length_noConsts
      | decide

namespace State

def codeLen (state : State) : ℕ :=
  state.code.length

/-- The byte of the code buffer at `pos`. -/
def codeAt (state : State) (pos : ℕ) : UInt8 :=
  (state.code ++ state.slack).getD pos 0

/-- The code buffer from `pos` on. -/
def readAt (state : State) (pos offset : ℕ) : UInt8 :=
  state.codeAt (pos + offset)

theorem getElem?_code {state : State} {pos : ℕ} (inside : pos < state.codeLen) :
    state.code[pos]? = some (state.codeAt pos) := by
  have bound : pos < (state.code ++ state.slack).length := by
    rw [List.length_append]
    exact Nat.lt_add_right _ inside
  rw [codeAt, List.getD_eq_getElem _ _ bound, List.getElem_append_left inside]
  exact List.getElem?_eq_getElem inside

/-- The function object a constant leads to, if there is one. -/
def funcObjOfConst (state : State) : Constant FuncRef → Option FuncRef
  | .function func => if func < state.funcs.length then some func else none
  | .closure func _ => if func < state.funcs.length then some func else none
  | .namedType type =>
    match type.predicate with
    | some (.function func) | some (.closure func _) =>
      if func < state.funcs.length then some func else none
    | _ => none
  | .taskType type =>
    if type.behavior < state.funcs.length then some type.behavior else none
  | _ => none

/-- The function objects the constant pool leads to, in pool order. -/
def poolFuncs (state : State) : List FuncRef :=
  state.consts.filterMap state.funcObjOfConst

end State

/-- Move a function's entry through a position map; an entry outside the map stays. -/
def FuncObj.remapIp (ipMap : List ℕ) (func : FuncObj) : FuncObj :=
  { func with ip := ipMap.getD func.ip func.ip }

/-- Move the entry of every function the pool leads to, each exactly once. -/
def State.remapConstFuncIps (state : State) (ipMap : List ℕ) : State :=
  { state with
    funcs := state.funcs.mapIdx fun ref func =>
      if ref ∈ state.poolFuncs then func.remapIp ipMap else func }

/-!
# Opcodes inside fused instructions

A fused instruction keeps the opcode byte of an instruction it was built from.
The handlers skip that byte; the verifier demands it, and the defuse pass copies
it.
-/

/-- The offset of the embedded opcode byte that the verifier checks, and the opcode
it demands there. -/
def Op.embedded : Op → Option (ℕ × Op)
  | .getLocalConstEq | .getLocalConstEqJifPop => some (2, .constEq)
  | .getLocalConstSub | .getLocalConstSubCall | .getLocalConstSubCallTail => some (2, .constSub)
  | .getLocalConstAdd | .getLocalConstAddRet => some (2, .constAdd)
  | .getLocalConstLt | .getLocalConstLtJifPop | .getLocalConstLtJifPopJump => some (2, .constLt)
  | .getLocalConstGt | .getLocalConstGtJifPop => some (2, .constGt)
  | .getGlobalConstEq => some (5, .constEq)
  | .getGlobalConstSub => some (5, .constSub)
  | .getGlobalConstAdd => some (5, .constAdd)
  | .getGlobalConstLt | .getGlobalConstLtJifPop => some (5, .constLt)
  | .callGlobalLocalSubConst | .callGlobalLocalSubConstTail => some (5, .getLocalConstSubCall)
  | .getLocalGetField => some (2, .getField)
  | .localAddField => some (3, .getField)
  | _ => none

theorem Op.embedded_lt_width (op : Op) : ∀ offset inner, op.embedded = some (offset, inner) →
    offset < op.width := by
  cases op <;> rintro _ _ ⟨⟩ <;> decide

/-- The code at `pos` holds the opcode byte that `op` embeds. -/
def EmbedsAt (code : List UInt8) (pos : ℕ) (op : Op) : Prop :=
  ∀ offset inner, op.embedded = some (offset, inner) → code.getD (pos + offset) 0 = inner.toByte

/-- Every fused instruction keeps its embedded opcode byte. -/
def EmbedsOpcodes (code : List UInt8) : Prop :=
  ∀ item ∈ listing code, EmbedsAt code item.1 item.2.op

instance (code : List UInt8) (pos : ℕ) (op : Op) : Decidable (EmbedsAt code pos op) :=
  match embedded : op.embedded with
  | none => isTrue fun _ _ same => absurd (embedded.symm.trans same) nofun
  | some (offset, inner) =>
    decidable_of_iff (code.getD (pos + offset) 0 = inner.toByte) ⟨fun holds _ _ same => by
          obtain ⟨rfl, rfl⟩ := Prod.mk.inj (Option.some.inj (embedded.symm.trans same))
          exact holds,
        fun holds => holds offset inner embedded⟩

instance (code : List UInt8) : Decidable (EmbedsOpcodes code) :=
  inferInstanceAs (Decidable (∀ item ∈ listing code, EmbedsAt code item.1 item.2.op))

end Gengo.Bytecode
