import Mathlib.Algebra.GroupWithZero.Nat
import Mathlib.Data.List.Basic

/-!
# Opcodes

The instruction set of the virtual machine. Byte values below `0xC0` are core
opcodes; the values from `0xC0` on are fused opcodes, which only the VM uses.
The remaining byte values are reserved slots: the decoder rejects them, so they
have no constructor here.
-/

namespace Gengo.Bytecode

/-- The assigned opcodes, in the order of their byte values. -/
inductive Op where
  -- Control flow.
  | halt | opUnreachable | jump | jumpIfFalse | jifPop | jumpIfNotNull | loop
  -- Calls and returns.
  | call | callTail | callSpread | deferCall | invokeMethod | deferInvokeMethod | ret
  -- Variables and closures.
  | getLocal | setLocal | getGlobal | setGlobal | defGlobal | getUpvalue | setUpvalue
  | closeUpvalue | makeClosure
  -- Stack and literals.
  | constant | nullVal | trueVal | falseVal | dup | dup2 | pop
  -- Generic arithmetic.
  | add | sub | mul | div | intDiv | rem | mod | pow | neg
  -- Generic comparison and logic.
  | eq | ne | lt | le | gt | ge | not
  -- Tasks and integer zero-compares.
  | taskSelf | taskReceive | eqzInt | nezInt | ltzInt | lezInt | gtzInt | gezInt
  -- Typed float comparison.
  | eqFloat | neFloat | ltFloat | leFloat | gtFloat | geFloat
  -- Math intrinsics.
  | abs | floor | ceil | trunc | nearest | min | max | sign | sqrt | clamp
  -- Bitwise.
  | bitAnd | bitOr | bitXor | bitNot | shl | shr
  -- Casts.
  | castInt | castFloat | castDecimal | castBool | castString | castRune | castBigint
  -- Type system and assertions.
  | assertType | assertInterface | assertStruct | typeName | setNamedPredicate
  | validateTypeDefault | opAssert | opAssertMsg | opTrapCheck | variantCheck
  | variantPayload
  -- Collections and structs.
  | buildArray | buildMap | buildTuple | buildStructInstance | zeroStruct | tupleCheckArity
  | tupleGet | tupleGetKeep | getIndex | setIndex | getSlice | getField | setField
  | iterInit | iterNext1 | iterNext2 | namedInner | checkNamedPredicate | swap
  | validateNamedRange | len | append | bytelen | bytesDecode | getIndexConstStr
  | assertVariant
  -- Fused, private to the VM.
  | constEq | constSub | constAdd | constLt | constGt | getLocalConstEq | getLocalConstSub
  | getLocalConstAdd | getLocalConstLt | getLocalConstGt | getLocalConstEqJifPop
  | getLocalConstLtJifPop | getLocalConstGtJifPop | getLocalConstLtJifPopJump
  | getGlobalConstEq | getGlobalConstSub | getGlobalConstAdd | getGlobalConstLt
  | getGlobalConstLtJifPop | getLocalGetField | setGlobalLoop | closeUpvalueLoop | retConst
  | getLocalRet | getLocalConstSubCall | getLocalConstSubCallTail | callGlobalLocalSubConst
  | callGlobalLocalSubConstTail | addRet | localAddLocal | localAddConst
  | localAddConstLoop | localAddField | incGlobalConst | fieldAddConst | incGlobalConstLoop
  | incGlobalConstLoopNc | getLocalConstAddRet | getGlobalCall | getGlobalCallTail
  | callGlobalGlobal | callGlobalGlobalTail
  deriving DecidableEq, Repr

namespace Op

/-- The byte value of an opcode. -/
def toByte : Op → UInt8
  -- Control flow.
  | .halt => 0x00 | .opUnreachable => 0x01 | .jump => 0x02 | .jumpIfFalse => 0x03
  | .jifPop => 0x04 | .jumpIfNotNull => 0x05 | .loop => 0x06
  -- Calls and returns.
  | .call => 0x07 | .callTail => 0x08 | .callSpread => 0x09 | .deferCall => 0x0A
  | .invokeMethod => 0x0B | .deferInvokeMethod => 0x0C | .ret => 0x0D
  -- Variables and closures.
  | .getLocal => 0x0E | .setLocal => 0x0F | .getGlobal => 0x10 | .setGlobal => 0x11
  | .defGlobal => 0x12 | .getUpvalue => 0x13 | .setUpvalue => 0x14 | .closeUpvalue => 0x15
  | .makeClosure => 0x16
  -- Stack and literals.
  | .constant => 0x17 | .nullVal => 0x18 | .trueVal => 0x19 | .falseVal => 0x1A
  | .dup => 0x1B | .dup2 => 0x1C | .pop => 0x1D
  -- Generic arithmetic.
  | .add => 0x1E | .sub => 0x1F | .mul => 0x20 | .div => 0x21 | .intDiv => 0x22
  | .rem => 0x23 | .mod => 0x24 | .pow => 0x25 | .neg => 0x26
  -- Generic comparison and logic.
  | .eq => 0x27 | .ne => 0x28 | .lt => 0x29 | .le => 0x2A | .gt => 0x2B | .ge => 0x2C
  | .not => 0x2D
  -- Tasks and integer zero-compares.
  | .taskSelf => 0x2E | .taskReceive => 0x2F | .eqzInt => 0x32 | .nezInt => 0x33
  | .ltzInt => 0x34 | .lezInt => 0x35 | .gtzInt => 0x36 | .gezInt => 0x37
  -- Typed float comparison.
  | .eqFloat => 0x42 | .neFloat => 0x43 | .ltFloat => 0x44 | .leFloat => 0x45
  | .gtFloat => 0x46 | .geFloat => 0x47
  -- Math intrinsics.
  | .abs => 0x48 | .floor => 0x49 | .ceil => 0x4A | .trunc => 0x4B | .nearest => 0x4C
  | .min => 0x4D | .max => 0x4E | .sign => 0x4F | .sqrt => 0x50 | .clamp => 0x51
  -- Bitwise.
  | .bitAnd => 0x52 | .bitOr => 0x53 | .bitXor => 0x54 | .bitNot => 0x55 | .shl => 0x56
  | .shr => 0x57
  -- Casts.
  | .castInt => 0x58 | .castFloat => 0x59 | .castDecimal => 0x5A | .castBool => 0x5B
  | .castString => 0x5C | .castRune => 0x5D | .castBigint => 0x5E
  -- Type system and assertions.
  | .assertType => 0x5F | .assertInterface => 0x60 | .assertStruct => 0x61
  | .typeName => 0x62 | .setNamedPredicate => 0x63 | .validateTypeDefault => 0x64
  | .opAssert => 0x65 | .opAssertMsg => 0x66 | .opTrapCheck => 0x67 | .variantCheck => 0x68
  | .variantPayload => 0x69
  -- Collections and structs.
  | .buildArray => 0x6A | .buildMap => 0x6B | .buildTuple => 0x6C
  | .buildStructInstance => 0x6D | .zeroStruct => 0x6E | .tupleCheckArity => 0x6F
  | .tupleGet => 0x70 | .tupleGetKeep => 0x71 | .getIndex => 0x72 | .setIndex => 0x73
  | .getSlice => 0x74 | .getField => 0x75 | .setField => 0x76 | .iterInit => 0x77
  | .iterNext1 => 0x78 | .iterNext2 => 0x79 | .namedInner => 0x7A
  | .checkNamedPredicate => 0x7B | .swap => 0x7C | .validateNamedRange => 0x7D
  | .len => 0x7E | .append => 0x7F | .bytelen => 0x80 | .bytesDecode => 0x81
  | .getIndexConstStr => 0x82 | .assertVariant => 0x83
  -- Fused, private to the VM.
  | .constEq => 0xC0 | .constSub => 0xC1 | .constAdd => 0xC2 | .constLt => 0xC3
  | .constGt => 0xC4 | .getLocalConstEq => 0xC5 | .getLocalConstSub => 0xC6
  | .getLocalConstAdd => 0xC7 | .getLocalConstLt => 0xC8 | .getLocalConstGt => 0xC9
  | .getLocalConstEqJifPop => 0xCA | .getLocalConstLtJifPop => 0xCB
  | .getLocalConstGtJifPop => 0xCC | .getLocalConstLtJifPopJump => 0xCD
  | .getGlobalConstEq => 0xCE | .getGlobalConstSub => 0xCF | .getGlobalConstAdd => 0xD0
  | .getGlobalConstLt => 0xD1 | .getGlobalConstLtJifPop => 0xD2 | .getLocalGetField => 0xD3
  | .setGlobalLoop => 0xD4 | .closeUpvalueLoop => 0xD5 | .retConst => 0xD6
  | .getLocalRet => 0xD7 | .getLocalConstSubCall => 0xD8
  | .getLocalConstSubCallTail => 0xD9 | .callGlobalLocalSubConst => 0xDA
  | .callGlobalLocalSubConstTail => 0xDB | .addRet => 0xDC | .localAddLocal => 0xDD
  | .localAddConst => 0xDE | .localAddConstLoop => 0xDF | .localAddField => 0xE0
  | .incGlobalConst => 0xE1 | .fieldAddConst => 0xE2 | .incGlobalConstLoop => 0xE3
  | .incGlobalConstLoopNc => 0xE4 | .getLocalConstAddRet => 0xE5 | .getGlobalCall => 0xE6
  | .getGlobalCallTail => 0xE7 | .callGlobalGlobal => 0xE8 | .callGlobalGlobalTail => 0xE9

/-- The opcodes by byte value; a reserved slot holds `none`. -/
def slots : List (Option Op) := [
  some halt, some opUnreachable, some jump, some jumpIfFalse, some jifPop,
  some jumpIfNotNull, some loop, some call, some callTail, some callSpread, some deferCall,
  some invokeMethod, some deferInvokeMethod, some ret, some getLocal, some setLocal,
  some getGlobal, some setGlobal, some defGlobal, some getUpvalue, some setUpvalue,
  some closeUpvalue, some makeClosure, some constant, some nullVal, some trueVal,
  some falseVal, some dup, some dup2, some pop, some add, some sub, some mul, some div,
  some intDiv, some rem, some mod, some pow, some neg, some eq, some ne, some lt, some le,
  some gt, some ge, some not, some taskSelf, some taskReceive, none, none, some eqzInt,
  some nezInt, some ltzInt, some lezInt, some gtzInt, some gezInt, none, none, none, none,
  none, none, none, none, none, none, some eqFloat, some neFloat, some ltFloat,
  some leFloat, some gtFloat, some geFloat, some abs, some floor, some ceil, some trunc,
  some nearest, some min, some max, some sign, some sqrt, some clamp, some bitAnd,
  some bitOr, some bitXor, some bitNot, some shl, some shr, some castInt, some castFloat,
  some castDecimal, some castBool, some castString, some castRune, some castBigint,
  some assertType, some assertInterface, some assertStruct, some typeName,
  some setNamedPredicate, some validateTypeDefault, some opAssert, some opAssertMsg,
  some opTrapCheck, some variantCheck, some variantPayload, some buildArray, some buildMap,
  some buildTuple, some buildStructInstance, some zeroStruct, some tupleCheckArity,
  some tupleGet, some tupleGetKeep, some getIndex, some setIndex, some getSlice,
  some getField, some setField, some iterInit, some iterNext1, some iterNext2,
  some namedInner, some checkNamedPredicate, some swap, some validateNamedRange, some len,
  some append, some bytelen, some bytesDecode, some getIndexConstStr, some assertVariant,
  none, none, none, none, none, none, none, none, none, none, none, none, none, none, none,
  none, none, none, none, none, none, none, none, none, none, none, none, none, none, none,
  none, none, none, none, none, none, none, none, none, none, none, none, none, none, none,
  none, none, none, none, none, none, none, none, none, none, none, none, none, none, none,
  some constEq, some constSub, some constAdd, some constLt, some constGt,
  some getLocalConstEq, some getLocalConstSub, some getLocalConstAdd, some getLocalConstLt,
  some getLocalConstGt, some getLocalConstEqJifPop, some getLocalConstLtJifPop,
  some getLocalConstGtJifPop, some getLocalConstLtJifPopJump, some getGlobalConstEq,
  some getGlobalConstSub, some getGlobalConstAdd, some getGlobalConstLt,
  some getGlobalConstLtJifPop, some getLocalGetField, some setGlobalLoop,
  some closeUpvalueLoop, some retConst, some getLocalRet, some getLocalConstSubCall,
  some getLocalConstSubCallTail, some callGlobalLocalSubConst,
  some callGlobalLocalSubConstTail, some addRet, some localAddLocal, some localAddConst,
  some localAddConstLoop, some localAddField, some incGlobalConst, some fieldAddConst,
  some incGlobalConstLoop, some incGlobalConstLoopNc, some getLocalConstAddRet,
  some getGlobalCall, some getGlobalCallTail, some callGlobalGlobal,
  some callGlobalGlobalTail, none, none, none, none, none, none, none, none, none, none,
  none, none, none, none, none, none, none, none, none, none, none, none]

/-- The opcode a byte stands for, or `none` for a reserved slot (`is_reserved`). -/
def ofByte? (byte : UInt8) : Option Op :=
  (slots[byte.toNat]?).join

@[simp]
theorem ofByte?_toByte (op : Op) : ofByte? op.toByte = some op := by
  cases op <;> rfl

private theorem slots_toByte :
    ∀ slot : Fin 256, ((slots[slot.val]?).join.map fun op => op.toByte.toNat).all
      (· == slot.val) = true := by
  decide +kernel

/-- Decoding an opcode byte loses nothing: the opcode has that byte value. -/
theorem toByte_of_ofByte? {byte : UInt8} {op : Op} (decoded : ofByte? byte = some op) :
    op.toByte = byte := by
  have held := slots_toByte ⟨byte.toNat, byte.toNat_lt⟩
  simp only [ofByte?] at decoded
  simp only [decoded, Option.map_some, Option.all_some, beq_iff_eq] at held
  exact UInt8.toNat_inj.mp held

theorem toByte_injective : Function.Injective toByte := by
  intro first second sameByte
  have decoded : some first = some second := by
    rw [← ofByte?_toByte first, ← ofByte?_toByte second, sameByte]
  exact Option.some.inj decoded

/-- Core opcodes may travel in a GBC file; fused ones are private to the VM. -/
def IsCore (op : Op) : Prop :=
  op.toByte < 0xC0

instance (op : Op) : Decidable op.IsCore :=
  inferInstanceAs (Decidable (op.toByte < 0xC0))

end Op

/-!
# The instruction decoder

`decodeAt` reads one instruction. Everything it does is fixed by the opcode's
layout: how wide the instruction is, where its constant-pool index lies, and how
its branch offset is to be read. The table `Op.layout` has one line for every
arm of the decoder's switch.
-/

/-- What reading an instruction can fail with. -/
inductive DecodeError where
  | bytecodeOutOfBounds | badOpcode | badJumpTarget
  deriving DecidableEq, Repr

/-- A decoded instruction, with the operands the decoder surfaces. -/
structure DecodedInstruction where
  op : Op
  width : ℕ
  constIndex : Option ℕ
  constIndexPos : Option ℕ
  jumpTarget : Option ℕ
  deriving DecidableEq, Repr

/-- Big-endian value of two bytes. -/
def u16Of (high low : UInt8) : ℕ :=
  high.toNat * 256 + low.toNat

/-- Big-endian value of four bytes. -/
def u32Of (b3 b2 b1 b0 : UInt8) : ℕ :=
  ((b3.toNat * 256 + b2.toNat) * 256 + b1.toNat) * 256 + b0.toNat

def readU16At (code : List UInt8) (pos : ℕ) : Except DecodeError ℕ :=
  match code[pos]?, code[pos + 1]? with
  | some high, some low => .ok (u16Of high low)
  | _, _ => .error .bytecodeOutOfBounds

def readU32At (code : List UInt8) (pos : ℕ) : Except DecodeError ℕ :=
  match code[pos]?, code[pos + 1]?, code[pos + 2]?, code[pos + 3]? with
  | some b3, some b2, some b1, some b0 => .ok (u32Of b3 b2 b1 b0)
  | _, _, _, _ => .error .bytecodeOutOfBounds

/-- How a branch offset is stored: its position in the instruction, and where
the offset counts from. A backward branch counts from the instruction's end. -/
inductive Branch where
  | forward (offsetPos base : ℕ)
  | backward (offsetPos : ℕ)
  deriving DecidableEq, Repr

/-- The shape of an instruction. `bodyPos` is the position of the second branch
offset of the quint, which the decoder reads and drops. -/
structure Layout where
  width : ℕ
  constPos : Option ℕ := none
  branch : Option Branch := none
  bodyPos : Option ℕ := none
  deriving DecidableEq, Repr

/-- The decoder's switch. -/
def Op.layout : Op → Layout
  | .constant | .defGlobal | .makeClosure | .retConst | .constEq | .constSub | .constAdd
  | .constLt | .constGt | .assertInterface | .assertStruct | .assertVariant | .variantCheck
  | .checkNamedPredicate | .validateNamedRange | .getIndexConstStr =>
    { width := 3, constPos := some 1 }
  | .jump | .jumpIfFalse | .jumpIfNotNull | .jifPop =>
    { width := 5, branch := some (.forward 1 5) }
  | .loop => { width := 5, branch := some (.backward 1) }
  | .call | .callTail => { width := 4 }
  | .callSpread => { width := 5 }
  | .getLocal | .setLocal | .getUpvalue | .setUpvalue | .closeUpvalue | .getLocalRet
  | .deferCall | .buildArray | .buildMap | .buildTuple | .buildStructInstance
  | .tupleCheckArity | .tupleGet | .tupleGetKeep | .getSlice | .assertType | .append
  | .bytesDecode =>
    { width := 2 }
  | .getGlobal | .setGlobal => { width := 5, constPos := some 1 }
  | .getField | .setField => { width := 6, constPos := some 1 }
  | .invokeMethod => { width := 8, constPos := some 1 }
  | .deferInvokeMethod => { width := 4, constPos := some 1 }
  | .getLocalConstEq | .getLocalConstSub | .getLocalConstAdd | .getLocalConstLt
  | .getLocalConstGt | .getLocalConstAddRet =>
    { width := 5, constPos := some 3 }
  | .getLocalConstSubCall | .getLocalConstSubCallTail => { width := 8, constPos := some 3 }
  | .callGlobalLocalSubConst | .callGlobalLocalSubConstTail =>
    { width := 13, constPos := some 8 }
  | .getGlobalCall | .getGlobalCallTail => { width := 8, constPos := some 1 }
  | .callGlobalGlobal | .callGlobalGlobalTail => { width := 12, constPos := some 1 }
  | .incGlobalConst => { width := 8, constPos := some 6 }
  | .incGlobalConstLoop =>
    { width := 13, constPos := some 6, branch := some (.backward 9) }
  | .incGlobalConstLoopNc =>
    { width := 12, constPos := some 6, branch := some (.backward 8) }
  | .getLocalConstEqJifPop | .getLocalConstLtJifPop | .getLocalConstGtJifPop =>
    { width := 9, constPos := some 3, branch := some (.forward 5 9) }
  | .getLocalConstLtJifPopJump =>
    { width := 13, constPos := some 3, branch := some (.forward 5 9), bodyPos := some 9 }
  | .getGlobalConstEq | .getGlobalConstSub | .getGlobalConstAdd | .getGlobalConstLt =>
    { width := 8, constPos := some 6 }
  | .getGlobalConstLtJifPop =>
    { width := 12, constPos := some 6, branch := some (.forward 8 12) }
  | .getLocalGetField => { width := 8, constPos := some 3 }
  | .setGlobalLoop => { width := 9, constPos := some 1, branch := some (.backward 5) }
  | .closeUpvalueLoop => { width := 6, branch := some (.backward 2) }
  | .localAddLocal => { width := 3 }
  | .localAddConst => { width := 4, constPos := some 2 }
  | .localAddConstLoop => { width := 8, constPos := some 2, branch := some (.backward 4) }
  | .localAddField => { width := 9, constPos := some 4 }
  | .fieldAddConst => { width := 15, constPos := some 3 }
  | .halt | .opUnreachable | .ret | .nullVal | .trueVal | .falseVal | .dup | .dup2 | .pop
  | .add | .sub | .mul | .div | .intDiv | .rem | .mod | .pow | .neg | .eq | .ne | .lt | .le
  | .gt | .ge | .not | .taskSelf | .taskReceive | .eqzInt | .nezInt | .ltzInt | .lezInt
  | .gtzInt | .gezInt | .eqFloat | .neFloat | .ltFloat | .leFloat | .gtFloat | .geFloat
  | .abs | .floor | .ceil | .trunc | .nearest | .min | .max | .sign | .sqrt | .clamp
  | .bitAnd | .bitOr | .bitXor | .bitNot | .shl | .shr | .castInt | .castFloat
  | .castDecimal | .castBool | .castString | .castRune | .castBigint | .typeName
  | .setNamedPredicate | .validateTypeDefault | .opAssert | .opAssertMsg | .opTrapCheck
  | .variantPayload | .zeroStruct | .getIndex | .setIndex | .iterInit | .iterNext1
  | .iterNext2 | .namedInner | .swap | .len | .bytelen | .addRet =>
    { width := 1 }

/-- The width of every instruction with this opcode. -/
abbrev Op.width (op : Op) : ℕ :=
  op.layout.width

theorem Op.width_pos (op : Op) : 0 < op.width := by
  cases op <;> decide

/-- The branch target of the instruction at `pos`, if it has one. A backward
offset that leaves the code is the only error besides a short read. -/
def readTarget (code : List UInt8) (pos : ℕ) (layout : Layout) : Except DecodeError (Option ℕ) :=
  match layout.branch with
  | none => .ok none
  | some (.forward offsetPos base) => do
    let off ← readU32At code (pos + offsetPos)
    return some (pos + base + off)
  | some (.backward offsetPos) => do
    let off ← readU32At code (pos + offsetPos)
    if off > pos + layout.width then throw .badJumpTarget
    return some (pos + layout.width - off)

/-- The constant-pool index of the instruction at `pos`, if it has one. -/
def readConstIndex (code : List UInt8) (pos : ℕ) (layout : Layout) :
    Except DecodeError (Option ℕ) :=
  match layout.constPos with
  | none => .ok none
  | some constPos => do
    let index ← readU16At code (pos + constPos)
    return some index

/-- The bounds check on the quint's second offset. -/
def checkBody (code : List UInt8) (pos : ℕ) (layout : Layout) : Except DecodeError Unit :=
  match layout.bodyPos with
  | none => .ok ()
  | some bodyPos => do
    let _ ← readU32At code (pos + bodyPos)
    return ()

/-- Read the instruction at `pos`. The list is the code below `code_len`, which is
all this function looks at. A width is not checked against the end of the code. -/
def decodeAt (code : List UInt8) (pos : ℕ) : Except DecodeError DecodedInstruction :=
  match code[pos]? with
  | none => .error .bytecodeOutOfBounds
  | some raw =>
    match Op.ofByte? raw with
    | none => .error .badOpcode
    | some op => do
      let jumpTarget ← readTarget code pos op.layout
      checkBody code pos op.layout
      let constIndex ← readConstIndex code pos op.layout
      return { op, width := op.width, constIndex,
               constIndexPos := op.layout.constPos.map (pos + ·), jumpTarget }

/-- What a decoded instruction tells about the byte it starts with. -/
theorem fields_of_decodeAt {code : List UInt8} {pos : ℕ} {inst : DecodedInstruction}
    (decoded : decodeAt code pos = .ok inst) :
    ∃ raw, code[pos]? = some raw ∧ Op.ofByte? raw = some inst.op ∧
      inst.width = inst.op.width ∧ readTarget code pos inst.op.layout = .ok inst.jumpTarget := by
  rw [decodeAt] at decoded
  cases opcode : code[pos]? with
  | none => simp [opcode] at decoded
  | some raw =>
    cases operation : Op.ofByte? raw with
    | none => simp [opcode, operation] at decoded
    | some op =>
      simp only [opcode, operation] at decoded
      cases target : readTarget code pos op.layout with
      | error err => simp [target, bind, Except.bind] at decoded
      | ok jumpTarget =>
        cases body : checkBody code pos op.layout with
        | error err => simp [target, body, bind, Except.bind] at decoded
        | ok done =>
          cases index : readConstIndex code pos op.layout with
          | error err => simp [target, body, index, bind, Except.bind] at decoded
          | ok constIndex =>
            simp only [target, body, index, bind, Except.bind, pure, Except.pure,
              Except.ok.injEq] at decoded
            subst decoded
            exact ⟨raw, rfl, operation, rfl, target⟩

theorem width_pos_of_decodeAt {code : List UInt8} {pos : ℕ} {inst : DecodedInstruction}
    (decoded : decodeAt code pos = .ok inst) : 0 < inst.width := by
  obtain ⟨_, _, _, widthEq, _⟩ := fields_of_decodeAt decoded
  rw [widthEq]
  exact inst.op.width_pos

end Gengo.Bytecode
