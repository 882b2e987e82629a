import Gengo.Bytecode.Decoder
import Gengo.Records.Relocation
import Mathlib.Data.List.GetD

/-!
# Instruction streams

Every pass over the bytecode sweeps the code from offset zero, one decoded
instruction after another. Code that such a sweep covers exactly is a sequence
of instructions laid end to end. `Program` is that sequence, with the range
condition on backward branches as a field; the sweep of its bytes visits
exactly its boundaries.
-/

namespace Gengo.Bytecode

open Records List Option Nat

/-- An opcode with its operand bytes. -/
structure Instr where
  op : Op
  operands : List UInt8
  length_operands : operands.length + 1 = op.width

namespace Instr

@[ext]
theorem ext {first second : Instr} (sameOp : first.op = second.op)
    (sameOperands : first.operands = second.operands) : first = second := by
  obtain ⟨op, operands, fits⟩ := first
  obtain ⟨op', operands', fits'⟩ := second
  obtain rfl : op = op' := sameOp
  obtain rfl : operands = operands' := sameOperands
  rfl

def bytes (instr : Instr) : List UInt8 :=
  instr.op.toByte :: instr.operands

def width (instr : Instr) : ℕ :=
  instr.op.width

variable (instr : Instr)

@[simp]
theorem length_bytes : instr.bytes.length = instr.width := by
  rw [bytes, length_cons, instr.length_operands]
  rfl

theorem width_pos : 0 < instr.width :=
  instr.op.width_pos

/-- The byte at an offset inside the instruction. -/
def byte (instr : Instr) (offset : ℕ) : UInt8 :=
  instr.bytes.getD offset 0

@[simp]
theorem byte_zero : instr.byte 0 = instr.op.toByte :=
  rfl

def u16 (instr : Instr) (offset : ℕ) : ℕ :=
  u16Of (instr.byte offset) (instr.byte (offset + 1))

def u32 (instr : Instr) (offset : ℕ) : ℕ :=
  u32Of (instr.byte offset) (instr.byte (offset + 1)) (instr.byte (offset + 2))
    (instr.byte (offset + 3))

/-- The surfaced branch target when the instruction stands at `pos`. -/
def target (instr : Instr) (pos : ℕ) : Option ℕ :=
  match instr.op.layout.branch with
  | none => none
  | some (.forward offsetPos base) => some (pos + base + instr.u32 offsetPos)
  | some (.backward offsetPos) => some (pos + instr.width - instr.u32 offsetPos)

def constIndex (instr : Instr) : Option ℕ :=
  instr.op.layout.constPos.map instr.u16

/-- What the decoder returns for the instruction at `pos`. -/
def decoded (instr : Instr) (pos : ℕ) : DecodedInstruction where
  op := instr.op
  width := instr.width
  constIndex := instr.constIndex
  constIndexPos := instr.op.layout.constPos.map (pos + ·)
  jumpTarget := instr.target pos

/-- A backward branch at `pos` stays inside the code. -/
def InRange (instr : Instr) (pos : ℕ) : Prop :=
  match instr.op.layout.branch with
  | some (.backward offsetPos) => instr.u32 offsetPos ≤ pos + instr.width
  | _ => True

instance (instr : Instr) (pos : ℕ) : Decidable (instr.InRange pos) := by
  unfold InRange
  split <;> infer_instance

end Instr

/-- Every operand the layout names lies inside the instruction. -/
def Layout.fits (layout : Layout) : Bool :=
  layout.constPos.all (· + 2 ≤ layout.width) && layout.bodyPos.all (· + 4 ≤ layout.width) &&
    layout.branch.all fun
      | .forward offsetPos base => offsetPos + 4 ≤ layout.width && base ≤ layout.width
      | .backward offsetPos => offsetPos + 4 ≤ layout.width

theorem Op.layout_fits (op : Op) : op.layout.fits = true := by
  cases op <;> rfl

section Placed

variable (before after : List UInt8) (instr : Instr)

theorem getElem?_placed {offset : ℕ} (inside : offset < instr.width) :
    (before ++ instr.bytes ++ after)[before.length + offset]? = some (instr.byte offset) := by
  have bound : offset < instr.bytes.length := by rwa [instr.length_bytes]
  rw [append_assoc, List.getElem?_append_right (le_add_right _ _),
    Nat.add_sub_cancel_left, List.getElem?_append_left bound, Instr.byte,
    getD_eq_getElem _ _ bound, List.getElem?_eq_getElem bound]

theorem readU16At_placed {offset : ℕ} (inside : offset + 2 ≤ instr.width) :
    readU16At (before ++ instr.bytes ++ after) (before.length + offset) =
      .ok (instr.u16 offset) := by
  rw [readU16At, add_assoc, getElem?_placed before after instr (by omega),
    getElem?_placed before after instr (by omega)]
  rfl

theorem readU32At_placed {offset : ℕ} (inside : offset + 4 ≤ instr.width) :
    readU32At (before ++ instr.bytes ++ after) (before.length + offset) =
      .ok (instr.u32 offset) := by
  rw [readU32At, add_assoc, add_assoc, add_assoc,
    getElem?_placed before after instr (by omega), getElem?_placed before after instr (by omega),
    getElem?_placed before after instr (by omega), getElem?_placed before after instr (by omega)]
  rfl

theorem readConstIndex_placed :
    readConstIndex (before ++ instr.bytes ++ after) before.length instr.op.layout =
      .ok instr.constIndex := by
  have fits := instr.op.layout_fits
  rw [readConstIndex, Instr.constIndex]
  cases position : instr.op.layout.constPos with
  | none => rfl
  | some constPos =>
    have inside : constPos + 2 ≤ instr.width := by
      simp_all [Layout.fits, Instr.width, Op.width]
    simp only [readU16At_placed before after instr inside]
    rfl

theorem checkBody_placed :
    checkBody (before ++ instr.bytes ++ after) before.length instr.op.layout = .ok () := by
  have fits := instr.op.layout_fits
  rw [checkBody]
  cases position : instr.op.layout.bodyPos with
  | none => rfl
  | some bodyPos =>
    have inside : bodyPos + 4 ≤ instr.width := by
      simp_all [Layout.fits, Instr.width, Op.width]
    simp only [readU32At_placed before after instr inside]
    rfl

theorem readTarget_placed :
    readTarget (before ++ instr.bytes ++ after) before.length instr.op.layout =
      if instr.InRange before.length then .ok (instr.target before.length)
      else .error .badJumpTarget := by
  have fits := instr.op.layout_fits
  rw [readTarget, Instr.target]
  cases branch : instr.op.layout.branch with
  | none =>
    have inRange : instr.InRange before.length := by simp [Instr.InRange, branch]
    rw [if_pos inRange]
  | some shape =>
    cases shape with
    | forward offsetPos base =>
      have inside : offsetPos + 4 ≤ instr.width := by
        simp_all [Layout.fits, Instr.width, Op.width]
      have inRange : instr.InRange before.length := by simp [Instr.InRange, branch]
      simp only [readU32At_placed before after instr inside]
      rw [if_pos inRange]
      rfl
    | backward offsetPos =>
      have inside : offsetPos + 4 ≤ instr.width := by
        simp_all [Layout.fits, Instr.width, Op.width]
      have inRange_iff : instr.InRange before.length ↔
          instr.u32 offsetPos ≤ before.length + instr.width := by
        simp [Instr.InRange, branch]
      simp only [readU32At_placed before after instr inside]
      change (if instr.u32 offsetPos > before.length + instr.width then _ else _) = _
      by_cases inRange : instr.u32 offsetPos ≤ before.length + instr.width
      · rw [if_neg (not_lt.mpr inRange), if_pos (inRange_iff.mpr inRange)]
        rfl
      · rw [if_pos (not_le.mp inRange), if_neg (mt inRange_iff.mp inRange)]
        rfl

/-- Decoding where an instruction stands gives that instruction back, unless its
backward branch leaves the code. -/
theorem decodeAt_placed :
    decodeAt (before ++ instr.bytes ++ after) before.length =
      if instr.InRange before.length then .ok (instr.decoded before.length)
      else .error .badJumpTarget := by
  have opcode := getElem?_placed before after instr instr.width_pos
  rw [add_zero, Instr.byte_zero] at opcode
  rw [decodeAt, opcode]
  simp only [Op.ofByte?_toByte]
  rw [readTarget_placed, checkBody_placed, readConstIndex_placed]
  by_cases inRange : instr.InRange before.length
  · rw [if_pos inRange, if_pos inRange]
    rfl
  · rw [if_neg inRange, if_neg inRange]
    rfl

end Placed

/-- A decoded instruction that ends inside the code is an instruction standing
there. -/
theorem exists_instr_of_decodeAt {code : List UInt8} {pos : ℕ} {inst : DecodedInstruction}
    (decoded : decodeAt code pos = .ok inst) (fits : pos + inst.width ≤ code.length) :
    ∃ instr : Instr, code = code.take pos ++ instr.bytes ++ code.drop (pos + instr.width) ∧
      instr.InRange pos ∧ inst = instr.decoded pos := by
  obtain ⟨raw, opcode, operation, widthEq, -⟩ := fields_of_decodeAt decoded
  obtain ⟨posLt, rawEq⟩ := List.getElem?_eq_some_iff.mp opcode
  have opPos := inst.op.width_pos
  rw [widthEq] at fits
  let instr : Instr :=
    ⟨inst.op, (code.drop (pos + 1)).take (inst.op.width - 1), by
      rw [length_take, length_drop]; omega⟩
  have bytesEq : instr.bytes = (code.drop pos).take inst.op.width := by
    obtain ⟨rest, restEq⟩ := exists_eq_succ_of_ne_zero opPos.ne'
    rw [drop_eq_getElem_cons posLt, rawEq, restEq, take_succ_cons]
    simp only [Instr.bytes, instr, Op.toByte_of_ofByte? operation, restEq]
    rfl
  have split : code = code.take pos ++ instr.bytes ++ code.drop (pos + inst.op.width) := by
    rw [bytesEq, append_assoc, ← drop_drop, take_append_drop, take_append_drop]
  have placedEq := decodeAt_placed (code.take pos) (code.drop (pos + inst.op.width)) instr
  rw [← split, length_take, min_eq_left posLt.le, decoded] at placedEq
  by_cases inRange : instr.InRange pos
  · rw [if_pos inRange] at placedEq
    exact ⟨instr, split, inRange, Except.ok.inj placedEq⟩
  · rw [if_neg inRange] at placedEq
    cases placedEq

/-- Decoding from one offset up to another meets these instructions. -/
inductive Run (code : List UInt8) : ℕ → ℕ → List DecodedInstruction → Prop where
  | nil (pos : ℕ) : Run code pos pos []
  | cons {pos stop : ℕ} {inst : DecodedInstruction} {insts : List DecodedInstruction} :
      decodeAt code pos = .ok inst → Run code (pos + inst.width) stop insts →
        Run code pos stop (inst :: insts)

variable {start stop : ℕ}

theorem Run.append {code : List UInt8} {middle : ℕ} {first second : List DecodedInstruction}
    (firstRun : Run code start middle first) (secondRun : Run code middle stop second) :
    Run code start stop (first ++ second) := by
  induction firstRun with
  | nil pos => exact secondRun
  | cons decoded _ ih => exact .cons decoded (ih secondRun)

theorem Run.le {code : List UInt8} {insts : List DecodedInstruction}
    (run : Run code start stop insts) : start ≤ stop := by
  induction run with
  | nil => exact le_rfl
  | cons _ _ ih => omega

/-- The offsets at which a sweep from offset zero stops: the instruction starts,
and the offset after the last instruction. -/
def Sweep (code : List UInt8) (pos : ℕ) : Prop :=
  ∃ insts, Run code 0 pos insts

theorem Sweep.step {code : List UInt8} {pos : ℕ} {inst : DecodedInstruction}
    (swept : Sweep code pos) (decoded : decodeAt code pos = .ok inst) :
    Sweep code (pos + inst.width) := by
  obtain ⟨insts, run⟩ := swept
  exact ⟨insts ++ [inst], run.append (.cons decoded (.nil _))⟩

/-- A sweep covers the code exactly. -/
def DecodesCleanly (code : List UInt8) : Prop :=
  Sweep code code.length

/-- The instructions a sweep from `pos` meets, with their offsets, as far as the
code decodes. -/
def listingFrom (code : List UInt8) : ℕ → ℕ → List (ℕ × DecodedInstruction)
  | 0, _ => []
  | fuel + 1, pos =>
    match decodeAt code pos with
    | .error _ => []
    | .ok inst => (pos, inst) :: listingFrom code fuel (pos + inst.width)

/-- The instructions of the code. Every instruction takes a byte at least, so the
code's length is fuel enough. -/
def listing (code : List UInt8) : List (ℕ × DecodedInstruction) :=
  listingFrom code code.length 0

/-- A sequence of instructions whose backward branches stay inside the code. -/
structure Program where
  instrs : List Instr
  inRange : ∀ item ∈ placed Instr.width 0 instrs, item.2.InRange item.1

/-- The bytes of instructions laid end to end. -/
def assemble (instrs : List Instr) : List UInt8 :=
  instrs.flatMap Instr.bytes

@[simp]
theorem assemble_nil : assemble [] = [] :=
  rfl

@[simp]
theorem assemble_cons (instr : Instr) (instrs : List Instr) :
    assemble (instr :: instrs) = instr.bytes ++ assemble instrs :=
  rfl

@[simp]
theorem assemble_append (first second : List Instr) :
    assemble (first ++ second) = assemble first ++ assemble second := by
  simp [assemble]

@[simp]
theorem length_assemble (instrs : List Instr) :
    (assemble instrs).length = extent Instr.width instrs := by
  induction instrs with
  | nil => rfl
  | cons instr instrs ih => simp [ih]

/-- What the decoder returns for instructions laid end to end from `base` on. -/
def decodedFrom (base : ℕ) (instrs : List Instr) : List DecodedInstruction :=
  (placed Instr.width base instrs).map fun item => item.2.decoded item.1

/-- Laid in the code, instructions whose backward branches stay inside are a run. -/
theorem run_of_placed {before after : List UInt8} {instrs : List Instr}
    (inRange : ∀ item ∈ placed Instr.width before.length instrs, item.2.InRange item.1) :
    Run (before ++ assemble instrs ++ after) before.length
      (before.length + extent Instr.width instrs) (decodedFrom before.length instrs) := by
  induction instrs generalizing before with
  | nil => exact .nil _
  | cons instr instrs ih =>
    have first := decodeAt_placed before (assemble instrs ++ after) instr
    rw [if_pos (inRange (before.length, instr) (by simp))] at first
    have lengthEq : (before ++ instr.bytes).length = before.length + instr.width := by simp
    have rest := @ih (before ++ instr.bytes) fun item itemMem =>
      inRange item (by rw [lengthEq] at itemMem; simp [itemMem])
    have codeEq : before ++ assemble (instr :: instrs) ++ after =
        before ++ instr.bytes ++ (assemble instrs ++ after) := by simp
    rw [codeEq, extent_cons, ← add_assoc]
    refine .cons first ?_
    rw [lengthEq, append_assoc] at rest
    exact rest

theorem exists_instrs_of_run {code : List UInt8} {insts : List DecodedInstruction}
    (run : Run code start stop insts) (fits : stop ≤ code.length) :
    ∃ instrs, assemble instrs = (code.drop start).take (stop - start) ∧
      (∀ item ∈ placed Instr.width start instrs, item.2.InRange item.1) ∧
      insts = decodedFrom start instrs := by
  induction run with
  | nil pos => exact ⟨[], by simp, by simp, rfl⟩
  | @cons pos stop inst insts decoded rest ih =>
    obtain ⟨instrs, bytesEq, inRange, rfl⟩ := ih fits
    have middle := rest.le
    obtain ⟨instr, split, instrRange, rfl⟩ := exists_instr_of_decodeAt decoded (by omega)
    change pos + instr.width ≤ stop at middle
    change assemble instrs = (code.drop (pos + instr.width)).take (stop - (pos + instr.width))
      at bytesEq
    refine ⟨instr :: instrs, ?_, ?_, rfl⟩
    · have posEq : (code.take pos).length = pos := by rw [length_take]; omega
      have dropEq : code.drop pos = instr.bytes ++ code.drop (pos + instr.width) := by
        calc
          code.drop pos =
              (code.take pos ++ (instr.bytes ++ code.drop (pos + instr.width))).drop pos := by
                rw [← append_assoc, ← split]
          _ = instr.bytes ++ code.drop (pos + instr.width) := drop_left' posEq
      have lengthEq : stop - pos = instr.bytes.length + (stop - (pos + instr.width)) := by
        rw [instr.length_bytes]; omega
      rw [assemble_cons, bytesEq, dropEq, lengthEq, take_length_add_append]
    · intro item itemMem
      rcases mem_cons.mp itemMem with rfl | later
      · exact instrRange
      · exact inRange item later

variable {instrs : List Instr}

/-- Instructions are self-delimiting: the first of a sequence is known from its bytes. -/
theorem eq_cons_of_assemble_eq {instr : Instr} {rest : List UInt8}
    (same : assemble instrs = instr.bytes ++ rest) :
    ∃ others, instrs = instr :: others ∧ assemble others = rest := by
  cases instrs with
  | nil =>
    have lengthEq := congrArg List.length same
    have instrPos := instr.width_pos
    simp at lengthEq
    omega
  | cons head tail =>
    rw [assemble_cons] at same
    have sameOp : head.op = instr.op := by
      simp only [Instr.bytes, cons_append, List.cons.injEq] at same
      exact Op.toByte_injective same.1
    have sameLength : head.bytes.length = instr.bytes.length := by
      simp only [Instr.length_bytes, Instr.width, sameOp]
    obtain ⟨sameBytes, restEq⟩ := append_inj same sameLength
    have sameInstr : head = instr := Instr.ext sameOp (List.cons.inj sameBytes).2
    exact ⟨tail, by rw [sameInstr], restEq⟩

theorem assemble_injective : Function.Injective assemble := by
  intro first second same
  induction second generalizing first with
  | nil =>
    cases first with
    | nil => rfl
    | cons head tail =>
      have lengthEq := congrArg List.length same
      have headPos := head.width_pos
      simp at lengthEq
      omega
  | cons instr instrs ih =>
    obtain ⟨others, rfl, restEq⟩ := eq_cons_of_assemble_eq same
    rw [ih restEq]

/-- Split bytes into instructions; `none` when they are not a whole number of them. -/
def disassembleFuel : ℕ → List UInt8 → Option (List Instr)
  | _, [] => some []
  | 0, _ :: _ => none
  | fuel + 1, raw :: rest =>
    match Op.ofByte? raw with
    | none => none
    | some op =>
      if fits : (rest.take (op.width - 1)).length + 1 = op.width then
        (disassembleFuel fuel (rest.drop (op.width - 1))).map
          (⟨op, rest.take (op.width - 1), fits⟩ :: ·)
      else none

def disassemble (bytes : List UInt8) : Option (List Instr) :=
  disassembleFuel bytes.length bytes

private theorem assemble_of_disassembleFuel {fuel : ℕ} {bytes : List UInt8}
    (split : disassembleFuel fuel bytes = some instrs) : assemble instrs = bytes := by
  induction fuel generalizing bytes instrs with
  | zero =>
    cases bytes with
    | nil => rw [← some.inj split]; rfl
    | cons raw rest => cases split
  | succ fuel ih =>
    cases bytes with
    | nil => rw [← some.inj split]; rfl
    | cons raw rest =>
      rw [disassembleFuel] at split
      cases operation : Op.ofByte? raw with
      | none => simp [operation] at split
      | some op =>
        simp only [operation] at split
        split at split
        · obtain ⟨others, othersEq, rfl⟩ := map_eq_some_iff.mp split
          rw [assemble_cons, ih othersEq, Instr.bytes,
            Op.toByte_of_ofByte? operation, cons_append, take_append_drop]
        · cases split

private theorem disassembleFuel_assemble {fuel : ℕ} (enough : (assemble instrs).length ≤ fuel) :
    disassembleFuel fuel (assemble instrs) = some instrs := by
  induction instrs generalizing fuel with
  | nil => cases fuel <;> rfl
  | cons instr instrs ih =>
    have instrPos := instr.width_pos
    rw [assemble_cons, length_append, instr.length_bytes] at enough
    obtain ⟨fuel, rfl⟩ := exists_eq_succ_of_ne_zero (show fuel ≠ 0 by omega)
    have operandsLength : instr.operands.length = instr.op.width - 1 := by
      have fits := instr.length_operands
      omega
    have takeEq : (instr.operands ++ assemble instrs).take (instr.op.width - 1) =
        instr.operands := by rw [← operandsLength, take_left]
    have dropEq : (instr.operands ++ assemble instrs).drop (instr.op.width - 1) =
        assemble instrs := by rw [← operandsLength, drop_left]
    have fits : ((instr.operands ++ assemble instrs).take (instr.op.width - 1)).length + 1 =
        instr.op.width := by rw [takeEq, instr.length_operands]
    rw [assemble_cons, Instr.bytes, cons_append, disassembleFuel]
    simp only [Op.ofByte?_toByte]
    rw [dif_pos fits, dropEq, ih (by omega)]
    simp only [map_some, takeEq]

theorem disassemble_eq_some_iff {bytes : List UInt8} :
    disassemble bytes = some instrs ↔ assemble instrs = bytes := by
  constructor
  · exact assemble_of_disassembleFuel
  · rintro rfl
    exact disassembleFuel_assemble le_rfl

namespace Program

def code (program : Program) : List UInt8 :=
  assemble program.instrs

/-- The instructions with the offsets they start at. -/
def listing (program : Program) : List (ℕ × Instr) :=
  placed Instr.width 0 program.instrs

theorem length_code (program : Program) : program.code.length = extent Instr.width program.instrs :=
  length_assemble program.instrs

variable {program : Program} {pos : ℕ}

theorem mem_listing_iff {instr : Instr} :
    (pos, instr) ∈ program.listing ↔
      ∃ before after, program.instrs = before ++ instr :: after ∧
        pos = extent Instr.width before := by
  rw [listing, mem_placed_iff]
  simp only [zero_add]

theorem decodeAt_of_mem {instr : Instr} (listed : (pos, instr) ∈ program.listing) :
    decodeAt program.code pos = .ok (instr.decoded pos) := by
  have inRange := program.inRange _ listed
  obtain ⟨before, after, split, rfl⟩ := mem_listing_iff.mp listed
  have placedEq := decodeAt_placed (assemble before) (assemble after) instr
  rw [length_assemble, if_pos inRange] at placedEq
  rw [code, split, assemble_append, assemble_cons, ← append_assoc]
  exact placedEq

/-- The sweep of a program stops exactly at its boundaries. -/
theorem sweep_iff (program : Program) :
    Sweep program.code pos ↔ IsBoundary Instr.width program.instrs pos := by
  constructor
  · have advance : ∀ {start stop insts}, Run program.code start stop insts →
        IsBoundary Instr.width program.instrs start →
        IsBoundary Instr.width program.instrs stop := by
      intro start stop insts run
      induction run with
      | nil => exact id
      | @cons pos stop inst insts decoded _ ih =>
        rintro ⟨before, after, split, rfl⟩
        apply ih
        cases after with
        | nil =>
          have atEnd : program.code[extent Instr.width before]? = none := by
            rw [List.getElem?_eq_none_iff, program.length_code, split, append_nil]
          simp [decodeAt, atEnd] at decoded
        | cons instr after =>
          have listed : (extent Instr.width before, instr) ∈ program.listing :=
            mem_listing_iff.mpr ⟨before, after, split, rfl⟩
          rw [decodeAt_of_mem listed] at decoded
          refine ⟨before ++ [instr], after, by simp [split], ?_⟩
          rw [← Except.ok.inj decoded]
          simp [Instr.decoded]
    rintro ⟨insts, run⟩
    exact advance run (isBoundary_zero _ _)
  · rintro ⟨before, after, split, rfl⟩
    have run := @run_of_placed [] (assemble after) before
      fun item itemMem => program.inRange item <| by
        rw [split, placed_append]
        exact mem_append_left _ itemMem
    rw [nil_append, ← assemble_append, ← split, length_nil, zero_add] at run
    exact ⟨_, run⟩

theorem decodesCleanly (program : Program) : DecodesCleanly program.code := by
  rw [DecodesCleanly, sweep_iff, program.length_code]
  exact isBoundary_extent _ _

private theorem listingFrom_eq (program : Program) :
    ∀ {before after : List Instr} {fuel : ℕ}, program.instrs = before ++ after →
      extent Instr.width after ≤ fuel →
      listingFrom program.code fuel (extent Instr.width before) =
        (placed Instr.width (extent Instr.width before) after).map
          fun item => (item.1, item.2.decoded item.1) := by
  intro before after fuel split enough
  induction after generalizing before fuel with
  | nil =>
    have atEnd : program.code[extent Instr.width before]? = none := by
      rw [List.getElem?_eq_none_iff, program.length_code, split, append_nil]
    cases fuel with
    | zero => rfl
    | succ fuel => simp [listingFrom, decodeAt, atEnd]
  | cons instr after ih =>
    have instrPos := instr.width_pos
    rw [extent_cons] at enough
    obtain ⟨fuel, rfl⟩ := exists_eq_succ_of_ne_zero (show fuel ≠ 0 by omega)
    have listed : (extent Instr.width before, instr) ∈ program.listing :=
      mem_listing_iff.mpr ⟨before, after, split, rfl⟩
    have rest := ih (show program.instrs = (before ++ [instr]) ++ after by simp [split])
      (show extent Instr.width after ≤ fuel by omega)
    rw [extent_append, extent_cons, extent_nil, add_zero] at rest
    simp only [listingFrom, decodeAt_of_mem listed, placed_cons, map_cons]
    exact congrArg _ rest

theorem listing_code (program : Program) :
    Bytecode.listing program.code =
      program.listing.map fun item => (item.1, item.2.decoded item.1) := by
  have whole := listingFrom_eq program (show program.instrs = [] ++ program.instrs from rfl)
    program.length_code.ge
  rw [extent_nil] at whole
  exact whole

/-- What holds of the opcodes in the code holds of those of the instructions. -/
theorem forall_listing_op {P : Op → Prop} :
    (∀ item ∈ Bytecode.listing program.code, P item.2.op) ↔
      ∀ item ∈ program.listing, P item.2.op := by
  rw [listing_code, List.forall_mem_map]
  rfl

end Program

/-- Code decodes cleanly exactly when it is the code of a program. -/
theorem decodesCleanly_iff {code : List UInt8} :
    DecodesCleanly code ↔ ∃ program : Program, program.code = code := by
  constructor
  · intro clean
    obtain ⟨insts, run⟩ := clean
    obtain ⟨instrs, bytesEq, inRange, -⟩ := exists_instrs_of_run run le_rfl
    rw [drop_zero, Nat.sub_zero, take_length] at bytesEq
    exact ⟨⟨instrs, inRange⟩, bytesEq⟩
  · rintro ⟨program, rfl⟩
    exact program.decodesCleanly

/-- Code decodes cleanly exactly when it is the code of one program, and then the decoder lists
the instructions of that program where they stand. -/
theorem decodesCleanly_iff_existsUnique {code : List UInt8} :
    DecodesCleanly code ↔ ∃! program : Program, program.code = code ∧
      listing code = program.listing.map fun item => (item.1, item.2.decoded item.1) := by
  rw [decodesCleanly_iff]
  constructor
  · rintro ⟨program, rfl⟩
    refine ⟨program, ⟨rfl, program.listing_code⟩, ?_⟩
    rintro ⟨instrs, inRange⟩ ⟨same, -⟩
    obtain rfl := assemble_injective same
    rfl
  · rintro ⟨program, ⟨isCode, -⟩, -⟩
    exact ⟨program, isCode⟩

end Gengo.Bytecode
