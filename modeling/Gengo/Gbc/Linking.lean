import Gengo.Defuse.Output
import Gengo.Gbc.Loading

/-!
# Which opcodes reach the wire

The bytecode section is meant to hold core opcodes only. The defuse pass expands
every instruction once, and several of its expansions contain fused instructions
again; one fused instruction it copies. A chunk is shipped in core opcodes exactly
when it holds none of those.
-/

namespace Gengo.Gbc

open Bytecode Defuse Fallible Wire List Except Nat

/-- The opcodes whose defused form is still, or contains, a fused instruction. -/
def leavesFused : Op → Bool
  | .getLocalConstEqJifPop | .getLocalConstLtJifPop | .getLocalConstGtJifPop
  | .getLocalConstLtJifPopJump | .getGlobalConstLtJifPop | .getGlobalConstEq
  | .getGlobalConstSub | .getGlobalConstAdd | .getGlobalConstLt | .localAddField
  | .incGlobalConst | .incGlobalConstLoop | .incGlobalConstLoopNc | .callGlobalLocalSubConst
  | .callGlobalLocalSubConstTail | .callGlobalGlobal | .callGlobalGlobalTail
  | .fieldAddConst => true
  | _ => false

private theorem all_core_expansion {instr : Instr}
    (notHexa : instr.op ≠ .callGlobalLocalSubConst) (exit body : ℕ) :
    (expansion instr exit body).all (fun other => decide other.op.IsCore) =
      !leavesFused instr.op := by
  obtain ⟨op, operands, width⟩ := instr
  cases op
  case callGlobalLocalSubConst => exact absurd rfl notHexa
  all_goals rfl

/-- Which opcodes an expansion holds does not depend on the offsets in it. -/
theorem expansion_core_iff {instr : Instr} (embeds : Embeds instr) (exit body : ℕ) :
    (∀ other ∈ expansion instr exit body, other.op.IsCore) ↔ leavesFused instr.op = false := by
  by_cases hexa : instr.op = .callGlobalLocalSubConst
  · have tail : hexaTail instr ∈ expansion instr exit body := by
      rw [expansion, hexa, disassemble_callTailBytes embeds hexa]
      exact mem_cons_of_mem _ (mem_singleton_self _)
    rw [hexa]
    exact ⟨fun core => absurd (core _ tail) (show ¬ Op.getLocalConstSubCall.IsCore by decide),
      fun clean => by cases clean⟩
  · have all := all_core_expansion hexa exit body
    rw [← Bool.not_eq_true', ← all, all_eq_true]
    simp only [decide_eq_true_eq]

theorem output_core_iff {program output : Program} {ipMap : List ℕ}
    (isOutput : Output program output ipMap) (embeds : EmbedsOpcodes program.code) :
    (∀ item ∈ output.listing, item.2.op.IsCore) ↔
      ∀ entry ∈ program.listing, leavesFused entry.2.op = false := by
  constructor
  · intro core entry listed
    obtain ⟨exit, body, placed⟩ := isOutput.exists_expansion listed
    refine (expansion_core_iff (embeds_of_mem embeds listed) exit body).mp fun other member => ?_
    obtain ⟨pos, otherListed⟩ := placed other member
    exact core _ otherListed
  · rintro clean ⟨pos, instr⟩ listed
    obtain ⟨entry, entryListed, exit, body, member⟩ := isOutput.exists_source listed
    exact (expansion_core_iff (embeds_of_mem embeds entryListed) exit body).mpr
      (clean entry entryListed) instr member

/-- The bytecode section of the artifact decodes cleanly to core opcodes. -/
def CoreOnWire (artifact : Bytes) : Prop :=
  ∃ code, findSectionBytes artifact secBytecode none = .ok (some code) ∧
    DecodesCleanly code ∧ ∀ item ∈ listing code, item.2.op.IsCore

theorem findSectionBytes_write {state : State} {opts : WriteOptions} {artifact : Bytes}
    (written : write state opts = .ok artifact) :
    ∃ out cs, buildDefusedCode state = .ok (out, cs) ∧
      findSectionBytes artifact secBytecode none = .ok (some out) := by
  obtain ⟨parts, of, parsed, opened, found⟩ := parse_write written (sourceMatches_none opts)
  refine ⟨parts.defused, parts.cs, of.defused, ?_⟩
  have bytecode := found { id := secBytecode, data := parts.defused } (.head _)
  rw [findSectionBytes, opened]
  exact congrArg Except.ok bytecode

/-- **Core opcodes on the wire.** The bytecode section of an artifact holds core opcodes
only, exactly when the chunk holds no fused instruction that one expansion leaves
fused. -/
theorem coreOnWire_iff {state : State} {opts : WriteOptions} {artifact : Bytes}
    (clean : DecodesCleanly state.code) (embeds : EmbedsOpcodes state.code)
    (written : write state opts = .ok artifact) :
    CoreOnWire artifact ↔ ∀ item ∈ listing state.code, leavesFused item.2.op = false := by
  obtain ⟨program, codeEq⟩ := decodesCleanly_iff.mp clean
  rw [← codeEq] at embeds ⊢
  obtain ⟨out, cs, built, section_eq⟩ := findSectionBytes_write written
  obtain ⟨output, rfl, isOutput⟩ := exists_output codeEq embeds built
  rw [Program.forall_listing_op (P := fun op => leavesFused op = false),
    ← output_core_iff isOutput embeds, ← Program.forall_listing_op]
  constructor
  · rintro ⟨code, found, -, core⟩
    obtain rfl := Option.some.inj (ok.inj (section_eq.symm.trans found))
    exact core
  · exact fun core => ⟨_, section_eq, output.decodesCleanly, core⟩

/-- `n + 1` with a fused addition, which one expansion undoes. -/
def localPlusOne : State where
  code := [Op.getLocalConstAdd.toByte, 0, Op.constAdd.toByte, 0, 0, Op.halt.toByte]
  consts := [.int 1]
  codeLen_le := by decide

theorem coreOnWire_localPlusOne :
    ∃ artifact, write localPlusOne { rootSource := [] } = .ok artifact ∧ CoreOnWire artifact := by
  obtain ⟨artifact, written⟩ :=
    exists_write (show (write localPlusOne { rootSource := [] }).toBool = true by decide +kernel)
  have clean : DecodesCleanly localPlusOne.code := ⟨_, .cons rfl (.cons rfl (.nil _))⟩
  exact ⟨artifact, written, (coreOnWire_iff clean (by decide) written).mpr (by decide)⟩

/-- `if n < 10 {}` with the comparison fused into the branch. -/
def branchOnLess : State where
  code := [Op.getLocalConstLtJifPop.toByte, 0, Op.constLt.toByte, 0, 0, 0, 0, 0, 0, Op.halt.toByte]
  consts := [.int 10]
  codeLen_le := by decide

/-- The fused comparison of the branch reaches the wire. -/
theorem not_coreOnWire_branchOnLess :
    DecodesCleanly branchOnLess.code ∧ EmbedsOpcodes branchOnLess.code ∧
      ∃ artifact, write branchOnLess { rootSource := [] } = .ok artifact ∧
        ¬ CoreOnWire artifact := by
  obtain ⟨artifact, written⟩ :=
    exists_write (show (write branchOnLess { rootSource := [] }).toBool = true by decide +kernel)
  refine ⟨⟨_, .cons rfl (.cons rfl (.nil _))⟩, by decide, artifact, written, ?_⟩
  rintro ⟨code, found, -, core⟩
  obtain ⟨out, cs, built, section_eq⟩ := findSectionBytes_write written
  obtain rfl := Option.some.inj (ok.inj (section_eq.symm.trans found))
  have outEq : [Op.getLocal.toByte, 0, Op.constLt.toByte, 0, 0, Op.jifPop.toByte, 0, 0, 0, 0,
      Op.halt.toByte] = out := congrArg Prod.fst (ok.inj (rfl.symm.trans built))
  rw [← outEq] at core
  exact absurd (core (2, ⟨.constLt, 3, some 0, some 3, none⟩) (by decide)) (by decide)

/-!
# Linked constant references

An artifact appended to a chunk brings its constants along, and every index its
code holds must move with them. The linker moves the one index the decoder
surfaces of each instruction. The instructions that hold more indices and outlive
the defuse pass read the importer's constants through the others.
-/

open Records

/-- The offsets of the constant-pool indices that the handler of an instruction reads and
the decoder does not surface. -/
def hiddenConstPos : Op → List ℕ
  | .callGlobalLocalSubConst | .callGlobalLocalSubConstTail | .incGlobalConst
  | .incGlobalConstLoop | .incGlobalConstLoopNc | .getGlobalConstEq | .getGlobalConstSub
  | .getGlobalConstAdd | .getGlobalConstLt | .getGlobalConstLtJifPop => [1]
  | .callGlobalGlobal | .callGlobalGlobalTail => [5]
  | .fieldAddConst => [8, 10]
  | _ => []

/-- The offsets of all constant-pool indices that the handler of an instruction reads. -/
def constOperandPos (op : Op) : List ℕ :=
  op.layout.constPos.toList ++ hiddenConstPos op

/-- The constant-pool index that lies at `pos` in the code. -/
def constIndexAt (code : List UInt8) (pos : ℕ) : ℕ :=
  u16Of (code.getD pos 0) (code.getD (pos + 1) 0)

/-- The surfaced index and the hidden ones lie apart, behind the opcode. -/
theorem hiddenConstPos_apart (op : Op) : ∀ offset ∈ hiddenConstPos op,
    offset + 2 ≤ op.width ∧ ∀ cip, op.layout.constPos = some cip →
      cip + 1 < offset ∨ offset + 1 < cip := by
  cases op <;> decide

variable {cip : ℕ}

theorem constPos_inside {op : Op} (surfaced : op.layout.constPos = some cip) :
    0 < cip ∧ cip + 2 ≤ op.width := by
  have inside : ∀ cip ∈ op.layout.constPos, 0 < cip ∧ cip + 2 ≤ op.width := by
    cases op <;> decide
  exact inside cip surfaced

/-- The instruction with its surfaced index moved by `base`. -/
def moveConst (base : ℕ) (instr : Instr) : Instr :=
  match instr.op.layout.constPos with
  | none => instr
  | some cip =>
    let index := instr.u16 cip + base
    { instr with
      operands := (instr.operands.set (cip - 1) (UInt8.ofNat (index / 256))).set cip
        (UInt8.ofNat index)
      length_operands := by
        rw [List.length_set, List.length_set]
        exact instr.length_operands }

@[simp]
theorem moveConst_op (base : ℕ) (instr : Instr) : (moveConst base instr).op = instr.op := by
  rw [moveConst]
  split <;> rfl

variable {base : ℕ} {instr : Instr}

theorem bytes_moveConst (surfaced : instr.op.layout.constPos = some cip) :
    (moveConst base instr).bytes =
      (instr.bytes.set cip (UInt8.ofNat ((instr.u16 cip + base) / 256))).set (cip + 1)
        (UInt8.ofNat (instr.u16 cip + base)) := by
  obtain ⟨positive, -⟩ := constPos_inside surfaced
  obtain ⟨offset, rfl⟩ := Nat.exists_eq_add_of_lt positive
  rw [moveConst, surfaced, zero_add]
  rfl

theorem u16_moveConst (surfaced : instr.op.layout.constPos = some cip)
    (fits : instr.u16 cip + base ≤ 0xFFFF) :
    (moveConst base instr).u16 cip = instr.u16 cip + base := by
  obtain ⟨-, inside⟩ := constPos_inside surfaced
  have length : instr.bytes.length = instr.op.width := instr.length_bytes
  rw [Instr.u16, Instr.byte, Instr.byte, bytes_moveConst surfaced, u16Of]
  rw [getD_eq_getElem?_getD, getD_eq_getElem?_getD, List.getElem?_set_ne (by omega),
    List.getElem?_set_self (by omega), List.getElem?_set_self (by rw [length_set]; omega)]
  simp only [Option.getD_some, UInt8.toNat_ofNat']
  omega

variable {offset : ℕ}

theorem u16_moveConst_hidden (hidden : offset ∈ hiddenConstPos instr.op) :
    (moveConst base instr).u16 offset = instr.u16 offset := by
  obtain ⟨-, apart⟩ := hiddenConstPos_apart instr.op offset hidden
  cases surfaced : instr.op.layout.constPos with
  | none => rw [moveConst, surfaced]
  | some cip =>
    have away := apart cip surfaced
    simp only [Instr.u16, Instr.byte, bytes_moveConst surfaced, getD_eq_getElem?_getD]
    rw [List.getElem?_set_ne (by omega), List.getElem?_set_ne (by omega),
      List.getElem?_set_ne (by omega), List.getElem?_set_ne (by omega)]

theorem width_moveConst (base : ℕ) (instr : Instr) : (moveConst base instr).width = instr.width :=
  congrArg Op.width (moveConst_op base instr)

/-- Every surfaced index stays within its two bytes when it is moved. -/
def IndexFits (base : ℕ) (instr : Instr) : Prop :=
  ∀ cip, instr.op.layout.constPos = some cip → instr.u16 cip + base ≤ 0xFFFF

variable {before : List UInt8}

theorem set_placed {middle after : List UInt8} (inside : offset < middle.length) (byte : UInt8) :
    (before ++ middle ++ after).set (before.length + offset) byte =
      before ++ middle.set offset byte ++ after := by
  rw [List.append_assoc, set_append_right _ _ (by omega), Nat.add_sub_cancel_left,
    set_append_left _ _ inside, List.append_assoc]

theorem constIndexAt_placed {before after : List UInt8} {instr : Instr} {offset : ℕ}
    (inside : offset + 2 ≤ instr.width) :
    constIndexAt (before ++ instr.bytes ++ after) (before.length + offset) = instr.u16 offset := by
  rw [constIndexAt, getD_eq_getElem?_getD, getD_eq_getElem?_getD, add_assoc,
    getElem?_placed before after instr (by omega), getElem?_placed before after instr (by omega)]
  rfl

/-- Moving the surfaced index of an instruction that lies in the code. -/
theorem moveConstIndex_placed {after out : List UInt8}
    (moved : moveConstIndex base (instr.op.layout.constPos.map (before.length + ·))
      (before ++ instr.bytes ++ after) = .ok out) :
    IndexFits base instr ∧ out = before ++ (moveConst base instr).bytes ++ after := by
  cases surfaced : instr.op.layout.constPos with
  | none =>
    rw [surfaced] at moved
    rw [moveConst, surfaced]
    exact ⟨fun cip same => absurd (surfaced.symm.trans same) nofun, (ok.inj moved).symm⟩
  | some cip =>
    obtain ⟨-, inside⟩ := constPos_inside surfaced
    have index := @constIndexAt_placed before after instr _ inside
    rw [constIndexAt] at index
    simp only [surfaced, Option.map_some, moveConstIndex, index] at moved
    split at moved
    case isTrue => cases moved
    case isFalse small =>
      refine ⟨fun other same => ?_, (ok.inj moved).symm.trans ?_⟩
      · obtain rfl := Option.some.inj (surfaced.symm.trans same)
        exact Nat.le_of_not_lt small
      · have length : instr.bytes.length = instr.op.width := instr.length_bytes
        rw [bytes_moveConst surfaced, set_placed (by omega), add_assoc,
          set_placed (by rw [length_set]; omega)]

/-- The linker moves the surfaced index of each instruction it passes, and no other byte. -/
theorem remapConstIndices_assemble {fuel : ℕ} {out : List UInt8} {instrs : List Instr}
    (enough : instrs.length ≤ fuel)
    (done : remapConstIndices base fuel before.length (before ++ assemble instrs) = .ok out) :
    (∀ instr ∈ instrs, IndexFits base instr) ∧
      out = before ++ assemble (instrs.map (moveConst base)) := by
  induction instrs generalizing fuel before with
  | nil =>
    refine ⟨nofun, ?_⟩
    rw [assemble_nil, append_nil] at done
    cases fuel with
    | zero => exact (ok.inj done).symm.trans (append_nil _).symm
    | succ fuel =>
      rw [remapConstIndices, if_neg (lt_irrefl _)] at done
      exact (ok.inj done).symm.trans (append_nil _).symm
  | cons instr instrs ih =>
    cases fuel with
    | zero => cases enough
    | succ fuel =>
      have inside : before.length < (before ++ assemble (instr :: instrs)).length := by
        have positive := instr.width_pos
        rw [length_append, length_assemble, extent_cons]
        omega
      rw [remapConstIndices, if_pos inside, assemble_cons, ← List.append_assoc,
        decodeAt_placed] at done
      by_cases inRange : instr.InRange before.length
      case neg =>
        rw [if_neg inRange] at done
        cases done
      rw [if_pos inRange] at done
      cases moved : moveConstIndex base (instr.decoded before.length).constIndexPos
          (before ++ instr.bytes ++ assemble instrs) with
      | error error =>
        simp only [moved] at done
        cases done
      | ok code =>
        simp only [moved] at done
        obtain ⟨fits, rfl⟩ := moveConstIndex_placed moved
        have next : before.length + (instr.decoded before.length).width =
            (before ++ (moveConst base instr).bytes).length := by
          rw [length_append, Instr.length_bytes, width_moveConst]
          rfl
        rw [next] at done
        obtain ⟨othersFit, rfl⟩ := ih (le_of_succ_le_succ enough) done
        refine ⟨forall_mem_cons.mpr ⟨fits, othersFit⟩, ?_⟩
        rw [map_cons, assemble_cons, List.append_assoc]

variable {output : Program}

/-- In the linked code, an instruction of the artifact stands where it was appended. -/
theorem constIndexAt_linked {pos : ℕ} (listed : (pos, instr) ∈ output.listing)
    (inside : offset + 2 ≤ instr.width) :
    constIndexAt (before ++ assemble (output.instrs.map (moveConst base)))
        (before.length + pos + offset) = (moveConst base instr).u16 offset := by
  obtain ⟨first, last, split, rfl⟩ := Program.mem_listing_iff.mp listed
  have start : before.length + extent Instr.width first =
      (before ++ assemble (first.map (moveConst base))).length := by
    have same : extent Instr.width (first.map (moveConst base)) = extent Instr.width first := by
      simp [extent, Function.comp_def, width_moveConst]
    rw [length_append, length_assemble, same]
  rw [split, map_append, map_cons, assemble_append, assemble_cons, ← List.append_assoc,
    ← List.append_assoc, start]
  exact constIndexAt_placed (by rwa [width_moveConst])

variable {program : Program}

theorem constIndexAt_code {pos : ℕ} (listed : (pos, instr) ∈ program.listing)
    (inside : offset + 2 ≤ instr.width) :
    constIndexAt program.code (pos + offset) = instr.u16 offset := by
  rw [constIndexAt, add_assoc, getD_code_of_mem listed (by omega),
    getD_code_of_mem listed (by omega)]
  rfl

/-- The constants of an artifact follow those of the importer, and every constant operand
of the appended code denotes the constant it denoted among the artifact's own. -/
def ConstsLinked (artifact : Bytes) (dest linked : State) : Prop :=
  ∃ code, findSectionBytes artifact secBytecode none = .ok (some code) ∧
    ∀ item ∈ listing code, ∀ offset ∈ constOperandPos item.2.op,
      linked.consts[constIndexAt linked.code (dest.codeLen + item.1 + offset)]? =
        (linked.consts.drop dest.consts.length)[constIndexAt code (item.1 + offset)]?

/-- The offsets of the indices that the defuse pass leaves in hidden places. -/
def unmovedConstPos : Op → List ℕ
  | .incGlobalConst | .incGlobalConstLoop | .incGlobalConstLoopNc => [1]
  | .fieldAddConst => [8, 10]
  | _ => []

theorem hiddenConstPos_expansion (embeds : Embeds instr) (exit body : ℕ) :
    (expansion instr exit body).flatMap (fun other => (hiddenConstPos other.op).map other.u16) =
      (unmovedConstPos instr.op).map instr.u16 := by
  by_cases hexa : instr.op = .callGlobalLocalSubConst
  · rw [expansion, hexa, disassemble_callTailBytes embeds hexa]
    rfl
  · obtain ⟨op, operands, width⟩ := instr
    cases op
    case callGlobalLocalSubConst => exact absurd rfl hexa
    all_goals rfl

theorem unmovedConstPos_inside (op : Op) : ∀ offset ∈ unmovedConstPos op,
    offset + 2 ≤ op.width := by
  cases op <;> decide

/-- The hidden indices of the output are the unmoved indices of the input. -/
theorem forall_hidden_iff {ipMap : List ℕ} {P : ℕ → Prop} (isOutput : Output program output ipMap)
    (embeds : EmbedsOpcodes program.code) :
    (∀ item ∈ output.listing, ∀ offset ∈ hiddenConstPos item.2.op, P (item.2.u16 offset)) ↔
      ∀ item ∈ program.listing, ∀ offset ∈ unmovedConstPos item.2.op, P (item.2.u16 offset) := by
  constructor
  · intro whole entry listed offset unmoved
    obtain ⟨exit, body, standing⟩ := isOutput.exists_expansion listed
    have inExpansion := mem_map_of_mem (f := entry.2.u16) unmoved
    rw [← hiddenConstPos_expansion (embeds_of_mem embeds listed) exit body] at inExpansion
    obtain ⟨other, member, hidden⟩ := mem_flatMap.mp inExpansion
    obtain ⟨otherOffset, isHidden, same⟩ := mem_map.mp hidden
    obtain ⟨pos, otherListed⟩ := standing other member
    rw [← same]
    exact whole _ otherListed otherOffset isHidden
  · intro whole item listed offset hidden
    obtain ⟨entry, entryListed, exit, body, member⟩ := isOutput.exists_source listed
    have inSource : item.2.u16 offset ∈ (unmovedConstPos entry.2.op).map entry.2.u16 := by
      rw [← hiddenConstPos_expansion (embeds_of_mem embeds entryListed) exit body]
      exact mem_flatMap.mpr ⟨item.2, member, mem_map_of_mem hidden⟩
    obtain ⟨otherOffset, unmoved, same⟩ := mem_map.mp inSource
    rw [← same]
    exact whole entry entryListed otherOffset unmoved

theorem length_instrs_le (program : Program) : program.instrs.length ≤ program.code.length := by
  rw [program.length_code]
  generalize program.instrs = instrs
  induction instrs with
  | nil => exact le_rfl
  | cons instr instrs ih =>
    have positive := instr.width_pos
    rw [length_cons, extent_cons]
    omega

/-- The surfaced indices are always right; the hidden ones are when the importer's
constant at the same index is. -/
theorem constsLinked_output {artifact : Bytes} {dest linked : State}
    (found : findSectionBytes artifact secBytecode none = .ok (some output.code)) {fuel : ℕ}
    (enough : output.code.length ≤ fuel)
    (remapped : remapConstIndices dest.consts.length fuel dest.codeLen
      (dest.code ++ output.code) = .ok linked.code) :
    ConstsLinked artifact dest linked ↔
      ∀ item ∈ output.listing, ∀ offset ∈ hiddenConstPos item.2.op,
        linked.consts[item.2.u16 offset]? =
          linked.consts[dest.consts.length + item.2.u16 offset]? := by
  obtain ⟨fits, codeEq⟩ :=
    remapConstIndices_assemble ((length_instrs_le output).trans enough) remapped
  have inRange {op : Op} {offset : ℕ} (operand : offset ∈ constOperandPos op) :
      offset + 2 ≤ op.width := by
    rcases mem_append.mp operand with surfaced | hidden
    · exact (constPos_inside (Option.mem_toList.mp surfaced)).2
    · exact (hiddenConstPos_apart op offset hidden).1
  have onItems : ConstsLinked artifact dest linked ↔
      ∀ item ∈ output.listing, ∀ offset ∈ constOperandPos item.2.op,
        linked.consts[(moveConst dest.consts.length item.2).u16 offset]? =
          linked.consts[dest.consts.length + item.2.u16 offset]? := by
    have single : ConstsLinked artifact dest linked ↔
        ∀ item ∈ listing output.code, ∀ offset ∈ constOperandPos item.2.op,
          linked.consts[constIndexAt linked.code (dest.codeLen + item.1 + offset)]? =
            (linked.consts.drop dest.consts.length)[constIndexAt output.code (item.1 + offset)]? :=
      ⟨fun ⟨_, same, linked⟩ => Option.some.inj (ok.inj (found.symm.trans same)) ▸ linked,
        fun linked => ⟨_, found, linked⟩⟩
    rw [single, Program.listing_code, forall_mem_map]
    refine forall₂_congr fun item listed => forall₂_congr fun offset operand => ?_
    have inside : offset + 2 ≤ item.2.width := inRange operand
    rw [codeEq, List.getElem?_drop]
    change linked.consts[constIndexAt _ (dest.code.length + item.1 + offset)]? =
      linked.consts[_ + constIndexAt output.code (item.1 + offset)]? ↔ _
    rw [constIndexAt_linked listed inside, constIndexAt_code listed inside]
  rw [onItems]
  refine forall₂_congr fun item listed => ?_
  constructor
  · intro whole offset hidden
    rw [← whole offset (mem_append_right _ hidden), u16_moveConst_hidden hidden]
  · intro whole offset operand
    rcases mem_append.mp operand with surfaced | hidden
    · have surfaced := Option.mem_toList.mp surfaced
      obtain ⟨first, last, split, -⟩ := Program.mem_listing_iff.mp listed
      have fit := fits item.2 (split ▸ by simp) offset surfaced
      rw [u16_moveConst surfaced fit, add_comm]
    · rw [u16_moveConst_hidden hidden]
      exact whole offset hidden

/-- At an index of the artifact's own pool that holds a scalar, the longer pool holds the
same constant exactly when the two written pools agree there. -/
theorem same_constant_iff {consts destConsts linkedConsts : List (Constant FuncRef)}
    {names : List Bytes} {pool : List (Constant FuncRef)} {func index : ℕ}
    {types : List RawTypeEntry} {const : Constant FuncRef}
    (linked : linkedConsts = destConsts ++ loadedFrom func types pool)
    (poolEq : pool = consts ++ names.map .string) (present : consts[index]? = some const)
    (scalar : IsScalar const) :
    linkedConsts[index]? = linkedConsts[destConsts.length + index]? ↔
      (destConsts ++ consts)[index]? = consts[index]? := by
  have inside : index < consts.length := (List.getElem?_eq_some_iff.mp present).1
  have own : linkedConsts[destConsts.length + index]? = some const := by
    rw [linked, List.getElem?_append_right (by omega), Nat.add_sub_cancel_left,
      getElem?_loadedFrom scalar, poolEq, List.getElem?_append_left inside, present]
  rw [own, present, linked]
  by_cases inDest : index < destConsts.length
  · rw [List.getElem?_append_left inDest, List.getElem?_append_left inDest]
  · rw [List.getElem?_append_right (by omega), List.getElem?_append_right (by omega),
      getElem?_loadedFrom scalar, poolEq, List.getElem?_append_left (by omega)]

theorem constsLinked_program {state dest linked : State} {opts : WriteOptions} {artifact : Bytes}
    {expectedRootSource : Option Bytes} {exports : Option RawExportsSection}
    (codeEq : program.code = state.code) (embeds : EmbedsOpcodes program.code)
    (scalars : ∀ item ∈ listing program.code, ∀ offset ∈ unmovedConstPos item.2.op,
      ∃ const, state.consts[constIndexAt program.code (item.1 + offset)]? = some const ∧
        IsScalar const) (written : write state opts = .ok artifact)
    (done : readIntoSession artifact dest expectedRootSource = .ok (linked, exports)) :
    ConstsLinked artifact dest linked ↔
      ∀ item ∈ listing program.code, ∀ offset ∈ unmovedConstPos item.2.op,
        (dest.consts ++ state.consts)[constIndexAt program.code (item.1 + offset)]? =
          state.consts[constIndexAt program.code (item.1 + offset)]? := by
  obtain ⟨parts, of, found, types, appends⟩ := exists_appends written done
  obtain ⟨output, outputEq, isOutput⟩ := exists_output codeEq embeds of.defused
  rw [← outputEq] at found
  obtain ⟨fuel, enough, remapped⟩ := appends.code
  rw [← outputEq] at enough remapped
  rw [constsLinked_output found enough remapped, forall_hidden_iff (P := fun index =>
      linked.consts[index]? = linked.consts[dest.consts.length + index]?) isOutput embeds,
    Program.listing_code, forall_mem_map]
  refine forall₂_congr fun item listed => forall₂_congr fun offset unmoved => ?_
  obtain ⟨const, present, scalar⟩ := scalars _ (mem_listing_code listed) offset unmoved
  have index : constIndexAt program.code (item.1 + offset) = item.2.u16 offset :=
    constIndexAt_code listed (unmovedConstPos_inside _ offset unmoved)
  change _ ↔ (dest.consts ++ state.consts)[constIndexAt program.code (item.1 + offset)]? =
    state.consts[constIndexAt program.code (item.1 + offset)]?
  rw [index] at present ⊢
  have pool : parts.pool = state.consts ++ parts.extra.map .string := by
    rw [Parts.pool]
    rcases cs_of_buildDefusedCode codeEq of.defused with same | same <;> rw [same]
    rfl
  exact same_constant_iff appends.consts pool present scalar

/-- **Linked constants.** After an artifact is appended, every constant operand of its code
denotes the constant it denoted among the artifact's own, exactly when the constants the
unmoved indices denote stand at the same indices of the longer pool. -/
theorem constsLinked_iff {state dest linked : State} {opts : WriteOptions} {artifact : Bytes}
    {expectedRootSource : Option Bytes} {exports : Option RawExportsSection}
    (clean : DecodesCleanly state.code) (embeds : EmbedsOpcodes state.code)
    (scalars : ∀ item ∈ listing state.code, ∀ offset ∈ unmovedConstPos item.2.op,
      ∃ const, state.consts[constIndexAt state.code (item.1 + offset)]? = some const ∧
        IsScalar const)
    (written : write state opts = .ok artifact)
    (done : readIntoSession artifact dest expectedRootSource = .ok (linked, exports)) :
    ConstsLinked artifact dest linked ↔
      ∀ item ∈ listing state.code, ∀ offset ∈ unmovedConstPos item.2.op,
        (dest.consts ++ state.consts)[constIndexAt state.code (item.1 + offset)]? =
          state.consts[constIndexAt state.code (item.1 + offset)]? := by
  obtain ⟨program, codeEq⟩ := decodesCleanly_iff.mp clean
  rw [← codeEq] at embeds scalars ⊢
  exact constsLinked_program codeEq embeds scalars written done

theorem exists_link {state dest : State} {opts : WriteOptions}
    (accepted : (write state opts >>= fun artifact =>
      (readIntoSession artifact dest none).mapError fun _ => WriteError.panic).toBool = true) :
    ∃ artifact linked exports, write state opts = .ok artifact ∧
      readIntoSession artifact dest none = .ok (linked, exports) := by
  cases written : write state opts with
  | error _ =>
    rw [written] at accepted
    cases accepted
  | ok artifact =>
    rw [written] at accepted
    cases done : readIntoSession artifact dest none with
    | error _ =>
      replace accepted : ((readIntoSession artifact dest none).mapError
        fun _ => WriteError.panic).toBool = true := accepted
      rw [done] at accepted
      cases accepted
    | ok result => exact ⟨artifact, result.1, result.2, rfl, done⟩

/-- `x = x + 1` for a global, fused into one instruction. -/
def incGlobal : State where
  code := [Op.incGlobalConst.toByte, 0, 0, 0xFF, 0xFF, Op.constAdd.toByte, 0, 1, Op.halt.toByte]
  consts := [.string [0x78], .int 1]
  codeLen_le := by decide

/-- A chunk under construction that has one constant already. -/
def importer (name : Bytes) : State where
  code := []
  consts := [.string name]
  codeLen_le := Nat.zero_le _
  constCount_le := show 1 ≤ MaxConst by decide

theorem incGlobal_clean : DecodesCleanly incGlobal.code :=
  ⟨_, .cons rfl (.cons rfl (.nil _))⟩

theorem incGlobal_unmoved {P : ℕ → Prop} :
    (∀ item ∈ listing incGlobal.code, ∀ offset ∈ unmovedConstPos item.2.op,
      P (constIndexAt incGlobal.code (item.1 + offset))) ↔ P 0 := by
  have listed : listing incGlobal.code = [(0, ⟨.incGlobalConst, 8, some 1, some 6, none⟩),
      (8, ⟨.halt, 1, none, none, none⟩)] := by decide
  rw [listed, forall_mem_cons, forall_mem_singleton]
  exact ⟨fun ⟨name, _⟩ => name 1 (.head _), fun name => ⟨forall_mem_singleton.mpr name, nofun⟩⟩

theorem incGlobal_scalars : ∀ item ∈ listing incGlobal.code,
    ∀ offset ∈ unmovedConstPos item.2.op,
      ∃ const, incGlobal.consts[constIndexAt incGlobal.code (item.1 + offset)]? = some const ∧
        IsScalar const :=
  (incGlobal_unmoved (P := fun index => ∃ const, incGlobal.consts[index]? = some const ∧
    IsScalar const)).mpr ⟨.string [0x78], rfl, trivial⟩

theorem incGlobal_sameConst_iff (name : Bytes) :
    (∀ item ∈ listing incGlobal.code, ∀ offset ∈ unmovedConstPos item.2.op,
      ((importer name).consts ++ incGlobal.consts)[constIndexAt incGlobal.code
          (item.1 + offset)]? =
        incGlobal.consts[constIndexAt incGlobal.code (item.1 + offset)]?) ↔ name = [0x78] := by
  refine (incGlobal_unmoved (P := fun index =>
    ((importer name).consts ++ incGlobal.consts)[index]? = incGlobal.consts[index]?)).trans ?_
  constructor
  · intro same
    cases same
    rfl
  · rintro rfl
    rfl

/-- An importer whose first constant is the same name keeps the reference right. -/
theorem constsLinked_sameName :
    ∃ artifact linked exports, write incGlobal { rootSource := [] } = .ok artifact ∧
      readIntoSession artifact (importer [0x78]) none = .ok (linked, exports) ∧
      ConstsLinked artifact (importer [0x78]) linked := by
  obtain ⟨artifact, linked, exports, written, done⟩ :=
    @exists_link incGlobal (importer [0x78]) { rootSource := [] } (by decide +kernel)
  exact ⟨artifact, linked, exports, written, done,
    (constsLinked_iff incGlobal_clean (by decide) incGlobal_scalars written done).mpr
      ((incGlobal_sameConst_iff [0x78]).mpr rfl)⟩

/-- An importer whose first constant is another name sees the code increment that one. -/
theorem not_constsLinked_otherName :
    ∃ artifact linked exports, write incGlobal { rootSource := [] } = .ok artifact ∧
      readIntoSession artifact (importer [0x79]) none = .ok (linked, exports) ∧
      ¬ ConstsLinked artifact (importer [0x79]) linked := by
  obtain ⟨artifact, linked, exports, written, done⟩ :=
    @exists_link incGlobal (importer [0x79]) { rootSource := [] } (by decide +kernel)
  refine ⟨artifact, linked, exports, written, done, fun wrong => ?_⟩
  obtain ⟨program, codeEq⟩ := decodesCleanly_iff.mp incGlobal_clean
  have linkedIff := constsLinked_program codeEq (by rw [codeEq]; decide)
    (by rw [codeEq]; exact incGlobal_scalars) written done
  rw [codeEq, incGlobal_sameConst_iff] at linkedIff
  exact absurd (linkedIff.mp wrong) (by decide)

end Gengo.Gbc
