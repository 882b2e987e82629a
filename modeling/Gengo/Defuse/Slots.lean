import Gengo.Defuse.Expansion

/-!
# The two sweeps of the defuse pass

On the code of a program the first sweep computes the relocation of instruction
boundaries, and the second one emits the slot of each instruction in turn.
-/

namespace Gengo.Defuse

open Bytecode Records List Nat

/-- The map the first sweep computes: boundaries are relocated, every other offset
keeps the initial zero. -/
def ipMapOf (program : Program) : List ℕ :=
  (List.range (program.code.length + 1)).map fun offset =>
    (relocate Instr.width newWidth program.instrs offset).getD 0

variable (program : Program)

theorem getElem?_ipMapOf (offset : ℕ) :
    (ipMapOf program)[offset]? =
      if offset ≤ program.code.length then
        some ((relocate Instr.width newWidth program.instrs offset).getD 0)
      else none := by
  rw [ipMapOf, List.getElem?_map]
  split_ifs with inside
  · rw [List.getElem?_range (by omega)]
    rfl
  · rw [List.getElem?_eq_none (by rw [length_range]; omega)]
    rfl

private theorem width_pos_of_mem {instrs : List Instr} : ∀ instr ∈ instrs, 0 < instr.width :=
  fun instr _ => instr.width_pos

/-- The entries written for the instructions from an offset on. -/
private def place : List Instr → ℕ → ℕ → List ℕ → List ℕ
  | [], _, _, ipMap => ipMap
  | instr :: instrs, oldIp, newIp, ipMap =>
    place instrs (oldIp + instr.width) (newIp + newWidth instr) (ipMap.set oldIp newIp)

private theorem measure_eq {before after : List Instr} {fuel : ℕ}
    (split : program.instrs = before ++ after) (enough : extent Instr.width after ≤ fuel)
    (newIp : ℕ) (ipMap : List ℕ) :
    measure program.code fuel (extent Instr.width before) newIp ipMap =
      .ok (place after (extent Instr.width before) newIp ipMap, newIp + extent newWidth after) := by
  have codeLength := program.length_code
  rw [split, extent_append] at codeLength
  induction after generalizing before fuel newIp ipMap with
  | nil =>
    rw [extent_nil, add_zero] at codeLength
    cases fuel with
    | zero => rfl
    | succ fuel => rw [measure, if_neg (by omega)]; rfl
  | cons instr after ih =>
    have instrPos := instr.width_pos
    rw [extent_cons] at enough codeLength
    obtain ⟨fuel, rfl⟩ := exists_eq_succ_of_ne_zero (show fuel ≠ 0 by omega)
    have listed : (extent Instr.width before, instr) ∈ program.listing :=
      Program.mem_listing_iff.mpr ⟨before, after, split, rfl⟩
    have rest := ih (show program.instrs = (before ++ [instr]) ++ after by simp [split])
      (show extent Instr.width after ≤ fuel by omega) (newIp + newWidth instr)
      (ipMap.set (extent Instr.width before) newIp) (by simp; omega)
    rw [extent_append, extent_cons, extent_nil, add_zero] at rest
    rw [measure, if_pos (by omega), Program.decodeAt_of_mem listed, place, extent_cons, ← add_assoc]
    exact rest

/-- After the last entry is set, the map holds the relocation from `oldIp` on and
what it held before everywhere else. -/
private theorem getElem?_place (instrs : List Instr) (oldIp newIp : ℕ) (ipMap : List ℕ)
    (bound : oldIp + extent Instr.width instrs < ipMap.length) (offset : ℕ) :
    ((place instrs oldIp newIp ipMap).set (oldIp + extent Instr.width instrs)
        (newIp + extent newWidth instrs))[offset]? =
      if offset < oldIp then ipMap[offset]?
      else match relocate Instr.width newWidth instrs (offset - oldIp) with
        | some target => some (newIp + target)
        | none => ipMap[offset]? := by
  induction instrs generalizing oldIp newIp ipMap with
  | nil =>
    rw [extent_nil, add_zero] at bound
    rw [extent_nil, extent_nil, add_zero, add_zero, place, List.getElem?_set]
    rcases lt_trichotomy offset oldIp with before | rfl | after
    · rw [if_neg (by omega), if_pos before]
    · rw [if_pos rfl, if_neg (Nat.lt_irrefl _), Nat.sub_self, relocate_zero, if_pos bound]
      rfl
    · rw [if_neg (by omega), if_neg (by omega)]
      obtain ⟨gap, gapEq⟩ := exists_eq_succ_of_ne_zero (show offset - oldIp ≠ 0 by omega)
      rw [gapEq]
      rfl
  | cons instr instrs ih =>
    have instrPos := instr.width_pos
    rw [extent_cons] at bound
    have rest := ih (oldIp + instr.width) (newIp + newWidth instr) (ipMap.set oldIp newIp)
      (by rw [length_set]; omega)
    rw [place, extent_cons, extent_cons, ← add_assoc, ← add_assoc, rest]
    rcases lt_trichotomy offset oldIp with before | rfl | after
    · rw [if_pos (by omega), if_pos before, List.getElem?_set_ne (by omega)]
    · rw [if_pos (by omega), if_neg (Nat.lt_irrefl _), Nat.sub_self, relocate_zero,
        List.getElem?_set_self (by omega)]
      rfl
    · rw [if_neg (show ¬ offset < oldIp by omega), relocate_cons_of_pos (by omega)]
      by_cases inside : offset < oldIp + instr.width
      · rw [if_pos inside, if_pos (by omega), List.getElem?_set_ne (by omega)]
      · rw [if_neg inside, if_neg (by omega),
          show offset - oldIp - instr.width = offset - (oldIp + instr.width) by omega,
          List.getElem?_set_ne (by omega)]
        cases relocate Instr.width newWidth instrs (offset - (oldIp + instr.width)) with
        | none => rfl
        | some target => simp [add_assoc]

theorem buildIpMap_code :
    buildIpMap program.code = .ok (ipMapOf program, extent newWidth program.instrs) := by
  have swept := measure_eq program (show program.instrs = [] ++ program.instrs from rfl)
    program.length_code.ge 0 (List.replicate (program.code.length + 1) 0)
  rw [extent_nil, zero_add] at swept
  rw [buildIpMap, swept]
  change Except.ok (List.set _ _ _, _) = _
  congr 2
  apply ext_getElem?
  intro offset
  have entries := getElem?_place program.instrs 0 0
    (List.replicate (program.code.length + 1) 0)
    (by rw [length_replicate, program.length_code]; omega) offset
  rw [zero_add, zero_add, ← program.length_code] at entries
  rw [entries, if_neg (Nat.not_lt_zero _), Nat.sub_zero, getElem?_ipMapOf, List.getElem?_replicate]
  cases located : relocate Instr.width newWidth program.instrs offset with
  | none =>
    split_ifs <;> first | rfl | omega
  | some target =>
    obtain ⟨before, after, splitEq, rfl, rfl⟩ :=
      (relocate_eq_some_iff width_pos_of_mem).mp located
    have inside : extent Instr.width before ≤ program.code.length := by
      rw [program.length_code, splitEq, extent_append]
      omega
    rw [if_pos inside]
    simp

/-- Emission over instructions: the slots from `oldIp` and `newIp` on. -/
private def emitInstrs (ipMap : List ℕ) :
    ℕ → ℕ → List Instr → Except DefuseError (List UInt8)
  | _, _, [] => .ok []
  | oldIp, newIp, instr :: instrs =>
    match emitExpanded instr.byte oldIp (instr.decoded oldIp) ipMap newIp with
    | none => .error .panic
    | some bytes =>
      if newWidth instr < bytes.length then .error .panic
      else
        (emitInstrs ipMap (oldIp + instr.width) (newIp + newWidth instr) instrs).map
          (bytes ++ List.replicate (newWidth instr - bytes.length) 0xAA ++ ·)

theorem getD_code_of_mem {program : Program} {pos : ℕ} {instr : Instr}
    (listed : (pos, instr) ∈ program.listing) {offset : ℕ} (inside : offset < instr.width) :
    program.code.getD (pos + offset) 0 = instr.byte offset := by
  obtain ⟨before, after, split, rfl⟩ := Program.mem_listing_iff.mp listed
  have placedEq := getElem?_placed (assemble before) (assemble after) instr inside
  rw [getD_eq_getElem?_getD, Program.code, split, assemble_append, assemble_cons,
    ← append_assoc, ← length_assemble before, placedEq]
  rfl

theorem emitExpanded_of_mem {program : Program} {pos : ℕ} {instr : Instr}
    (listed : (pos, instr) ∈ program.listing) (ipMap : List ℕ) (newIp : ℕ) :
    emitExpanded (fun offset => program.code.getD (pos + offset) 0) pos (instr.decoded pos)
        ipMap newIp =
      emitExpanded instr.byte pos (instr.decoded pos) ipMap newIp :=
  emitExpanded_of_agree (fun _ inside => getD_code_of_mem listed inside) pos ipMap newIp

private theorem emitAll_eq {before after : List Instr} {fuel : ℕ}
    (split : program.instrs = before ++ after) (enough : extent Instr.width after ≤ fuel)
    (ipMap : List ℕ) (newIp : ℕ) :
    emitAll program.code ipMap fuel (extent Instr.width before) newIp =
      emitInstrs ipMap (extent Instr.width before) newIp after := by
  have codeLength := program.length_code
  rw [split, extent_append] at codeLength
  induction after generalizing before fuel newIp with
  | nil =>
    rw [extent_nil, add_zero] at codeLength
    cases fuel with
    | zero => rfl
    | succ fuel => rw [emitAll, if_neg (by omega)]; rfl
  | cons instr after ih =>
    have instrPos := instr.width_pos
    rw [extent_cons] at enough codeLength
    obtain ⟨fuel, rfl⟩ := exists_eq_succ_of_ne_zero (show fuel ≠ 0 by omega)
    have listed : (extent Instr.width before, instr) ∈ program.listing :=
      Program.mem_listing_iff.mpr ⟨before, after, split, rfl⟩
    have rest := ih (show program.instrs = (before ++ [instr]) ++ after by simp [split])
      (show extent Instr.width after ≤ fuel by omega) (newIp + newWidth instr)
      (by simp; omega)
    rw [extent_append, extent_cons, extent_nil, add_zero] at rest
    rw [emitAll, if_pos (by omega), Program.decodeAt_of_mem listed]
    simp only [emitExpanded_of_mem listed]
    rw [emitInstrs, ← rest]
    rfl

variable {ipMap : List ℕ}

/-- If every slot is filled by instructions, the second sweep succeeds and emits
them. -/
theorem emitAll_code {program : Program} {replace : ℕ → ℕ → Instr → List Instr}
    (emits : ∀ entry ∈ relocated Instr.width newWidth 0 0 program.instrs,
      emitExpanded entry.2.2.byte entry.1 (entry.2.2.decoded entry.1) ipMap entry.2.1 =
        some (assemble (replace entry.1 entry.2.1 entry.2.2)))
    (fills : ∀ entry ∈ relocated Instr.width newWidth 0 0 program.instrs,
      extent Instr.width (replace entry.1 entry.2.1 entry.2.2) = newWidth entry.2.2) :
    emitAll program.code ipMap program.code.length 0 0 =
      .ok (assemble (expandAll Instr.width newWidth replace 0 0 program.instrs)) := by
  have emitted : ∀ {instrs : List Instr} {oldIp newIp : ℕ},
      (∀ entry ∈ relocated Instr.width newWidth oldIp newIp instrs,
        emitExpanded entry.2.2.byte entry.1 (entry.2.2.decoded entry.1) ipMap entry.2.1 =
          some (assemble (replace entry.1 entry.2.1 entry.2.2))) →
      (∀ entry ∈ relocated Instr.width newWidth oldIp newIp instrs,
        extent Instr.width (replace entry.1 entry.2.1 entry.2.2) = newWidth entry.2.2) →
      emitInstrs ipMap oldIp newIp instrs =
        .ok (assemble (expandAll Instr.width newWidth replace oldIp newIp instrs)) := by
    intro instrs
    induction instrs with
    | nil => intros; rfl
    | cons instr instrs ih =>
      intro oldIp newIp emits fills
      have headEmits := emits (oldIp, newIp, instr) (by simp [relocated])
      have headFills := fills (oldIp, newIp, instr) (by simp [relocated])
      have rest := ih (fun entry entryMem => emits entry (mem_cons_of_mem _ entryMem))
        (fun entry entryMem => fills entry (mem_cons_of_mem _ entryMem))
      rw [emitInstrs, headEmits]
      simp only
      rw [length_assemble, headFills, if_neg (Nat.lt_irrefl _), rest, Nat.sub_self,
        replicate_zero, append_nil, expandAll, assemble_append]
      rfl
  have swept := emitAll_eq program (show program.instrs = [] ++ program.instrs from rfl)
    program.length_code.ge ipMap 0
  rw [extent_nil] at swept
  rw [swept, emitted emits fills]

/-- A second sweep that succeeds has written every instruction into its slot. -/
theorem emits_of_emitAll {program : Program} {out : List UInt8}
    (emitted : emitAll program.code ipMap program.code.length 0 0 = .ok out) :
    ∀ entry ∈ relocated Instr.width newWidth 0 0 program.instrs, ∃ bytes,
      emitExpanded entry.2.2.byte entry.1 (entry.2.2.decoded entry.1) ipMap entry.2.1 =
        some bytes ∧ bytes.length ≤ newWidth entry.2.2 := by
  have swept := emitAll_eq program (show program.instrs = [] ++ program.instrs from rfl)
    program.length_code.ge ipMap 0
  rw [extent_nil, emitted] at swept
  have written : ∀ {instrs : List Instr} {oldIp newIp : ℕ} {out : List UInt8},
      emitInstrs ipMap oldIp newIp instrs = .ok out →
      ∀ entry ∈ relocated Instr.width newWidth oldIp newIp instrs, ∃ bytes,
        emitExpanded entry.2.2.byte entry.1 (entry.2.2.decoded entry.1) ipMap entry.2.1 =
          some bytes ∧ bytes.length ≤ newWidth entry.2.2 := by
    intro instrs
    induction instrs with
    | nil => intro _ _ _ _ entry entryMem; cases entryMem
    | cons instr instrs ih =>
      intro oldIp newIp out done
      rw [emitInstrs] at done
      split at done
      case h_1 => cases done
      case h_2 bytes headEmits =>
        split at done
        case isTrue => cases done
        case isFalse headFits =>
          intro entry entryMem
          rw [relocated] at entryMem
          rcases mem_cons.mp entryMem with rfl | later
          · exact ⟨bytes, headEmits, not_lt.mp headFits⟩
          · cases rest : emitInstrs ipMap (oldIp + instr.width) (newIp + newWidth instr) instrs with
            | error _ =>
              rw [rest] at done
              cases done
            | ok _ => exact ih rest entry later
  exact written swept.symm

theorem length_emitAll {program : Program} {out : List UInt8}
    (emitted : emitAll program.code ipMap program.code.length 0 0 = .ok out) :
    out.length = extent newWidth program.instrs := by
  have swept := emitAll_eq program (show program.instrs = [] ++ program.instrs from rfl)
    program.length_code.ge ipMap 0
  rw [extent_nil, emitted] at swept
  have filled : ∀ {instrs : List Instr} {oldIp newIp : ℕ} {out : List UInt8},
      emitInstrs ipMap oldIp newIp instrs = .ok out → out.length = extent newWidth instrs := by
    intro instrs
    induction instrs with
    | nil =>
      intro _ _ _ done
      obtain rfl := Except.ok.inj done
      rfl
    | cons instr instrs ih =>
      intro oldIp newIp out done
      rw [emitInstrs] at done
      split at done
      case h_1 => cases done
      case h_2 bytes _ =>
        split at done
        case isTrue => cases done
        case isFalse fits =>
          cases rest : emitInstrs ipMap (oldIp + instr.width) (newIp + newWidth instr) instrs with
          | error _ =>
            rw [rest] at done
            cases done
          | ok others =>
            rw [rest] at done
            obtain rfl := Except.ok.inj done
            have tail := ih rest
            rw [extent_cons, length_append, length_append, length_replicate, tail]
            omega
  exact filled swept.symm

/-!
# Slots of the defuse pass

The pass is right about an instruction when it fills the instruction's slot
exactly, the slot decodes, and the branches of the slot lead where the position
map sends the old targets. This file states that property and the condition on
the code that it forces. Two opcodes stand in the way: the captured increment
loop is emitted wider than it is measured, and the null-coalescing jump is copied
with its old offset.
-/

/-- The targets of an instruction's branches: the one the decoder surfaces, and the
body target of the quint. -/
def branchTargets (code : List UInt8) (pos : ℕ) (inst : DecodedInstruction) : List ℕ :=
  inst.jumpTarget.toList ++
    if inst.op = .getLocalConstLtJifPopJump then
      [pos + 13 + u32Of (code.getD (pos + 9) 0) (code.getD (pos + 10) 0)
        (code.getD (pos + 11) 0) (code.getD (pos + 12) 0)]
    else []

/-- The pass is right about the instruction at `pos`: it writes exactly the slot
measured for it, the slot decodes, and each branch of the slot leads to the mapped
target of the branch it stands for. -/
def ExpandsInSlot (code out : List UInt8) (ipMap : List ℕ) (pos : ℕ)
    (inst : DecodedInstruction) : Prop :=
  ∃ start bytes insts,
    ipMap[pos]? = some start ∧
    ipMap[pos + inst.width]? = some (start + expandedWidth inst.op inst.width) ∧
    emitExpanded (fun offset => code.getD (pos + offset) 0) pos inst ipMap start = some bytes ∧
    bytes.length = expandedWidth inst.op inst.width ∧
    (out.drop start).take bytes.length = bytes ∧
    Run out start (start + expandedWidth inst.op inst.width) insts ∧
    (insts.filterMap (·.jumpTarget)).map some =
      (branchTargets code pos inst).map fun target => ipMap[target]?

/-- The pass succeeds, its output decodes from the start to the end, and it is right
about every instruction. -/
def DefusePreserves (state : State) : Prop :=
  ∃ out after ipMap,
    buildDefusedCode state = .ok (out, after) ∧
    buildIpMap state.code = .ok (ipMap, out.length) ∧
    DecodesCleanly out ∧
    ∀ item ∈ listing state.code, ExpandsInSlot state.code out ipMap item.1 item.2

/-- The bytes behind the global read of a hexa-fused call at `pos`. -/
def callTailAt (code : List UInt8) (pos : ℕ) : List UInt8 :=
  (List.range 8).map fun offset => code.getD (pos + (offset + 5)) 0

/-- The condition on the code under which the pass is right. -/
structure Defusable (code : List UInt8) : Prop where
  /-- The expanded code fits a chunk. -/
  fits : ((listing code).map fun item => expandedWidth item.2.op item.2.width).sum ≤ MaxCode
  /-- No captured increment loop occurs. -/
  noIncLoop : ∀ item ∈ listing code, item.2.op ≠ .incGlobalConstLoop
  /-- Forward branches lead to instruction starts or to the end. -/
  forward : ∀ item ∈ listing code, loopsBack item.2.op = false →
    ∀ target ∈ branchTargets code item.1 item.2, Sweep code target
  /-- A null-coalescing jump skips only instructions that keep their width. -/
  coalesce : ∀ item ∈ listing code, item.2.op = .jumpIfNotNull →
    ∀ skipped ∈ listing code, item.1 < skipped.1 →
      (∀ target ∈ item.2.jumpTarget, skipped.1 < target) →
      expandedWidth skipped.2.op skipped.2.width = skipped.2.width
  /-- What a hexa-fused call copies unread is itself code without branches. -/
  callTail : ∀ item ∈ listing code, item.2.op = .callGlobalLocalSubConst →
    ∃ instrs, disassemble (callTailAt code item.1) = some instrs ∧
      ∀ instr ∈ instrs, instr.op.layout.branch = none

/-- The branch targets of an instruction that stands at `pos`. -/
def instrTargets (instr : Instr) (pos : ℕ) : List ℕ :=
  (instr.target pos).toList ++
    if instr.op = .getLocalConstLtJifPopJump then [pos + 13 + instr.u32 9] else []

section

variable {program : Program} {pos : ℕ} {instr : Instr} (listed : (pos, instr) ∈ program.listing)
include listed

theorem branchTargets_of_mem :
    branchTargets program.code pos (instr.decoded pos) = instrTargets instr pos := by
  rw [branchTargets, instrTargets]
  change (instr.target pos).toList ++ (if instr.op = .getLocalConstLtJifPopJump then _ else _) = _
  by_cases quint : instr.op = .getLocalConstLtJifPopJump
  · have wide : instr.width = 13 := by rw [Instr.width, quint]; rfl
    rw [if_pos quint, if_pos quint, getD_code_of_mem listed (by omega),
      getD_code_of_mem listed (by omega), getD_code_of_mem listed (by omega),
      getD_code_of_mem listed (by omega)]
    rfl
  · rw [if_neg quint, if_neg quint]

theorem callTailAt_of_mem (hexa : instr.op = .callGlobalLocalSubConst) :
    callTailAt program.code pos = callTailBytes instr := by
  have wide : instr.width = 13 := by rw [Instr.width, hexa]; rfl
  apply map_congr_left
  intro offset offsetMem
  have bound := mem_range.mp offsetMem
  exact getD_code_of_mem listed (by omega)

theorem mem_listing_code : (pos, instr.decoded pos) ∈ listing program.code := by
  rw [Program.listing_code]
  exact mem_map.mpr ⟨(pos, instr), listed, rfl⟩

end

theorem exists_of_mem_listing_code {program : Program} {item : ℕ × DecodedInstruction}
    (listed : item ∈ listing program.code) :
    ∃ pos instr, (pos, instr) ∈ program.listing ∧ item = (pos, instr.decoded pos) := by
  rw [Program.listing_code] at listed
  obtain ⟨⟨pos, instr⟩, instrMem, rfl⟩ := mem_map.mp listed
  exact ⟨pos, instr, instrMem, rfl⟩

theorem sum_expandedWidth (program : Program) :
    ((listing program.code).map fun item => expandedWidth item.2.op item.2.width).sum =
      extent newWidth program.instrs := by
  have general : ∀ base, ((placed Instr.width base program.instrs).map fun item =>
      expandedWidth item.2.op item.2.width).sum = extent newWidth program.instrs := by
    induction program.instrs with
    | nil => intro base; rfl
    | cons instr instrs ih =>
      intro base
      rw [placed_cons, map_cons, sum_cons, ih, extent_cons]
      rfl
  rw [Program.listing_code, map_map]
  exact general 0

theorem u32Of_lt (b3 b2 b1 b0 : UInt8) : u32Of b3 b2 b1 b0 < 2 ^ 32 := by
  have h3 := b3.toNat_lt
  have h2 := b2.toNat_lt
  have h1 := b1.toNat_lt
  have h0 := b0.toNat_lt
  rw [u32Of]
  omega

theorem offsetsFit_of_retarget {instr : Instr} {pos newIp exit body : ℕ} {ipMap : List ℕ}
    (retargeted : retarget instr pos ipMap (newIp + newWidth instr) = some (exit, body)) :
    OffsetsFit instr newIp exit body := by
  rw [retarget] at retargeted
  split at retargeted
  case h_1 coalesce =>
    obtain ⟨rfl, rfl⟩ : instr.u32 1 = exit ∧ 0 = body := by simpa using retargeted
    refine ⟨u32Of_lt _ _ _ _, by decide, ?_, fun _ => rfl⟩
    intro offsetPos backward
    rw [coalesce] at backward
    cases backward
  case h_2 quint =>
    obtain ⟨exit', exitEq, bodyBind⟩ := Option.bind_eq_some_iff.mp retargeted
    obtain ⟨body', bodyEq, pairEq⟩ := Option.bind_eq_some_iff.mp bodyBind
    obtain ⟨rfl, rfl⟩ : exit' = exit ∧ body' = body := by simpa using pairEq
    refine ⟨(fwdOff_eq_some_iff.mp exitEq).2, (fwdOff_eq_some_iff.mp bodyEq).2, ?_, ?_⟩
    · intro offsetPos backward
      rw [quint] at backward
      cases backward
    · intro coalesce
      rw [quint] at coalesce
      cases coalesce
  case h_3 notCoalesce _ =>
    have notVerbatim : instr.op = .jumpIfNotNull → exit = instr.u32 1 :=
      fun coalesce => absurd coalesce notCoalesce
    split at retargeted
    · obtain ⟨rfl, rfl⟩ : 0 = exit ∧ 0 = body := by simpa using retargeted
      exact ⟨by decide, by decide, fun _ _ => zero_le _, notVerbatim⟩
    · rename_i forward
      obtain ⟨exit', exitEq, pairEq⟩ := Option.map_eq_some_iff.mp retargeted
      obtain ⟨rfl, rfl⟩ : exit' = exit ∧ 0 = body := by simpa using pairEq
      refine ⟨(fwdOff_eq_some_iff.mp exitEq).2, by decide, ?_, notVerbatim⟩
      intro offsetPos backward
      rw [forward] at backward
      cases backward
    · obtain ⟨exit', exitEq, pairEq⟩ := Option.map_eq_some_iff.mp retargeted
      obtain ⟨rfl, rfl⟩ : exit' = exit ∧ 0 = body := by simpa using pairEq
      obtain ⟨exitLe, -, small⟩ := bwdOff_eq_some_iff.mp exitEq
      exact ⟨small, by decide, fun _ _ => exitLe, notVerbatim⟩

/-- Except for the null-coalescing jump, the offsets the pass computes stand for the
mapped targets. -/
theorem newTargets_of_retarget {instr : Instr} {pos newIp exit body : ℕ} {ipMap : List ℕ}
    (notCoalesce : instr.op ≠ .jumpIfNotNull)
    (retargeted : retarget instr pos ipMap (newIp + newWidth instr) = some (exit, body)) :
    (newTargets instr newIp exit body).map some =
      (instrTargets instr pos).map fun target => ipMap[target]? := by
  rw [retarget] at retargeted
  split at retargeted
  case h_1 coalesce => exact absurd coalesce notCoalesce
  case h_2 quint =>
    have widthEq : newWidth instr = 15 := by rw [newWidth, quint]; rfl
    obtain ⟨exit', exitEq, bodyBind⟩ := Option.bind_eq_some_iff.mp retargeted
    obtain ⟨body', bodyEq, pairEq⟩ := Option.bind_eq_some_iff.mp bodyBind
    obtain ⟨rfl, rfl⟩ : exit' = exit ∧ body' = body := by simpa using pairEq
    have exitAt := (fwdOff_eq_some_iff.mp exitEq).1
    have bodyAt := (fwdOff_eq_some_iff.mp bodyEq).1
    rw [widthEq, show newIp + 15 - 5 = newIp + 10 from rfl] at exitAt
    have targetEq : instr.target pos = some (pos + 9 + instr.u32 5) := by
      rw [Instr.target, quint]; rfl
    rw [newTargets, quint, instrTargets, targetEq, if_pos quint]
    simp [exitAt, bodyAt]
  case h_3 notQuint =>
    have notQuint' : instr.op ≠ .getLocalConstLtJifPopJump := notQuint
    rw [newTargets, instrTargets, if_neg notQuint', append_nil, Instr.target]
    split
    · exact absurd ‹_› notQuint'
    rcases branch : instr.op.layout.branch with _ | ⟨offsetPos, branchBase⟩ | offsetPos
    · rfl
    · simp only [branch] at retargeted
      obtain ⟨exit', exitEq, pairEq⟩ := Option.map_eq_some_iff.mp retargeted
      obtain ⟨rfl, rfl⟩ : exit' = exit ∧ 0 = body := by simpa using pairEq
      simp [(fwdOff_eq_some_iff.mp exitEq).1]
    · simp only [branch] at retargeted
      obtain ⟨exit', exitEq, pairEq⟩ := Option.map_eq_some_iff.mp retargeted
      obtain ⟨rfl, rfl⟩ : exit' = exit ∧ 0 = body := by simpa using pairEq
      simp [(bwdOff_eq_some_iff.mp exitEq).2.1]

theorem getElem?_ipMapOf_extent {program : Program} {before after : List Instr}
    (split : program.instrs = before ++ after) :
    (ipMapOf program)[extent Instr.width before]? = some (extent newWidth before) := by
  have located : relocate Instr.width newWidth program.instrs (extent Instr.width before) =
      some (extent newWidth before) := by
    rw [split]
    exact relocate_extent fun instr _ => instr.width_pos
  have inside : extent Instr.width before ≤ program.code.length := by
    rw [program.length_code, split, extent_append]
    omega
  rw [getElem?_ipMapOf, if_pos inside, located]
  rfl

theorem exists_of_ipMapOf_pos {program : Program} {target newTarget : ℕ}
    (entry : (ipMapOf program)[target]? = some newTarget) (newPos : 0 < newTarget) :
    ∃ before after, program.instrs = before ++ after ∧
      target = extent Instr.width before ∧ newTarget = extent newWidth before := by
  rw [getElem?_ipMapOf] at entry
  split_ifs at entry
  · cases located : relocate Instr.width newWidth program.instrs target with
    | none => simp [located] at entry; omega
    | some moved =>
      obtain rfl : moved = newTarget := by simpa [located] using entry
      exact (relocate_eq_some_iff fun instr _ => instr.width_pos).mp located

theorem newWidth_pos (instr : Instr) : 0 < newWidth instr :=
  instr.width_pos.trans_le (width_le_newWidth instr)

/-- What one slot says, in terms of the instruction and its new offset. -/
structure Slot (program : Program) (out : List UInt8) (pos newIp : ℕ) (instr : Instr)
    (bytes : List UInt8) (insts : List DecodedInstruction) : Prop where
  emitted : emitExpanded instr.byte pos (instr.decoded pos) (ipMapOf program) newIp = some bytes
  length_eq : bytes.length = newWidth instr
  written : (out.drop newIp).take (newWidth instr) = bytes
  run : Run out newIp (newIp + newWidth instr) insts
  targets : (insts.filterMap (·.jumpTarget)).map some =
    (instrTargets instr pos).map fun target => (ipMapOf program)[target]?

theorem expandsInSlot_iff {program : Program} {out : List UInt8} {instr : Instr}
    {before after : List Instr} (split : program.instrs = before ++ instr :: after) :
    ExpandsInSlot program.code out (ipMapOf program) (extent Instr.width before)
        (instr.decoded (extent Instr.width before)) ↔
      ∃ bytes insts, Slot program out (extent Instr.width before) (extent newWidth before)
        instr bytes insts := by
  have listed : (extent Instr.width before, instr) ∈ program.listing :=
    Program.mem_listing_iff.mpr ⟨before, after, split, rfl⟩
  have atStart := getElem?_ipMapOf_extent split
  have atEnd := getElem?_ipMapOf_extent
    (show program.instrs = (before ++ [instr]) ++ after by simp [split])
  rw [extent_append, extent_append, extent_cons, extent_cons, extent_nil, extent_nil,
    add_zero, add_zero] at atEnd
  rw [ExpandsInSlot, branchTargets_of_mem listed]
  simp only [emitExpanded_of_mem listed]
  constructor
  · rintro ⟨start, bytes, insts, startEq, -, emitted, lengthEq, written, run, targets⟩
    obtain rfl : start = extent newWidth before := by
      rw [atStart] at startEq
      exact (Option.some.inj startEq).symm
    rw [lengthEq] at written
    exact ⟨bytes, insts, emitted, lengthEq, written, run, targets⟩
  · rintro ⟨bytes, insts, slot⟩
    refine ⟨extent newWidth before, bytes, insts, atStart, atEnd, slot.emitted,
      slot.length_eq, ?_, slot.run, slot.targets⟩
    rw [slot.length_eq]
    exact slot.written

namespace Slot

open List

variable {program : Program} {out : List UInt8} {pos newIp : ℕ} {instr : Instr}
  {bytes : List UInt8} {insts : List DecodedInstruction}

section

variable (slot : Slot program out pos newIp instr bytes insts)
include slot

theorem insts_eq {instrs : List Instr} (assembled : bytes = assemble instrs) :
    insts = decodedFrom newIp instrs := by
  have newPos := newWidth_pos instr
  have fits : newIp + newWidth instr ≤ out.length := by
    have lengths := congrArg List.length slot.written
    rw [slot.length_eq, length_take, length_drop] at lengths
    omega
  obtain ⟨others, bytesEq, -, rfl⟩ := exists_instrs_of_run slot.run fits
  rw [Nat.add_sub_cancel_left, slot.written, assembled] at bytesEq
  rw [assemble_injective bytesEq]

theorem notIncLoop : instr.op ≠ .incGlobalConstLoop := by
  intro incLoop
  have emitted := slot.emitted
  rw [emitExpanded_eq (by rw [incLoop]; decide)] at emitted
  obtain ⟨⟨exit, body⟩, -, rfl⟩ := Option.map_eq_some_iff.mp emitted
  have lengthEq := slot.length_eq
  rw [length_assemble, extent_expansion_incGlobalConstLoop incLoop] at lengthEq
  omega

theorem exists_retarget (notHexa : instr.op ≠ .callGlobalLocalSubConst) :
    ∃ exit body, OffsetsFit instr newIp exit body ∧
      (newTargets instr newIp exit body).map some =
        (instrTargets instr pos).map fun target => (ipMapOf program)[target]? := by
  have emitted := slot.emitted
  rw [emitExpanded_eq notHexa] at emitted
  obtain ⟨⟨exit, body⟩, retargeted, rfl⟩ := Option.map_eq_some_iff.mp emitted
  have offsetsFit := offsetsFit_of_retarget retargeted
  refine ⟨exit, body, offsetsFit, ?_⟩
  rw [← targets_expansion notHexa slot.notIncLoop offsetsFit, ← slot.insts_eq rfl]
  exact slot.targets

/-- Forward branches lead past the slot, so their targets are boundaries. -/
theorem sweep_of_forward (forward : loopsBack instr.op = false) {target : ℕ}
    (targetMem : target ∈ instrTargets instr pos) : Sweep program.code target := by
  have notHexa : instr.op ≠ .callGlobalLocalSubConst := by
    intro hexa
    rw [instrTargets, Instr.target, hexa] at targetMem
    simp [Op.layout] at targetMem
  obtain ⟨exit, body, -, targets⟩ := slot.exists_retarget notHexa
  have entryMem : (ipMapOf program)[target]? ∈ (newTargets instr newIp exit body).map some := by
    rw [targets]
    exact mem_map_of_mem targetMem
  obtain ⟨newTarget, newMem, entry⟩ := mem_map.mp entryMem
  have newPos : 0 < newTarget := by
    have widthPos := newWidth_pos instr
    rw [newTargets] at newMem
    split at newMem
    · simp at newMem; omega
    · split at newMem
      · cases newMem
      · simp at newMem; omega
      · rename_i backward
        simp [loopsBack, backward] at forward
  obtain ⟨before, after, split, rfl, -⟩ := exists_of_ipMapOf_pos entry.symm newPos
  exact program.sweep_iff.mpr ⟨before, after, split, rfl⟩

/-- The bytes copied behind the global read of a hexa-fused call are code without
branches. -/
theorem callTail (hexa : instr.op = .callGlobalLocalSubConst) :
    ∃ instrs, disassemble (callTailBytes instr) = some instrs ∧
      ∀ other ∈ instrs, other.op.layout.branch = none := by
  have newPos := newWidth_pos instr
  have fits : newIp + newWidth instr ≤ out.length := by
    have lengths := congrArg List.length slot.written
    rw [slot.length_eq, length_take, length_drop] at lengths
    omega
  obtain ⟨instrs, bytesEq, -, instsEq⟩ := exists_instrs_of_run slot.run fits
  rw [Nat.add_sub_cancel_left, slot.written] at bytesEq
  have emitted := slot.emitted
  have emittedEq : emitExpanded instr.byte pos (instr.decoded pos) (ipMapOf program) newIp =
      some (Instr.bytes ⟨.getGlobal, [instr.byte 1, instr.byte 2, instr.byte 3, instr.byte 4],
        rfl⟩ ++ callTailBytes instr) := by
    obtain ⟨op, operands, operandsFit⟩ := instr
    obtain rfl : op = .callGlobalLocalSubConst := hexa
    rfl
  rw [emittedEq] at emitted
  rw [← Option.some.inj emitted] at bytesEq
  obtain ⟨others, rfl, othersEq⟩ := eq_cons_of_assemble_eq bytesEq
  refine ⟨others, disassemble_eq_some_iff.mpr othersEq, ?_⟩
  have noTargets : insts.filterMap (·.jumpTarget) = [] := by
    have targets := slot.targets
    rw [instrTargets, Instr.target, hexa] at targets
    exact map_eq_nil_iff.mp targets
  intro other otherMem
  obtain ⟨first, rest, rfl⟩ := append_of_mem otherMem
  rw [instsEq, decodedFrom, filterMap_eq_nil_iff] at noTargets
  have otherPlaced : ∃ start, (start, other) ∈ placed Instr.width newIp
      (⟨.getGlobal, [instr.byte 1, instr.byte 2, instr.byte 3, instr.byte 4], rfl⟩ ::
        (first ++ other :: rest)) :=
    ⟨_, mem_placed_iff.mpr ⟨_ :: first, rest, rfl, rfl⟩⟩
  obtain ⟨start, startMem⟩ := otherPlaced
  have noTarget := noTargets _ (mem_map_of_mem startMem)
  change other.target start = none at noTarget
  rw [Instr.target] at noTarget
  split at noTarget
  · assumption
  · cases noTarget
  · cases noTarget

end

/-- A null-coalescing jump is right only when what it skips keeps its width. -/
theorem coalesce {before after : List Instr} (split : program.instrs = before ++ instr :: after)
    (slot : Slot program out (extent Instr.width before) (extent newWidth before) instr bytes
      insts) (isCoalesce : instr.op = .jumpIfNotNull) {start : ℕ} {skipped : Instr}
    (skippedMem : (start, skipped) ∈ program.listing) (starts : extent Instr.width before < start)
    (stops : start < extent Instr.width before + 5 + instr.u32 1) :
    newWidth skipped = skipped.width := by
  have notHexa : instr.op ≠ .callGlobalLocalSubConst := by rw [isCoalesce]; decide
  have widthEq : instr.width = 5 := by rw [Instr.width, isCoalesce]; rfl
  have newWidthEq : newWidth instr = 5 := by rw [newWidth, isCoalesce, widthEq]; rfl
  obtain ⟨exit, body, offsetsFit, targets⟩ := slot.exists_retarget notHexa
  have exitEq := offsetsFit.verbatim isCoalesce
  have entry : (ipMapOf program)[extent Instr.width before + 5 + instr.u32 1]? =
      some (extent newWidth before + 5 + instr.u32 1) := by
    rw [newTargets, isCoalesce, instrTargets, Instr.target, isCoalesce, newWidthEq, exitEq]
      at targets
    simpa [Op.layout] using targets.symm
  have split' : program.instrs = (before ++ [instr]) ++ after := by simp [split]
  have boundary : IsBoundary Instr.width program.instrs
      (extent Instr.width before + 5 + instr.u32 1) := by
    obtain ⟨first, last, splitEq, targetEq, -⟩ := exists_of_ipMapOf_pos entry (by omega)
    exact ⟨first, last, splitEq, targetEq⟩
  have throughSlot : extent Instr.width (before ++ [instr]) = extent Instr.width before + 5 := by
    simp [widthEq]
  obtain ⟨between, rest, rfl, targetEq⟩ :=
    exists_between (fun other _ => other.width_pos) split' boundary (by rw [throughSlot]; omega)
  have moved := getElem?_ipMapOf_extent
    (show program.instrs = (before ++ [instr] ++ between) ++ rest by simp [split])
  rw [extent_append, ← targetEq, entry, extent_append, extent_append, extent_cons, extent_nil,
    newWidthEq, Option.some.injEq] at moved
  have keepsLength : extent newWidth between = extent Instr.width between := by omega
  have keepsWidth := (extent_eq_iff fun other _ => width_le_newWidth other).mp keepsLength
  apply keepsWidth
  have placedMem : (start, skipped) ∈
      placed Instr.width 0 (before ++ [instr] ++ between ++ rest) := by
    rw [Program.listing, split'] at skippedMem
    simpa using skippedMem
  refine mem_of_start_between skipped.width_pos placedMem ?_ (by omega)
  by_contra early
  rw [throughSlot] at early
  rw [append_assoc, append_assoc, placed_append, mem_append] at placedMem
  rcases placedMem with inBefore | later
  · have bounds := add_width_le_of_mem_placed inBefore
    omega
  · rw [singleton_append, placed_cons, mem_cons, zero_add] at later
    rcases later with same | beyond
    · have startEq := congrArg Prod.fst same
      change start = extent Instr.width before at startEq
      omega
    · have bounds := add_width_le_of_mem_placed beyond
      omega

end Slot

theorem defusable_of_defusePreserves {state : State} (clean : DecodesCleanly state.code)
    (preserves : DefusePreserves state) : Defusable state.code := by
  obtain ⟨program, codeEq⟩ := decodesCleanly_iff.mp clean
  obtain ⟨out, after, ipMap, built, mapped, -, slots⟩ := preserves
  rw [← codeEq, buildIpMap_code, Except.ok.injEq, Prod.mk.injEq] at mapped
  obtain ⟨rfl, outLength⟩ := mapped
  rw [← codeEq] at slots ⊢
  have slotAt : ∀ {before after : List Instr} {instr : Instr},
      program.instrs = before ++ instr :: after →
      ∃ bytes insts, Slot program out (extent Instr.width before) (extent newWidth before)
        instr bytes insts := by
    intro before after instr split
    have listed : (extent Instr.width before, instr) ∈ program.listing :=
      Program.mem_listing_iff.mpr ⟨before, after, split, rfl⟩
    exact (expandsInSlot_iff split).mp (slots _ (mem_listing_code listed))
  refine ⟨?_, ?_, ?_, ?_, ?_⟩
  · rw [sum_expandedWidth]
    rw [buildDefusedCode] at built
    split_ifs at built with empty
    · rw [State.codeLen, ← codeEq, program.length_code] at empty
      have noInstrs : program.instrs = [] := by
        cases instrs : program.instrs with
        | nil => rfl
        | cons instr rest =>
          have instrPos := instr.width_pos
          rw [instrs, extent_cons] at empty
          omega
      rw [noInstrs]
      exact zero_le _
    · rw [← codeEq, buildIpMap_code] at built
      by_contra tooLarge
      change (if extent newWidth program.instrs > MaxCode then _ else _) = _ at built
      rw [if_pos (not_le.mp tooLarge)] at built
      cases built
  · intro item itemMem
    obtain ⟨pos, instr, listed, rfl⟩ := exists_of_mem_listing_code itemMem
    obtain ⟨before, after, split, rfl⟩ := Program.mem_listing_iff.mp listed
    obtain ⟨bytes, insts, slot⟩ := slotAt split
    exact slot.notIncLoop
  · intro item itemMem forward target targetMem
    obtain ⟨pos, instr, listed, rfl⟩ := exists_of_mem_listing_code itemMem
    obtain ⟨before, after, split, rfl⟩ := Program.mem_listing_iff.mp listed
    obtain ⟨bytes, insts, slot⟩ := slotAt split
    rw [branchTargets_of_mem listed] at targetMem
    exact slot.sweep_of_forward forward targetMem
  · intro item itemMem isCoalesce skipped skippedMem starts stops
    obtain ⟨pos, instr, listed, rfl⟩ := exists_of_mem_listing_code itemMem
    obtain ⟨before, after, split, rfl⟩ := Program.mem_listing_iff.mp listed
    obtain ⟨start, other, otherListed, rfl⟩ := exists_of_mem_listing_code skippedMem
    obtain ⟨bytes, insts, slot⟩ := slotAt split
    refine slot.coalesce split isCoalesce otherListed starts (stops _ ?_)
    change instr.target _ = some _
    have isCoalesce' : instr.op = .jumpIfNotNull := isCoalesce
    rw [Instr.target, isCoalesce']
    rfl
  · intro item itemMem hexa
    obtain ⟨pos, instr, listed, rfl⟩ := exists_of_mem_listing_code itemMem
    obtain ⟨before, after, split, rfl⟩ := Program.mem_listing_iff.mp listed
    obtain ⟨bytes, insts, slot⟩ := slotAt split
    rw [callTailAt_of_mem listed hexa]
    exact slot.callTail hexa

end Gengo.Defuse
