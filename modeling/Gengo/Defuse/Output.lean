import Gengo.Defuse.Slots

/-!
# What the defuse pass preserves

On code that meets the condition every branch offset can be computed and every
replacement fills its slot, so the pass preserves layout and control flow. With
the converse this characterizes the chunks the pass is right about.
-/

namespace Gengo.Defuse

open Bytecode Records List Option Nat

section Boundaries

variable {program : Program} {before after : List Instr} {instr : Instr}

variable {target : ℕ}

section

variable (split : program.instrs = before ++ instr :: after)
include split

theorem extent_le_of_sweep (swept : Sweep program.code target)
    (past : extent Instr.width before < target) :
    extent Instr.width (before ++ [instr]) ≤ target := by
  obtain ⟨between, rest, split', targetEq⟩ :=
    exists_between (fun other _ => other.width_pos) split (program.sweep_iff.mp swept) past.le
  cases between with
  | nil => simp at targetEq; omega
  | cons head tail =>
    obtain ⟨rfl, -⟩ := List.cons.inj split'
    rw [targetEq, extent_append, extent_cons, extent_cons, extent_nil]
    omega

theorem exists_fwdOff {newEnd : ℕ} (fits : extent newWidth program.instrs ≤ MaxCode)
    (swept : Sweep program.code target) (past : extent Instr.width before < target)
    (newEndLe : newEnd ≤ extent newWidth (before ++ [instr])) :
    ∃ offset, fwdOff (ipMapOf program) target newEnd = some offset := by
  have split' : program.instrs = (before ++ [instr]) ++ after := by simp [split]
  obtain ⟨between, rest, rfl, rfl⟩ := exists_between (fun other _ => other.width_pos) split'
    (program.sweep_iff.mp swept) (extent_le_of_sweep split swept past)
  have entry := getElem?_ipMapOf_extent
    (show program.instrs = (before ++ [instr] ++ between) ++ rest by simp [split])
  have whole : extent newWidth program.instrs =
      extent newWidth (before ++ [instr] ++ between) + extent newWidth rest := by
    rw [← extent_append, split]
    simp
  rw [extent_append _ _ between] at entry
  refine ⟨extent newWidth (before ++ [instr] ++ between) - newEnd, fwdOff_eq_some_iff.mpr ?_⟩
  rw [entry, extent_append _ _ between, some.injEq]
  rw [extent_append _ _ between] at whole
  rw [MaxCode] at fits
  omega

/-- The offset of a backward branch can be computed wherever it leads. -/
theorem exists_bwdOff (fits : extent newWidth program.instrs ≤ MaxCode)
    (notPast : target ≤ extent Instr.width (before ++ [instr])) :
    ∃ offset, bwdOff (ipMapOf program) target (extent newWidth (before ++ [instr])) =
      some offset := by
  have split' : program.instrs = (before ++ [instr]) ++ after := by simp [split]
  have whole : extent newWidth program.instrs =
      extent newWidth (before ++ [instr]) + extent newWidth after := by
    rw [split', extent_append]
  have inside : target ≤ program.code.length := by
    rw [program.length_code, split', extent_append]
    omega
  have entry := getElem?_ipMapOf program target
  rw [if_pos inside] at entry
  rw [MaxCode] at fits
  cases located : relocate Instr.width newWidth program.instrs target with
  | none =>
    rw [located] at entry
    exact ⟨extent newWidth (before ++ [instr]), bwdOff_eq_some_iff.mpr
      ⟨le_rfl, by rw [entry, Nat.sub_self]; rfl, by omega⟩⟩
  | some newTarget =>
    have endLocated : relocate Instr.width newWidth program.instrs
        (extent Instr.width (before ++ [instr])) = some (extent newWidth (before ++ [instr])) := by
      rw [split']
      exact relocate_extent fun other _ => other.width_pos
    have newTargetLe := relocate_mono (fun other _ => other.width_pos) located endLocated notPast
    rw [located] at entry
    refine ⟨extent newWidth (before ++ [instr]) - newTarget, bwdOff_eq_some_iff.mpr
      ⟨by omega, ?_, by omega⟩⟩
    rw [entry, getD_some, some.injEq]
    omega

end

end Boundaries

private theorem forward_base_pos (op : Op) : ∀ offsetPos base,
    op.layout.branch = some (.forward offsetPos base) → 0 < base := by
  cases op <;> simp [Op.layout]

/-- On code that meets the condition every branch offset can be computed. -/
theorem exists_retarget_of_defusable {program : Program} (defusable : Defusable program.code)
    {before after : List Instr} {instr : Instr}
    (split : program.instrs = before ++ instr :: after) :
    ∃ exit body, retarget instr (extent Instr.width before) (ipMapOf program)
      (extent newWidth before + newWidth instr) = some (exit, body) := by
  have listed : (extent Instr.width before, instr) ∈ program.listing :=
    Program.mem_listing_iff.mpr ⟨before, after, split, rfl⟩
  have fits := defusable.fits
  rw [sum_expandedWidth] at fits
  have forward := defusable.forward _ (mem_listing_code listed)
  rw [branchTargets_of_mem listed] at forward
  change loopsBack instr.op = false → ∀ target ∈ instrTargets instr _, _ at forward
  have newEndEq : extent newWidth before + newWidth instr =
      extent newWidth (before ++ [instr]) := by simp
  rw [newEndEq]
  by_cases coalesce : instr.op = .jumpIfNotNull
  · exact ⟨instr.u32 1, 0, by rw [retarget, coalesce]⟩
  by_cases quint : instr.op = .getLocalConstLtJifPopJump
  · have targetsEq : instrTargets instr (extent Instr.width before) =
        [extent Instr.width before + 9 + instr.u32 5,
          extent Instr.width before + 13 + instr.u32 9] := by
      rw [instrTargets, Instr.target, if_pos quint, quint]
      rfl
    have swept := forward (by rw [loopsBack, quint]; rfl)
    rw [targetsEq] at swept
    obtain ⟨exit, exitEq⟩ := exists_fwdOff split fits
      (swept (extent Instr.width before + 9 + instr.u32 5) (by simp)) (by omega)
      (sub_le (extent newWidth (before ++ [instr])) 5)
    obtain ⟨body, bodyEq⟩ := exists_fwdOff split fits
      (swept (extent Instr.width before + 13 + instr.u32 9) (by simp)) (by omega) le_rfl
    refine ⟨exit, body, ?_⟩
    rw [retarget, quint]
    simp only [exitEq, bodyEq, bind_some]
  rw [retarget]
  split
  · exact absurd ‹_› coalesce
  · exact absurd ‹_› quint
  cases branch : instr.op.layout.branch with
  | none => exact ⟨0, 0, rfl⟩
  | some shape =>
    cases shape with
    | forward offsetPos base =>
      have basePos := forward_base_pos _ _ _ branch
      have targetMem : extent Instr.width before + base + instr.u32 offsetPos ∈
          instrTargets instr (extent Instr.width before) := by
        simp [instrTargets, Instr.target, branch]
      obtain ⟨offset, offsetEq⟩ := exists_fwdOff split fits
        (forward (by rw [loopsBack, branch]) _ targetMem) (by omega) le_rfl
      exact ⟨offset, 0, by simp only [offsetEq, map_some]⟩
    | backward offsetPos =>
      obtain ⟨offset, offsetEq⟩ := exists_bwdOff split fits
        (show extent Instr.width before + instr.width - instr.u32 offsetPos ≤
          extent Instr.width (before ++ [instr]) by
            rw [extent_append, extent_cons, extent_nil]; omega)
      exact ⟨offset, 0, by simp only [offsetEq, map_some]⟩

/-- The instructions the pass puts in the place of one instruction. -/
def replacement (ipMap : List ℕ) (pos newIp : ℕ) (instr : Instr) : List Instr :=
  match retarget instr pos ipMap (newIp + newWidth instr) with
  | some (exit, body) => expansion instr exit body
  | none => []

/-- A replacement fills its slot rightly. -/
structure Filled (program : Program) (pos newIp : ℕ) (instr : Instr) (instrs : List Instr) :
    Prop where
  emitted : emitExpanded instr.byte pos (instr.decoded pos) (ipMapOf program) newIp =
    some (assemble instrs)
  extent_eq : extent Instr.width instrs = newWidth instr
  inRange : ∀ item ∈ placed Instr.width newIp instrs, item.2.InRange item.1
  targets : ((decodedFrom newIp instrs).filterMap (·.jumpTarget)).map some =
    (instrTargets instr pos).map fun target => (ipMapOf program)[target]?

section Filling

variable {program : Program} {before after : List Instr} {instr : Instr}

/-- What the null-coalescing jump skips keeps its width, so its old offset is right. -/
theorem newTargets_of_coalesce (defusable : Defusable program.code)
    (split : program.instrs = before ++ instr :: after) (coalesce : instr.op = .jumpIfNotNull)
    (body : ℕ) :
    (newTargets instr (extent newWidth before) (instr.u32 1) body).map some =
      (instrTargets instr (extent Instr.width before)).map
        fun target => (ipMapOf program)[target]? := by
  have listed : (extent Instr.width before, instr) ∈ program.listing :=
    Program.mem_listing_iff.mpr ⟨before, after, split, rfl⟩
  have widthEq : instr.width = 5 := by rw [Instr.width, coalesce]; rfl
  have newWidthEq : newWidth instr = 5 := by rw [newWidth, coalesce, widthEq]; rfl
  have targetEq : instr.target (extent Instr.width before) =
      some (extent Instr.width before + 5 + instr.u32 1) := by
    rw [Instr.target, coalesce]
    rfl
  have targetsEq : instrTargets instr (extent Instr.width before) =
      [extent Instr.width before + 5 + instr.u32 1] := by
    rw [instrTargets, targetEq, coalesce]
    rfl
  have swept : Sweep program.code (extent Instr.width before + 5 + instr.u32 1) := by
    have forward := defusable.forward _ (mem_listing_code listed)
    rw [branchTargets_of_mem listed, targetsEq] at forward
    exact forward (by change loopsBack instr.op = false; rw [loopsBack, coalesce]; rfl) _ (by simp)
  have split' : program.instrs = (before ++ [instr]) ++ after := by simp [split]
  obtain ⟨between, rest, rfl, offsetEq⟩ := exists_between (fun other _ => other.width_pos) split'
    (program.sweep_iff.mp swept) (extent_le_of_sweep split swept (by omega))
  rw [extent_append, extent_cons, extent_nil, widthEq] at offsetEq
  have keeps : ∀ other ∈ between, newWidth other = other.width := by
    intro other otherMem
    obtain ⟨first, last, rfl⟩ := append_of_mem otherMem
    have otherListed : (extent Instr.width (before ++ [instr] ++ first), other) ∈
        program.listing :=
      Program.mem_listing_iff.mpr ⟨_, last ++ rest, by simp [split], rfl⟩
    refine defusable.coalesce _ (mem_listing_code listed) coalesce _
      (mem_listing_code otherListed) ?_ ?_
    · change extent Instr.width before < extent Instr.width (before ++ [instr] ++ first)
      simp only [extent_append, extent_cons, extent_nil, widthEq]
      omega
    · intro target targetMem
      change instr.target _ = some target at targetMem
      rw [targetEq, some.injEq] at targetMem
      have otherPos := other.width_pos
      change extent Instr.width (before ++ [instr] ++ first) < target
      simp only [extent_append, extent_cons, extent_nil, widthEq] at offsetEq ⊢
      omega
  have keepsLength : extent newWidth between = extent Instr.width between :=
    (extent_eq_iff fun other _ => width_le_newWidth other).mpr keeps
  have entry := getElem?_ipMapOf_extent
    (show program.instrs = (before ++ [instr] ++ between) ++ rest by simp [split])
  simp only [extent_append, extent_cons, extent_nil, widthEq, newWidthEq] at entry offsetEq
  rw [targetsEq, newTargets, coalesce]
  change [some (extent newWidth before + newWidth instr + instr.u32 1)] =
    [(ipMapOf program)[extent Instr.width before + 5 + instr.u32 1]?]
  have endEq : extent Instr.width before + 5 + instr.u32 1 =
      extent Instr.width before + (5 + 0) + extent Instr.width between := by omega
  rw [endEq, entry, newWidthEq]
  congr 2
  omega

/-- A hexa-fused call fills its slot with the global read and the code it copied. -/
theorem filled_hexa (hexa : instr.op = .callGlobalLocalSubConst) {instrs : List Instr}
    (disassembled : disassemble (callTailBytes instr) = some instrs)
    (straight : ∀ other ∈ instrs, other.op.layout.branch = none) (pos newIp exit body : ℕ) :
    Filled program pos newIp instr (expansion instr exit body) := by
  have bytesEq := disassemble_eq_some_iff.mp disassembled
  have noTarget : ∀ other ∈ instrs, ∀ start, other.target start = none := by
    intro other otherMem start
    rw [Instr.target, straight other otherMem]
  have expansionEq : expansion instr exit body =
      ⟨.getGlobal, [instr.byte 1, instr.byte 2, instr.byte 3, instr.byte 4], rfl⟩ :: instrs := by
    rw [expansion, hexa, disassembled]
    rfl
  rw [expansionEq]
  refine ⟨?_, ?_, ?_, ?_⟩
  · rw [assemble_cons, bytesEq]
    obtain ⟨op, operands, fits⟩ := instr
    obtain rfl : op = .callGlobalLocalSubConst := hexa
    rfl
  · have lengths := congrArg List.length bytesEq
    rw [length_assemble] at lengths
    rw [extent_cons, lengths, newWidth, hexa]
    rfl
  · rintro ⟨start, other⟩ otherPlaced
    have backFree : other.op.layout.branch = none := by
      rcases mem_cons.mp otherPlaced with same | later
      · obtain ⟨rfl, rfl⟩ := Prod.mk.inj same
        rfl
      · obtain ⟨first, last, rfl, -⟩ := mem_placed_iff.mp later
        exact straight other (by simp)
    rw [Instr.InRange, backFree]
    trivial
  · have noTargets : (decodedFrom newIp
        (⟨.getGlobal, [instr.byte 1, instr.byte 2, instr.byte 3, instr.byte 4], rfl⟩ ::
          instrs)).filterMap (·.jumpTarget) = [] := by
      rw [decodedFrom, filterMap_eq_nil_iff]
      intro inst instMem
      obtain ⟨⟨start, other⟩, otherPlaced, rfl⟩ := mem_map.mp instMem
      rcases mem_cons.mp otherPlaced with same | later
      · obtain ⟨rfl, rfl⟩ := Prod.mk.inj same
        rfl
      · obtain ⟨first, last, rfl, -⟩ := mem_placed_iff.mp later
        exact noTarget other (by simp) start
    rw [noTargets, instrTargets, Instr.target, hexa]
    rfl

theorem filled_replacement (defusable : Defusable program.code)
    (split : program.instrs = before ++ instr :: after) :
    Filled program (extent Instr.width before) (extent newWidth before) instr
      (replacement (ipMapOf program) (extent Instr.width before) (extent newWidth before)
        instr) := by
  have listed : (extent Instr.width before, instr) ∈ program.listing :=
    Program.mem_listing_iff.mpr ⟨before, after, split, rfl⟩
  obtain ⟨exit, body, retargeted⟩ := exists_retarget_of_defusable defusable split
  have notIncLoop : instr.op ≠ .incGlobalConstLoop :=
    defusable.noIncLoop _ (mem_listing_code listed)
  simp only [replacement, retargeted]
  by_cases hexa : instr.op = .callGlobalLocalSubConst
  · obtain ⟨instrs, disassembled, straight⟩ :=
      defusable.callTail _ (mem_listing_code listed) hexa
    rw [callTailAt_of_mem listed hexa] at disassembled
    exact filled_hexa hexa disassembled straight _ _ _ _
  · have offsetsFit := offsetsFit_of_retarget retargeted
    refine ⟨?_, extent_expansion hexa notIncLoop exit body,
      inRange_expansion hexa notIncLoop offsetsFit, ?_⟩
    · rw [emitExpanded_eq hexa]
      change Option.map _ (retarget instr _ _ (extent newWidth before + newWidth instr)) = _
      rw [retargeted]
      rfl
    · rw [targets_expansion hexa notIncLoop offsetsFit]
      by_cases coalesce : instr.op = .jumpIfNotNull
      · rw [offsetsFit.verbatim coalesce]
        exact newTargets_of_coalesce defusable split coalesce body
      · exact newTargets_of_retarget coalesce retargeted

end Filling

theorem defusePreserves_of_defusable {state : State} (clean : DecodesCleanly state.code)
    (defusable : Defusable state.code) : DefusePreserves state := by
  obtain ⟨program, codeEq⟩ := decodesCleanly_iff.mp clean
  rw [← codeEq] at defusable
  have filled : ∀ entry ∈ relocated Instr.width newWidth 0 0 program.instrs,
      Filled program entry.1 entry.2.1 entry.2.2
        (replacement (ipMapOf program) entry.1 entry.2.1 entry.2.2) := by
    rintro ⟨pos, newIp, instr⟩ entryMem
    obtain ⟨before, after, split, rfl, rfl⟩ := mem_relocated_iff.mp entryMem
    rw [zero_add, zero_add]
    exact filled_replacement defusable split
  have fills := fun entry entryMem => (filled entry entryMem).extent_eq
  have emitted := emitAll_code (fun entry entryMem => (filled entry entryMem).emitted) fills
  have totalFits := defusable.fits
  rw [sum_expandedWidth] at totalFits
  let out : Program :=
    ⟨expandAll Instr.width newWidth (replacement (ipMapOf program)) 0 0 program.instrs, by
      intro item itemMem
      obtain ⟨entry, entryMem, inEntry⟩ := exists_of_mem_placed_expandAll fills itemMem
      exact (filled entry entryMem).inRange item inEntry⟩
  have outLength : out.code.length = extent newWidth program.instrs := by
    rw [out.length_code]
    exact extent_expandAll fills
  have built : ∃ after, buildDefusedCode state = .ok (out.code, after) := by
    rw [buildDefusedCode]
    split_ifs with empty
    · have noCode : out.code = [] := by
        have noInstrs : program.instrs = [] := by
          rw [State.codeLen, ← codeEq, program.length_code] at empty
          cases instrs : program.instrs with
          | nil => rfl
          | cons instr rest =>
            have instrPos := instr.width_pos
            rw [instrs, extent_cons] at empty
            omega
        rw [← length_eq_zero_iff, outLength, noInstrs]
        rfl
      exact ⟨state, by rw [noCode]⟩
    · refine ⟨state.remapConstFuncIps (ipMapOf program), ?_⟩
      rw [State.codeLen, ← codeEq, buildIpMap_code]
      change (if extent newWidth program.instrs > MaxCode then _ else _) = _
      rw [if_neg (not_lt.mpr totalFits)]
      change (emitAll program.code (ipMapOf program) program.code.length 0 0).bind _ = _
      rw [emitted]
      rfl
  obtain ⟨after, builtEq⟩ := built
  refine ⟨out.code, after, ipMapOf program, builtEq, ?_, out.decodesCleanly, ?_⟩
  · rw [← codeEq, buildIpMap_code, outLength]
  · rw [← codeEq]
    intro item itemMem
    obtain ⟨pos, instr, listed, rfl⟩ := exists_of_mem_listing_code itemMem
    obtain ⟨before, rest, split, rfl⟩ := Program.mem_listing_iff.mp listed
    refine (expandsInSlot_iff split).mpr ?_
    have entryMem : (extent Instr.width before, extent newWidth before, instr) ∈
        relocated Instr.width newWidth 0 0 program.instrs :=
      mem_relocated_iff.mpr ⟨before, rest, split, by simp, by simp⟩
    have slotFilled := filled _ entryMem
    obtain ⟨first, last, outSplit, startEq⟩ := exists_split_expandAll fills entryMem
    generalize replacement (ipMapOf program) (extent Instr.width before)
      (extent newWidth before) instr = slot at slotFilled outSplit
    rw [zero_add] at startEq
    have codeSplit : out.code = assemble first ++ assemble slot ++ assemble last := by
      rw [← assemble_append, ← assemble_append, ← outSplit]
      rfl
    have firstLength : (assemble first).length = extent newWidth before := by
      rw [length_assemble, startEq]
    have run := @run_of_placed (assemble first) (assemble last) slot
      (by rw [firstLength]; exact slotFilled.inRange)
    rw [← codeSplit, firstLength, slotFilled.extent_eq] at run
    refine ⟨_, _, slotFilled.emitted, ?_, ?_, run, slotFilled.targets⟩
    · rw [length_assemble, slotFilled.extent_eq]
    · rw [codeSplit, append_assoc, drop_left' firstLength,
        take_left' (by rw [length_assemble, slotFilled.extent_eq])]

/-- **The defuse pass.** On code that decodes cleanly the pass preserves layout and
control flow exactly when the expanded code fits, no captured increment loop occurs,
forward branches lead to instruction starts, null-coalescing jumps skip nothing that
changes its width, and hexa-fused calls copy straight code. -/
theorem defusePreserves_iff (state : State) (clean : DecodesCleanly state.code) :
    DefusePreserves state ↔ Defusable state.code :=
  ⟨defusable_of_defusePreserves clean, defusePreserves_of_defusable clean⟩

/-- `true` tested, `return c` skipped: the branch moves with the widened return. -/
def branchOverReturn : State where
  code := [0x1A, 0x04, 0, 0, 0, 3, 0xD6, 0, 0, 0x00]
  codeLen_le := by decide

theorem defusePreserves_branchOverReturn : DefusePreserves branchOverReturn := by
  have clean : DecodesCleanly branchOverReturn.code :=
    ⟨_, .cons rfl (.cons rfl (.cons rfl (.cons rfl (.nil _))))⟩
  have targets : ∀ item ∈ listing branchOverReturn.code,
      ∀ target ∈ branchTargets branchOverReturn.code item.1 item.2, target = 9 := by decide
  refine (defusePreserves_iff branchOverReturn clean).mpr
    ⟨by decide, by decide, ?_, by decide, by decide⟩
  intro item itemMem _ target targetMem
  rw [targets item itemMem target targetMem]
  exact ⟨_, .cons rfl (.cons rfl (.cons rfl (.nil _)))⟩

/-- `a ?? (n + 1)` after fusion: a null, the jump past the right operand, and the
right operand with its fused addition. -/
def coalesceOverAddition : State where
  code := [0x18, 0x05, 0, 0, 0, 6, 0x1D, 0xC7, 0, 0xC2, 0, 0, 0x00]
  codeLen_le := by decide

/-- The pass leaves the jump of `??` short of its moved target. -/
theorem not_defusePreserves_coalesceOverAddition :
    DecodesCleanly coalesceOverAddition.code ∧ ¬ DefusePreserves coalesceOverAddition := by
  have clean : DecodesCleanly coalesceOverAddition.code :=
    ⟨_, .cons rfl (.cons rfl (.cons rfl (.cons rfl (.cons rfl (.nil _)))))⟩
  refine ⟨clean, fun preserves => ?_⟩
  have keepsWidth := (defusable_of_defusePreserves clean preserves).coalesce
    (1, ⟨.jumpIfNotNull, 5, none, none, some 12⟩) (by decide) rfl
    (7, ⟨.getLocalConstAdd, 5, some 0, some 10, none⟩) (by decide) (by decide) (by decide)
  exact absurd keepsWidth (by decide)

/-!
# What a successful run emits

A run of the defuse pass that succeeds on clean code with the opcode bytes that
fused instructions embed emits a program: every instruction in its slot as one of
its expansions, whether or not the branches lead where they should.
-/

open Except

/-- The instruction holds the opcode byte that its opcode embeds. -/
def Embeds (instr : Instr) : Prop :=
  ∀ offset inner, instr.op.embedded = some (offset, inner) → instr.byte offset = inner.toByte

theorem embeds_of_mem {program : Program} {pos : ℕ} {instr : Instr}
    (embeds : EmbedsOpcodes program.code) (listed : (pos, instr) ∈ program.listing) :
    Embeds instr := by
  intro offset inner same
  rw [← getD_code_of_mem listed (instr.op.embedded_lt_width offset inner same)]
  exact embeds _ (mem_listing_code listed) offset inner same

/-- The instruction a hexa-fused call holds behind its global read. -/
def hexaTail (instr : Instr) : Instr :=
  ⟨.getLocalConstSubCall, [instr.byte 6, instr.byte 7, instr.byte 8, instr.byte 9,
    instr.byte 10, instr.byte 11, instr.byte 12], Eq.refl Op.getLocalConstSubCall.width⟩

theorem disassemble_callTailBytes {instr : Instr} (embeds : Embeds instr)
    (hexa : instr.op = .callGlobalLocalSubConst) :
    disassemble (callTailBytes instr) = some [hexaTail instr] := by
  have opcode : instr.byte 5 = Op.getLocalConstSubCall.toByte :=
    embeds 5 _ (by rw [hexa]; rfl)
  refine disassemble_eq_some_iff.mpr ?_
  change Op.getLocalConstSubCall.toByte :: _ = instr.byte 5 :: _
  rw [opcode]
  rfl

/-- The instructions are an expansion of `instr` that fills its slot at `newIp`. -/
structure Expands (newIp : ℕ) (instr : Instr) (instrs : List Instr) : Prop where
  expansion : ∃ exit body, instrs = Defuse.expansion instr exit body
  extent_eq : extent Instr.width instrs = newWidth instr
  inRange : ∀ item ∈ placed Instr.width newIp instrs, item.2.InRange item.1

/-- What is written for an instruction and fits its slot is one of its expansions. -/
theorem expands_of_emitted {instr : Instr} (embeds : Embeds instr) {pos newIp : ℕ}
    {ipMap : List ℕ} {bytes : List UInt8}
    (emitted : emitExpanded instr.byte pos (instr.decoded pos) ipMap newIp = some bytes)
    (fits : bytes.length ≤ newWidth instr) :
    bytes = assemble (replacement ipMap pos newIp instr) ∧
      Expands newIp instr (replacement ipMap pos newIp instr) := by
  by_cases hexa : instr.op = .callGlobalLocalSubConst
  · have filled := @filled_hexa ⟨[], nofun⟩ instr hexa _ (disassemble_callTailBytes embeds hexa)
      (by simp [hexaTail, Op.layout]) pos newIp 0 0
    have replaced : replacement ipMap pos newIp instr = expansion instr 0 0 := by
      rw [replacement, retarget, hexa]
      rfl
    have same : emitExpanded instr.byte pos (instr.decoded pos) ipMap newIp =
        some (assemble (expansion instr 0 0)) := by
      rw [← filled.emitted]
      obtain ⟨op, operands, width⟩ := instr
      obtain rfl : op = .callGlobalLocalSubConst := hexa
      rfl
    rw [replaced]
    exact ⟨some.inj (emitted.symm.trans same), ⟨0, 0, rfl⟩, filled.extent_eq, filled.inRange⟩
  · rw [emitExpanded_eq hexa] at emitted
    obtain ⟨⟨exit, body⟩, retargeted, rfl⟩ := map_eq_some_iff.mp emitted
    have replaced : replacement ipMap pos newIp instr = expansion instr exit body := by
      have sameTarget : retarget instr pos ipMap (newIp + newWidth instr) = some (exit, body) :=
        retargeted
      rw [replacement, sameTarget]
    have notIncLoop : instr.op ≠ .incGlobalConstLoop := by
      intro incLoop
      rw [length_assemble, extent_expansion_incGlobalConstLoop incLoop] at fits
      omega
    rw [replaced]
    exact ⟨rfl, ⟨exit, body, rfl⟩, extent_expansion hexa notIncLoop exit body,
      inRange_expansion hexa notIncLoop (offsetsFit_of_retarget retargeted)⟩

/-- What the pass emits for clean code: every instruction expanded in its slot. -/
structure Output (program output : Program) (ipMap : List ℕ) : Prop where
  instrs : output.instrs = expandAll Instr.width newWidth (replacement ipMap) 0 0 program.instrs
  expands : ∀ entry ∈ relocated Instr.width newWidth 0 0 program.instrs,
    Expands entry.2.1 entry.2.2 (replacement ipMap entry.1 entry.2.1 entry.2.2)

theorem instrs_eq_nil {program : Program} (empty : program.code.length = 0) :
    program.instrs = [] := by
  rw [program.length_code] at empty
  cases instrs : program.instrs with
  | nil => rfl
  | cons instr rest =>
    have instrPos := instr.width_pos
    rw [instrs, extent_cons] at empty
    omega

variable {out : List UInt8}

theorem output_of_emitAll {program : Program} {ipMap : List ℕ}
    (embeds : EmbedsOpcodes program.code)
    (emitted : emitAll program.code ipMap program.code.length 0 0 = .ok out) :
    ∃ output : Program, output.code = out ∧ Output program output ipMap := by
  have slots : ∀ entry ∈ relocated Instr.width newWidth 0 0 program.instrs,
      emitExpanded entry.2.2.byte entry.1 (entry.2.2.decoded entry.1) ipMap entry.2.1 =
        some (assemble (replacement ipMap entry.1 entry.2.1 entry.2.2)) ∧
      Expands entry.2.1 entry.2.2 (replacement ipMap entry.1 entry.2.1 entry.2.2) := by
    rintro ⟨pos, newIp, instr⟩ entryMem
    obtain ⟨bytes, written, fits⟩ := emits_of_emitAll emitted _ entryMem
    obtain ⟨before, after, split, rfl, rfl⟩ := mem_relocated_iff.mp entryMem
    have listed : (0 + extent Instr.width before, instr) ∈ program.listing :=
      Program.mem_listing_iff.mpr ⟨before, after, split, zero_add _⟩
    obtain ⟨bytesEq, expands⟩ := expands_of_emitted (embeds_of_mem embeds listed) written fits
    exact ⟨bytesEq ▸ written, expands⟩
  have fills := fun entry entryMem => (slots entry entryMem).2.extent_eq
  have whole := emitAll_code (fun entry entryMem => (slots entry entryMem).1) fills
  let output : Program :=
    ⟨expandAll Instr.width newWidth (replacement ipMap) 0 0 program.instrs, by
      intro item itemMem
      obtain ⟨entry, entryMem, inEntry⟩ := exists_of_mem_placed_expandAll fills itemMem
      exact (slots entry entryMem).2.inRange item inEntry⟩
  exact ⟨output, ok.inj (whole.symm.trans emitted), rfl,
    fun entry entryMem => (slots entry entryMem).2⟩

variable {state cs : State}

section

variable {program : Program} (codeEq : program.code = state.code)
include codeEq

section

variable (built : buildDefusedCode state = .ok (out, cs))
include built

/-- A run that succeeds leaves empty code alone, or has written new code within the size
limit and moved the function entries. -/
theorem cases_of_buildDefusedCode :
    (program.code.length = 0 ∧ out = [] ∧ cs = state) ∨
      (extent newWidth program.instrs ≤ MaxCode ∧
        emitAll program.code (ipMapOf program) program.code.length 0 0 = .ok out ∧
        cs = state.remapConstFuncIps (ipMapOf program)) := by
  rw [buildDefusedCode, State.codeLen, ← codeEq, buildIpMap_code] at built
  split at built
  case isTrue empty =>
    obtain ⟨rfl, rfl⟩ := Prod.mk.inj (ok.inj built)
    exact .inl ⟨empty, rfl, rfl⟩
  case isFalse =>
    change (if extent newWidth program.instrs > MaxCode then _ else
      (emitAll program.code (ipMapOf program) program.code.length 0 0).bind _) = _ at built
    split at built
    case isTrue => cases built
    case isFalse fits =>
      cases emitted : emitAll program.code (ipMapOf program) program.code.length 0 0 with
      | error _ =>
        rw [emitted] at built
        cases built
      | ok bytes =>
        rw [emitted] at built
        obtain ⟨rfl, rfl⟩ := Prod.mk.inj (ok.inj built)
        exact .inr ⟨Nat.le_of_not_lt fits, rfl, rfl⟩

/-- A run that succeeds moves at most the function entries of the chunk. -/
theorem cs_of_buildDefusedCode : cs = state ∨ cs = state.remapConstFuncIps (ipMapOf program) := by
  rcases cases_of_buildDefusedCode codeEq built with ⟨-, -, same⟩ | ⟨-, -, moved⟩
  · exact .inl same
  · exact .inr moved

/-- The new code respects the size limit of a chunk. -/
theorem length_buildDefusedCode : out.length ≤ MaxCode := by
  rcases cases_of_buildDefusedCode codeEq built with ⟨-, rfl, -⟩ | ⟨fits, emitted, -⟩
  · exact zero_le _
  · rwa [length_emitAll emitted]

end

/-- A run that succeeds emits a program. -/
theorem exists_output (embeds : EmbedsOpcodes program.code)
    (built : buildDefusedCode state = .ok (out, cs)) :
    ∃ output, output.code = out ∧ Output program output (ipMapOf program) := by
  rcases cases_of_buildDefusedCode codeEq built with ⟨empty, rfl, -⟩ | ⟨-, emitted, -⟩
  · have noInstrs := instrs_eq_nil empty
    exact ⟨⟨[], nofun⟩, rfl, ⟨by rw [noInstrs]; rfl, by rw [noInstrs]; nofun⟩⟩
  · exact output_of_emitAll embeds emitted

end

namespace Output

open List

variable {program output : Program} {ipMap : List ℕ}

/-- Every instruction of the output stands in the expansion of some instruction. -/
theorem exists_source (isOutput : Output program output ipMap) {pos : ℕ} {instr : Instr}
    (listed : (pos, instr) ∈ output.listing) :
    ∃ entry ∈ program.listing, ∃ exit body, instr ∈ expansion entry.2 exit body := by
  rw [Program.listing, isOutput.instrs] at listed
  obtain ⟨⟨start, newIp, source⟩, entryMem, inEntry⟩ := exists_of_mem_placed_expandAll
    (fun entry entryMem => (isOutput.expands entry entryMem).extent_eq) listed
  obtain ⟨exit, body, same⟩ := (isOutput.expands _ entryMem).expansion
  obtain ⟨before, after, split, rfl, rfl⟩ := mem_relocated_iff.mp entryMem
  obtain ⟨first, last, slotSplit, -⟩ := mem_placed_iff.mp inEntry
  refine ⟨(0 + extent Instr.width before, source),
    Program.mem_listing_iff.mpr ⟨before, after, split, zero_add _⟩, exit, body, ?_⟩
  rw [← same]
  exact slotSplit ▸ by simp

/-- Every instruction of an expansion stands somewhere in the output. -/
theorem exists_expansion (isOutput : Output program output ipMap) {entry : ℕ × Instr}
    (listed : entry ∈ program.listing) :
    ∃ exit body, ∀ instr ∈ expansion entry.2 exit body, ∃ pos, (pos, instr) ∈ output.listing := by
  obtain ⟨before, after, split, start⟩ := Program.mem_listing_iff.mp listed
  have entryMem : (extent Instr.width before, extent newWidth before, entry.2) ∈
      relocated Instr.width newWidth 0 0 program.instrs :=
    mem_relocated_iff.mpr ⟨before, after, split, by simp, by simp⟩
  obtain ⟨exit, body, same⟩ := (isOutput.expands _ entryMem).expansion
  refine ⟨exit, body, fun instr instrMem => ?_⟩
  obtain ⟨first, last, whole, -⟩ := exists_split_expandAll
    (fun entry entryMem => (isOutput.expands entry entryMem).extent_eq) entryMem
  obtain ⟨inner, outer, slotSplit⟩ := append_of_mem (same ▸ instrMem)
  exact ⟨_, Program.mem_listing_iff.mpr ⟨first ++ inner, outer ++ last, by
    rw [isOutput.instrs, whole, slotSplit]
    simp, rfl⟩⟩

end Output

end Gengo.Defuse
