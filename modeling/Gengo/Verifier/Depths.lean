import Gengo.Vm.Frames

/-!
# What the two sweeps establish

Pass 1 marks the instruction starts: the positions below the end of the code at
which a sweep from offset zero stops. Both sweeps make their checks at each of
them.
-/

namespace Gengo.Verifier

open Bytecode Fallible Vm List Option Except

theorem decode_eq_ok {state : State} {ip : ℕ} {inst : DecodedInstruction} :
    decode state ip = .ok inst ↔ decodeAt state.code ip = .ok inst :=
  mapError_eq_ok

/-- A decoder's run ends where it starts, or goes on after the first instruction. -/
theorem run_cases {code : List UInt8} {start stop : ℕ} {insts : List DecodedInstruction}
    (swept : Run code start stop insts) :
    stop = start ∨ ∃ inst later, decodeAt code start = .ok inst ∧
      Run code (start + inst.width) stop later := by
  cases swept with
  | nil => exact .inl rfl
  | cons decoded rest => exact .inr ⟨_, _, decoded, rest⟩

section Sweeps

variable {α : Type} {state : State}
  {body : α → ℕ → DecodedInstruction → Except VerifyError α}

/-- A sweep that succeeds has run its body at every start it passes. -/
theorem exists_of_sweepFrom {fuel start : ℕ} {acc result : α}
    (enough : state.codeLen ≤ start + fuel)
    (done : sweepFrom state body fuel start acc = .ok result)
    {pos : ℕ} {insts : List DecodedInstruction} (swept : Run state.code start pos insts)
    (inside : pos < state.codeLen) :
    ∃ inst before after, decodeAt state.code pos = .ok inst ∧ body before pos inst = .ok after := by
  induction fuel generalizing start acc insts with
  | zero =>
    have := swept.le
    omega
  | succ fuel ih =>
    have startInside : start < state.codeLen := lt_of_le_of_lt swept.le inside
    rw [sweepFrom, if_pos startInside] at done
    obtain ⟨inst, decoded, rest⟩ := bind_eq_ok.mp done
    obtain ⟨after, bodyOk, rest⟩ := bind_eq_ok.mp rest
    rw [decode_eq_ok] at decoded
    rcases run_cases swept with rfl | ⟨first, later, firstDecoded, laterSwept⟩
    · exact ⟨inst, acc, after, decoded, bodyOk⟩
    · obtain rfl : inst = first := ok.inj (decoded.symm.trans firstDecoded)
      have positive := width_pos_of_decodeAt decoded
      exact ih (by omega) rest laterSwept

theorem mem_sweepFrom_markStart {fuel start : ℕ} {acc starts : List ℕ}
    (enough : state.codeLen ≤ start + fuel)
    (done : sweepFrom state (markStart state) fuel start acc = .ok starts) {pos : ℕ} :
    pos ∈ starts ↔ pos ∈ acc ∨ pos < state.codeLen ∧ ∃ insts, Run state.code start pos insts := by
  induction fuel generalizing start acc with
  | zero =>
    obtain rfl : acc = starts := ok.inj done
    constructor
    · exact .inl
    · rintro (member | ⟨inside, insts, swept⟩)
      · exact member
      · have := swept.le
        omega
  | succ fuel ih =>
    rw [sweepFrom] at done
    by_cases startInside : start < state.codeLen
    · rw [if_pos startInside] at done
      obtain ⟨inst, decoded, rest⟩ := bind_eq_ok.mp done
      obtain ⟨after, bodyOk, rest⟩ := bind_eq_ok.mp rest
      rw [decode_eq_ok] at decoded
      obtain ⟨_, _, bodyOk⟩ := bind_eq_ok.mp bodyOk
      obtain ⟨_, _, bodyOk⟩ := bind_eq_ok.mp bodyOk
      obtain rfl : start :: acc = after := ok.inj bodyOk
      have positive := width_pos_of_decodeAt decoded
      rw [ih (by omega) rest, mem_cons]
      constructor
      · rintro ((rfl | member) | ⟨inside, insts, swept⟩)
        · exact .inr ⟨startInside, [], .nil _⟩
        · exact .inl member
        · exact .inr ⟨inside, _, .cons decoded swept⟩
      · rintro (member | ⟨inside, insts, swept⟩)
        · exact .inl (.inr member)
        · rcases run_cases swept with rfl | ⟨first, later, firstDecoded, laterSwept⟩
          · exact .inl (.inl rfl)
          · obtain rfl : inst = first := ok.inj (decoded.symm.trans firstDecoded)
            exact .inr ⟨inside, later, laterSwept⟩
    · rw [if_neg startInside] at done
      obtain rfl : acc = starts := ok.inj done
      constructor
      · exact .inl
      · rintro (member | ⟨inside, insts, swept⟩)
        · exact member
        · have := swept.le
          omega

end Sweeps

section Marked

variable {state : State} {starts : List ℕ} (marked : markStarts state = .ok starts)
include marked

theorem mem_starts_iff {pos : ℕ} : pos ∈ starts ↔ pos < state.codeLen ∧ Sweep state.code pos := by
  rw [mem_sweepFrom_markStart (Nat.le_add_left _ _) marked]
  simp [Sweep]

theorem isStart_iff {pos : ℕ} :
    isStart state starts pos ↔ pos < state.codeLen ∧ Sweep state.code pos := by
  rw [isStart, Bool.and_eq_true, decide_eq_true_iff, contains_iff_mem, mem_starts_iff marked]
  tauto

theorem isStart_target (targetsOk : checkTargets state starts = .ok ()) {pos target : ℕ}
    {inst : DecodedInstruction} (start : isStart state starts pos)
    (decoded : decodeAt state.code pos = .ok inst) (surfaced : inst.jumpTarget = some target) :
    isStart state starts target := by
  obtain ⟨inside, insts, swept⟩ := (isStart_iff marked).mp start
  obtain ⟨inst', before, after, decoded', checked⟩ :=
    exists_of_sweepFrom (Nat.le_add_left _ _) targetsOk swept inside
  obtain rfl : inst = inst' := ok.inj (decoded.symm.trans decoded')
  rw [checkTarget, surfaced] at checked
  simp only [refuse_eq_ok, not_or, not_le, not_not] at checked
  rw [isStart_iff marked]
  exact (mem_starts_iff marked).mp checked.2

theorem isStart_flowNext (targetsOk : checkTargets state starts = .ok ()) {pos next : ℕ}
    {inst : DecodedInstruction} (start : isStart state starts pos)
    (decoded : decodeAt state.code pos = .ok inst)
    (follows : next ∈ flowNext state.codeLen pos inst) : isStart state starts next := by
  rw [flowNext, mem_append] at follows
  rcases follows with fallsThrough | branches
  · split at fallsThrough
    · rename_i goesOn
      obtain rfl : next = pos + inst.width := by simpa using fallsThrough
      rw [isStart_iff marked]
      exact ⟨goesOn.2.2, ((isStart_iff marked).mp start).2.step decoded⟩
    · cases fallsThrough
  · split at branches
    · exact isStart_target marked targetsOk start decoded (mem_toList.mp branches)
    · cases branches

end Marked

theorem readU32At_readAt {state : State} {ip offset value : ℕ}
    (found : readU32At state.code (ip + offset) = .ok value) :
    value = opInt (state.readAt ip) offset := by
  rw [readU32At] at found
  split at found
  · rename_i b3 b2 b1 b0 at3 at2 at1 at0
    have byteEq : ∀ {pos : ℕ} {byte : UInt8}, state.code[pos]? = some byte →
        byte = state.codeAt pos := by
      intro pos byte at_pos
      have inside : pos < state.codeLen := (List.getElem?_eq_some_iff.mp at_pos).1
      exact some.inj (at_pos.symm.trans (State.getElem?_code inside))
    rw [← ok.inj found, byteEq at3, byteEq at2, byteEq at1, byteEq at0]
    simp only [opInt, State.readAt, Nat.add_assoc]
  · cases found

/-- The branch target that the decoder surfaces, for an instruction at `ip`. -/
def branchTarget (op : Op) (read : ℕ → UInt8) (ip : ℕ) : Option ℕ :=
  match op.layout.branch with
  | none => none
  | some (.forward offsetPos base) => some (ip + base + opInt read offsetPos)
  | some (.backward offsetPos) => some (ip + op.width - opInt read offsetPos)

/-- The opcode, the width and the branch target of a decoded instruction. -/
theorem decoded_fields {state : State} {ip : ℕ} {inst : DecodedInstruction}
    (decoded : decodeAt state.code ip = .ok inst) :
    Op.ofByte? (state.codeAt ip) = some inst.op ∧ inst.width = inst.op.width ∧
      inst.jumpTarget = branchTarget inst.op (state.readAt ip) ip := by
  obtain ⟨raw, opcode, operation, widthEq, target⟩ := fields_of_decodeAt decoded
  have inside : ip < state.codeLen := (List.getElem?_eq_some_iff.mp opcode).1
  obtain rfl : state.codeAt ip = raw :=
    some.inj ((State.getElem?_code inside).symm.trans opcode)
  refine ⟨operation, widthEq, ?_⟩
  rw [readTarget] at target
  rw [branchTarget]
  cases branch : inst.op.layout.branch with
  | none =>
    simp only [branch] at target
    exact (ok.inj target).symm
  | some shape =>
    cases shape with
    | forward offsetPos base =>
      simp only [branch] at target
      obtain ⟨value, read, same⟩ := bind_eq_ok.mp target
      rw [← ok.inj same, readU32At_readAt read]
    | backward offsetPos =>
      simp only [branch] at target
      obtain ⟨value, read, same⟩ := bind_eq_ok.mp target
      split at same
      · cases same
      · rw [← ok.inj same, readU32At_readAt read]

/-!
# Declared and actual stack effects

Where the handlers do to the operand stack what the verifier's table declares, and
go on where its worklist goes on. `Declared` lists what it takes: the quint does
not take the branch the decoder drops, an iterator has an element, and so on.
The table leaves out the value that `setGlobalLoop` pops, so `actualNet` corrects it.
-/

/-- At run time the instruction has the effect that the table declares for it. -/
def Declared (op : Op) (read : ℕ → UInt8) (found : Finding) : Prop :=
  match op with
  -- The second branch is followed only where it leads to the next instruction.
  | .getLocalConstLtJifPopJump => found.holds → opInt read 9 = 0
  | .iterNext1 | .iterNext2 => found.holds
  | .getSlice => read 1 < 4
  | .call | .callTail | .invokeMethod | .getLocalConstSubCall | .getLocalConstSubCallTail
  | .getGlobalCall | .getGlobalCallTail => found.results = 1
  | .callSpread => found.results = (read 2).toNat
  | .callGlobalLocalSubConst | .callGlobalLocalSubConstTail =>
    argcOf (read 10) = 1 ∧ found.results = 1
  | .callGlobalGlobal | .callGlobalGlobalTail => 0 < argcOf (read 9) ∧ found.results = 1
  | _ => True

/-- The net effect of the table, but for the value that `setGlobalLoop` pops. -/
def actualNet (op : Op) (read : ℕ → UInt8) : ℤ :=
  if op = .setGlobalLoop then -1 else (stackEffect op read).net

/-- Where the worklist goes on after an instruction, wherever the code ends. -/
def GoesOn (op : Op) (read : ℕ → UInt8) (ip next : ℕ) : Prop :=
  (isReturnOp op = false ∧ isUnconditionalBranch op = false ∧ next = ip + op.width) ∨
    ((isConditionalBranch op ∨ isUnconditionalBranch op) ∧ branchTarget op read ip = some next)

/-- Of flags below four, the two lowest bits are all that can be set. -/
theorem popCount_eq {flags : UInt8} (low : flags < 4) :
    popCount flags = (flags &&& 0b01).toNat + (flags &&& 0b10).toNat / 2 := by
  have below : flags.toNat < 4 := UInt8.lt_iff_toNat_lt.mp low
  have cases : flags = 0 ∨ flags = 1 ∨ flags = 2 ∨ flags = 3 := by
    simp only [← UInt8.toNat_inj]
    change flags.toNat = 0 ∨ flags.toNat = 1 ∨ flags.toNat = 2 ∨ flags.toNat = 3
    omega
  rcases cases with rfl | rfl | rfl | rfl <;> decide

section

variable {op : Op} {read : ℕ → UInt8} {ip : ℕ} {found : Finding} {outcome : Outcome}

theorem goesOn_onward (plain : isReturnOp op = false) (falls : isUnconditionalBranch op = false) :
    GoesOn op read ip (ip + op.width) :=
  .inl ⟨plain, falls, rfl⟩

theorem goesOn_branch {offsetPos base : ℕ}
    (forward : op.layout.branch = some (.forward offsetPos base))
    (branches : isConditionalBranch op ∨ isUnconditionalBranch op) :
    GoesOn op read ip (ip + base + opInt read offsetPos) := by
  refine .inr ⟨branches, ?_⟩
  rw [branchTarget, forward]

theorem backward_goesOn {offsetPos takes : ℕ} (back : op.layout.branch = some (.backward offsetPos))
    (always : isUnconditionalBranch op = true)
    (handled : backward op read ip offsetPos takes = some outcome) :
    outcome.takes = takes ∧ outcome.leaves = 0 ∧ GoesOn op read ip outcome.next := by
  rw [backward] at handled
  split at handled
  · obtain rfl := some.inj handled
    refine ⟨rfl, rfl, .inr ⟨.inr always, ?_⟩⟩
    rw [branchTarget, back]
  · cases handled

theorem performCall_net {pushed argc : ℕ}
    (handled : performCall op ip found pushed argc = some outcome) :
    (outcome.leaves : ℤ) - outcome.takes = pushed + found.results - (argc + 1) ∧
      outcome.next = ip + op.width := by
  obtain rfl := some.inj handled
  refine ⟨?_, rfl⟩
  change ((pushed - (argc + 1) + found.results : ℕ) : ℤ) - ((argc + 1 - pushed : ℕ) : ℤ) = _
  omega

/-- A handler that keeps to the table stays where it is, or has the declared net effect
and goes on where the worklist does. -/
theorem handler_declared (handled : handler op read ip found = some outcome)
    (declared : Declared op read found) :
    outcome = ⟨ip, 0, 0⟩ ∨
      ((outcome.leaves : ℤ) - outcome.takes = actualNet op read ∧
        GoesOn op read ip outcome.next) := by
  cases op
  all_goals try
    obtain rfl := some.inj handled
    exact .inr ⟨rfl, goesOn_onward rfl rfl⟩
  all_goals try
    cases handled
    done
  case jump =>
      obtain rfl := some.inj handled
      exact .inr ⟨rfl, goesOn_branch rfl (.inr rfl)⟩
  case jumpIfFalse | jifPop | getLocalConstEqJifPop | getLocalConstLtJifPop
      | getLocalConstGtJifPop | getGlobalConstLtJifPop =>
      simp only [handler] at handled
      split at handled
      · obtain rfl := some.inj handled
        exact .inr ⟨rfl, goesOn_onward rfl rfl⟩
      · obtain rfl := some.inj handled
        exact .inr ⟨rfl, goesOn_branch rfl (.inl rfl)⟩
  case jumpIfNotNull =>
      simp only [handler] at handled
      split at handled
      · obtain rfl := some.inj handled
        exact .inr ⟨rfl, goesOn_branch rfl (.inl rfl)⟩
      · obtain rfl := some.inj handled
        exact .inr ⟨rfl, goesOn_onward rfl rfl⟩
  case getLocalConstLtJifPopJump =>
      simp only [handler] at handled
      split at handled
      · rename_i holds
        obtain rfl := some.inj handled
        refine .inr ⟨rfl, ?_⟩
        rw [declared holds]
        exact goesOn_onward rfl rfl
      · obtain rfl := some.inj handled
        exact .inr ⟨rfl, goesOn_branch rfl (.inl rfl)⟩
  case taskReceive =>
      simp only [handler] at handled
      split at handled
      · obtain rfl := some.inj handled
        exact .inr ⟨rfl, goesOn_onward rfl rfl⟩
      · exact .inl (some.inj handled).symm
  case iterNext1 | iterNext2 =>
      have element : found.holds = true := declared
      simp only [handler, element, if_true] at handled
      obtain rfl := some.inj handled
      exact .inr ⟨rfl, goesOn_onward rfl rfl⟩
  case buildStructInstance =>
      obtain rfl := some.inj handled
      refine .inr ⟨?_, goesOn_onward rfl rfl⟩
      simp only [actualNet, stackEffect, Effect.net, reduceCtorEq, if_false]
      omega
  case getSlice =>
      obtain rfl := some.inj handled
      refine .inr ⟨?_, goesOn_onward rfl rfl⟩
      simp only [actualNet, stackEffect, Effect.net, reduceCtorEq, if_false, popCount_eq declared]
      omega
  case loop | setGlobalLoop | closeUpvalueLoop | localAddConstLoop | incGlobalConstLoop
      | incGlobalConstLoopNc =>
      obtain ⟨takesEq, leavesEq, goesOn⟩ := backward_goesOn rfl rfl handled
      refine .inr ⟨?_, goesOn⟩
      rw [takesEq, leavesEq]
      rfl
  case call | callTail | callSpread | invokeMethod | getLocalConstSubCall
      | getLocalConstSubCallTail | getGlobalCall | getGlobalCallTail =>
      obtain ⟨netEq, nextEq⟩ := performCall_net handled
      have returned : found.results = _ := declared
      refine .inr ⟨?_, by rw [nextEq]; exact goesOn_onward rfl rfl⟩
      rw [netEq, returned]
      simp only [actualNet, stackEffect, Effect.net, reduceCtorEq, if_false]
      omega
  case callGlobalLocalSubConst | callGlobalLocalSubConstTail =>
      obtain ⟨netEq, nextEq⟩ := performCall_net handled
      obtain ⟨counted, returned⟩ := declared
      refine .inr ⟨?_, by rw [nextEq]; exact goesOn_onward rfl rfl⟩
      rw [netEq, returned, counted]
      rfl
  case callGlobalGlobal | callGlobalGlobalTail =>
      obtain ⟨netEq, nextEq⟩ := performCall_net handled
      obtain ⟨counted, returned⟩ := declared
      refine .inr ⟨?_, by rw [nextEq]; exact goesOn_onward rfl rfl⟩
      rw [netEq, returned]
      simp only [actualNet, stackEffect, Effect.net, reduceCtorEq, if_false, if_pos counted]
      omega

end

/-!
# The depths a worklist run establishes

A run of the worklist keeps one depth for an instruction, the first it meets. Where
the depth is a function of the instruction (`Balanced`), that is the depth on every
path the worklist could follow, and a run that succeeds has checked all of them.
-/

open Dataflow

/-- A path along the instructions that the worklist could follow from an entry,
the last one first. -/
inductive FlowPath (state : State) (entryIp : ℕ) : List ℕ → Prop where
  | entry : FlowPath state entryIp [entryIp]
  | step {ip next : ℕ} {before : List ℕ} {inst : DecodedInstruction} :
      FlowPath state entryIp (ip :: before) → decodeAt state.code ip = .ok inst →
        next ∈ flowNext state.codeLen ip inst → FlowPath state entryIp (next :: ip :: before)

/-- From an entry, every instruction is met with one depth. A `setGlobalLoop` closes
a loop whose head comes earlier on every path to it: there the worklist has been. -/
structure Balanced (state : State) (entryIp : ℕ) (depths : ℕ → ℤ) : Prop where
  entry : depths entryIp = 0
  step : ∀ {ip next before inst}, FlowPath state entryIp (ip :: before) →
    decodeAt state.code ip = .ok inst → next ∈ flowNext state.codeLen ip inst →
      depths next = depths ip + actualNet inst.op (state.readAt ip) ∧
        (inst.op = .setGlobalLoop → next ∈ ip :: before)

/-- Depths that keep to the effects on a set of instructions closed under the flow. -/
theorem balanced_of_closed {state : State} {entryIp : ℕ} {depths : ℕ → ℤ} (ips : List ℕ)
    (zero : depths entryIp = 0) (entryMem : entryIp ∈ ips)
    (closed : ∀ ip ∈ ips, ∀ inst ∈ (decodeAt state.code ip).toOption,
      inst.op ≠ .setGlobalLoop ∧ ∀ next ∈ flowNext state.codeLen ip inst, next ∈ ips ∧
        depths next = depths ip + actualNet inst.op (state.readAt ip)) :
    Balanced state entryIp depths where
  entry := zero
  step := by
    have inside : ∀ {ip before}, FlowPath state entryIp (ip :: before) → ip ∈ ips := by
      intro ip before path
      generalize pathEq : ip :: before = whole at path
      induction path generalizing ip before with
      | entry =>
        obtain ⟨rfl, -⟩ := List.cons.inj pathEq
        exact entryMem
      | step _ decoded follows ih =>
        obtain ⟨rfl, -⟩ := List.cons.inj pathEq
        exact ((closed _ (ih rfl) _ (by simp [decoded, Except.toOption])).2 _ follows).1
    intro ip next before inst path decoded follows
    obtain ⟨plain, leads⟩ := closed ip (inside path) inst (by simp [decoded, Except.toOption])
    exact ⟨(leads next follows).2, fun loops => absurd loops plain⟩

/-- What the worklist has checked about an instruction when it succeeds. -/
structure Checked (state : State) (starts : List ℕ) (visited : Set ℕ) (depths : ℕ → ℤ)
    (maxDepth : ℤ) (ip : ℕ) (inst : DecodedInstruction) : Prop where
  start : isStart state starts ip
  decoded : decodeAt state.code ip = .ok inst
  enough : (stackEffect inst.op (state.readAt ip)).pop ≤ depths ip
  bounded : depths ip ≤ maxDepth
  room : depths ip + actualNet inst.op (state.readAt ip) ≤ maxDepth
  closed : ∀ next ∈ flowNext state.codeLen ip inst, next ∈ visited ∧
    depths next = depths ip + actualNet inst.op (state.readAt ip)

theorem visit_eq_ok {state : State} {checkRet : Bool} {localBase upvalueCount : ℕ}
    {maxDepth maxDepth' depth : ℤ} {ip : ℕ} {next : List (ℕ × ℤ)} :
    visit state checkRet localBase upvalueCount maxDepth ip depth = .ok (maxDepth', next) ↔
      ∃ inst, decodeAt state.code ip = .ok inst ∧
        checkSlots state localBase upvalueCount ip depth inst.op = .ok () ∧
        ¬(isReturnOp inst.op ∧ checkRet) ∧
        (stackEffect inst.op (state.readAt ip)).pop ≤ depth ∧
        0 ≤ depth + (stackEffect inst.op (state.readAt ip)).net ∧
        maxDepth' = max maxDepth (depth + (stackEffect inst.op (state.readAt ip)).net) ∧
        next = (flowNext state.codeLen ip inst).map
          (·, depth + (stackEffect inst.op (state.readAt ip)).net) := by
  have netEq : ∀ effect : Effect, depth - effect.pop + effect.push = depth + effect.net := by
    intro effect
    rw [Effect.net]
    omega
  rw [visit]
  simp only [bind_eq_ok, decode_eq_ok, refuse_eq_ok, netEq, not_lt]
  constructor
  · rintro ⟨inst, decoded, _, slotsOk, _, atTop, _, enough, _, nonneg, done⟩
    obtain ⟨rfl, rfl⟩ := Prod.mk.inj (ok.inj done)
    exact ⟨inst, decoded, slotsOk, atTop, enough, nonneg, rfl, rfl⟩
  · rintro ⟨inst, decoded, slotsOk, atTop, enough, nonneg, rfl, rfl⟩
    exact ⟨inst, decoded, (), slotsOk, (), atTop, (), enough, (), nonneg, rfl⟩

/-- The worklist's invariant over balanced code: what is queued stands at the end of
a path whose earlier instructions are visited, with the depth of the instruction
unless that is visited too. -/
structure Tracks (state : State) (entryIp : ℕ) (depths : ℕ → ℤ) (maxDepth : ℤ)
    (queue : List (ℕ × ℤ)) (labels : ℕ → Option ℤ) : Prop where
  queued : ∀ ip depth, (ip, depth) ∈ queue → depth ≤ maxDepth ∧
    ((labels ip).isSome ∨ depth = depths ip) ∧
      ∃ before, FlowPath state entryIp (ip :: before) ∧ ∀ earlier ∈ before, (labels earlier).isSome
  labelled : ∀ ip depth, labels ip = some depth → depth ≤ maxDepth ∧ depth = depths ip ∧
    ∃ before, FlowPath state entryIp (ip :: before)
  entered : (labels entryIp).isSome ∨ ∃ depth, (entryIp, depth) ∈ queue

section Tracks

variable {state : State} {entryIp : ℕ} {depths : ℕ → ℤ} {maxDepth depth : ℤ} {ip : ℕ}
  {queue : List (ℕ × ℤ)} {labels : ℕ → Option ℤ}

theorem isSome_update {other : ℕ} (known : (labels other).isSome) :
    (Function.update labels ip (some depth) other).isSome := by
  by_cases same : other = ip
  · simp [same]
  · rwa [Function.update_of_ne same]

theorem Tracks.start (balanced : Balanced state entryIp depths) :
    Tracks state entryIp depths 0 [(entryIp, 0)] fun _ => none where
  queued other otherDepth member := by
    obtain ⟨rfl, rfl⟩ := Prod.mk.inj (mem_singleton.mp member)
    exact ⟨le_rfl, .inr balanced.entry.symm, [], .entry, nofun⟩
  labelled := nofun
  entered := .inr ⟨0, by simp⟩

theorem Tracks.skip {accepts : ℕ → Bool} (accepted : accepts entryIp)
    (skipped : accepts ip = false ∨ (labels ip).isSome)
    (tracks : Tracks state entryIp depths maxDepth ((ip, depth) :: queue) labels) :
    Tracks state entryIp depths maxDepth queue labels where
  queued other otherDepth member :=
    tracks.queued other otherDepth (mem_cons_of_mem _ member)
  labelled := tracks.labelled
  entered := by
    rcases tracks.entered with known | ⟨held, queued⟩
    · exact .inl known
    · rcases mem_cons.mp queued with same | later
      · obtain ⟨rfl, -⟩ := Prod.mk.inj same
        rcases skipped with rejected | known
        · rw [accepted] at rejected
          cases rejected
        · exact .inl known
      · exact .inr ⟨held, later⟩

theorem Tracks.depth_eq (fresh : labels ip = none)
    (tracks : Tracks state entryIp depths maxDepth ((ip, depth) :: queue) labels) :
    depth = depths ip := by
  obtain ⟨-, known | same, -⟩ := tracks.queued ip depth mem_cons_self
  · rw [fresh] at known
    cases known
  · exact same

theorem Tracks.step (balanced : Balanced state entryIp depths) {inst : DecodedInstruction}
    (decoded : decodeAt state.code ip = .ok inst) (fresh : labels ip = none)
    (tracks : Tracks state entryIp depths maxDepth ((ip, depth) :: queue) labels) :
    Tracks state entryIp depths
      (max maxDepth (depth + (stackEffect inst.op (state.readAt ip)).net))
      (queue ++ (flowNext state.codeLen ip inst).map
        (·, depth + (stackEffect inst.op (state.readAt ip)).net))
      (Function.update labels ip (some depth)) := by
  obtain ⟨depthLe, -, before, path, earlierKnown⟩ := tracks.queued ip depth mem_cons_self
  have depthEq := tracks.depth_eq fresh
  refine ⟨fun other otherDepth member => ?_, fun other otherDepth label => ?_, ?_⟩
  · rcases mem_append.mp member with old | new
    · obtain ⟨otherLe, known, otherBefore, otherPath, otherKnown⟩ :=
        tracks.queued other otherDepth (mem_cons_of_mem _ old)
      exact ⟨otherLe.trans (le_max_left _ _), known.imp isSome_update id, otherBefore, otherPath,
        fun earlier earlierMem => isSome_update (otherKnown earlier earlierMem)⟩
    · obtain ⟨next, follows, same⟩ := mem_map.mp new
      obtain ⟨rfl, rfl⟩ := Prod.mk.inj same
      have passed : ∀ earlier ∈ ip :: before,
          (Function.update labels ip (some depth) earlier).isSome := by
        intro earlier earlierMem
        rcases mem_cons.mp earlierMem with rfl | inBefore
        · simp
        · exact isSome_update (earlierKnown earlier inBefore)
      obtain ⟨nextDepth, looped⟩ := balanced.step path decoded follows
      refine ⟨le_max_right _ _, ?_, ip :: before, path.step decoded follows, passed⟩
      by_cases loops : inst.op = .setGlobalLoop
      · exact .inl (passed next (looped loops))
      · refine .inr ?_
        rw [nextDepth, depthEq, actualNet, if_neg loops]
  · by_cases same : other = ip
    · subst same
      obtain rfl : depth = otherDepth := by simpa using label
      exact ⟨depthLe.trans (le_max_left _ _), depthEq, before, path⟩
    · rw [Function.update_of_ne same] at label
      obtain ⟨otherLe, otherEq, otherPath⟩ := tracks.labelled other otherDepth label
      exact ⟨otherLe.trans (le_max_left _ _), otherEq, otherPath⟩
  · rcases tracks.entered with known | ⟨held, queued⟩
    · exact .inl (isSome_update known)
    · rcases mem_cons.mp queued with same | later
      · obtain ⟨rfl, -⟩ := Prod.mk.inj same
        exact .inl (by simp)
      · exact .inr ⟨held, mem_append_left _ later⟩

end Tracks

section Run

variable {state : State} {starts : List ℕ} (marked : markStarts state = .ok starts)
  (targetsOk : checkTargets state starts = .ok ()) {entryIp : ℕ} {checkRet : Bool}
  {localBase upvalueCount : ℕ} {depths : ℕ → ℤ} {maxDepth : ℤ}
include marked targetsOk

/-- A run that succeeds over balanced code has checked a set of instructions that
holds the entry and everything the worklist's flow leads to. -/
theorem exists_checked_of_run (entryStart : isStart state starts entryIp)
    (balanced : Balanced state entryIp depths)
    (ran : run state starts entryIp checkRet localBase upvalueCount = .ok maxDepth) :
    ∃ visited : Set ℕ, entryIp ∈ visited ∧
      ∀ ip ∈ visited, ∃ inst, Checked state starts visited depths maxDepth ip inst := by
  obtain ⟨result, explored, resultEq⟩ : ∃ result, explore (isStart state starts)
      (visit state checkRet localBase upvalueCount) (2 * state.codeLen + 1) 0 [(entryIp, 0)]
        (fun _ => none) = some result ∧ result = .ok maxDepth := by
    rw [run] at ran
    cases found : explore (isStart state starts) (visit state checkRet localBase upvalueCount)
        (2 * state.codeLen + 1) 0 [(entryIp, 0)] fun _ => none with
    | none =>
      rw [found] at ran
      cases ran
    | some result =>
      rw [found] at ran
      exact ⟨result, rfl, ran⟩
  subst resultEq
  have grows : ∀ {before ip depth after next},
      visit state checkRet localBase upvalueCount before ip depth = .ok (after, next) →
        before ≤ after := by
    intro before ip depth after next visited
    obtain ⟨_, _, _, _, _, _, rfl, _⟩ := visit_eq_ok.mp visited
    exact le_max_left _ _
  obtain ⟨labels, tracks, closed⟩ := explore_rule
    (I := fun acc queue labels => Tracks state entryIp depths acc queue labels ∧
      Explored (isStart state starts) (visit state checkRet localBase upvalueCount) acc
        queue labels)
    (fun skipped held => ⟨held.1.skip entryStart skipped, held.2.skip skipped⟩)
    (fun accepted fresh visited held => by
      refine ⟨?_, held.2.step grows accepted visited⟩
      obtain ⟨inst, decoded, _, _, _, _, rfl, rfl⟩ := visit_eq_ok.mp visited
      exact held.1.step balanced decoded fresh)
    ⟨Tracks.start balanced, nofun⟩ explored
  refine ⟨{ip | (labels ip).isSome}, ?_, fun ip ipVisited => ?_⟩
  · rcases tracks.entered with known | ⟨held, queued⟩
    · exact known
    · cases queued
  · obtain ⟨depth, label⟩ := isSome_iff_exists.mp ipVisited
    obtain ⟨depthLe, rfl, before, path⟩ := tracks.labelled ip depth label
    obtain ⟨accepted, acc, acc', next, visited, below, leads⟩ := closed ip _ label
    obtain ⟨inst, decoded, -, -, enough, -, rfl, rfl⟩ := visit_eq_ok.mp visited
    refine ⟨inst, accepted, decoded, enough, depthLe, ?_, fun next follows => ?_⟩
    · rw [actualNet]
      split
      · omega
      · exact (le_max_right _ _).trans below
    · obtain ⟨nextDepth, -⟩ := balanced.step path decoded follows
      have nextStart := isStart_flowNext marked targetsOk accepted decoded follows
      rcases leads (next, _) (mem_map_of_mem follows) nextStart with known | ⟨_, queued⟩
      · exact ⟨known, nextDepth⟩
      · cases queued

end Run

end Gengo.Verifier
