import Gengo.Verifier.Depths

/-!
# Soundness of the verifier

The handlers push and pop without checks, on the strength of what the verifier has
proved about the chunk. `sound_of_path` says for which runs that holds: over code in
which every instruction is met with one depth, along steps that have the effect the
table declares. `not_verifierSound` shows that the first of these is needed: the
worklist takes an instruction once, with the first depth it meets, and a second path
to it may be shallower.
-/

namespace Gengo.Verifier

open Bytecode Fallible Vm List Option Except

/-- A frame at an instruction start that has the operands the instruction takes, and
no more operands than were stamped. At the end of the code there is no instruction. -/
structure Sound (state : State) (maxStack : ℕ) (point : Point) : Prop where
  start : point.ip < state.codeLen → Sweep state.code point.ip
  enough : point.ip < state.codeLen → ∀ op, Op.ofByte? (state.codeAt point.ip) = some op →
    (stackEffect op (state.readAt point.ip)).pop ≤ point.depth
  bounded : point.depth ≤ maxStack

/-- In every accepted chunk, every path from every entry is sound. -/
def VerifierSound : Prop :=
  ∀ state stamped, verify state = .ok stamped →
    ∀ entryIp maxStack, IsEntry stamped entryIp maxStack →
      ∀ point, Path stamped (fun _ _ => True) entryIp point → Sound stamped maxStack point

/-- The instruction at this point has the effect that the table declares. -/
def Tracked (state : State) (point : Point) (found : Finding) : Prop :=
  ∀ op, Op.ofByte? (state.codeAt point.ip) = some op → Declared op (state.readAt point.ip) found

/-- Two chunks with the same code and the same constants. -/
structure SameCode (state other : State) : Prop where
  code : other.code = state.code
  slack : other.slack = state.slack
  consts : other.consts = state.consts

section SameCode

variable {state other : State} (same : SameCode state other)
include same

theorem sweepFrom_congr {α : Type} {body body' : α → ℕ → DecodedInstruction → Except VerifyError α}
    (sameBody : body' = body) (fuel ip : ℕ) (acc : α) :
    sweepFrom other body' fuel ip acc = sweepFrom state body fuel ip acc := by
  subst sameBody
  have sameLen : other.codeLen = state.codeLen := congrArg List.length same.code
  have sameDecode : decode other = decode state := by
    funext pos
    rw [decode, decode, same.code]
  induction fuel generalizing ip acc with
  | zero => rfl
  | succ fuel ih =>
    simp only [sweepFrom, sameLen, sameDecode, ih]

theorem markStart_congr : markStart other = markStart state := by
  obtain ⟨sameCode, sameSlack, sameConsts⟩ := same
  cases state
  cases other
  subst sameCode sameSlack sameConsts
  rfl

theorem markStarts_congr : markStarts other = markStarts state := by
  have sameLen : other.codeLen = state.codeLen := congrArg List.length same.code
  rw [markStarts, markStarts, sameLen]
  exact sweepFrom_congr same (markStart_congr same) _ _ _

theorem checkTarget_congr : checkTarget other = checkTarget state := by
  obtain ⟨sameCode, sameSlack, sameConsts⟩ := same
  cases state
  cases other
  subst sameCode sameSlack sameConsts
  rfl

theorem checkTargets_congr (starts : List ℕ) :
    checkTargets other starts = checkTargets state starts := by
  have sameLen : other.codeLen = state.codeLen := congrArg List.length same.code
  rw [checkTargets, checkTargets, sameLen]
  exact sweepFrom_congr same (by rw [checkTarget_congr same]) _ _ _

theorem run_congr : run other = run state := by
  obtain ⟨sameCode, sameSlack, sameConsts⟩ := same
  cases state
  cases other
  subst sameCode sameSlack sameConsts
  rfl

theorem poolFuncs_congr (sameLength : other.funcs.length = state.funcs.length) :
    other.poolFuncs = state.poolFuncs := by
  obtain ⟨sameCode, sameSlack, sameConsts⟩ := same
  have each : other.funcObjOfConst = state.funcObjOfConst := by
    funext const
    cases const <;> simp only [State.funcObjOfConst, sameLength]
  rw [State.poolFuncs, State.poolFuncs, sameConsts, each]

end SameCode

/-- What has been stamped while the bodies with these entries were verified. -/
structure Stamping (state : State) (starts ips : List ℕ) (other : State) : Prop where
  same : SameCode state other
  entries : other.funcs.map FuncObj.ip = state.funcs.map FuncObj.ip
  stamped : ∀ ref ∈ state.poolFuncs, ∀ func, other.funcs[ref]? = some func → func.ip ∈ ips →
    ∃ localBase upvalueCount maxDepth,
      run state starts func.ip false localBase upvalueCount = .ok maxDepth ∧
        func.maxStack = maxDepth.toNat

theorem Stamping.step {state other next : State} {starts ips : List ℕ} {func : FuncObj}
    (stamping : Stamping state starts ips other)
    (verified : verifyBody starts other func = .ok next) :
    Stamping state starts (func.ip :: ips) next ∧ next.mainMaxStack = other.mainMaxStack := by
  obtain ⟨maxDepth, ran, rest⟩ := bind_eq_ok.mp verified
  obtain ⟨_, _, done⟩ := bind_eq_ok.mp rest
  obtain rfl := ok.inj done
  rw [run_congr stamping.same] at ran
  have sameLength : other.funcs.length = state.funcs.length := by
    simpa using congrArg List.length stamping.entries
  refine ⟨⟨⟨stamping.same.code, stamping.same.slack, stamping.same.consts⟩, ?_, ?_⟩, rfl⟩
  · rw [← stamping.entries]
    apply ext_getElem?
    intro ref
    simp only [stamp, List.getElem?_map, List.getElem?_mapIdx, Option.map_map]
    refine map_congr fun item _ => ?_
    simp only [Function.comp_apply]
    split <;> rfl
  · intro ref pooled item found inIps
    simp only [stamp, List.getElem?_mapIdx, map_eq_some_iff] at found
    obtain ⟨before, foundBefore, rfl⟩ := found
    rw [poolFuncs_congr stamping.same sameLength]
    by_cases sameIp : before.ip = func.ip
    · rw [if_pos ⟨pooled, sameIp⟩]
      exact ⟨_, _, maxDepth, by rw [sameIp]; exact ran, rfl⟩
    · rw [if_neg fun holds => sameIp holds.2]
      rw [poolFuncs_congr stamping.same sameLength, if_neg fun holds => sameIp holds.2] at inIps
      rcases mem_cons.mp inIps with sameEntry | later
      · exact absurd sameEntry sameIp
      · exact stamping.stamped ref pooled before foundBefore later

theorem Stamping.run {state other next : State} {starts ips : List ℕ} {funcs : List FuncObj}
    (stamping : Stamping state starts ips other)
    (verified : funcs.foldlM (verifyBody starts) other = .ok next) :
    Stamping state starts ((funcs.map FuncObj.ip).reverse ++ ips) next ∧
      next.mainMaxStack = other.mainMaxStack := by
  induction funcs generalizing other ips with
  | nil =>
    obtain rfl := ok.inj verified
    exact ⟨by simpa using stamping, rfl⟩
  | cons func funcs ih =>
    rw [foldlM_cons] at verified
    obtain ⟨middle, first, rest⟩ := bind_eq_ok.mp verified
    obtain ⟨stampingFirst, sameMax⟩ := stamping.step first
    obtain ⟨stampingAll, sameMax'⟩ := ih stampingFirst rest
    refine ⟨?_, sameMax'.trans sameMax⟩
    simpa using stampingAll

/-- A verified chunk: its sweeps succeed, and every entry at an instruction start is
stamped with what its worklist run returns. -/
theorem exists_run_of_verify {state stamped : State} (verified : verify state = .ok stamped)
    (nonempty : stamped.codeLen ≠ 0) :
    ∃ starts, markStarts stamped = .ok starts ∧ checkTargets stamped starts = .ok () ∧
      ∀ entryIp maxStack, IsEntry stamped entryIp maxStack → isStart stamped starts entryIp →
        ∃ checkRet localBase upvalueCount maxDepth,
          run stamped starts entryIp checkRet localBase upvalueCount = .ok maxDepth ∧
            maxStack = maxDepth.toNat := by
  rw [verify] at verified
  split at verified
  · obtain rfl := ok.inj verified
    rename_i empty
    exact absurd empty nonempty
  · obtain ⟨starts, marked, rest⟩ := bind_eq_ok.mp verified
    obtain ⟨_, targetsOk, rest⟩ := bind_eq_ok.mp rest
    obtain ⟨_, _, rest⟩ := bind_eq_ok.mp rest
    obtain ⟨maxDepth, ran, rest⟩ := bind_eq_ok.mp rest
    have start : Stamping state starts [] { state with mainMaxStack := maxDepth.toNat } :=
      ⟨⟨rfl, rfl, rfl⟩, rfl, fun _ _ _ _ visited => by cases visited⟩
    obtain ⟨stamping, sameMax⟩ := start.run rest
    have same := stamping.same
    refine ⟨starts, (markStarts_congr same).trans marked,
      (checkTargets_congr same starts).trans targetsOk, fun entryIp maxStack entry startsAt => ?_⟩
    rw [run_congr same]
    cases entry with
    | main => exact ⟨true, 0, 0, maxDepth, ran, sameMax⟩
    | @function ref func pooled found =>
      have sameLength : stamped.funcs.length = state.funcs.length := by
        simpa using congrArg List.length stamping.entries
      rw [poolFuncs_congr same sameLength] at pooled
      have inBodies : func.ip ∈ (bodies state starts).map FuncObj.ip := by
        have entryEq := congrArg (·[ref]?) stamping.entries
        simp only [List.getElem?_map, found, map_some] at entryEq
        obtain ⟨original, foundOriginal, sameIp⟩ := map_eq_some_iff.mp entryEq.symm
        have startsOriginal : isStart state starts original.ip := by
          rw [sameIp]
          have sameLen : stamped.codeLen = state.codeLen := congrArg List.length same.code
          simpa [isStart, sameLen] using startsAt
        rw [← sameIp]
        refine mem_map_of_mem (mem_filter.mpr ⟨?_, startsOriginal⟩)
        exact mem_filterMap.mpr ⟨ref, pooled, foundOriginal⟩
      obtain ⟨localBase, upvalueCount, bodyMax, bodyRan, stampEq⟩ :=
        stamping.stamped ref pooled func found (by simpa using inBodies)
      exact ⟨false, localBase, upvalueCount, bodyMax, bodyRan, stampEq⟩

/-- A frame at an instruction the worklist has checked, with the depth it has there. -/
structure Follows (state : State) (visited : Set ℕ) (depths : ℕ → ℤ) (maxDepth : ℤ)
    (point : Point) : Prop where
  visited : point.ip < state.codeLen → point.ip ∈ visited ∧ depths point.ip = point.depth
  bounded : (point.depth : ℤ) ≤ maxDepth

theorem mem_flowNext_of_goesOn {state : State} {ip next : ℕ} {inst : DecodedInstruction}
    (decoded : decodeAt state.code ip = .ok inst)
    (goesOn : GoesOn inst.op (state.readAt ip) ip next) (inside : next < state.codeLen) :
    next ∈ flowNext state.codeLen ip inst := by
  obtain ⟨-, widthEq, targetEq⟩ := decoded_fields decoded
  rw [flowNext, mem_append, widthEq]
  rcases goesOn with ⟨returns, branches, rfl⟩ | ⟨branches, target⟩
  · left
    rw [if_pos ⟨returns, branches, inside⟩]
    exact mem_singleton_self _
  · right
    rw [if_pos branches, targetEq, target]
    exact mem_singleton_self _

theorem Follows.step {state : State} {starts : List ℕ} {visited : Set ℕ} {depths : ℕ → ℤ}
    {maxDepth : ℤ}
    (checked : ∀ ip ∈ visited, ∃ inst, Checked state starts visited depths maxDepth ip inst)
    {point next : Point} {found : Finding} (follows : Follows state visited depths maxDepth point)
    (tracked : Tracked state point found) (stepped : step state found point = some next) :
    Follows state visited depths maxDepth next := by
  rw [Vm.step] at stepped
  split at stepped
  · cases stepped
  · rename_i inside
    obtain ⟨pointVisited, depthEq⟩ := follows.visited (Nat.lt_of_not_le inside)
    obtain ⟨inst, held⟩ := checked point.ip pointVisited
    obtain ⟨opcode, -, -⟩ := decoded_fields held.decoded
    obtain ⟨op, opEq, rest⟩ := bind_eq_some_iff.mp stepped
    obtain rfl : inst.op = op := some.inj (opcode.symm.trans opEq)
    obtain ⟨outcome, handled, rest⟩ := bind_eq_some_iff.mp rest
    split at rest
    · rename_i takes
      obtain rfl := some.inj rest
      rcases handler_declared handled (tracked inst.op opcode) with rfl | ⟨netEq, goesOn⟩
      · exact ⟨by simpa using fun _ => ⟨pointVisited, depthEq⟩, by simpa using follows.bounded⟩
      · have depthNext : ((point.depth - outcome.takes + outcome.leaves : ℕ) : ℤ) =
            depths point.ip + actualNet inst.op (state.readAt point.ip) := by
          rw [← netEq, depthEq]
          omega
        refine ⟨fun nextInside => ?_, ?_⟩
        · obtain ⟨nextVisited, nextDepth⟩ :=
            held.closed _ (mem_flowNext_of_goesOn held.decoded goesOn nextInside)
          exact ⟨nextVisited, nextDepth.trans depthNext.symm⟩
        · rw [depthNext]
          exact held.room
    · cases rest

/-- Along tracked steps over balanced code, a verified chunk never leaves what the
verifier has checked. -/
theorem sound_of_path {state stamped : State} (verified : verify state = .ok stamped)
    {entryIp maxStack : ℕ} (entry : IsEntry stamped entryIp maxStack)
    (entryStart : entryIp < stamped.codeLen → Sweep stamped.code entryIp)
    {depths : ℕ → ℤ} (balanced : Balanced stamped entryIp depths) {point : Point}
    (path : Path stamped (Tracked stamped) entryIp point) : Sound stamped maxStack point := by
  by_cases inside : entryIp < stamped.codeLen
  · obtain ⟨starts, marked, targetsOk, stamps⟩ := exists_run_of_verify verified (by omega)
    have start : isStart stamped starts entryIp :=
      (isStart_iff marked).mpr ⟨inside, entryStart inside⟩
    obtain ⟨checkRet, localBase, upvalueCount, maxDepth, ran, rfl⟩ := stamps _ _ entry start
    obtain ⟨visited, entryVisited, checked⟩ :=
      exists_checked_of_run marked targetsOk start balanced ran
    have follows : Follows stamped visited depths maxDepth point := by
      induction path with
      | entry =>
        obtain ⟨inst, held⟩ := checked entryIp entryVisited
        refine ⟨fun _ => ⟨entryVisited, balanced.entry⟩, ?_⟩
        have := held.bounded
        rwa [balanced.entry] at this
      | step _ tracked stepped ih =>
        exact ih.step checked tracked stepped
    refine ⟨fun pointInside => ?_, fun pointInside op opcode => ?_, ?_⟩
    · obtain ⟨inst, held⟩ := checked _ (follows.visited pointInside).1
      exact ((isStart_iff marked).mp held.start).2
    · obtain ⟨pointVisited, depthEq⟩ := follows.visited pointInside
      obtain ⟨inst, held⟩ := checked _ pointVisited
      obtain rfl : inst.op = op :=
        some.inj ((decoded_fields held.decoded).1.symm.trans opcode)
      have := held.enough
      omega
    · have := follows.bounded
      omega
  · -- An entry behind the end of the code stops at once.
    have stays : point = ⟨entryIp, 0⟩ := by
      induction path with
      | entry => rfl
      | step _ _ stepped ih =>
        rw [ih, Vm.step, if_pos (Nat.le_of_not_lt inside)] at stepped
        cases stepped
    subst stays
    exact ⟨fun absurdly => absurd absurdly inside, fun absurdly => absurd absurdly inside,
      Nat.zero_le _⟩

/-- `true_val; jif_pop +0; halt`. -/
def branchToNext : State where
  code := [0x19, 0x04, 0, 0, 0, 0, 0x00]
  codeLen_le := by decide

/-- The depths before the instructions of `branchToNext`. -/
def branchToNextDepths (ip : ℕ) : ℤ :=
  if ip = 1 then 1 else 0

theorem verify_branchToNext :
    verify branchToNext = .ok { branchToNext with mainMaxStack := 1 } := by
  rfl

theorem balanced_branchToNext :
    Balanced { branchToNext with mainMaxStack := 1 } 0 branchToNextDepths :=
  balanced_of_closed [0, 1, 6] rfl (by decide) (by decide)

/-- The frame arrives at the `halt` with no operand left. -/
theorem sound_branchToNext : Sound { branchToNext with mainMaxStack := 1 } 1 ⟨6, 0⟩ := by
  have pushed : Path { branchToNext with mainMaxStack := 1 }
      (Tracked { branchToNext with mainMaxStack := 1 }) 0 ⟨1, 1⟩ := by
    refine Path.entry.step (fun op opcode => ?_) (show step _ ⟨true, 0⟩ _ = _ from rfl)
    obtain rfl := some.inj opcode
    trivial
  have tested : Path { branchToNext with mainMaxStack := 1 }
      (Tracked { branchToNext with mainMaxStack := 1 }) 0 ⟨6, 0⟩ := by
    refine pushed.step (fun op opcode => ?_) (show step _ ⟨true, 0⟩ _ = _ from rfl)
    obtain rfl := some.inj opcode
    trivial
  exact sound_of_path verify_branchToNext .main (fun _ => ⟨[], .nil _⟩) balanced_branchToNext tested

/-- `null_val; true_val; jif_pop to 13; pop; jump to 13; pop; halt`. -/
def shallowJoin : State where
  code := [0x18, 0x19, 0x04, 0, 0, 0, 6, 0x1D, 0x02, 0, 0, 0, 0, 0x1D, 0x00]
  codeLen_le := by decide

theorem verify_shallowJoin : verify shallowJoin = .ok { shallowJoin with mainMaxStack := 2 } := by
  rfl

/-- The worklist takes the last `pop` on the branch, where one operand is left; the
other path has none. -/
theorem not_verifierSound : ¬VerifierSound := by
  intro sound
  have path : Path { shallowJoin with mainMaxStack := 2 } (fun _ _ => True) 0 ⟨13, 0⟩ :=
    Path.entry |>.step trivial (show step _ ⟨true, 0⟩ _ = _ from rfl)
      |>.step trivial (show step _ ⟨true, 0⟩ _ = _ from rfl)
      |>.step trivial (show step _ ⟨true, 0⟩ _ = _ from rfl)
      |>.step trivial (show step _ ⟨true, 0⟩ _ = _ from rfl)
      |>.step trivial (show step _ ⟨true, 0⟩ _ = _ from rfl)
  have held := sound shallowJoin _ verify_shallowJoin 0 2 .main _ path
  exact absurd (held.enough (by decide) .pop rfl) (by decide)

end Gengo.Verifier
