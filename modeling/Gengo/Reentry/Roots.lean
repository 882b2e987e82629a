import Gengo.Reentry.Regular

/-!
# Temp roots

A loop has as many temp roots as when it was started, besides those that the work in progress
holds: a call gives back what it takes, unless work fails and leaves some of its own.
-/

namespace Gengo.Reentry

universe u v w x

variable {ν : Type v} {ε : Type u} {σ : Type w} {α : Type x}

/-- The temp roots that a return comes back to. -/
def Skeleton.Saves (base : ℕ) : Skeleton ν → Prop
  | .accepting _ savedRoots => savedRoots = base
  | _ => True

/-- The temp roots in a loop that was started with a number of them. -/
def Holds (base roots : ℕ) : Focus ν ε σ → Prop
  | .work _ held work => roots = base + held ∧ work.skeleton.Saves base
  | .retSlowPath _ savedRoots _ => savedRoots = base ∧ roots = base + 1
  | _ => roots = base

/-- The temp roots with which a loop is started: a return holds its value. -/
def Waiting.roots (before : Vs ν σ) : Waiting ν ε σ → ℕ
  | .returning _ _ => before.tempRoots + 1
  | _ => before.tempRoots

/-- The innermost loop was started with a number of temp roots, and what waits for it holds those
of its own loop. The loop above the lowest `n` activations was started with a given number. -/
def Based (n bottom : ℕ) : List (Activation ν ε σ) → ℕ → Prop
  | [], base => base = bottom
  | activation :: rest, base =>
    if rest.length < n then base = bottom
    else
      match activation with
      | .resumed => Based n bottom rest base
      | .waits waiting before =>
        base = waiting.roots before ∧ ∃ below, Based n bottom rest below ∧
          Holds below before.tempRoots (waiting.focus before.frames.length)

/-- How many temp roots the work leaves when it fails now. -/
def Work.leaked : Work ν ε σ → ℕ
  | .instr (.fail _ _ _ leaked) | .checking _ _ (.fail _ _ _ leaked)
  | .builtin _ (.fail _ _ _ leaked) => leaked
  | _ => 0

theorem based_cons_iff {n bottom base : ℕ} {activation : Activation ν ε σ}
    {rest : List (Activation ν ε σ)} (high : n ≤ rest.length) :
    Based n bottom (activation :: rest) base ↔
      match activation with
      | .resumed => Based n bottom rest base
      | .waits waiting before =>
        base = waiting.roots before ∧ ∃ below, Based n bottom rest below ∧
          Holds below before.tempRoots (waiting.focus before.frames.length) := by
  cases activation <;> simp [Based, Nat.not_lt.mpr high]

theorem based_bottom_iff {bottom base : ℕ} {activation : Activation ν ε σ}
    {rest : List (Activation ν ε σ)} :
    Based (rest.length + 1) bottom (activation :: rest) base ↔ base = bottom := by
  cases activation <;> simp [Based]

namespace Cfg

variable {m : Machine ν ε σ} {c : Cfg ν ε σ} {n bottom base : ℕ}

/-- Each loop has the temp roots that it was started with. -/
def Rooted (n bottom : ℕ) (c : Cfg ν ε σ) : Prop :=
  ∃ base, Based n bottom c.activations base ∧ Holds base c.vs.tempRoots c.focus

theorem holds_of_isError {focus : Focus ν ε σ} {roots : ℕ} (isError : focus.IsError)
    (level : roots = base) : Holds base roots focus := by
  cases focus with
  | raise _ | failed _ => exact level
  | _ => exact isError.elim

theorem tempRoots_setPending (vs : Vs ν σ) (payload : Payload ν) :
    (vs.setPending payload).tempRoots = vs.tempRoots := by
  cases payload <;> rfl

theorem rooted_signal {err : VmError ε} {payload : Payload ν} {focus : Focus ν ε σ}
    (isError : focus.IsError) (based : Based n bottom c.activations base)
    (level : c.vs.tempRoots = base) : (c.signal m err payload focus).Rooted n bottom := by
  refine ⟨base, ?_, ?_⟩
  · rwa [activations_signal]
  · rw [focus_signal, vs_signal, tempRoots_setPending]
    exact holds_of_isError isError level

section Level

variable (based : Based n bottom c.activations base) (level : c.vs.tempRoots = base)
include based level

theorem rooted_afterInstr : c.afterInstr.Rooted n bottom := by
  refine ⟨base, based, ?_⟩
  unfold afterInstr
  cases c.vs.sleeping <;> exact level

theorem rooted_afterReturn (results : List ν) : (c.afterReturn results).Rooted n bottom := by
  unfold afterReturn
  split
  · exact ⟨base, based, level⟩
  · exact rooted_afterInstr based level

theorem rooted_spread (frame : Frame ν) (depth : ℕ) : (c.spread m frame depth).Rooted n bottom := by
  unfold spread
  dsimp only
  split
  · exact rooted_signal trivial based level
  · split
    next vs pushes =>
      rcases Vs.of_pushAll pushes with ⟨pushed, rfl, -⟩
      apply rooted_afterReturn
      · exact based
      · exact level
    next vs stuck =>
      rcases Vs.of_pushAll stuck with ⟨pushed, rfl, -⟩
      exact rooted_signal trivial based level

theorem rooted_doReturn (value : ν) (fused : Bool) :
    (c.doReturn m value fused).Rooted n bottom := by
  unfold doReturn
  split
  · exact rooted_signal trivial based level
  · split
    · exact rooted_spread based level _ _
    · split
      · apply rooted_afterReturn
        · exact based
        · exact level
      · split
        · exact rooted_signal trivial based level
        · exact ⟨base, based, level, congrArg (· + 1) level⟩

theorem rooted_execute {floor : ℕ} (outcome : Outcome ν) :
    (c.execute m floor outcome).Rooted n bottom := by
  cases outcome with
  | next region ip => exact rooted_afterInstr based level
  | call _ _ | halt | yield _ _ => exact ⟨base, based, level⟩
  | tailCall f args =>
    unfold execute
    dsimp only
    split
    · exact rooted_signal trivial based level
    · split
      · exact rooted_signal trivial based level
      · exact rooted_afterInstr based level
  | defer region call =>
    unfold execute
    dsimp only
    split
    · exact rooted_signal trivial based level
    · exact rooted_afterInstr based level
  | ret value fused => exact rooted_doReturn based level value fused

variable (inLoop : Bool)

theorem rooted_errorFocus (err : VmError ε) :
    (c.signal m err .none (errorFocus inLoop err)).Rooted n bottom :=
  rooted_signal (isError_errorFocus inLoop err) based level

theorem rooted_pushFrame (f : Engines.Func ν) : (c.pushFrame m inLoop f).Rooted n bottom := by
  unfold pushFrame
  split
  · exact rooted_errorFocus based level inLoop _
  · split
    · exact rooted_errorFocus based level inLoop _
    · exact ⟨base, based, level⟩

theorem rooted_performCall (argc : ℕ) : (c.performCall m inLoop argc).Rooted n bottom := by
  unfold performCall
  dsimp only
  split
  · exact rooted_errorFocus based level inLoop _
  · split
    · exact rooted_errorFocus based level inLoop _
    · exact ⟨base, based, level, trivial⟩
    · split
      · exact rooted_errorFocus based level inLoop _
      · split
        next vs stuck =>
          rcases Vs.of_pushAll stuck with ⟨pushed, rfl, -⟩
          exact rooted_signal (isError_errorFocus inLoop _) based level
        next vs pushes =>
          rcases Vs.of_pushAll pushes with ⟨pushed, rfl, -⟩
          exact ⟨base, based, level, trivial⟩

theorem rooted_callValue (call : Call ν) : (c.callValue m call).Rooted n bottom := by
  unfold callValue
  split
  · exact rooted_signal trivial based level
  · split
    next vs stuck =>
      rcases Vs.of_pushAll stuck with ⟨pushed, rfl, -⟩
      exact rooted_signal trivial based level
    next vs pushes =>
      rcases Vs.of_pushAll pushes with ⟨pushed, rfl, -⟩
      exact ⟨base, based, level⟩

theorem rooted_afterDeferred (state : Unwinding ε) (failure : Option (VmError ε)) :
    (c.afterDeferred m state failure).Rooted n bottom := by
  unfold afterDeferred
  cases failure with
  | none =>
    dsimp only
    split <;> exact ⟨base, based, level⟩
  | some newErr =>
    dsimp only
    split
    · exact ⟨base, based, level⟩
    · split
      · exact ⟨base, based, level⟩
      · split <;> exact ⟨base, based, level⟩

theorem rooted_runPanicUnwind (err : VmError ε) : (c.runPanicUnwind m err).Rooted n bottom := by
  unfold runPanicUnwind
  split
  · exact ⟨base, based, level⟩
  · split <;> exact ⟨base, based, level⟩
  · split <;> exact ⟨base, based, level⟩

section

variable (high : n ≤ c.activations.length)
include high

theorem rooted_afterRecovery (results : List ν) : (c.afterRecovery results).Rooted n bottom := by
  unfold afterRecovery
  split
  · exact ⟨base, based, level⟩
  · exact ⟨base, (based_cons_iff high).mpr based, level⟩

variable (state : Unwinding ε)

theorem rooted_recoverFrame (frame : Frame ν) (depth : ℕ) :
    (c.recoverFrame m state frame depth).Rooted n bottom := by
  unfold recoverFrame
  dsimp only
  split
  next vs pushes =>
    rcases Vs.of_pushAll pushes with ⟨pushed, rfl, -⟩
    apply rooted_afterRecovery
    · exact based
    · exact level
    · exact high
  next vs stuck =>
    rcases Vs.of_pushAll stuck with ⟨pushed, rfl, -⟩
    split
    · apply rooted_afterRecovery
      · exact based
      · exact level
      · exact high
    · exact ⟨base, based, level⟩

theorem rooted_unwindDrained (frame : Frame ν) (depth : ℕ) :
    (c.unwindDrained m state frame depth).Rooted n bottom := by
  unfold unwindDrained
  split
  · exact rooted_recoverFrame based level high state frame depth
  · exact ⟨base, based, level⟩

theorem rooted_unwind : (c.unwind m state).Rooted n bottom := by
  unfold unwind
  split
  · exact ⟨base, based, level⟩
  · split
    · exact ⟨base, based, level⟩
    · split
      · exact rooted_unwindDrained based level high state _ _
      · split
        · exact rooted_unwindDrained based level high state _ _
        · dsimp only
          split
          next vs stuck =>
            rcases Vs.of_pushAll stuck with ⟨pushed, rfl, -⟩
            apply rooted_afterDeferred
            · exact based
            · exact level
          next vs pushes =>
            rcases Vs.of_pushAll pushes with ⟨pushed, rfl, -⟩
            exact ⟨c.vs.tempRoots, (based_cons_iff high).mpr ⟨rfl, base, based, level⟩, rfl⟩

end

end Level

variable {held : ℕ} {work : Work ν ε σ}

theorem tempRoots_failWork {leaked : ℕ} {err : VmError ε} (isHeld : c.vs.tempRoots = base + held)
    (saves : work.skeleton.Saves base)
    (tidy : leaked = 0 ∨ ∃ frame savedRoots, work.skeleton = .accepting frame savedRoots) :
    (c.failWork held leaked work err).vs.tempRoots = base := by
  cases work with
  | instr _ | checking _ _ _ | builtin _ _ =>
    have nothing : leaked = 0 := by
      rcases tidy with isZero | ⟨frame, savedRoots, isAccepting⟩
      · exact isZero
      · cases isAccepting
    change c.vs.tempRoots - held + leaked = base
    omega
  | accepting _ _ savedRoots _ => exact saves

theorem rooted_failWork {leaked : ℕ} {err : VmError ε} (based : Based n bottom c.activations base)
    (isHeld : c.vs.tempRoots = base + held) (saves : work.skeleton.Saves base)
    (tidy : leaked = 0 ∨ ∃ frame savedRoots, work.skeleton = .accepting frame savedRoots) :
    (c.failWork held leaked work err).Rooted n bottom := by
  refine ⟨base, ?_, ?_⟩
  · rwa [activations_failWork]
  · exact holds_of_isError (isError_failWork held leaked work err)
      (tempRoots_failWork isHeld saves tidy)

theorem rooted_advance {floor : ℕ} {prog : Prog ν ε σ α} {wrap : Prog ν ε σ α → Work ν ε σ}
    {same : ∀ first second, (wrap first).skeleton = (wrap second).skeleton}
    {done : Cfg ν ε σ → α → Cfg ν ε σ} (high : n ≤ c.activations.length)
    (based : Based n bottom c.activations base) (isHeld : c.vs.tempRoots = base + held)
    (saves : (wrap prog).skeleton.Saves base)
    (tidy : ∀ err payload rest leaked, prog = .fail err payload rest leaked →
      leaked = 0 ∨ ∃ frame savedRoots, (wrap prog).skeleton = .accepting frame savedRoots)
    (ends : ∀ result rest sleeps, prog = .finish result rest sleeps →
      (done (c.finished held rest sleeps) result).Rooted n bottom) :
    (c.advance m floor held prog wrap same done).Rooted n bottom := by
  cases prog with
  | finish result rest sleeps => exact ends result rest sleeps rfl
  | fail err payload rest leaked =>
    refine rooted_signal (isError_failWork _ _ _ _) ?_
      (tempRoots_failWork isHeld saves (tidy err payload rest leaked rfl))
    rwa [activations_failWork]
  | recover resume =>
    unfold advance
    dsimp only
    split
    · exact ⟨base, based, isHeld, same _ _ ▸ saves⟩
    · exact ⟨base, based, isHeld, same _ _ ▸ saves⟩
  | callback region rest held' leaked call resume =>
    have holds : c.vs.tempRoots - held + held' = base + held' := by omega
    exact ⟨_, (based_cons_iff high).mpr ⟨rfl, base, based, holds, saves⟩, rfl⟩

theorem rooted_workOn {floor : ℕ} (high : n ≤ c.activations.length)
    (based : Based n bottom c.activations base) (isHeld : c.vs.tempRoots = base + held)
    (saves : work.skeleton.Saves base) (tidy : work.leaked = 0) :
    (c.workOn m floor held work).Rooted n bottom := by
  have finished : ∀ rest sleeps, (c.finished held rest sleeps).vs.tempRoots = base := by
    intro rest sleeps
    change c.vs.tempRoots - held = base
    omega
  cases work with
  | instr prog =>
    refine rooted_advance high based isHeld saves ?_ fun outcome rest sleeps _ => ?_
    · rintro err payload rest leaked rfl
      exact .inl tidy
    · apply rooted_execute
      · exact based
      · exact finished rest sleeps
  | checking inLoop f prog =>
    refine rooted_advance high based isHeld saves ?_ fun args rest sleeps _ => ?_
    · rintro err payload rest leaked rfl
      exact .inl tidy
    · apply rooted_pushFrame
      · exact based
      · exact finished rest sleeps
  | builtin inLoop prog =>
    refine rooted_advance high based isHeld saves ?_ fun result rest sleeps _ => ?_
    · rintro err payload rest leaked rfl
      exact .inl tidy
    · exact ⟨base, based, finished rest sleeps⟩
  | accepting frame value savedRoots prog =>
    refine rooted_advance high based isHeld saves ?_ fun _ rest sleeps _ => ?_
    · exact fun _ _ _ _ _ => .inr ⟨frame, savedRoots, rfl⟩
    · apply rooted_afterReturn
      · exact based
      · exact saves

section Waiting

variable {waiting : Waiting ν ε σ} {before : Vs ν σ}

theorem activations_afterDeferred (state : Unwinding ε) (failure : Option (VmError ε)) :
    (c.afterDeferred m state failure).activations = c.activations := by
  unfold afterDeferred
  cases failure with
  | none =>
    dsimp only
    split <;> rfl
  | some newErr =>
    dsimp only
    split
    · rfl
    · split
      · rfl
      · split <;> rfl

theorem activations_fail (waiting : Waiting ν ε σ) (err : VmError ε) :
    (c.fail m waiting err).activations = c.activations := by
  cases waiting with
  | returning _ _ => rfl
  | unwinding state => exact activations_afterDeferred state (some err)
  | callback callback => exact activations_failWork _ _ _ _

theorem activations_succeed (waiting : Waiting ν ε σ) (depthBefore : ℕ) :
    (c.succeed m waiting depthBefore).activations = c.activations := by
  cases waiting with
  | returning _ _ =>
    unfold succeed
    dsimp only
    split
    · exact activations_signal _ _ _
    · rfl
  | unwinding state => exact activations_afterDeferred (m := m) state none
  | callback callback =>
    change (c.resume m callback).activations = _
    unfold resume
    split
    · rw [activations_signal]
      exact activations_failWork _ _ _ _
    · rfl

/-- A failing callback leaves nothing. -/
def Tidy (waiting : Waiting ν ε σ) : Prop :=
  ∀ callback, waiting = .callback callback → callback.leaked = 0

theorem rooted_succeed (based : Based n bottom c.activations base)
    (holds : Holds base before.tempRoots (waiting.focus before.frames.length))
    (level : c.vs.tempRoots = waiting.roots before) (tidy : c.vs.stack = [] → Tidy waiting) :
    (c.succeed m waiting before.frames.length).Rooted n bottom := by
  cases waiting with
  | returning value savedRoots =>
    unfold succeed
    dsimp only
    split
    · exact rooted_signal trivial based holds.1
    · refine ⟨base, based, holds.1, ?_⟩
      have started : c.vs.tempRoots = before.tempRoots + 1 := level
      have saved : before.tempRoots = base + 1 := holds.2
      change c.vs.tempRoots - 1 = base + 1
      omega
  | unwinding state =>
    apply rooted_afterDeferred
    · exact based
    · exact level.trans holds
  | callback callback =>
    have isHeld : c.vs.tempRoots = base + callback.held := level.trans holds.1
    change (c.resume m callback).Rooted n bottom
    unfold resume
    split
    next isNone =>
      have leaves := tidy (List.getLast?_eq_none_iff.mp isNone) callback rfl
      refine rooted_signal (isError_failWork _ _ _ _) ?_
        (tempRoots_failWork isHeld holds.2 (.inl leaves))
      rwa [activations_failWork]
    next result _ =>
      refine ⟨base, based, isHeld, ?_⟩
      rw [callback.skeleton_resume]
      exact holds.2

theorem rooted_fail {err : VmError ε} (based : Based n bottom c.activations base)
    (holds : Holds base before.tempRoots (waiting.focus before.frames.length))
    (level : c.vs.tempRoots = waiting.roots before) (tidy : Tidy waiting) :
    (c.fail m waiting err).Rooted n bottom := by
  cases waiting with
  | returning _ savedRoots => exact ⟨base, based, holds.1⟩
  | unwinding state =>
    apply rooted_afterDeferred
    · exact based
    · exact level.trans holds
  | callback callback =>
    exact rooted_failWork based (level.trans holds.1) holds.2 (.inl (tidy callback rfl))

theorem rooted_afterCall {rest : List (Activation ν ε σ)} {framePushed : Bool}
    (activations : c.activations = .waits waiting before :: rest)
    (within : n ≤ (c.afterCall m waiting before.frames.length framePushed).activations.length)
    (based : Based n bottom c.activations base) (level : c.vs.tempRoots = base) :
    (c.afterCall m waiting before.frames.length framePushed).Rooted n bottom := by
  have runs : ((c.withVs { c.vs with callDepthTarget := some before.frames.length }).focusOn
      .start).Rooted n bottom := ⟨base, based, level⟩
  have completes : Tidy waiting →
      n ≤ (c.pop.succeed m waiting before.frames.length).activations.length →
        (c.pop.succeed m waiting before.frames.length).Rooted n bottom := by
    intro tidy high
    obtain rfl := activations_pop activations
    rw [activations_succeed] at high
    rw [activations, based_cons_iff high] at based
    rcases based with ⟨started, below, isBased, holds⟩
    exact rooted_succeed isBased holds (level.trans started) fun _ => tidy
  cases waiting with
  | callback callback => exact runs
  | returning _ _ | unwinding _ =>
    cases framePushed with
    | true => exact runs
    | false =>
      refine completes (fun callback isCallback => ?_) within
      cases isCallback

end Waiting

theorem rooted_returnDrained {value : ν} {savedRoots fi : ℕ} {frame : Frame ν}
    (based : Based n bottom c.activations base) (saved : savedRoots = base)
    (isHeld : c.vs.tempRoots = base + 1) :
    (c.returnDrained m value savedRoots fi frame).Rooted n bottom := by
  unfold returnDrained
  dsimp only
  split
  · apply rooted_spread
    · exact based
    · exact saved
  · split
    · exact rooted_signal trivial based saved
    · refine ⟨base, based, ?_, saved⟩
      change c.vs.tempRoots - 1 = base + 0
      omega

theorem rooted_retSlowPath {value : ν} {savedRoots fi : ℕ} {frame : Frame ν}
    (high : n ≤ c.activations.length) (based : Based n bottom c.activations base)
    (saved : savedRoots = base) (isHeld : c.vs.tempRoots = base + 1) :
    (c.retSlowPath m value savedRoots fi frame).Rooted n bottom := by
  unfold retSlowPath
  dsimp only
  split
  · exact rooted_returnDrained based saved isHeld
  · split
    · exact rooted_returnDrained based saved isHeld
    · split
      · exact rooted_signal trivial based saved
      · split
        next vs stuck =>
          rcases Vs.of_pushAll stuck with ⟨pushed, rfl, -⟩
          exact rooted_signal trivial based saved
        next vs pushes =>
          rcases Vs.of_pushAll pushes with ⟨pushed, rfl, -⟩
          exact ⟨_, (based_cons_iff high).mpr ⟨rfl, base, based, saved, isHeld⟩, rfl⟩

/-- Work fails and leaves temp roots, or a callback of such work fails. -/
def Leaks (c : Cfg ν ε σ) : Prop :=
  (∃ floor held work, c.focus = .work floor held work ∧ work.leaked ≠ 0) ∨
    ∃ waiting before rest, c.activations = .waits waiting before :: rest ∧ ¬Tidy waiting ∧
      ((∃ err, c.focus = .failed err) ∨
        ∃ how, c.focus = .ended how ∧ (endedError how = none → c.vs.stack = []))

theorem rooted_step {c' : Cfg ν ε σ} (high : n ≤ c.activations.length)
    (within : n ≤ c'.activations.length) (rooted : c.Rooted n bottom) (tidy : ¬c.Leaks)
    (stepped : c.step m = some c') : c'.Rooted n bottom := by
  rcases rooted with ⟨base, based, holds⟩
  cases stepped_of_step stepped with
  | refused focusEq _ | lost focusEq _ =>
    rw [focusEq] at holds
    exact rooted_signal trivial based holds
  | entered focusEq _ | suspended focusEq | yielded focusEq =>
    rw [focusEq] at holds
    exact ⟨base, based, holds⟩
  | fetched focusEq _ =>
    rw [focusEq] at holds
    exact ⟨base, based, holds, trivial⟩
  | @work floor held work focusEq =>
    rw [focusEq] at holds
    refine rooted_workOn high based holds.1 holds.2 ?_
    by_contra leaks
    exact tidy (.inl ⟨floor, held, work, focusEq, leaks⟩)
  | callValue focusEq =>
    rw [focusEq] at holds
    exact rooted_callValue based holds _
  | performCall focusEq =>
    rw [focusEq] at holds
    exact rooted_performCall based holds _ _
  | afterInstr focusEq =>
    rw [focusEq] at holds
    exact rooted_afterInstr based holds
  | afterCall focusEq activations =>
    rw [focusEq] at holds
    exact rooted_afterCall activations within based holds
  | @failed err waiting before rest focusEq activations =>
    rw [focusEq] at holds
    obtain rfl := activations_pop activations
    rw [activations_fail] at within
    rw [activations, based_cons_iff within] at based
    rcases based with ⟨started, below, isBased, holdsBelow⟩
    refine rooted_fail isBased holdsBelow (holds.trans started) ?_
    by_contra leaks
    exact tidy (.inr ⟨waiting, before, _, activations, leaks, .inl ⟨err, focusEq⟩⟩)
  | panics focusEq _ _ =>
    rw [focusEq] at holds
    exact rooted_runPanicUnwind based holds _
  | returned focusEq _ =>
    rw [focusEq] at holds
    exact rooted_retSlowPath high based holds.1 holds.2
  | unwound focusEq =>
    rw [focusEq] at holds
    exact rooted_unwind based holds high _
  | resumed focusEq activations =>
    obtain rfl := activations_pop activations
    rw [activations, based_cons_iff within] at based
    exact ⟨base, based, holds⟩
  | @cameBack how waiting before rest focusEq activations =>
    rw [focusEq] at holds
    obtain rfl := activations_pop activations
    have isAbove : n ≤ c.pop.activations.length := by
      cases isError : endedError how <;> rw [isError] at within
      · rwa [activations_succeed] at within
      · rwa [activations_fail] at within
    rw [activations, based_cons_iff isAbove] at based
    rcases based with ⟨started, below, isBased, holdsBelow⟩
    have leaves : (endedError how = none → c.vs.stack = []) → Tidy waiting := by
      intro fails
      by_contra leaks
      exact tidy (.inr ⟨waiting, before, _, activations, leaks, .inr ⟨how, focusEq, fails⟩⟩)
    cases isError : endedError how with
    | none =>
      exact rooted_succeed isBased holdsBelow (holds.trans started) fun empty =>
        leaves fun _ => empty
    | some err =>
      refine rooted_fail isBased holdsBelow (holds.trans started) (leaves fun isNone => ?_)
      rw [isNone] at isError
      cases isError

end Cfg

end Gengo.Reentry
