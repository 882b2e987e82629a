import Gengo.Reentry.Roots
import Mathlib.Tactic.IntervalCases

/-!
# `callFunction` is balanced

A call through `callFunction` leaves the state as it was, and comes back with the first of the
results, exactly when its callee is run in a frame of its own and leaves it with one result. It
runs the loop whether or not a frame has been pushed: behind a callee that is completed without
one, the loop executes the instructions of the caller.
-/

namespace Gengo.Reentry

open List Nat

universe u v w

variable {ν : Type v} {ε : Type u} {σ : Type w}

namespace Cfg

variable {m : Machine ν ε σ} {c c' : Cfg ν ε σ}

/-- The steps of a call, until `callFunction` comes back. -/
inductive During (m : Machine ν ε σ) (begun : Cfg ν ε σ) : Cfg ν ε σ → Prop
  | begun : During m begun begun
  | step {c c' : Cfg ν ε σ} (during : During m begun c) (stepped : c.step m = some c')
      (within : begun.activations <:+ c'.activations) : During m begun c'

/-- What `callFunction` comes back with, and the state that it leaves. -/
def callResult (before : Vs ν σ) (c : Cfg ν ε σ) : Option (Except (VmError ε) (ν × Vs ν σ)) :=
  match c.focus with
  | .failed err => some (.error err)
  | .ended how =>
    match endedError how, c.vs.stack.getLast? with
    | some err, _ => some (.error err)
    | none, none => some (.error .stackUnderflow)
    | none, some value =>
      some (.ok (value, { c.vs with
        stack := c.vs.stack.dropLast, callDepthTarget := before.callDepthTarget }))
  | _ => none

/-- The call executes nothing below its own frames, and either raises an error or comes back with
the first of the results of its callee, with everything as it was. -/
structure Balanced (m : Machine ν ε σ) (c : Cfg ν ε σ) (callback : Callback ν ε σ)
    (call : Call ν) : Prop where
  callerWaits : ∀ c', During m (c.beginCall callback call) c' → c'.Executes m →
    c.vs.frames.length < c'.vs.frames.length
  comesBack : ∀ c' value vs, During m (c.beginCall callback call) c' →
    c'.activations = (c.beginCall callback call).activations →
      c'.callResult c.vs = some (.ok (value, vs)) →
        (∃ results, c'.focus = .ended (.returned results) ∧ results.head? = some value) ∧
          vs.frames.length = c.vs.frames.length ∧ vs.ip = c.vs.ip ∧
            vs.stack.length = c.vs.stack.length ∧ vs.tempRoots = c.vs.tempRoots ∧
              vs.callDepthTarget = c.vs.callDepthTarget

/-- The loop of a call ends without an error, but has not left the frame of the call with a single
result. -/
def EndsOtherwise (c : Cfg ν ε σ) : Prop :=
  ∃ how, c.focus = .ended how ∧ endedError how = none ∧ c.vs.stack ≠ [] ∧
    ∀ value, how ≠ .returned [value]

/-- What goes on inside of a call is in order: calls of `callFunction` are made of what pushes a
frame, loops end when their last frame has been left, and work that fails leaves no temp roots. -/
structure InOrder (m : Machine ν ε σ) (begun : Cfg ν ε σ) : Prop where
  framed : ∀ c, During m begun c → c.activations ≠ begun.activations → ¬c.Unframed m
  complete : ∀ c, During m begun c → c.activations ≠ begun.activations → ¬c.EndsEarly
  tidy : ∀ c c', During m begun c → c.step m = some c' →
    begun.activations <:+ c'.activations → ¬c.Leaks

variable {callback : Callback ν ε σ} {call : Call ν}

theorem callResult_eq_ok {before vs : Vs ν σ} {value : ν}
    (result : c.callResult before = some (.ok (value, vs))) :
    ∃ how, c.focus = .ended how ∧ endedError how = none ∧ c.vs.stack.getLast? = some value ∧
      vs = { c.vs with
        stack := c.vs.stack.dropLast, callDepthTarget := before.callDepthTarget } := by
  unfold callResult at result
  split at result
  next => cases result
  next how isEnded =>
    split at result
    next => cases result
    next => cases result
    next last noError isLast =>
      cases result
      exact ⟨how, isEnded, noError, isLast, rfl⟩
  next => cases result

theorem step_of_start (focus : c.focus = .start) (entry : m.entryError c.vs = none) :
    c.step m = some (c.focusOn .loop) := by
  unfold step
  rw [focus]
  rw [entry]

theorem During.exists_after {begun : Cfg ν ε σ} (during : During m begun c) :
    ∃ k, after m begun k = some c ∧
      ∀ j ≤ k, ∀ c' ∈ after m begun j, begun.activations <:+ c'.activations := by
  induction during with
  | begun =>
    refine ⟨0, rfl, fun j first c' isBegun => ?_⟩
    obtain rfl := le_zero.mp first
    cases isBegun
    exact suffix_rfl
  | @step c₁ c₂ during stepped within ih =>
    rcases ih with ⟨k, isReached, earlier⟩
    have reaches : after m begun (k + 1) = some c₂ := by
      rw [after, isReached]
      exact stepped
    refine ⟨k + 1, reaches, fun j bounded c' isReachedAt => ?_⟩
    rcases le_succ_iff.mp bounded with before | rfl
    · exact earlier j before c' isReachedAt
    · rw [Option.mem_def, reaches] at isReachedAt
      cases isReachedAt
      exact within

theorem During.suffix {begun : Cfg ν ε σ} (during : During m begun c) :
    begun.activations <:+ c.activations := by
  cases during with
  | begun => exact suffix_rfl
  | step _ _ within => exact within

variable {rest : List (Activation ν ε σ)}

theorem activations_of_ended {how : Ended ν ε} {activation : Activation ν ε σ}
    (focus : c.focus = .ended how) (activations : c.activations = activation :: rest)
    (stepped : c.step m = some c') : c'.activations = rest := by
  unfold step at stepped
  rw [focus] at stepped
  rw [activations] at stepped
  cases activation with
  | resumed =>
    cases stepped
    exact activations_pop activations
  | waits waiting before =>
    dsimp only at stepped
    split at stepped
    · cases stepped
      rw [activations_succeed]
      exact activations_pop activations
    · cases stepped
      rw [activations_fail]
      exact activations_pop activations

theorem frames_le_of_rel {b before : Vs ν σ} {waiting : Waiting ν ε σ} {depth : ℕ}
    (rel : Rel m b before (waiting.focus depth)) : b.frames.length ≤ before.frames.length := by
  cases waiting with
  | returning _ _ => exact rel.1.frames.length_lt.le
  | unwinding _ =>
    rcases rel with running | ⟨settled, -⟩
    · exact running.frames.length_lt.le
    · exact (congrArg List.length settled.frames).ge
  | callback callback =>
    have related : RelWork b before callback.floor callback.work.skeleton := rel
    cases isSkeleton : callback.work.skeleton with
    | instr =>
      rw [isSkeleton] at related
      exact related.1.frames.length_lt.le
    | checking inLoop | builtin inLoop =>
      rw [isSkeleton] at related
      cases inLoop with
      | true => exact related.1.frames.length_lt.le
      | false => exact (congrArg List.length related.1.frames).ge
    | accepting frame _ =>
      rw [isSkeleton] at related
      exact le_of_lt_succ related.1.frames.length_lt

theorem frames_le_of_good {n k : ℕ} {activations : List (Activation ν ε σ)} {focus : Focus ν ε σ}
    {vs before : Vs ν σ} {waiting : Waiting ν ε σ} (good : Good m n activations focus vs)
    (high : n ≤ rest.length) (within : .waits waiting before :: rest <:+ activations)
    (near : ∀ b, Rel m b vs focus → b.frames.length + k ≤ vs.frames.length) :
    before.frames.length + k ≤ vs.frames.length := by
  induction activations generalizing focus vs k with
  | nil => exact absurd (suffix_nil.mp within) (cons_ne_nil _ _)
  | cons activation above ih =>
    rcases suffix_cons_iff.mp within with isTop | isBelow
    · cases isTop
      exact near before (good.top high).2.1
    · have higher : n ≤ above.length := by
        have shorter := isBelow.length_le
        rw [length_cons] at shorter
        omega
      cases activation with
      | resumed =>
        rw [good_resumed_iff higher] at good
        exact ih good isBelow near
      | waits waiting' before' =>
        have top := good.top higher
        have deeper := near before' top.2.1
        have below : before.frames.length + 0 ≤ before'.frames.length :=
          ih top.2.2 isBelow fun _ => frames_le_of_rel
        omega

/-- A loop without a frame of its own executes an instruction of the caller. -/
theorem executes_of_unframed {before : Vs ν σ}
    (activations : c'.activations = .waits (.callback callback) before :: rest)
    (focus : c'.focus = .performed false false)
    (goesOn : ¬m.Refuses { c'.vs with callDepthTarget := some before.frames.length })
    {begun : Cfg ν ε σ} (during : During m begun c') (own : c'.activations = begun.activations) :
    ∃ c'', During m begun c'' ∧ c''.Executes m ∧ c''.vs.frames = c'.vs.frames := by
  let vs := { c'.vs with callDepthTarget := some before.frames.length }
  have entry : m.entryError vs = none := by
    by_contra refused
    exact goesOn (.inl refused)
  have fetches : ∃ fetched, m.fetch vs = .ok fetched := by
    by_contra none_
    exact goesOn (.inr fun fetched isFetched => none_ ⟨fetched, isFetched⟩)
  have started : During m begun ((c'.withVs vs).focusOn .start) := by
    refine during.step ?_ (own ▸ suffix_rfl)
    unfold step
    rw [focus]
    dsimp only
    rw [if_neg Bool.false_ne_true, activations]
    rfl
  have loops : During m begun ((c'.withVs vs).focusOn .loop) := by
    refine started.step ?_ (own ▸ suffix_rfl)
    exact step_of_start rfl entry
  exact ⟨_, loops, ⟨rfl, fetches⟩, rfl⟩

theorem framed_of_balanced (balanced : Balanced m c callback call)
    (during : During m (c.beginCall callback call) c')
    (own : c'.activations = (c.beginCall callback call).activations)
    (layered : c'.Layered m c.activations.length) : ¬c'.Unframed m := by
  rintro ⟨callback', before, rest, focus, activations, goesOn⟩
  have isOwn := activations.symm.trans own
  cases isOwn
  unfold Layered at layered
  rw [activations, focus] at layered
  have performing : Performing c.vs c'.vs := (Good.top layered le_rfl).2.1.1
  rcases executes_of_unframed activations focus goesOn during own with
    ⟨c'', during'', executes, frames⟩
  have deeper := balanced.callerWaits c'' during'' executes
  rw [frames, performing.frames] at deeper
  exact lt_irrefl _ deeper

/-- A loop that comes back from its last frame has left the results on the stack from before. -/
theorem back_of_layered {results : List ν} (focus : c'.focus = .ended (.returned results))
    (own : c'.activations = (c.beginCall callback call).activations)
    (layered : c'.Layered m c.activations.length) : Back c.vs c'.vs results := by
  unfold Layered at layered
  rw [own, focus] at layered
  exact (Good.top layered le_rfl).2.1

variable (order : InOrder m (c.beginCall callback call))
include order

theorem layered_of_during
    (framed : ∀ c', During m (c.beginCall callback call) c' →
      c'.activations = (c.beginCall callback call).activations →
        c'.Layered m c.activations.length → ¬c'.Unframed m)
    (during : During m (c.beginCall callback call) c') : c'.Layered m c.activations.length := by
  induction during with
  | begun =>
    have bottom : Good m c.activations.length c.activations
        (.work callback.floor callback.held callback.work) c.vs := by
      cases isBottom : c.activations with
      | nil => exact trivial
      | cons activation rest =>
        have isLast : rest.length < (activation :: rest).length := lt_succ_self _
        rw [Good, layers_cons_iff, if_pos isLast]
        exact trivial
    refine Good.push (.callback callback) trivial bottom ?_ le_rfl
    exact ⟨SameControl.performing ⟨rfl, rfl, rfl, rfl⟩, rfl⟩
  | @step c₁ c₂ during stepped within layered =>
    have suffix := during.suffix
    have high : c.activations.length < c₁.activations.length := suffix.length_le
    refine layered_step (.inl high) layered ?_ ?_ stepped
    · by_cases own : c₁.activations = (c.beginCall callback call).activations
      · exact framed c₁ during own layered
      · exact order.framed c₁ during own
    · by_cases own : c₁.activations = (c.beginCall callback call).activations
      · rintro ⟨how, waiting, before, rest, focus, activations, -⟩
        have longer := within.length_le
        rw [activations_of_ended focus activations stepped, ← own, activations,
          length_cons] at longer
        exact absurd longer (not_succ_le_self _)
      · exact order.complete c₁ during own

theorem rooted_of_during (during : During m (c.beginCall callback call) c') :
    c'.Rooted (c.activations.length + 1) c.vs.tempRoots := by
  induction during with
  | begun => exact ⟨c.vs.tempRoots, based_bottom_iff.mpr rfl, rfl⟩
  | step during stepped within rooted =>
    exact rooted_step during.suffix.length_le within.length_le rooted
      (order.tidy _ _ during stepped within) stepped

/-- A call whose insides are in order is balanced exactly when its loop has a frame to run, and
comes back from it with a single result. -/
theorem callFunction_balanced_iff : Balanced m c callback call ↔
    ∀ c', During m (c.beginCall callback call) c' →
      c'.activations = (c.beginCall callback call).activations →
        ¬c'.Unframed m ∧ ¬c'.EndsOtherwise := by
  constructor
  · intro balanced c' during own
    have layered : c'.Layered m c.activations.length :=
      layered_of_during order (fun _ => framed_of_balanced balanced) during
    refine ⟨framed_of_balanced balanced during own layered, ?_⟩
    rintro ⟨how, focus, noError, nonempty, otherwise⟩
    have result : c'.callResult c.vs = some (.ok (c'.vs.stack.getLast nonempty, { c'.vs with
        stack := c'.vs.stack.dropLast, callDepthTarget := c.vs.callDepthTarget })) := by
      unfold callResult
      rw [focus]
      dsimp only
      rw [noError, List.getLast?_eq_some_getLast nonempty]
    rcases balanced.comesBack c' _ _ during own result with
      ⟨⟨results, isReturned, isFirst⟩, -, -, height, -⟩
    rw [focus] at isReturned
    cases isReturned
    have back := back_of_layered focus own layered
    have single : results.length = 1 := by
      have isNonempty : results.length ≠ 0 := by
        rintro isZero
        rw [eq_nil_of_length_eq_zero isZero] at isFirst
        cases isFirst
      change c'.vs.stack.dropLast.length = c.vs.stack.length at height
      rw [length_dropLast, back.stack, length_append] at height
      omega
    rcases length_eq_one_iff.mp single with ⟨value, isSingle⟩
    exact otherwise value (congrArg _ isSingle)
  · intro single
    have layered : ∀ c', During m (c.beginCall callback call) c' →
        c'.Layered m c.activations.length := fun c' =>
      layered_of_during order fun c' during own _ => (single c' during own).1
    constructor
    · intro c' during executes
      have deeper : c.vs.frames.length + 1 ≤ c'.vs.frames.length := by
        refine frames_le_of_good (layered c' during) le_rfl during.suffix fun b rel => ?_
        rcases executes with ⟨focus, fetched, isFetched⟩
        rw [focus] at rel
        rcases rel with running | ⟨-, refused⟩
        · exact running.frames.length_lt
        · exact absurd isFetched (refused fetched)
      exact deeper
    · intro c' value vs during own result
      rcases callResult_eq_ok result with ⟨how, focus, noError, isLast, rfl⟩
      have isSingle : ∃ value, how = .returned [value] := by
        by_contra otherwise
        refine (single c' during own).2 ⟨how, focus, noError, ?_, not_exists.mp otherwise⟩
        rintro empty
        rw [empty] at isLast
        cases isLast
      rcases isSingle with ⟨returned, rfl⟩
      have back := back_of_layered focus own (layered c' during)
      rw [back.stack, List.getLast?_concat] at isLast
      cases isLast
      refine ⟨⟨[value], focus, rfl⟩, congrArg List.length back.frames, back.ip, ?_, ?_, rfl⟩
      · change c'.vs.stack.dropLast.length = c.vs.stack.length
        rw [back.stack, dropLast_concat]
      · rcases rooted_of_during order during with ⟨base, based, holds⟩
        rw [own] at based
        rw [focus] at holds
        exact holds.trans (based_bottom_iff.mp based)

end Cfg

/-- The value 1 is a function that returns 2, and 3 a native that gives 4. -/
def sampleMachine : Machine ℕ Empty Unit where
  null := 0
  maxTempRoots := 8
  errorName _ := ""
  errorValue _ := 0
  internStr _ _ := some ()
  unboxCell _ value := value
  isIntegrityError _ := false
  callable _ value :=
    if value = 1 then some (.function ⟨10, 0, false, [], 1, 0, 1⟩)
    else if value = 3 then some (.builtin fun _ _ => .finish 4 () false)
    else none
  entryError _ := none
  fetch vs :=
    .ok (vs.ip + 1, .finish (if vs.ip = 10 then .ret 2 false else .next [] (vs.ip + 1)) () false)
  check _ _ _ := .finish (fun _ => 0) () false
  returnsFast _ _ := true
  accept _ _ _ := .finish () () false

/-- An instruction of the top-level code. -/
def sampleCfg : Cfg ℕ Empty Unit where
  vs := ⟨[], 16, [], 16, [], 16, 5, none, 0, false, false, 0, none, none, false, ()⟩
  activations := []
  focus := .loop
  trace := []

def sampleCallback : Callback ℕ Empty Unit where
  floor := 0
  held := 0
  leaked := 0
  work := .instr (.finish .halt () false)
  resume _ _ := .instr (.finish .halt () false)
  skeleton_resume _ _ := rfl

namespace Cfg

/-- The function is called in order: its frame is pushed, and left with a single result. -/
theorem sample_during {c' : Cfg ℕ Empty Unit}
    (during : During sampleMachine (sampleCfg.beginCall sampleCallback ⟨1, []⟩) c') :
    c'.activations = [.waits (.callback sampleCallback) sampleCfg.vs] ∧
      match c'.focus with
      | .work _ _ work => work.leaked = 0
      | .performed inLoop framePushed => inLoop = false ∧ framePushed = true
      | .ended how => how = .returned [2]
      | _ => True := by
  rcases during.exists_after with ⟨k, isReached, earlier⟩
  have bounded : k ≤ 7 := by
    by_contra beyond
    exact absurd (earlier 8 (by omega) _ rfl).length_le (by decide)
  interval_cases k <;> cases isReached
  · exact ⟨rfl, trivial⟩
  · exact ⟨rfl, trivial⟩
  · exact ⟨rfl, rfl⟩
  · exact ⟨rfl, rfl, rfl⟩
  · exact ⟨rfl, trivial⟩
  · exact ⟨rfl, trivial⟩
  · exact ⟨rfl, rfl⟩
  · exact ⟨rfl, rfl⟩

theorem inOrder_sample : InOrder sampleMachine (sampleCfg.beginCall sampleCallback ⟨1, []⟩) where
  framed _ during outer := absurd (sample_during during).1 outer
  complete _ during outer := absurd (sample_during during).1 outer
  tidy c₁ _ during _ _ := by
    rcases sample_during during with ⟨own, states⟩
    rintro (⟨floor, held, work, focus, leaks⟩ | ⟨waiting, before, rest, activations, leaks, -⟩)
    · rw [focus] at states
      exact leaks states
    · rw [own] at activations
      cases activations
      exact leaks fun callback isCallback => by cases isCallback; rfl

theorem balanced_function : Balanced sampleMachine sampleCfg sampleCallback ⟨1, []⟩ := by
  refine (callFunction_balanced_iff inOrder_sample).mpr fun c' during _ => ?_
  rcases sample_during during with ⟨-, states⟩
  constructor
  · rintro ⟨callback, before, rest, focus, -⟩
    rw [focus] at states
    cases states.2
  · rintro ⟨how, focus, -, -, otherwise⟩
    rw [focus] at states
    exact otherwise 2 states

/-- A native is not: the caller's next instruction is executed. -/
theorem not_balanced_native : ¬Balanced sampleMachine sampleCfg sampleCallback ⟨3, []⟩ := by
  intro balanced
  have called : During sampleMachine (sampleCfg.beginCall sampleCallback ⟨3, []⟩) _ :=
    (During.begun.step rfl (by exact suffix_rfl)).step rfl (by exact suffix_rfl)
  have performed := called.step rfl (by exact suffix_rfl)
  have loops :=
    (performed.step rfl (by exact suffix_rfl)).step rfl (by exact suffix_rfl)
  exact absurd (balanced.callerWaits _ loops ⟨rfl, _, rfl⟩) (lt_irrefl _)

end Cfg

end Gengo.Reentry
