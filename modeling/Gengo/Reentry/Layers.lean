import Gengo.Reentry.Interpreter

/-!
# Loops on top of one another

While something waits for a loop, the loop leaves the state in which it was started alone: its
frames lie on top of the frames from before, their parts of the stack above the stack from
before, and the outermost of them returns to where the interpreter was. This is stated of all the
activations at once.
-/

namespace Gengo.Reentry

open List Nat
open Engines (Func)

universe u v w x

variable {ν : Type v} {ε : Type u} {σ : Type w} {α : Type x}

/-- The frames of a call lie on top of the frames from before. -/
inductive Stacked (before : Vs ν σ) : List (Frame ν) → Prop
  | outermost {frame : Frame ν} (base : frame.base = before.stack.length + 1)
      (retIp : frame.retIp = before.ip) : Stacked before (frame :: before.frames)
  | inner {frame : Frame ν} {outer : List (Frame ν)} (base : before.stack.length < frame.base)
      (stacked : Stacked before outer) : Stacked before (frame :: outer)

/-- The parts of the state that tell where the interpreter is. -/
structure SameControl (vs vs' : Vs ν σ) : Prop where
  stack : vs'.stack = vs.stack
  frames : vs'.frames = vs.frames
  ip : vs'.ip = vs.ip
  callDepthTarget : vs'.callDepthTarget = vs.callDepthTarget

/-- A loop goes on in a frame of the call. -/
structure Running (before vs : Vs ν σ) : Prop where
  callDepthTarget : vs.callDepthTarget = some before.frames.length
  stack : before.stack <+: vs.stack
  frames : Stacked before vs.frames

/-- The loop of a call has no frame left. -/
structure Settled (before vs : Vs ν σ) : Prop where
  callDepthTarget : vs.callDepthTarget = some before.frames.length
  stack : before.stack <+: vs.stack
  frames : vs.frames = before.frames

/-- A call has come to nothing. -/
structure Abandoned (before vs : Vs ν σ) : Prop where
  callDepthTarget : vs.callDepthTarget = before.callDepthTarget
  stack : before.stack <+: vs.stack
  frames : vs.frames = before.frames

/-- A call has not been entered yet, or has been left. -/
structure Performing (before vs : Vs ν σ) : Prop extends Abandoned before vs where
  ip : vs.ip = before.ip

/-- A call has been left, with results. -/
structure Back (before vs : Vs ν σ) (results : List ν) : Prop where
  stack : vs.stack = before.stack ++ results
  frames : vs.frames = before.frames
  ip : vs.ip = before.ip

section States

variable {before vs vs' : Vs ν σ}

theorem Stacked.length_lt {frames : List (Frame ν)} (stacked : Stacked before frames) :
    before.frames.length < frames.length := by
  induction stacked with
  | outermost _ _ => exact lt_succ_self _
  | inner _ _ ih => exact ih.trans (lt_succ_self _)

theorem Stacked.head {frame : Frame ν} {outer : List (Frame ν)}
    (stacked : Stacked before (frame :: outer)) : before.stack.length < frame.base := by
  cases stacked with
  | outermost base _ => rw [base]; exact lt_succ_self _
  | inner base _ => exact base

theorem Stacked.tail {frame : Frame ν} {outer : List (Frame ν)}
    (stacked : Stacked before (frame :: outer)) :
    (outer = before.frames ∧ frame.base = before.stack.length + 1 ∧ frame.retIp = before.ip) ∨
      Stacked before outer := by
  cases stacked with
  | outermost base retIp => exact .inl ⟨rfl, base, retIp⟩
  | inner _ stacked => exact .inr stacked

theorem Stacked.exists_cons {frames : List (Frame ν)} (stacked : Stacked before frames) :
    ∃ frame outer, frames = frame :: outer := by
  cases stacked with
  | outermost _ _ | inner _ _ => exact ⟨_, _, rfl⟩

theorem Stacked.recall {frame frame' : Frame ν} {outer : List (Frame ν)}
    (stacked : Stacked before (frame :: outer)) (base : frame'.base = frame.base)
    (retIp : frame'.retIp = frame.retIp) : Stacked before (frame' :: outer) := by
  cases stacked with
  | outermost isBase isRetIp => exact .outermost (base.trans isBase) (retIp.trans isRetIp)
  | inner above stacked => exact .inner (base ▸ above) stacked

/-- Where the loop is in its frame does not matter. -/
theorem Running.of_eq (running : Running before vs) (stack : vs'.stack = vs.stack)
    (frames : vs'.frames = vs.frames) (target : vs'.callDepthTarget = vs.callDepthTarget) :
    Running before vs' where
  callDepthTarget := target.trans running.callDepthTarget
  stack := by rw [stack]; exact running.stack
  frames := by rw [frames]; exact running.frames

theorem Running.congr (same : SameControl vs vs') (running : Running before vs) :
    Running before vs' :=
  running.of_eq same.stack same.frames same.callDepthTarget

theorem Settled.of_eq (settled : Settled before vs) (stack : vs'.stack = vs.stack)
    (frames : vs'.frames = vs.frames) (target : vs'.callDepthTarget = vs.callDepthTarget) :
    Settled before vs' where
  callDepthTarget := target.trans settled.callDepthTarget
  stack := by rw [stack]; exact settled.stack
  frames := frames.trans settled.frames

section

variable (same : SameControl vs vs')
include same

theorem Settled.congr (settled : Settled before vs) : Settled before vs' :=
  settled.of_eq same.stack same.frames same.callDepthTarget

theorem Abandoned.congr (abandoned : Abandoned before vs) : Abandoned before vs' where
  callDepthTarget := same.callDepthTarget.trans abandoned.callDepthTarget
  stack := by rw [same.stack]; exact abandoned.stack
  frames := same.frames.trans abandoned.frames

theorem Performing.congr (performing : Performing before vs) : Performing before vs' where
  toAbandoned := performing.toAbandoned.congr same
  ip := same.ip.trans performing.ip

theorem SameControl.performing : Performing vs vs' where
  callDepthTarget := same.callDepthTarget
  stack := same.stack ▸ prefix_rfl
  frames := same.frames
  ip := same.ip

end

theorem Running.restack (running : Running before vs) {floor : ℕ} (region : List ν)
    (above : before.stack.length ≤ floor) : Running before (vs.restack floor region) where
  callDepthTarget := running.callDepthTarget
  stack := (prefix_take_iff.mpr ⟨running.stack, above⟩).trans (prefix_append _ _)
  frames := running.frames

theorem Performing.restack (performing : Performing before vs) {floor : ℕ} (region : List ν)
    (above : before.stack.length ≤ floor) : Performing before (vs.restack floor region) where
  callDepthTarget := performing.callDepthTarget
  stack := (prefix_take_iff.mpr ⟨performing.stack, above⟩).trans (prefix_append _ _)
  frames := performing.frames
  ip := performing.ip

theorem Running.frameBase (running : Running before vs) : before.stack.length < vs.frameBase := by
  rcases running.frames.exists_cons with ⟨frame, outer, framesEq⟩
  rw [Vs.frameBase, framesEq]
  exact Stacked.head (framesEq ▸ running.frames)

theorem Vs.of_pushAll {values : List ν} {vs vs' : Vs ν σ} {full : Bool}
    (pushes : vs.pushAll values = (full, vs')) :
    ∃ pushed, vs' = { vs with stack := vs.stack ++ pushed } ∧ (full = true → pushed = values) ∧
      (full = false → pushed.length < values.length) := by
  induction values generalizing vs with
  | nil =>
    cases pushes
    exact ⟨[], by simp, fun _ => rfl, fun isStuck => Bool.noConfusion isStuck⟩
  | cons value values ih =>
    rw [pushAll] at pushes
    by_cases room : vs.stack.length < vs.stackLen
    · rw [if_pos room] at pushes
      rcases ih pushes with ⟨pushed, isPushed, complete, fewer⟩
      refine ⟨value :: pushed, ?_, fun isFull => congrArg _ (complete isFull),
        fun isStuck => succ_lt_succ (fewer isStuck)⟩
      rw [isPushed]
      simp
    · rw [if_neg room] at pushes
      cases pushes
      exact ⟨[], by simp, fun isFull => Bool.noConfusion isFull, fun _ => succ_pos _⟩

/-- What runs on top of a state runs on top of it when a call in between is over. -/
theorem Running.after (running : Running before vs) (abandoned : Abandoned vs vs') :
    Running before vs' where
  callDepthTarget := abandoned.callDepthTarget.trans running.callDepthTarget
  stack := running.stack.trans abandoned.stack
  frames := by rw [abandoned.frames]; exact running.frames

theorem Abandoned.trans (first : Abandoned before vs) (second : Abandoned vs vs') :
    Abandoned before vs' where
  callDepthTarget := second.callDepthTarget.trans first.callDepthTarget
  stack := first.stack.trans second.stack
  frames := second.frames.trans first.frames

theorem Performing.trans (first : Performing before vs) (second : Performing vs vs') :
    Performing before vs' where
  toAbandoned := first.toAbandoned.trans second.toAbandoned
  ip := second.ip.trans first.ip

theorem Running.leave (running : Running before vs) {frame : Frame ν} {outer : List (Frame ν)}
    (framesEq : vs.frames = frame :: outer) (results : List ν) (vs' : Vs ν σ)
    (target : vs'.callDepthTarget = vs.callDepthTarget) (frames : vs'.frames = outer)
    (stack : vs'.stack = vs.stack.take (frame.base - 1) ++ results)
    (ip : vs'.ip = frame.retIp) : Back before vs' results ∨ Running before vs' := by
  have stacked := running.frames
  rw [framesEq] at stacked
  have above := stacked.head
  rcases stacked.tail with ⟨isLast, base, retIp⟩ | stacked
  · left
    constructor
    · rw [stack, base, Nat.add_sub_cancel, ← prefix_iff_eq_take.mp running.stack]
    · exact frames.trans isLast
    · exact ip.trans retIp
  · right
    constructor
    · exact target.trans running.callDepthTarget
    · rw [stack]
      exact (prefix_take_iff.mpr ⟨running.stack, by omega⟩).trans (prefix_append _ _)
    · rw [frames]
      exact stacked

end States

/-- What the innermost waiting activation may rely on while work goes on. -/
def RelWork (before vs : Vs ν σ) (floor : ℕ) : Skeleton ν → Prop
  | .instr => Running before vs ∧ before.stack.length ≤ floor
  | .checking true =>
    Running before vs ∧ before.stack.length < floor ∧ before.stack.length < vs.stack.length
  | .builtin true => Running before vs ∧ before.stack.length ≤ floor
  | .checking false =>
    Performing before vs ∧ floor = before.stack.length + 1 ∧ before.stack.length < vs.stack.length
  | .builtin false => Performing before vs ∧ floor = before.stack.length
  | .accepting frame _ =>
    Running before { vs with frames := frame :: vs.frames } ∧ before.stack.length ≤ floor

/-- A loop that starts here executes no instruction. -/
def Machine.Refuses (m : Machine ν ε σ) (vs : Vs ν σ) : Prop :=
  m.entryError vs ≠ none ∨ ∀ fetched, m.fetch vs ≠ .ok fetched

/-- What the innermost waiting activation may rely on. -/
def Rel (m : Machine ν ε σ) (before vs : Vs ν σ) : Focus ν ε σ → Prop
  | .start => Running before vs ∨ (Settled before vs ∧ m.Refuses vs)
  | .loop => Running before vs ∨ (Settled before vs ∧ ∀ fetched, m.fetch vs ≠ .ok fetched)
  | .raise _ | .ended (.raised _) => Running before vs ∨ Settled before vs
  | .work floor _ work => RelWork before vs floor work.skeleton
  | .callValue _ => Performing before vs ∧ vs.stack = before.stack
  | .performCall true argc =>
    Running before vs ∧ before.stack.length + argc + 1 ≤ vs.stack.length
  | .performCall false argc =>
    Performing before vs ∧ vs.stack.length = before.stack.length + argc + 1
  | .performed true _ => Running before vs
  | .performed false true =>
    Running before { vs with callDepthTarget := some before.frames.length }
  | .performed false false =>
    Performing before vs ∧ vs.stack.length = before.stack.length + 1
  | .failed _ => Abandoned before vs
  | .retSlowPath _ _ fi => Running before vs ∧ vs.frames.length = fi + 1
  | .unwind state =>
    Running before vs ∨ (Settled before vs ∧ state.frameRecovered = false)
  | .ended (.returned results) => Back before vs results
  | .ended _ => True

/-- What holds of the outermost loop as well. -/
def Intrinsic (vs : Vs ν σ) : Focus ν ε σ → Prop
  | .retSlowPath _ _ fi => vs.frames.length = fi + 1
  | .unwind state =>
    state.frameRecovered = true → vs.callDepthTarget.getD 0 < vs.frames.length
  | _ => True

/-- An error on its way. -/
def Focus.IsError : Focus ν ε σ → Prop
  | .raise _ | .failed _ => True
  | _ => False

namespace Waiting

/-- Where the interpreter was when the call was made. -/
def focus (depthBefore : ℕ) : Waiting ν ε σ → Focus ν ε σ
  | .returning value savedRoots => .retSlowPath value savedRoots (depthBefore - 1)
  | .unwinding state => .unwind state
  | .callback asked => .work asked.floor asked.held asked.work

/-- The unwinder calls only what a frame of its own has deferred. -/
def Fits (before : Vs ν σ) : Waiting ν ε σ → Prop
  | .unwinding _ => before.callDepthTarget.getD 0 < before.frames.length
  | _ => True

end Waiting

/-- What goes on is related to the innermost activation that waits, as this is to the next one,
down to the lowest `n` activations. -/
def Layers (rel : Waiting ν ε σ → Vs ν σ → Focus ν ε σ → Vs ν σ → Prop)
    (intrinsic : Focus ν ε σ → Vs ν σ → Prop) (n : ℕ) :
    List (Activation ν ε σ) → Focus ν ε σ → Vs ν σ → Prop
  | [], focus, vs => intrinsic focus vs
  | activation :: rest, focus, vs =>
    if rest.length < n then intrinsic focus vs
    else
      match activation with
      | .resumed => Layers rel intrinsic n rest focus vs
      | .waits waiting before =>
        rel waiting before focus vs ∧
          Layers rel intrinsic n rest (waiting.focus before.frames.length) before

section Layers

variable {rel : Waiting ν ε σ → Vs ν σ → Focus ν ε σ → Vs ν σ → Prop}
  {intrinsic : Focus ν ε σ → Vs ν σ → Prop} {n : ℕ} {before vs vs' : Vs ν σ}
  {focus focus' : Focus ν ε σ} {activations : List (Activation ν ε σ)}

theorem layers_cons_iff {activation : Activation ν ε σ} :
    Layers rel intrinsic n (activation :: activations) focus vs ↔
      if activations.length < n then intrinsic focus vs
      else
        match activation with
        | .resumed => Layers rel intrinsic n activations focus vs
        | .waits waiting before =>
          rel waiting before focus vs ∧
            Layers rel intrinsic n activations (waiting.focus before.frames.length) before := by
  cases activation <;> rfl

theorem Layers.map (layers : Layers rel intrinsic n activations focus vs)
    (related : ∀ waiting before, rel waiting before focus vs → rel waiting before focus' vs')
    (intrinsically : intrinsic focus vs → intrinsic focus' vs') :
    Layers rel intrinsic n activations focus' vs' := by
  induction activations with
  | nil => exact intrinsically layers
  | cons activation rest ih =>
    rw [layers_cons_iff] at layers ⊢
    split
    next isBase =>
      rw [if_pos isBase] at layers
      exact intrinsically layers
    next above =>
      rw [if_neg above] at layers
      cases activation with
      | resumed => exact ih layers
      | waits waiting before => exact ⟨related waiting before layers.1, layers.2⟩

theorem layers_waits_iff {waiting : Waiting ν ε σ} (high : n ≤ activations.length) :
    Layers rel intrinsic n (.waits waiting before :: activations) focus vs ↔
      rel waiting before focus vs ∧
        Layers rel intrinsic n activations (waiting.focus before.frames.length) before := by
  rw [layers_cons_iff, if_neg (not_lt.mpr high)]

end Layers

/-- Each loop leaves what waits for it alone. -/
def Good (m : Machine ν ε σ) : ℕ → List (Activation ν ε σ) → Focus ν ε σ → Vs ν σ → Prop :=
  Layers (fun waiting before focus vs => waiting.Fits before ∧ Rel m before vs focus)
    fun focus vs => Intrinsic vs focus

section Good

variable {m : Machine ν ε σ} {n : ℕ} {before vs vs' : Vs ν σ} {focus focus' : Focus ν ε σ}
  {activations : List (Activation ν ε σ)}

theorem Good.map (good : Good m n activations focus vs)
    (rel : ∀ before, Rel m before vs focus → Rel m before vs' focus')
    (intrinsic : Intrinsic vs focus → Intrinsic vs' focus') : Good m n activations focus' vs' :=
  Layers.map good (fun _ before related => ⟨related.1, rel before related.2⟩) intrinsic

theorem Good.push (waiting : Waiting ν ε σ) (fits : waiting.Fits before)
    (good : Good m n activations (waiting.focus before.frames.length) before)
    (rel : Rel m before vs focus) (high : n ≤ activations.length) :
    Good m n (.waits waiting before :: activations) focus vs :=
  (layers_waits_iff high).mpr ⟨⟨fits, rel⟩, good⟩

theorem Good.top {waiting : Waiting ν ε σ}
    (good : Good m n (.waits waiting before :: activations) focus vs)
    (high : n ≤ activations.length) :
    waiting.Fits before ∧ Rel m before vs focus ∧
      Good m n activations (waiting.focus before.frames.length) before := by
  rcases (layers_waits_iff high).mp good with ⟨⟨fits, rel⟩, below⟩
  exact ⟨fits, rel, below⟩

/-- The loop of a resumed caller stands for the one of the unwinder. -/
theorem good_resumed_iff (high : n ≤ activations.length) :
    Good m n (.resumed :: activations) focus vs ↔ Good m n activations focus vs := by
  rw [Good, layers_cons_iff, if_neg (not_lt.mpr high)]

variable {floor : ℕ} {skeleton : Skeleton ν}

theorem RelWork.congr (same : SameControl vs vs') (rel : RelWork before vs floor skeleton) :
    RelWork before vs' floor skeleton := by
  cases skeleton with
  | instr => exact ⟨rel.1.congr same, rel.2⟩
  | checking inLoop =>
    cases inLoop with
    | true | false => exact ⟨rel.1.congr same, rel.2.1, same.stack ▸ rel.2.2⟩
  | builtin inLoop =>
    cases inLoop with
    | true | false => exact ⟨rel.1.congr same, rel.2⟩
  | accepting frame _ =>
    have popped : SameControl { vs with frames := frame :: vs.frames }
        { vs' with frames := frame :: vs'.frames } :=
      ⟨same.stack, congrArg (frame :: ·) same.frames, same.ip, same.callDepthTarget⟩
    exact ⟨rel.1.congr popped, rel.2⟩

theorem RelWork.after (performing : Performing vs vs') (rel : RelWork before vs floor skeleton) :
    RelWork before vs' floor skeleton := by
  have longer := performing.stack.length_le
  cases skeleton with
  | instr => exact ⟨rel.1.after performing.toAbandoned, rel.2⟩
  | checking inLoop =>
    cases inLoop with
    | true =>
      exact ⟨rel.1.after performing.toAbandoned, rel.2.1, rel.2.2.trans_le longer⟩
    | false => exact ⟨rel.1.trans performing, rel.2.1, rel.2.2.trans_le longer⟩
  | builtin inLoop =>
    cases inLoop with
    | true => exact ⟨rel.1.after performing.toAbandoned, rel.2⟩
    | false => exact ⟨rel.1.trans performing, rel.2⟩
  | accepting frame _ =>
    refine ⟨rel.1.after ⟨performing.callDepthTarget, performing.stack, ?_⟩, rel.2⟩
    exact congrArg (frame :: ·) performing.frames

theorem RelWork.restack (region : List ν) (rel : RelWork before vs floor skeleton) :
    RelWork before (vs.restack floor region) floor skeleton := by
  cases skeleton with
  | instr => exact ⟨rel.1.restack region rel.2, rel.2⟩
  | checking inLoop =>
    cases inLoop with
    | true =>
      refine ⟨rel.1.restack region rel.2.1.le, rel.2.1, ?_⟩
      rw [Vs.restack, length_append, length_take]
      exact (lt_min rel.2.1 rel.2.2).trans_le (le_add_right _ _)
    | false =>
      refine ⟨rel.1.restack region (rel.2.1 ▸ le_succ _), rel.2.1, ?_⟩
      rw [Vs.restack, length_append, length_take]
      exact (lt_min (rel.2.1 ▸ lt_succ_self _) rel.2.2).trans_le (le_add_right _ _)
  | builtin inLoop =>
    cases inLoop with
    | true => exact ⟨rel.1.restack region rel.2, rel.2⟩
    | false => exact ⟨rel.1.restack region rel.2.ge, rel.2⟩
  | accepting frame _ =>
    have changed := rel.1.restack region rel.2
    exact ⟨⟨changed.callDepthTarget, changed.stack, changed.frames⟩, rel.2⟩

end Good

end Gengo.Reentry
