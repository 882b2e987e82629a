import Gengo.Arrays.Append
import Gengo.Maps.Keys

/-!
# Filters

`std.array.filter` goes over the array twice. The first time it counts the elements that the
predicate accepts, and the second time it asks again and stores those that are accepted now. The
predicate is code of the program: it may change the elements of arrays, and need not answer the
same twice.
-/

namespace Gengo.Arrays

open List Option
open Maps (Value)

/-- Where arrays are, and everything else that code can read and change. -/
structure World (σ : Type) where
  memory : Memory Value
  sound : memory.Sound
  rest : σ

/-- What a function of the program does to arrays when it is called, what it ends with and what it
leaves behind. -/
structure Behaviour (σ ε : Type) where
  events : Value → World σ → List (Event Value)
  answer : Value → World σ → Except ε Value
  rest : Value → World σ → σ

variable {σ ε : Type}

theorem sound_foldl_step (setting : Setting Value) {memory : Memory Value}
    (sound : memory.Sound) (events : List (Event Value)) :
    (events.foldl (step setting) memory).Sound :=
  Runs.invariant_foldl sound fun _ event sound => sound_step sound event

/-- `callFunction` with one argument. -/
def callFunction (setting : Setting Value) (behaviour : Behaviour σ ε) (item : Value)
    (world : World σ) : Except ε Value × World σ :=
  (behaviour.answer item world,
    { memory := (behaviour.events item world).foldl (step setting) world.memory
      sound := sound_foldl_step setting world.sound _
      rest := behaviour.rest item world })

/-- `Value.asBool`. -/
def asBool : Value → Option Bool
  | .boolean value => some value
  | .namedValue _ _ (.boolean value) => some value
  | _ => none

/-- How a filter fails. The message about an answer that is no boolean names its type, as in
`predicate must return bool, got int`. -/
inductive FilterFailure (ε : Type)
  | typeError
  | raised (error : ε)
  | notBool (answer : Value)
  | outOfMemory
  | outOfBounds

/-- A call of the predicate: of which element, in which world, and what the predicate gave. -/
structure Call (σ ε : Type) where
  index : ℕ
  world : World σ
  item : Value
  answer : Except ε Value

/-- The predicate accepted the element. -/
def Call.accepted (call : Call σ ε) : Bool :=
  match call.answer with
  | .ok answer => asBool answer == some true
  | .error _ => false

/-- A filter that is running: the world, and the calls it has made. -/
structure Progress (σ ε : Type) where
  world : World σ
  calls : List (Call σ ε)

section

variable (setting : Setting Value) (behaviour : Behaviour σ ε) (array : ℕ)

/-- The predicate's answer on the element that the array has at an index now. -/
def ask (index : ℕ) (progress : Progress σ ε) :
    Except (FilterFailure ε) (Value × Bool) × Progress σ ε :=
  match (progress.world.memory.items array)[index]? with
  | none => (.error .outOfBounds, progress)
  | some item =>
    let called := callFunction setting behaviour item progress.world
    let after : Progress σ ε :=
      ⟨called.2, progress.calls ++ [⟨index, progress.world, item, called.1⟩]⟩
    match called.1 with
    | .error error => (.error (.raised error), after)
    | .ok answer =>
      match asBool answer with
      | none => (.error (.notBool answer), after)
      | some accepts => (.ok (item, accepts), after)

/-- The first loop: how many elements are accepted. -/
def countPass : List ℕ → ℕ → Progress σ ε → Except (FilterFailure ε) ℕ × Progress σ ε
  | [], count, progress => (.ok count, progress)
  | index :: indices, count, progress =>
    match ask setting behaviour array index progress with
    | (.error failure, after) => (.error failure, after)
    | (.ok (_, accepts), after) =>
      countPass indices (if accepts then count + 1 else count) after

/-- The second loop: the elements that are accepted now go to the slots of the result. -/
def fillPass : List ℕ → ℕ → List Value → Progress σ ε →
    Except (FilterFailure ε) (List Value) × Progress σ ε
  | [], _, out, progress => (.ok out, progress)
  | index :: indices, idx, out, progress =>
    match ask setting behaviour array index progress with
    | (.error failure, after) => (.error failure, after)
    | (.ok (item, accepts), after) =>
      if accepts then
        if idx < out.length then fillPass indices (idx + 1) (out.set idx item) after
        else (.error .outOfBounds, after)
      else fillPass indices idx out after

/-- `array_filter`: the elements of the array that is pushed, and the calls that were made. The
result is out of reach of the predicate until then, so it is kept beside the memory. Whether there
is memory for so many slots may depend on the world. -/
def arrayFilter (room : ℕ → World σ → Bool) (world : World σ) :
    Except (FilterFailure ε) (List Value) × Progress σ ε :=
  if world.memory.objects.length ≤ array then
    (.error .typeError, ⟨world, []⟩)
  else
    let indices := List.range (world.memory.items array).length
    match countPass setting behaviour array indices 0 ⟨world, []⟩ with
    | (.error failure, progress) => (.error failure, progress)
    | (.ok count, progress) =>
      if room count progress.world then
        fillPass setting behaviour array indices 0 (List.replicate count setting.null) progress
      else (.error .outOfMemory, progress)

end

/-- The predicate is called on the elements of the array in order, on each one once, and what is
returned are the elements that it accepted. Only an error ends the calls early, and no slot outside
an array is touched. -/
structure OnceEach (array : ℕ) (length : ℕ)
    (outcome : Except (FilterFailure ε) (List Value)) (calls : List (Call σ ε)) : Prop where
  order : calls.map Call.index = List.range calls.length
  items : ∀ call ∈ calls, (call.world.memory.items array)[call.index]? = some call.item
  complete : ∀ result, outcome = .ok result → calls.length = length
  result : ∀ result, outcome = .ok result → result = (calls.filter Call.accepted).map Call.item
  within : outcome ≠ .error .outOfBounds

section

variable (setting : Setting Value) (behaviour : Behaviour σ ε) (array : ℕ)

/-- Called on the elements at these indices one after the other, the predicate answers each time
with a boolean, and accepts so many. -/
inductive Answers : List ℕ → World σ → ℕ → World σ → Prop
  | nil (world : World σ) : Answers [] world 0 world
  | cons {index : ℕ} {indices : List ℕ} {world last : World σ} {item answer : Value}
      {accepts : Bool} {count : ℕ}
      (isItem : (world.memory.items array)[index]? = some item)
      (answers : behaviour.answer item world = .ok answer)
      (isBool : asBool answer = some accepts)
      (rest : Answers indices (callFunction setting behaviour item world).2 count last) :
      Answers (index :: indices) world (accepts.toNat + count) last

end

section Passes

variable {setting : Setting Value} {behaviour : Behaviour σ ε} {array : ℕ}
  {progress after : Progress σ ε}

/-- What the array keeps while it is filtered: that it is there, and how many elements it has. -/
structure Keeps (array : ℕ) (world after : World σ) : Prop where
  exists_ : array < world.memory.objects.length → array < after.memory.objects.length
  length : array < world.memory.objects.length →
    (after.memory.items array).length = (world.memory.items array).length

theorem Keeps.refl (array : ℕ) (world : World σ) : Keeps array world world :=
  ⟨id, fun _ => rfl⟩

theorem Keeps.trans {world middle after : World σ} (first : Keeps array world middle)
    (second : Keeps array middle after) : Keeps array world after :=
  ⟨second.exists_ ∘ first.exists_,
    fun exists_ => (second.length (first.exists_ exists_)).trans (first.length exists_)⟩

/-- Code of the program keeps the length of every array. -/
theorem keeps_callFunction (item : Value) (world : World σ) :
    Keeps array world (callFunction setting behaviour item world).2 := by
  have general : ∀ (events : List (Event Value)) (memory : Memory Value), memory.Sound →
      array < memory.objects.length →
      array < (events.foldl (step setting) memory).objects.length ∧
        ((events.foldl (step setting) memory).items array).length =
          (memory.items array).length := by
    intro events
    induction events with
    | nil => exact fun memory _ exists_ => ⟨exists_, rfl⟩
    | cons event events ih =>
      intro memory sound exists_
      have found := List.getElem?_eq_getElem exists_
      have follows : Follows memory event.action (step setting memory event) :=
        follows_step sound event
      have kept := follows.getElem? found
      have rest := ih _ (sound_step sound event) (List.getElem?_eq_some_iff.1 kept).1
      exact ⟨rest.1, rest.2.trans (length_items_step sound event exists_)⟩
  exact ⟨fun exists_ => (general _ _ world.sound exists_).1,
    fun exists_ => (general _ _ world.sound exists_).2⟩

end Passes

section

variable (setting : Setting Value) (behaviour : Behaviour σ ε) (array index : ℕ)
  (progress : Progress σ ε)

/-- What asking about one element can end with. -/
inductive Asked : Except (FilterFailure ε) (Value × Bool) × Progress σ ε → Prop
  | outside (isOutside : (progress.world.memory.items array)[index]? = none) :
      Asked (.error .outOfBounds, progress)
  | failed {item : Value} {failure : FilterFailure ε}
      (isItem : (progress.world.memory.items array)[index]? = some item)
      (isFailure : failure ≠ .outOfBounds)
      (noBool : ∀ answer accepts, behaviour.answer item progress.world = .ok answer →
        asBool answer ≠ some accepts) :
      Asked (.error failure, ⟨(callFunction setting behaviour item progress.world).2,
        progress.calls ++ [⟨index, progress.world, item, behaviour.answer item progress.world⟩]⟩)
  | answered {item answer : Value} {accepts : Bool}
      (isItem : (progress.world.memory.items array)[index]? = some item)
      (answers : behaviour.answer item progress.world = .ok answer)
      (isBool : asBool answer = some accepts) :
      Asked (.ok (item, accepts), ⟨(callFunction setting behaviour item progress.world).2,
        progress.calls ++ [⟨index, progress.world, item, behaviour.answer item progress.world⟩]⟩)

theorem asked : Asked setting behaviour array index progress
    (ask setting behaviour array index progress) := by
  unfold ask
  cases found : (progress.world.memory.items array)[index]? with
  | none => exact .outside found
  | some item =>
    simp only [callFunction]
    cases answers : behaviour.answer item progress.world with
    | error error =>
      have noBool : ∀ answer accepts, behaviour.answer item progress.world = .ok answer →
          asBool answer ≠ some accepts := by
        intro answer accepts isAnswer
        exact absurd (answers.symm.trans isAnswer) (by simp)
      have isFailure : FilterFailure.raised error ≠ .outOfBounds := by simp
      have fails : Asked setting behaviour array index progress (.error (.raised error), _) :=
        .failed found isFailure noBool
      rw [answers] at fails
      exact fails
    | ok answer =>
      cases isBool : asBool answer with
      | none =>
        have noBool : ∀ answer accepts, behaviour.answer item progress.world = .ok answer →
            asBool answer ≠ some accepts := by
          intro other accepts isAnswer
          rw [← Except.ok.inj (answers.symm.trans isAnswer), isBool]
          simp
        have isFailure : (FilterFailure.notBool answer : FilterFailure ε) ≠ .outOfBounds := by
          simp
        have fails : Asked setting behaviour array index progress (.error (.notBool answer), _) :=
          .failed found isFailure noBool
        rw [answers] at fails
        dsimp only
        rw [isBool]
        exact fails
      | some accepts =>
        have gives : Asked setting behaviour array index progress (.ok (item, accepts), _) :=
          .answered found answers isBool
        rw [answers] at gives
        dsimp only
        rw [isBool]
        exact gives

end

section Passes

variable {setting : Setting Value} {behaviour : Behaviour σ ε} {array : ℕ}
  {progress middle after : Progress σ ε} {start : ℕ} {log : List (Call σ ε)}

/-- The calls of a pass over the array from an index on. -/
structure Pass (array start : ℕ) (progress after : Progress σ ε) (log : List (Call σ ε)) :
    Prop where
  calls : after.calls = progress.calls ++ log
  order : log.map Call.index = List.range' start log.length
  items : ∀ call ∈ log, (call.world.memory.items array)[call.index]? = some call.item
  keeps : Keeps array progress.world after.world

theorem Pass.nil (array start : ℕ) (progress : Progress σ ε) :
    Pass array start progress progress [] where
  calls := (append_nil _).symm
  order := rfl
  items := by simp
  keeps := .refl array progress.world

variable {call : Call σ ε} {item : Value}

theorem Pass.cons (isIndex : call.index = start)
    (isItem : (call.world.memory.items array)[call.index]? = some call.item)
    (pass : Pass array (start + 1)
      ⟨(callFunction setting behaviour item progress.world).2, progress.calls ++ [call]⟩
      after log) :
    Pass array start progress after (call :: log) where
  calls := by rw [pass.calls, append_assoc, singleton_append]
  order := by rw [map_cons, pass.order, isIndex, length_cons, List.range'_succ]
  items := by
    intro other isCall
    rcases mem_cons.1 isCall with rfl | later
    · exact isItem
    · exact pass.items other later
  keeps := (keeps_callFunction item progress.world).trans pass.keeps

theorem Pass.singleton (isIndex : call.index = start)
    (isItem : (call.world.memory.items array)[call.index]? = some call.item) :
    Pass array start progress
      ⟨(callFunction setting behaviour item progress.world).2, progress.calls ++ [call]⟩ [call] :=
  .cons isIndex isItem (.nil _ _ _)

theorem accepted_of_answer {answer : Value} {accepts : Bool} (answers : call.answer = .ok answer)
    (isBool : asBool answer = some accepts) : call.accepted = accepts := by
  rw [Call.accepted, answers]
  dsimp only
  rw [isBool]
  cases accepts with
  | false => rfl
  | true => rfl

/-- What the first loop counts, or where it ends early. -/
theorem countPass_spec (setting : Setting Value) (behaviour : Behaviour σ ε)
    (progress : Progress σ ε) (count number : ℕ)
    (exists_ : array < progress.world.memory.objects.length)
    (inRange : start + number ≤ (progress.world.memory.items array).length) :
    ∃ log after, Pass array start progress after log ∧
      ((∃ accepted, countPass setting behaviour array (List.range' start number) count progress =
            (.ok (count + accepted), after) ∧ log.length = number ∧
          accepted = (log.filter Call.accepted).length ∧
          Answers setting behaviour array (List.range' start number) progress.world accepted
            after.world) ∨
        ∃ failure, countPass setting behaviour array (List.range' start number) count progress =
            (.error failure, after) ∧ failure ≠ .outOfBounds ∧
          ∀ accepted last, ¬Answers setting behaviour array (List.range' start number)
            progress.world accepted last) := by
  induction number generalizing start count progress with
  | zero => exact ⟨[], progress, .nil _ _ _, .inl ⟨0, rfl, rfl, rfl, .nil _⟩⟩
  | succ number ih =>
    have isAsked := asked setting behaviour array start progress
    rw [List.range'_succ]
    simp only [countPass]
    generalize ask setting behaviour array start progress = result at isAsked ⊢
    cases isAsked with
    | outside isOutside =>
      rw [List.getElem?_eq_none_iff] at isOutside
      omega
    | failed isItem isFailure noBool =>
      refine ⟨_, _, .singleton rfl isItem, .inr ⟨_, rfl, isFailure, ?_⟩⟩
      intro accepted last answers
      cases answers with
      | cons isItem' answers isBool rest =>
        rw [← some.inj (isItem.symm.trans isItem')] at answers
        exact noBool _ _ answers isBool
    | answered isItem answers isBool =>
      rename_i item answer accepts
      have keeps : Keeps array progress.world
          (callFunction setting behaviour item progress.world).2 :=
        keeps_callFunction item progress.world
      have inRange' : start + 1 + number ≤ ((callFunction setting behaviour item
          progress.world).2.memory.items array).length := by
        rw [keeps.length exists_]
        omega
      have isAccepted : (⟨start, progress.world, item, behaviour.answer item progress.world⟩ :
          Call σ ε).accepted = accepts := accepted_of_answer answers isBool
      rcases ih ⟨(callFunction setting behaviour item progress.world).2, _⟩
        (if accepts then count + 1 else count) (keeps.exists_ exists_) inRange' with
        ⟨log, after, pass, ends⟩
      refine ⟨⟨start, progress.world, item, behaviour.answer item progress.world⟩ :: log, after,
        .cons rfl isItem pass, ?_⟩
      rcases ends with ⟨accepted, result, length, isCount, answered⟩ |
        ⟨failure, result, isFailure, none⟩
      · refine .inl ⟨accepts.toNat + accepted, ?_, ?_, ?_, .cons isItem answers isBool answered⟩
        · dsimp only
          rw [result]
          cases accepts with
          | false => simp
          | true => simp [Nat.add_assoc]
        · rw [length_cons, length]
        · rw [filter_cons, isAccepted, isCount]
          cases accepts with
          | false => simp
          | true => simp [Nat.add_comm]
      · refine .inr ⟨failure, result, isFailure, ?_⟩
        intro accepted last answered
        cases answered with
        | cons isItem' answers' isBool' rest =>
          rw [← some.inj (isItem.symm.trans isItem')] at rest
          exact none _ _ rest

/-- An element that is stored in a slot stands before those that are stored behind it. -/
theorem stored_set {out : List Value} {idx : ℕ} (fits : idx < out.length) (stored : List Value)
    (more : ℕ) :
    (out.set idx item).take (idx + 1) ++ stored ++ (out.set idx item).drop (idx + 1 + more) =
      out.take idx ++ (item :: stored) ++ out.drop (idx + (more + 1)) := by
  have front : (out.set idx item).take (idx + 1) = out.take idx ++ [item] := by
    rw [take_add_one, List.getElem?_set_self fits, take_set_of_le (Nat.le_refl idx), toList_some]
  have back : (out.set idx item).drop (idx + 1 + more) = out.drop (idx + (more + 1)) := by
    rw [drop_set_of_lt (by omega)]
    congr 1
    omega
  rw [front, back, append_assoc (out.take idx), singleton_append]

/-- What the second loop stores, or where it ends early. It has asked about the first element
before it does so. -/
theorem fillPass_spec (setting : Setting Value) (behaviour : Behaviour σ ε)
    (progress : Progress σ ε) (idx number : ℕ) (out : List Value)
    (exists_ : array < progress.world.memory.objects.length)
    (inRange : start + number ≤ (progress.world.memory.items array).length)
    (inOut : idx ≤ out.length) :
    ∃ log, Pass array start progress
        (fillPass setting behaviour array (List.range' start number) idx out progress).2 log ∧
      (0 < number → log ≠ []) ∧
      ∀ result, (fillPass setting behaviour array (List.range' start number) idx out progress).1 =
          .ok result →
        log.length = number ∧ idx + (log.filter Call.accepted).length ≤ out.length ∧
          result = out.take idx ++ (log.filter Call.accepted).map Call.item ++
            out.drop (idx + (log.filter Call.accepted).length) := by
  induction number generalizing start progress idx out with
  | zero =>
    refine ⟨[], .nil _ _ _, by simp, ?_⟩
    intro result gives
    have same : out = result := Except.ok.inj gives
    refine ⟨rfl, inOut, ?_⟩
    rw [← same, filter_nil, map_nil, append_nil, length_nil, Nat.add_zero, take_append_drop]
  | succ number ih =>
    have isAsked := asked setting behaviour array start progress
    rw [List.range'_succ]
    simp only [fillPass]
    generalize ask setting behaviour array start progress = result at isAsked ⊢
    cases isAsked with
    | outside isOutside =>
      rw [List.getElem?_eq_none_iff] at isOutside
      omega
    | failed isItem isFailure noBool =>
      refine ⟨_, .singleton rfl isItem, by simp, ?_⟩
      intro result gives
      exact absurd gives (by simp)
    | answered isItem answers isBool =>
      rename_i item answer accepts
      have keeps : Keeps array progress.world
          (callFunction setting behaviour item progress.world).2 :=
        keeps_callFunction item progress.world
      have inRange' : start + 1 + number ≤ ((callFunction setting behaviour item
          progress.world).2.memory.items array).length := by
        rw [keeps.length exists_]
        omega
      have isAccepted : (⟨start, progress.world, item, behaviour.answer item progress.world⟩ :
          Call σ ε).accepted = accepts := accepted_of_answer answers isBool
      cases accepts with
      | false =>
        rcases ih
          ⟨(callFunction setting behaviour item progress.world).2, _⟩ idx out
          (keeps.exists_ exists_) inRange' inOut with ⟨log, pass, _, ends⟩
        refine ⟨_ :: log, .cons rfl isItem pass, by simp, ?_⟩
        intro result gives
        rcases ends result gives with ⟨length, fits, stored⟩
        rw [filter_cons_of_neg (by rw [isAccepted]; simp), length_cons, length]
        exact ⟨rfl, fits, stored⟩
      | true =>
        dsimp only
        rw [if_pos rfl]
        by_cases fits : idx < out.length
        · rw [if_pos fits]
          rcases ih
            ⟨(callFunction setting behaviour item progress.world).2, _⟩ (idx + 1)
            (out.set idx item) (keeps.exists_ exists_) inRange'
            (by rw [length_set]; exact fits) with ⟨log, pass, _, ends⟩
          refine ⟨_ :: log, .cons rfl isItem pass, by simp, ?_⟩
          intro result gives
          rcases ends result gives with ⟨length, fits', stored⟩
          rw [filter_cons_of_pos isAccepted, length_cons, length]
          rw [length_set] at fits'
          refine ⟨rfl, ?_, ?_⟩
          · rw [length_cons]
            omega
          · rw [stored, length_cons, map_cons]
            exact stored_set fits _ _
        · rw [if_neg fits]
          refine ⟨_, .singleton rfl isItem, by simp, ?_⟩
          intro result gives
          exact absurd gives (by simp)

theorem Answers.unique {indices : List ℕ} {world last last' : World σ} {accepted accepted' : ℕ}
    (answers : Answers setting behaviour array indices world accepted last)
    (answers' : Answers setting behaviour array indices world accepted' last') :
    accepted = accepted' ∧ last = last' := by
  induction answers generalizing accepted' last' with
  | nil world =>
    cases answers' with
    | nil => exact ⟨rfl, rfl⟩
  | cons isItem answers isBool rest ih =>
    cases answers' with
    | cons isItem' answers' isBool' rest' =>
      have sameItem := some.inj (isItem.symm.trans isItem')
      subst sameItem
      have sameAnswer := Except.ok.inj (answers.symm.trans answers')
      rw [sameAnswer] at isBool
      have sameBool := some.inj (isBool.symm.trans isBool')
      rcases ih rest' with ⟨sameCount, sameLast⟩
      exact ⟨by rw [sameBool, sameCount], sameLast⟩

/-- The calls of one pass, none of which is made again. -/
theorem Pass.onceEach {world : World σ} {failure : FilterFailure ε}
    (pass : Pass array 0 ⟨world, []⟩ after log) (number : ℕ) (isFailure : failure ≠ .outOfBounds) :
    OnceEach array number (.error failure) after.calls where
  order := by rw [pass.calls, nil_append, pass.order, range_eq_range']
  items := by rw [pass.calls, nil_append]; exact pass.items
  complete := by simp
  result := by simp
  within := by simpa using isFailure

/-- A second pass asks about the first element again. -/
theorem Pass.not_once {world : World σ} {log' : List (Call σ ε)}
    (first : Pass array 0 ⟨world, []⟩ middle log) (second : Pass array 0 middle after log')
    {number : ℕ} (full : log.length = number) (positive : 0 < number) (again : log' ≠ []) :
    after.calls.map Call.index ≠ List.range after.calls.length := by
  intro order
  rcases exists_cons_of_ne_nil again with ⟨call, rest, rfl⟩
  have calls : after.calls = log ++ call :: rest := by
    rw [second.calls, first.calls, nil_append]
  have isFirst : call.index = 0 := by
    have order' := second.order
    rw [map_cons, length_cons, List.range'_succ] at order'
    exact (List.cons.inj order').1
  have atNumber := congrArg (·[number]?) order
  have isCall : (log ++ call :: rest)[number]? = some call := by
    rw [← full, List.getElem?_append_right (Nat.le_refl _), Nat.sub_self, List.getElem?_cons_zero]
  have inRange : number < (log ++ call :: rest).length := (List.getElem?_eq_some_iff.1 isCall).1
  rw [calls, List.getElem?_map, isCall, List.getElem?_range inRange, map_some, isFirst] at atNumber
  exact absurd (some.inj atNumber) (Nat.ne_of_lt positive)

end Passes

section

variable (setting : Setting Value) (behaviour : Behaviour σ ε) (array : ℕ)
  (room : ℕ → World σ → Bool) (world : World σ)

/-- A filter calls its predicate once for each element exactly if the array has none, or if it
ends in an error before it goes over the array a second time: because the predicate raises an
error or gives no boolean when it is called on the elements one after the other, or because there
is no memory for as many elements as it accepted. -/
theorem onceEach_iff :
    OnceEach array (world.memory.items array).length
        (arrayFilter setting behaviour array room world).1
        (arrayFilter setting behaviour array room world).2.calls ↔
      world.memory.items array = [] ∨
        ∀ accepted last, Answers setting behaviour array
            (List.range (world.memory.items array).length) world accepted last →
          room accepted last = false := by
  unfold arrayFilter
  by_cases isArray : world.memory.objects.length ≤ array
  · rw [if_pos isArray]
    have noItems : world.memory.items array = [] := by
      rw [Memory.items, List.getElem?_eq_none isArray]
    exact ⟨fun _ => .inl noItems, fun _ => ⟨rfl, by simp, by simp, by simp, by simp⟩⟩
  rw [if_neg isArray]
  have exists_ : array < world.memory.objects.length := Nat.lt_of_not_le isArray
  dsimp only
  rw [range_eq_range', ← length_eq_zero_iff]
  generalize length : (world.memory.items array).length = number
  rcases countPass_spec setting behaviour ⟨world, []⟩ 0 number exists_
    (by rw [length, Nat.zero_add]) with
    ⟨log, after, pass, ⟨accepted, result, full, isCount, answered⟩ |
      ⟨failure, result, isFailure, none⟩⟩
  · rw [result]
    dsimp only
    rw [Nat.zero_add]
    by_cases served : room accepted after.world
    · rw [if_pos served]
      have inRange : 0 + number ≤ (after.world.memory.items array).length := by
        rw [pass.keeps.length exists_, length, Nat.zero_add]
      rcases fillPass_spec setting behaviour after 0 number (List.replicate accepted setting.null)
        (pass.keeps.exists_ exists_) inRange (Nat.zero_le _) with ⟨log', pass', again, _⟩
      constructor
      · intro once
        rcases Nat.eq_zero_or_pos number with zero | positive
        · exact .inl zero
        · exact absurd once.order (pass.not_once pass' full positive (again positive))
      · rintro (zero | refused)
        · subst zero
          rw [length_eq_zero_iff] at full
          subst full
          have calls : after.calls = [] := pass.calls
          rw [isCount]
          change OnceEach array 0 (.ok []) after.calls
          rw [calls]
          exact ⟨rfl, by simp, fun _ _ => rfl, fun result gives => (Except.ok.inj gives).symm,
            by simp⟩
        · exact absurd (refused accepted after.world answered) (by simp [served])
    · rw [if_neg served]
      refine ⟨fun _ => .inr ?_, fun _ => pass.onceEach _ (by simp)⟩
      intro accepted' last answered'
      rcases answered.unique answered' with ⟨rfl, rfl⟩
      simpa using served
  · rw [result]
    exact ⟨fun _ => .inr fun accepted last answered => absurd answered (none accepted last),
      fun _ => pass.onceEach _ isFailure⟩

end

/-- A predicate that rejects every element the first time it is called on it, and accepts it the
second time. -/
def fickle : Behaviour ℕ Unit where
  events _ _ := []
  answer _ world := .ok (.boolean (0 < world.rest))
  rest _ world := world.rest + 1

/-- An array of one element. -/
def oneElement : World ℕ where
  memory := ⟨fun _ => .int 7, 1, [.array ⟨0, 1⟩]⟩
  sound := ⟨by decide, by simp⟩
  rest := 0

/-- A predicate that changes its mind is called twice, and a slot behind the result is written. -/
theorem not_onceEach :
    ¬OnceEach 0 1 (arrayFilter ⟨.null, 4096⟩ fickle 0 (fun _ _ => true) oneElement).1
      (arrayFilter ⟨.null, 4096⟩ fickle 0 (fun _ _ => true) oneElement).2.calls := by
  intro once
  exact once.within rfl

end Gengo.Arrays
