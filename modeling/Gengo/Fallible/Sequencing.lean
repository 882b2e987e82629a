import Mathlib.Algebra.GroupWithZero.Nat
import Mathlib.Data.List.Forall2

/-!
# Programs that may fail

When a sequence of fallible steps succeeds: what each of its steps returned.
-/

namespace Gengo.Fallible

open Option Except

variable {ε ε' α β γ : Type}

theorem bind_eq_ok {first : Except ε α} {next : α → Except ε β} {result : β} :
    first >>= next = .ok result ↔ ∃ item, first = .ok item ∧ next item = .ok result := by
  cases first with
  | error _ => exact ⟨nofun, fun ⟨_, wrong, _⟩ => nomatch wrong⟩
  | ok item => exact ⟨fun done => ⟨item, rfl, done⟩, fun ⟨_, same, done⟩ => ok.inj same ▸ done⟩

theorem map_eq_ok {first : Except ε α} {f : α → β} {result : β} :
    f <$> first = .ok result ↔ ∃ item, first = .ok item ∧ f item = result := by
  cases first with
  | error _ => exact ⟨nofun, fun ⟨_, wrong, _⟩ => nomatch wrong⟩
  | ok item =>
    exact ⟨fun done => ⟨item, rfl, ok.inj done⟩, fun ⟨_, same, done⟩ =>
      ok.inj same ▸ congrArg Except.ok done⟩

theorem map_injective_eq_ok {first : Except ε α} {f : α → β} (injective : Function.Injective f)
    {item : α} : (first >>= fun found => pure (f found)) = .ok (f item) ↔ first = .ok item := by
  rw [bind_eq_ok]
  constructor
  · rintro ⟨found, firstOk, same⟩
    rw [firstOk, injective (ok.inj same)]
  · exact fun firstOk => ⟨item, firstOk, rfl⟩

theorem map_injective2_eq_ok {first : Except ε α} {second : Except ε β} {f : α → β → γ}
    (injective : Function.Injective2 f) {item : α} {other : β} :
    (first >>= fun found => second >>= fun next => pure (f found next)) = .ok (f item other) ↔
      first = .ok item ∧ second = .ok other := by
  simp only [bind_eq_ok]
  constructor
  · rintro ⟨found, firstOk, next, secondOk, same⟩
    obtain ⟨rfl, rfl⟩ := injective (ok.inj same)
    exact ⟨firstOk, secondOk⟩
  · exact fun ⟨firstOk, secondOk⟩ => ⟨item, firstOk, other, secondOk, rfl⟩

theorem mapError_eq_ok {first : Except ε α} {f : ε → ε'} {result : α} :
    first.mapError f = .ok result ↔ first = .ok result := by
  cases first with
  | error _ => exact ⟨nofun, nofun⟩
  | ok item => exact ⟨fun done => congrArg Except.ok (ok.inj done),
      fun done => congrArg Except.ok (ok.inj done)⟩

theorem mapM_eq_ok {f : α → Except ε β} {items : List α} {results : List β} :
    items.mapM f = .ok results ↔
      List.Forall₂ (fun item result => f item = .ok result) items results := by
  induction items generalizing results with
  | nil =>
    rw [List.forall₂_nil_left_iff]
    exact ⟨fun same => (ok.inj same).symm, fun same => same ▸ rfl⟩
  | cons item items ih =>
    simp only [List.mapM_cons, bind_eq_ok, List.forall₂_cons_left_iff, ih]
    exact ⟨fun ⟨first, firstOk, others, othersOk, same⟩ =>
        ⟨first, others, firstOk, othersOk, (ok.inj same).symm⟩,
      fun ⟨first, others, firstOk, othersOk, same⟩ =>
        ⟨first, firstOk, others, othersOk, same ▸ rfl⟩⟩

theorem mapM_map_eq_ok {f : α → Except ε β} {g : α → β} {items : List α} :
    items.mapM f = .ok (items.map g) ↔ ∀ item ∈ items, f item = .ok (g item) := by
  rw [mapM_eq_ok, List.forall₂_map_right_iff, List.forall₂_same]

theorem mapM_option_eq_ok {f : α → Except ε β} {g : α → β} {item : Option α} :
    item.mapM f = .ok (item.map g) ↔ ∀ inner ∈ item, f inner = .ok (g inner) := by
  cases item with
  | none => exact ⟨fun _ => nofun, fun _ => rfl⟩
  | some inner =>
    rw [mapM_some, map_some]
    refine map_eq_ok.trans ⟨?_, ?_⟩
    · rintro ⟨result, found, same⟩ _ member
      obtain rfl := some.inj member
      exact found.trans (congrArg Except.ok (some.inj same))
    · exact fun each => ⟨_, each inner rfl, rfl⟩

/-- Stop with an error under a condition. -/
def refuse (condition : Prop) [Decidable condition] (err : ε) : Except ε Unit :=
  if condition then .error err else .ok ()

@[simp]
theorem refuse_eq_ok {condition : Prop} [Decidable condition] {err : ε} {result : Unit} :
    refuse condition err = .ok result ↔ ¬condition := by
  rw [refuse]
  split
  · rename_i holds
    exact ⟨nofun, fun fails => absurd holds fails⟩
  · rename_i fails
    exact ⟨fun _ => fails, fun _ => rfl⟩

/-!
# Programs with a state that may fail

What a program started in a state ensures: of its result and the state it leaves, or of
its error.
-/

universe u v

variable {σ α β : Type u} {ε : Type v}

/-- A program started in a state: its result and last state are as told, or its error is. -/
def Meets (program : StateT σ (Except ε) α) (state : σ) (post : α → σ → Prop)
    (failure : ε → Prop) : Prop :=
  match program state with
  | .ok (result, after) => post result after
  | .error err => failure err

variable {program : StateT σ (Except ε) α} {state : σ} {post : α → σ → Prop}
  {failure : ε → Prop}

theorem Meets.of_pure {result : α} (holds : post result state) :
    Meets (pure result : StateT σ (Except ε) α) state post failure :=
  holds

theorem Meets.of_ok {result : α} {after : σ} (runs : program state = .ok (result, after))
    (holds : post result after) : Meets program state post failure := by
  rw [Meets, runs]
  exact holds

theorem Meets.of_error {err : ε} (runs : program state = .error err) (fails : failure err) :
    Meets program state post failure := by
  rw [Meets, runs]
  exact fails

theorem Meets.of_eq {program' : StateT σ (Except ε) α} {state' : σ}
    (meets : Meets program' state' post failure) (same : program state = program' state') :
    Meets program state post failure := by
  rw [Meets, same]
  exact meets

section

variable (meets : Meets program state post failure)
include meets

theorem Meets.mono {post' : α → σ → Prop}
    (weaker : ∀ result after, post result after → post' result after) :
    Meets program state post' failure := by
  rw [Meets] at meets ⊢
  cases runs : program state with
  | error err =>
    rw [runs] at meets
    exact meets
  | ok pair =>
    rw [runs] at meets
    exact weaker _ _ meets

theorem Meets.bind {next : α → StateT σ (Except ε) β} {post' : β → σ → Prop}
    (step : ∀ result after, post result after → Meets (next result) after post' failure) :
    Meets (program >>= next) state post' failure := by
  rw [Meets] at meets
  change match (program state >>= fun pair => next pair.1 pair.2 : Except ε (β × σ)) with
    | .ok (result, after) => post' result after
    | .error err => failure err
  cases runs : program state with
  | error err =>
    rw [runs] at meets
    exact meets
  | ok pair =>
    rw [runs] at meets
    exact step _ _ meets

theorem Meets.post_of_ok {result : α} {after : σ} (runs : program state = .ok (result, after)) :
    post result after := by
  rw [Meets, runs] at meets
  exact meets

theorem Meets.failure_of_error {err : ε} (runs : program state = .error err) : failure err := by
  rw [Meets, runs] at meets
  exact meets

end

/-!
# Programs that keep their state when they fail

A program may fail and be caught with the state that it has reached, and it may run out of
depth. Its states develop in one direction only; what is said of its result is said of the
developments that stay sound to the end.
-/

/-- A program whose failure keeps the state, and which may run out of depth. -/
abbrev Program (σ ε α : Type) :=
  ExceptT ε (StateT σ Option) α

namespace Program

variable {σ ε α β : Type}

/-- No depth is left. -/
def exhausted : Program σ ε α :=
  fun _ => none

def ofExcept (outcome : Except ε α) : Program σ ε α :=
  fun state => some (outcome, state)

def update (change : σ → σ) : Program σ ε Unit :=
  fun state => some (.ok (), change state)

/-- A program that depends on the state in which it starts. -/
def reading (program : σ → Program σ ε α) : Program σ ε α :=
  fun state => program state state

/-- What a program has come to, failed or not. -/
def attempt (program : Program σ ε α) : Program σ ε (Except ε α) :=
  fun state => (program state).map fun last => (.ok last.1, last.2)

/-- `errdefer`. -/
def orElseUpdate (program : Program σ ε α) (change : σ → σ) : Program σ ε α :=
  fun state => (program state).map fun last =>
    match last.1 with
    | .ok _ => last
    | .error _ => (last.1, change last.2)

end Program

/-- How the states of a program develop, and which of them are sound. -/
structure Development (σ : Type) where
  grows : σ → σ → Prop
  sound : σ → Prop
  refl : ∀ state, grows state state
  trans : ∀ {first second third}, grows first second → grows second third → grows first third
  sound_of_grows : ∀ {earlier later}, grows earlier later → sound later → sound earlier

namespace Development

variable {σ ε α β : Type} (development : Development σ)

/-- A program ends in a grown state; if that is sound, its outcome is as told. -/
def Ensures (program : Program σ ε α) (state : σ) (post : Except ε α → σ → Prop) : Prop :=
  ∃ outcome after, program state = some (outcome, after) ∧ development.grows state after ∧
    (development.sound after → post outcome after)

variable {development} {program : Program σ ε α} {state : σ} {post : Except ε α → σ → Prop}

theorem Ensures.of_outcome {outcome : Except ε α} {after : σ}
    (runs : program state = some (outcome, after)) (grows : development.grows state after)
    (holds : development.sound after → post outcome after) :
    development.Ensures program state post :=
  ⟨outcome, after, runs, grows, holds⟩

theorem Ensures.of_pure {result : α} (holds : development.sound state → post (.ok result) state) :
    development.Ensures (pure result) state post :=
  .of_outcome rfl (development.refl state) holds

theorem Ensures.of_throw {err : ε} (holds : development.sound state → post (.error err) state) :
    development.Ensures (throw err) state post :=
  .of_outcome rfl (development.refl state) holds

theorem Ensures.of_except {outcome : Except ε α}
    (holds : development.sound state → post outcome state) :
    development.Ensures (.ofExcept outcome) state post :=
  .of_outcome rfl (development.refl state) holds

theorem Ensures.of_update {change : σ → σ} {post : Except ε Unit → σ → Prop}
    (grows : development.grows state (change state))
    (holds : development.sound (change state) → post (.ok ()) (change state)) :
    development.Ensures (.update change) state post :=
  .of_outcome rfl grows holds

theorem Ensures.of_reading {next : σ → Program σ ε α}
    (ensures : development.Ensures (next state) state post) :
    development.Ensures (.reading next) state post :=
  ensures

theorem Ensures.mono {post' : Except ε α → σ → Prop}
    (ensures : development.Ensures program state post)
    (weaker : ∀ outcome after, development.grows state after → development.sound after →
      post outcome after → post' outcome after) :
    development.Ensures program state post' := by
  rcases ensures with ⟨outcome, after, runs, grows, holds⟩
  exact ⟨outcome, after, runs, grows, fun sound => weaker _ _ grows sound (holds sound)⟩

theorem bind_apply {next : α → Program σ ε β} :
    (program >>= next) state =
      (program state).bind fun last => (ExceptT.bindCont next last.1) last.2 :=
  rfl

theorem Ensures.bind_of_ok {next : α → Program σ ε β} {post : Except ε β → σ → Prop}
    {result : α} {middle : σ} (runs : program state = some (.ok result, middle))
    (grows : development.grows state middle)
    (ensures : development.Ensures (next result) middle post) :
    development.Ensures (program >>= next) state post := by
  rcases ensures with ⟨outcome, after, continues, grown, holds⟩
  refine ⟨outcome, after, ?_, development.trans grows grown, holds⟩
  rw [bind_apply, runs, bind_some]
  exact continues

theorem Ensures.bind_of_error {next : α → Program σ ε β} {post : Except ε β → σ → Prop}
    {err : ε} {middle : σ} (runs : program state = some (.error err, middle))
    (grows : development.grows state middle)
    (holds : development.sound middle → post (.error err) middle) :
    development.Ensures (program >>= next) state post := by
  refine ⟨.error err, middle, ?_, grows, holds⟩
  rw [bind_apply, runs, bind_some]
  rfl

/-- What comes after a program may use what the program has ensured, in a sound end. -/
theorem Ensures.bind {next : α → Program σ ε β} {post' : Except ε β → σ → Prop}
    (ensures : development.Ensures program state post)
    (step : ∀ result middle, development.grows state middle →
      development.Ensures (next result) middle fun outcome after =>
        post (.ok result) middle → post' outcome after)
    (failed : ∀ err middle, development.grows state middle → development.sound middle →
      post (.error err) middle → post' (.error err) middle) :
    development.Ensures (program >>= next) state post' := by
  rcases ensures with ⟨outcome, middle, runs, grows, holds⟩
  cases outcome with
  | error err =>
    exact .bind_of_error runs grows fun sound => failed err middle grows sound (holds sound)
  | ok result =>
    rcases step result middle grows with ⟨outcome, after, continues, grown, post_⟩
    refine .bind_of_ok runs grows ⟨outcome, after, continues, grown, ?_⟩
    exact fun sound => post_ sound (holds (development.sound_of_grows grown sound))

theorem Ensures.attempt {post : Except ε (Except ε α) → σ → Prop}
    (ensures : development.Ensures program state fun outcome after => post (.ok outcome) after) :
    development.Ensures program.attempt state post := by
  rcases ensures with ⟨outcome, after, runs, grows, holds⟩
  exact ⟨.ok outcome, after, by rw [Program.attempt, runs]; rfl, grows, holds⟩

theorem Ensures.orElseUpdate {change : σ → σ}
    (ensures : development.Ensures program state post)
    (grown : ∀ after, development.grows after (change after))
    (kept : ∀ err after, post (.error err) after → post (.error err) (change after)) :
    development.Ensures (program.orElseUpdate change) state post := by
  rcases ensures with ⟨outcome, after, runs, grows, holds⟩
  cases outcome with
  | ok result =>
    exact ⟨.ok result, after, by rw [Program.orElseUpdate, runs]; rfl, grows, holds⟩
  | error err =>
    refine ⟨.error err, change after, by rw [Program.orElseUpdate, runs]; rfl,
      development.trans grows (grown after), ?_⟩
    exact fun sound => kept err after (holds (development.sound_of_grows (grown after) sound))

end Development

end Gengo.Fallible
