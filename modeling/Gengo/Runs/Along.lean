import Mathlib.Data.Nat.Notation
import Mathlib.Logic.Basic

/-!
# Conditions along a run

The events of a run change a state one after the other. What each event keeps in a state that
meets its condition holds along the whole run.
-/

namespace Gengo.Runs

variable {σ ε : Type*} (step : σ → ε → σ)

/-- Every event of a run meets a condition on the state in which it happens. -/
def Along (condition : σ → ε → Prop) : σ → List ε → Prop
  | _, [] => True
  | state, event :: rest => condition state event ∧ Along condition (step state event) rest

variable {step} {condition condition' : σ → ε → Prop} {invariant : σ → Prop}
  {state : σ} {events : List ε}

@[simp]
theorem along_nil : Along step condition state [] :=
  trivial

@[simp]
theorem along_cons {event : ε} :
    Along step condition state (event :: events) ↔
      condition state event ∧ Along step condition (step state event) events :=
  .rfl

theorem along_append {before after : List ε} :
    Along step condition state (before ++ after) ↔
      Along step condition state before ∧ Along step condition (before.foldl step state) after := by
  induction before generalizing state with
  | nil => simp
  | cons event rest ih =>
    rw [List.cons_append, along_cons, along_cons, ih, and_assoc, List.foldl_cons]

/-- An invariant that every permitted event keeps holds after the run. -/
theorem Along.foldl (along : Along step condition state events)
    (start : invariant state)
    (kept : ∀ state event, invariant state → condition state event → invariant (step state event)) :
    invariant (events.foldl step state) := by
  induction events generalizing state with
  | nil => exact start
  | cons event rest ih =>
    exact ih along.2 (kept state event start along.1)

/-- Under an invariant that permitted events keep, a condition holds along a run if it holds of
every permitted event. -/
theorem Along.imp (along : Along step condition state events) (start : invariant state)
    (permitted : ∀ state event, invariant state → condition state event →
      condition' state event ∧ invariant (step state event)) :
    Along step condition' state events := by
  induction events generalizing state with
  | nil => exact along_nil
  | cons event rest ih =>
    have first := permitted state event start along.1
    exact ⟨first.1, ih along.2 first.2⟩

/-- The invariant of every run holds after it. -/
theorem invariant_foldl (start : invariant state)
    (kept : ∀ state event, invariant state → invariant (step state event)) :
    invariant (events.foldl step state) := by
  induction events generalizing state with
  | nil => exact start
  | cons event rest ih =>
    exact ih (kept state event start)

/-- Under an invariant of every run, conditions that agree on a step agree along a run. -/
theorem along_congr (start : invariant state)
    (kept : ∀ state event, invariant state → invariant (step state event))
    (agree : ∀ state event, invariant state → (condition state event ↔ condition' state event)) :
    Along step condition state events ↔ Along step condition' state events := by
  induction events generalizing state with
  | nil => exact .rfl
  | cons event rest ih =>
    rw [along_cons, along_cons, agree state event start, ih (kept state event start)]

end Gengo.Runs

/-!
# Runs in lockstep

A deterministic system steps from state to state until it ends with a result. Two systems
whose related states step to related states, and end only together, have the same results.
-/

namespace Gengo.Runs

/-- What a step does: go on with a state, or end with a result. -/
inductive Next (σ α : Type*)
  | goes (state : σ)
  | ends (result : α)

/-- The states of the run from a state. -/
inductive Reaches {σ α : Type*} (next : σ → Next σ α) (start : σ) : σ → Prop
  | refl : Reaches next start start
  | step {state after : σ} : Reaches next start state → next state = .goes after →
      Reaches next start after

/-- The run from a state ends with a result. -/
def Ends {σ α : Type*} (next : σ → Next σ α) (start : σ) (result : α) : Prop :=
  ∃ last, Reaches next start last ∧ next last = .ends result

/-- Two steps that go on with related states, or end with the same result. -/
inductive Next.Matches {σ τ α : Type*} (related : σ → τ → Prop) : Next σ α → Next τ α → Prop
  | goes {state : σ} {state' : τ} : related state state' →
      Next.Matches related (.goes state) (.goes state')
  | ends (result : α) : Next.Matches related (.ends result) (.ends result)

/-- The result of a run that ends after fewer steps than the fuel. -/
def finish {σ α : Type*} (next : σ → Next σ α) : ℕ → σ → Option α
  | 0, _ => none
  | fuel + 1, state =>
    match next state with
    | .goes after => finish next fuel after
    | .ends result => some result

section Determinism

variable {σ α : Type*} {next : σ → Next σ α} {start : σ}

theorem Reaches.tail {state after : σ} (goes : next start = .goes after)
    (reaches : Reaches next start state) : state = start ∨ Reaches next after state := by
  induction reaches with
  | refl => exact .inl rfl
  | step _ goesOn ih =>
    rcases ih with rfl | further
    · rw [goes] at goesOn
      cases goesOn
      exact .inr .refl
    · exact .inr (.step further goesOn)

theorem Reaches.eq_of_ends {state : σ} {result : α} (ends : next start = .ends result)
    (reaches : Reaches next start state) : state = start := by
  induction reaches with
  | refl => rfl
  | step _ goes ih =>
    rw [ih, ends] at goes
    cases goes

theorem Ends.of_reaches {state : σ} {result : α} (ends : Ends next start result)
    (reaches : Reaches next start state) : Ends next state result := by
  induction reaches with
  | refl => exact ends
  | step _ goes ih =>
    rcases ih with ⟨last, reachesLast, endsLast⟩
    rcases reachesLast.tail goes with rfl | further
    · rw [goes] at endsLast
      cases endsLast
    · exact ⟨last, further, endsLast⟩

/-- A run goes on from the state after its start. -/
theorem Reaches.head {after state : σ} (goes : next start = .goes after)
    (reaches : Reaches next after state) : Reaches next start state := by
  induction reaches with
  | refl => exact .step .refl goes
  | step _ goesOn ih => exact .step ih goesOn

theorem ends_of_finish {fuel : ℕ} {result : α} (finished : finish next fuel start = some result) :
    Ends next start result := by
  induction fuel generalizing start with
  | zero => cases finished
  | succ fuel ih =>
    rw [finish] at finished
    cases step : next start with
    | goes after =>
      rw [step] at finished
      rcases ih finished with ⟨last, reaches, ends⟩
      exact ⟨last, reaches.head step, ends⟩
    | ends result' =>
      rw [step] at finished
      cases finished
      exact ⟨start, .refl, step⟩

theorem Ends.unique {result result' : α} (first : Ends next start result)
    (second : Ends next start result') : result = result' := by
  rcases first with ⟨last, reaches, ends⟩
  rcases second.of_reaches reaches with ⟨last', reaches', ends'⟩
  rw [reaches'.eq_of_ends ends, ends] at ends'
  exact Next.ends.inj ends'

end Determinism

section Lockstep

variable {σ τ α : Type*} {next : σ → Next σ α} {next' : τ → Next τ α}
  {relation : σ → τ → Prop} {start : σ} {start' : τ}

section

variable {state : σ} {state' : τ}
    (matching : ∀ state state', Reaches next start state → relation state state' →
      Next.Matches relation (next state) (next' state'))
    (begins : relation start start')
include matching begins

theorem Reaches.related (reaches : Reaches next start state) :
    ∃ state', Reaches next' start' state' ∧ relation state state' := by
  induction reaches with
  | refl => exact ⟨start', .refl, begins⟩
  | step before goes ih =>
    rcases ih with ⟨state', reaches', relates⟩
    have matched := matching _ state' before relates
    rw [goes] at matched
    generalize goes' : next' state' = step' at matched
    cases matched with
    | goes after => exact ⟨_, .step reaches' goes', after⟩

/-- The same for the other system, whose condition is met by the first. -/
theorem Reaches.related_symm (reaches' : Reaches next' start' state') :
    ∃ state, Reaches next start state ∧ relation state state' := by
  induction reaches' with
  | refl => exact ⟨start, .refl, begins⟩
  | step before goes' ih =>
    rcases ih with ⟨state, reaches, relates⟩
    have matched := matching state _ reaches relates
    rw [goes'] at matched
    generalize goes : next state = step at matched
    cases matched with
    | goes after => exact ⟨_, .step reaches goes, after⟩

theorem ends_iff_of_lockstep (result : α) : Ends next start result ↔ Ends next' start' result := by
  constructor
  · rintro ⟨last, reaches, ends⟩
    rcases reaches.related matching begins with ⟨last', reaches', relates⟩
    have matched := matching last last' reaches relates
    rw [ends] at matched
    generalize ends' : next' last' = step' at matched
    cases matched
    exact ⟨last', reaches', ends'⟩
  · rintro ⟨last', reaches', ends'⟩
    rcases reaches'.related_symm matching begins with ⟨last, reaches, relates⟩
    have matched := matching last last' reaches relates
    rw [ends'] at matched
    generalize ends : next last = step at matched
    cases matched
    exact ⟨last, reaches, ends⟩

end

end Lockstep

end Gengo.Runs
