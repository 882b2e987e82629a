import Gengo.Tasks.Scheduler
import Mathlib.Data.List.Nodup

/-!
# Mailboxes and the ready queue

What every interleaving of spawns, sends, receives and slice ends keeps about the task
table, as long as no spawn fails after it has claimed its slot, the ready queue can grow,
no generation wraps around, and no nested interpreter loop blocks.
-/

namespace Gengo.Tasks

open State List Except Function

variable {ν : Type*}

/-- The generation counts the claims as long as it does not wrap around. -/
theorem generationAfter_toNat {claims : ℕ} (bounded : claims < 2 ^ 32) :
    (generationAfter claims).toNat = claims := by
  induction claims with
  | zero => rfl
  | succ claims ih =>
    have before := ih (by omega)
    have added : (generationAfter claims + 1).toNat = claims + 1 := by
      rw [UInt32.toNat_add, before]
      exact Nat.mod_eq_of_lt bounded
    rw [generationAfter, nextGeneration, if_neg, added]
    intro isZero
    rw [isZero] at added
    cases added

theorem generationAfter_ne {earlier later : ℕ} (less : earlier < later)
    (bounded : later < 2 ^ 32) : generationAfter later ≠ generationAfter earlier := by
  intro same
  have values := congrArg UInt32.toNat same
  rw [generationAfter_toNat bounded, generationAfter_toNat (by omega)] at values
  omega

/-- What holds between the slices. -/
structure Consistent (state : State ν) (claims : ℕ → ℕ) (sent received : ℕ → List ν) : Prop where
  nodup : state.readyQueue.Nodup
  queue : ∀ idx, idx ∈ state.readyQueue ↔ (state.slots idx).status = .ready
  parked : ∀ idx, (state.slots idx).status = .blockedReceive ∨ (state.slots idx).status = .empty →
    (state.slots idx).mailbox = []
  fifo : ∀ idx, sent idx = received idx ++ (state.slots idx).mailbox
  generation : ∀ idx, (state.slots idx).generation = generationAfter (claims idx)
  bounded : ∀ idx, claims idx < 2 ^ 32

/-- What holds while a task is executing. -/
structure Invariant (system : System ν) : Prop where
  consistent : Consistent system.tasks system.claims system.sent system.received
  running : (system.tasks.slots system.tasks.current).status = .running
  notPending : system.yieldPending = false

variable {state : State ν} {claims : ℕ → ℕ} {sent received : ℕ → List ν} {idx : ℕ}

/-- A change of the status of a slot that is and stays out of the ready queue. -/
theorem Consistent.setStatus (consistent : Consistent state claims sent received)
    {status : TaskStatus} (wasNot : (state.slots idx).status ≠ .ready) (isNot : status ≠ .ready)
    (parks : status = .blockedReceive ∨ status = .empty → (state.slots idx).mailbox = []) :
    Consistent (state.setStatus idx status) claims sent received := by
  obtain ⟨nodup, queue, parked, fifo, generation, bounded⟩ := consistent
  refine ⟨nodup, fun other => ?_, fun other => ?_, fun other => ?_, fun other => ?_, bounded⟩
  all_goals
    rw [State.setStatus, slots_setSlot]
    by_cases same : other = idx
  · subst same
    rw [update_self]
    exact iff_of_false (fun listed => wasNot ((queue other).mp listed)) isNot
  · rw [update_of_ne same]
    exact queue other
  · subst same
    rw [update_self]
    exact parks
  · rw [update_of_ne same]
    exact parked other
  · subst same
    rw [update_self]
    exact fifo other
  · rw [update_of_ne same]
    exact fifo other
  · subst same
    rw [update_self]
    exact generation other
  · rw [update_of_ne same]
    exact generation other

variable {system : System ν} {after : State ν}

theorem Consistent.next {otherwise : DriveResult}
    (consistent : Consistent state system.claims system.sent system.received)
    (resumed : Tasks.next state otherwise = .ok after) : Invariant (system.nextSlice after) := by
  obtain ⟨nodup, queue, parked, fifo, generation, bounded⟩ := consistent
  rw [Tasks.next, State.popReady] at resumed
  split at resumed
  · cases resumed
  · rename_i idx popped poppedEq
    obtain rfl := ok.inj resumed
    split at poppedEq
    · cases poppedEq
    · rename_i head rest queueEq
      obtain ⟨rfl, rfl⟩ := Prod.mk.inj (Option.some.inj poppedEq)
      rw [queueEq, nodup_cons] at nodup
      constructor
      · refine ⟨nodup.2, fun other => ?_, fun other => ?_, fun other => ?_,
          fun other => ?_, bounded⟩
        all_goals by_cases same : other = head
        · subst same
          refine iff_of_false nodup.1 ?_
          simp [System.nextSlice, startSlice, State.setStatus]
        · have listed := queue other
          rw [queueEq, mem_cons, or_iff_right same] at listed
          simpa [System.nextSlice, startSlice, State.setStatus, update_of_ne same] using listed
        · subst same
          simp [System.nextSlice, startSlice, State.setStatus]
        · simpa [System.nextSlice, startSlice, State.setStatus, update_of_ne same]
            using parked other
        · subst same
          simpa [System.nextSlice, startSlice, State.setStatus] using fifo other
        · simpa [System.nextSlice, startSlice, State.setStatus, update_of_ne same] using fifo other
        · subst same
          simpa [System.nextSlice, startSlice, State.setStatus] using generation other
        · simpa [System.nextSlice, startSlice, State.setStatus, update_of_ne same]
            using generation other
      · simp [System.nextSlice, startSlice, State.setStatus]
      · rfl

/-- A slot that is about to be claimed has an empty mailbox and the next generation. -/
theorem claimed_spec (free : state.freeSlot = some idx)
    (parked : (state.slots idx).status = .empty → (state.slots idx).mailbox = []) :
    (state.claimed idx).status = .empty ∧ (state.claimed idx).mailbox = [] ∧
      (state.claimed idx).generation = nextGeneration (state.slots idx).generation := by
  rw [State.claimed]
  rcases freeSlot_eq_some free with isEmpty | isDead
  · simp [isEmpty, parked isEmpty]
  · simp [isDead, TaskSlot.clear]

/-- A new occupant of a slot, with a fresh record. -/
theorem Consistent.claim (consistent : Consistent state claims sent received) {slot : TaskSlot ν}
    {queue : List ℕ} (empty : slot.mailbox = [])
    (generationEq : slot.generation = nextGeneration (state.slots idx).generation)
    (notWrapped : claims idx + 1 < 2 ^ 32) (nodup : queue.Nodup)
    (listed : idx ∈ queue ↔ slot.status = .ready)
    (others : ∀ other, other ≠ idx → (other ∈ queue ↔ other ∈ state.readyQueue)) :
    Consistent { state.setSlot idx slot with readyQueue := queue }
      (Function.update claims idx (claims idx + 1)) (Function.update sent idx [])
      (Function.update received idx []) := by
  refine ⟨nodup, fun other => ?_, fun other => ?_, fun other => ?_, fun other => ?_,
    fun other => ?_⟩
  all_goals
    try simp only [slots_setSlot]
    by_cases same : other = idx
  · subst same
    rw [update_self]
    exact listed
  · rw [update_of_ne same, others other same]
    exact consistent.queue other
  · subst same
    rw [update_self]
    exact fun _ => empty
  · rw [update_of_ne same]
    exact consistent.parked other
  · subst same
    simp only [update_self]
    rw [empty, append_nil]
  · simp only [update_of_ne same]
    exact consistent.fifo other
  · subst same
    rw [update_self, update_self, generationEq, consistent.generation]
    rfl
  · rw [update_of_ne same, update_of_ne same]
    exact consistent.generation other
  · subst same
    rw [update_self]
    exact notWrapped
  · rw [update_of_ne same]
    exact consistent.bounded other

theorem spawnTask_notCreated (free : state.freeSlot = some idx) :
    (state.spawnTask .notCreated).2 = state.setSlot idx (state.claimed idx) := by
  simp [State.spawnTask, State.claimSlot, free]

theorem spawnTask_spawned (free : state.freeSlot = some idx) :
    (state.spawnTask .spawned).2 =
      { state.setSlot idx { state.claimed idx with status := .ready, hasVs := true, ownsVs := true }
          with readyQueue := state.readyQueue ++ [idx] } := by
  simp [State.spawnTask, State.claimSlot, free, State.enqueueReady, State.setStatus, State.setSlot]

theorem spawnTask_full (full : state.freeSlot = none) (fate : SpawnFate) :
    (state.spawnTask fate).2 = state := by
  rw [State.spawnTask]
  split
  · rfl
  · simp [State.claimSlot, full]

/-- The conditions on an event: a spawn does not fail after it has claimed its slot, the
ready queue can grow, no generation wraps around, and no nested loop blocks. -/
def Orderly (system : System ν) : Event ν → Prop
  | .spawn fate => fate ≠ .notEntered ∧ fate ≠ .notQueued ∧
      ∀ idx, system.tasks.freeSlot = some idx → system.claims idx + 1 < 2 ^ 32
  | .send _ _ grants => grants.queue
  | .block loop => loop ≠ .nested
  | _ => True

theorem Invariant.spawn {fate : SpawnFate} (invariant : Invariant system)
    (orderly : Orderly system (.spawn fate)) : Invariant (system.spawn fate) := by
  obtain ⟨consistent, running, notPending⟩ := invariant
  obtain ⟨entered, queued, notWrapped⟩ := orderly
  rw [System.spawn]
  split
  · rename_i full
    rw [spawnTask_full full]
    exact ⟨consistent, running, notPending⟩
  · rename_i idx free
    obtain ⟨isEmpty, emptyMailbox, generationEq⟩ :=
      claimed_spec free fun empty => consistent.parked idx (.inr empty)
    have idle : idx ≠ system.tasks.current := by
      rintro rfl
      rcases freeSlot_eq_some free with empty | dead
      · rw [running] at empty
        cases empty
      · rw [running] at dead
        cases dead
    have unlisted : idx ∉ system.tasks.readyQueue := by
      rw [consistent.queue]
      rcases freeSlot_eq_some free with empty | dead
      · rw [empty]
        exact TaskStatus.noConfusion
      · rw [dead]
        exact TaskStatus.noConfusion
    have stillRunning : ∀ slot : TaskSlot ν,
        ((system.tasks.setSlot idx slot).slots system.tasks.current).status = .running := by
      intro slot
      rw [slots_setSlot, update_of_ne idle.symm]
      exact running
    cases fate with
    | notSendable => exact ⟨consistent, running, notPending⟩
    | notEntered => exact absurd rfl entered
    | notQueued => exact absurd rfl queued
    | notCreated =>
      rw [if_neg (by decide), spawnTask_notCreated free]
      refine ⟨?_, stillRunning _, notPending⟩
      refine consistent.claim emptyMailbox generationEq (notWrapped idx free) consistent.nodup
        (iff_of_false unlisted ?_) fun other _ => .rfl
      rw [isEmpty]
      exact TaskStatus.noConfusion
    | spawned =>
      rw [if_neg (by decide), spawnTask_spawned free]
      refine ⟨?_, stillRunning _, notPending⟩
      have listedLast : (system.tasks.readyQueue ++ [idx]).Nodup := by
        rw [← concat_eq_append]
        exact consistent.nodup.concat unlisted
      refine consistent.claim emptyMailbox generationEq (notWrapped idx free) listedLast
        (iff_of_true (by simp) rfl) fun other ne => ?_
      rw [mem_append, mem_singleton, or_iff_left ne]

theorem Consistent.post (consistent : Consistent state claims sent received) {slot : TaskSlot ν}
    {queue : List ℕ} {sentNow receivedNow : List ν}
    (generationEq : slot.generation = (state.slots idx).generation)
    (parks : slot.status = .blockedReceive ∨ slot.status = .empty → slot.mailbox = [])
    (fifo : sentNow = receivedNow ++ slot.mailbox) (nodup : queue.Nodup)
    (listed : idx ∈ queue ↔ slot.status = .ready)
    (others : ∀ other, other ≠ idx → (other ∈ queue ↔ other ∈ state.readyQueue)) :
    Consistent { state.setSlot idx slot with readyQueue := queue } claims
      (Function.update sent idx sentNow) (Function.update received idx receivedNow) := by
  refine ⟨nodup, fun other => ?_, fun other => ?_, fun other => ?_, fun other => ?_,
    consistent.bounded⟩
  all_goals
    simp only [slots_setSlot]
    by_cases same : other = idx
  · subst same
    rw [update_self]
    exact listed
  · rw [update_of_ne same, others other same]
    exact consistent.queue other
  · subst same
    rw [update_self]
    exact parks
  · rw [update_of_ne same]
    exact consistent.parked other
  · subst same
    simp only [update_self]
    exact fifo
  · simp only [update_of_ne same]
    exact consistent.fifo other
  · subst same
    rw [update_self, generationEq]
    exact consistent.generation other
  · rw [update_of_ne same]
    exact consistent.generation other

variable {clone : ν → Option ν} {target : ActorRef} {payload : ν} {grants : Grants}

theorem send_dropped (dropped : ¬∃ idx cloned, state.resolveSameGeneration target = some idx ∧
      clone payload = some cloned ∧ state.isAlive idx ∧ grants.mailbox) :
    (state.send clone target payload grants).2 = state := by
  rw [State.send]
  split
  · rfl
  · rename_i idx resolved
    split
    · rfl
    · rename_i alive
      split
      · rfl
      · rename_i cloned isCloned
        split
        · rename_i granted
          exact absurd ⟨idx, cloned, resolved, isCloned, not_not.mp alive, granted⟩ dropped
        · rfl

theorem send_delivered {cloned : ν} (resolved : state.resolveSameGeneration target = some idx)
    (isCloned : clone payload = some cloned) (alive : state.isAlive idx)
    (granted : grants.mailbox) (grows : grants.queue) :
    (state.send clone target payload grants).2 =
      { state.setSlot idx { state.slots idx with
            status :=
              if (state.slots idx).status = .blockedReceive then .ready
              else (state.slots idx).status
            mailbox := (state.slots idx).mailbox ++ [cloned] } with
        readyQueue :=
          if (state.slots idx).status = .blockedReceive then state.readyQueue ++ [idx]
          else state.readyQueue } := by
  rw [State.send, resolved]
  dsimp only
  rw [if_neg (not_not.mpr alive), isCloned]
  dsimp only
  rw [if_pos granted]
  by_cases blocked : (state.slots idx).status = .blockedReceive
  · simp [blocked, State.enqueueReady, grows, State.setStatus, State.setSlot]
  · simp [blocked, State.setSlot]

theorem system_send_dropped
    (dropped : ¬∃ idx cloned, system.tasks.resolveSameGeneration target = some idx ∧
      clone payload = some cloned ∧ system.tasks.isAlive idx ∧ grants.mailbox) :
    system.send clone target payload grants = system := by
  rw [System.send, send_dropped dropped]
  split
  · rename_i idx cloned resolved isCloned
    rw [if_neg fun delivered =>
      dropped ⟨idx, cloned, resolved, isCloned, delivered.1, delivered.2⟩]
    rfl
  · rfl

theorem Invariant.send (invariant : Invariant system) (grows : grants.queue) :
    Invariant (system.send clone target payload grants) := by
  by_cases delivered : ∃ idx cloned, system.tasks.resolveSameGeneration target = some idx ∧
      clone payload = some cloned ∧ system.tasks.isAlive idx ∧ grants.mailbox
  · rcases delivered with ⟨idx, cloned, resolved, isCloned, alive, granted⟩
    obtain ⟨consistent, running, notPending⟩ := invariant
    obtain ⟨notEmpty, notDead⟩ := isAlive_iff.mp alive
    have sentEq := consistent.fifo idx
    have listed := consistent.queue idx
    rw [System.send, resolved, isCloned]
    dsimp only
    rw [if_pos ⟨alive, granted⟩, send_delivered resolved isCloned alive granted grows]
    have same : system.received = Function.update system.received idx (system.received idx) :=
      (update_eq_self idx system.received).symm
    constructor
    · change Consistent _ system.claims _ system.received
      rw [same]
      by_cases blocked : (system.tasks.slots idx).status = .blockedReceive
      · have unlisted : idx ∉ system.tasks.readyQueue := by
          rw [listed, blocked]
          exact TaskStatus.noConfusion
        simp only [if_pos blocked]
        refine consistent.post rfl (fun parks => by rcases parks with parks | parks <;> cases parks)
          ?_ ?_ (iff_of_true (by simp) rfl) fun other ne => ?_
        · rw [sentEq, append_assoc]
        · rw [← concat_eq_append]
          exact consistent.nodup.concat unlisted
        · rw [mem_append, mem_singleton, or_iff_left ne]
      · simp only [if_neg blocked]
        refine consistent.post rfl (fun parks => ?_) ?_ consistent.nodup listed
          fun other _ => .rfl
        · rcases parks with parks | parks
          · exact absurd parks blocked
          · exact absurd parks notEmpty
        · rw [sentEq, append_assoc]
    · by_cases self : system.tasks.current = idx
      · subst self
        simp [System.withTasks, running]
      · simp [System.withTasks, update_of_ne self, running]
    · exact notPending
  · rw [system_send_dropped delivered]
    exact invariant

theorem Invariant.receive (invariant : Invariant system) : Invariant system.receive := by
  obtain ⟨consistent, running, notPending⟩ := invariant
  rw [System.receive]
  split
  · exact ⟨consistent, running, notPending⟩
  · rename_i message rest mailboxEq
    have sentEq := consistent.fifo system.tasks.current
    have same : system.sent =
        Function.update system.sent system.tasks.current (system.sent system.tasks.current) :=
      (update_eq_self _ system.sent).symm
    constructor
    · change Consistent _ system.claims system.sent _
      rw [same]
      refine consistent.post rfl (fun parks => ?_) ?_ consistent.nodup ?_ fun other _ => .rfl
      · change (system.tasks.slots _).status = _ ∨ (system.tasks.slots _).status = _ at parks
        rw [running] at parks
        rcases parks with parks | parks <;> cases parks
      · rw [sentEq, mailboxEq, append_assoc]
        rfl
      · exact consistent.queue system.tasks.current
    · simpa using running
    · rfl

theorem Invariant.setStatus (invariant : Invariant system) {status : TaskStatus}
    (isNot : status ≠ .ready)
    (parks : status = .blockedReceive ∨ status = .empty → system.mailbox = []) :
    Consistent (system.tasks.setStatus system.tasks.current status) system.claims system.sent
      system.received := by
  refine invariant.consistent.setStatus ?_ isNot parks
  rw [invariant.running]
  exact TaskStatus.noConfusion

section

variable (consistent : Consistent state system.claims system.sent system.received)
    (notReady : (state.slots state.current).status ≠ .ready)
include consistent notReady

theorem Consistent.retire
    (resumed : Tasks.next (state.setStatus state.current .dead) .completed = .ok after) :
    Invariant (system.nextSlice after) := by
  have retired : Consistent (state.setStatus state.current .dead) system.claims system.sent
      system.received := by
    apply consistent.setStatus notReady (by decide)
    intro parks
    rcases parks with parks | parks <;> cases parks
  exact retired.next resumed

theorem Consistent.afterSlice {sliceEnd : SliceEnd}
    (resumed : Tasks.afterSlice state sliceEnd = .ok after) :
    Invariant (system.nextSlice after) := by
  cases sliceEnd with
  | suspended => cases resumed
  | taskYielded => exact consistent.next resumed
  | failed | completed =>
    rw [Tasks.afterSlice] at resumed
    split at resumed
    · cases resumed
    · exact consistent.retire notReady resumed

theorem Invariant.afterSlice {after : System ν} {sliceEnd : SliceEnd}
    (resumed : (Tasks.afterSlice state sliceEnd).map system.nextSlice = .ok after) :
    Invariant after := by
  cases stepEq : Tasks.afterSlice state sliceEnd with
  | error result =>
    rw [stepEq] at resumed
    cases resumed
  | ok tasks =>
    rw [stepEq] at resumed
    obtain rfl := ok.inj resumed
    exact consistent.afterSlice notReady stepEq

end

/-- One event keeps the invariant. -/
theorem Invariant.apply {after : System ν} {event : Event ν} (invariant : Invariant system)
    (enabled : event.Enabled system) (orderly : Orderly system event)
    (applied : event.apply clone system = .ok after) : Invariant after := by
  have notReady : (system.tasks.slots system.tasks.current).status ≠ .ready := by
    rw [invariant.running]
    exact TaskStatus.noConfusion
  have blockedNotReady : (system.blocked.slots system.blocked.current).status ≠ .ready := by
    simp [System.blocked, State.setStatus]
  cases event with
  | spawn fate =>
    obtain rfl := ok.inj applied
    exact invariant.spawn orderly
  | send target payload grants =>
    obtain rfl := ok.inj applied
    exact invariant.send orderly
  | receive =>
    obtain rfl := ok.inj applied
    exact invariant.receive
  | block loop =>
    have parked : Consistent system.blocked system.claims system.sent system.received :=
      invariant.setStatus (by decide) fun _ => enabled
    cases loop with
    | outermost | recovered => exact Invariant.afterSlice parked blockedNotReady applied
    | nested => exact absurd rfl orderly
  | yield | finish | die => exact Invariant.afterSlice invariant.consistent notReady applied
  | suspend => cases applied

theorem invariant_start (bounded : ∀ idx, claims idx + 1 < 2 ^ 32) :
    Invariant (start claims : System ν) := by
  refine ⟨⟨.nil, fun idx => ?_, fun idx => ?_, fun idx => ?_, fun idx => ?_,
    fun idx => ?_⟩, ?_, rfl⟩
  case refine_5 =>
    change Function.update claims mainIdx (claims mainIdx + 1) idx < 2 ^ 32
    rcases eq_or_ne idx mainIdx with rfl | notMain
    · rw [update_self]
      exact bounded mainIdx
    · rw [update_of_ne notMain]
      exact Nat.lt_of_succ_lt (bounded idx)
  all_goals
    simp only [start, startSlice, State.claimMainSlot, State.setStatus, State.setSlot]
    try by_cases isMain : idx = mainIdx
  all_goals first
    | subst isMain
      simp [generationAfter]
    | simp [isMain]
    | simp

/-- The invariant holds in every state of an orderly run. -/
theorem invariant_of_run (run : Run clone Orderly system) : Invariant system := by
  induction run with
  | start claims bounded => exact invariant_start bounded
  | step _ enabled orderly applied ih =>
    exact ih.apply enabled orderly applied

/-- The protocol of the mailboxes and of the ready queue. -/
structure Protocol (clone : ν → Option ν) (system : System ν) : Prop where
  /-- What a task has received is, in order, the first of what was sent to it. -/
  fifo : ∀ idx, system.sent idx = system.received idx ++ (system.tasks.slots idx).mailbox
  blocked : ∀ idx, (system.tasks.slots idx).status = .blockedReceive →
    (system.tasks.slots idx).mailbox = [] ∧ idx ≠ system.tasks.current ∧
      idx ∉ system.tasks.readyQueue
  nodup : system.tasks.readyQueue.Nodup
  queued : ∀ idx, idx ∈ system.tasks.readyQueue ↔
    (system.tasks.slots idx).status = .ready ∧ idx ≠ system.tasks.current
  /-- A reference to an earlier occupant of a slot reaches nobody. -/
  stale : ∀ idx earlier payload grants, earlier < system.claims idx →
    (system.tasks.send clone ⟨idx, generationAfter earlier⟩ payload grants).2 = system.tasks

theorem resolveSameGeneration_stale
    (stale : (state.slots target.index).generation ≠ target.generation) :
    state.resolveSameGeneration target = none := by
  rw [State.resolveSameGeneration, if_pos stale, ite_self]

theorem Invariant.protocol (invariant : Invariant system) : Protocol clone system := by
  obtain ⟨consistent, running, -⟩ := invariant
  constructor
  · exact consistent.fifo
  · intro idx isBlocked
    refine ⟨consistent.parked idx (.inl isBlocked), ?_, ?_⟩
    · rintro rfl
      rw [running] at isBlocked
      cases isBlocked
    · rw [consistent.queue, isBlocked]
      exact TaskStatus.noConfusion
  · exact consistent.nodup
  · intro idx
    rw [consistent.queue, iff_self_and]
    rintro isReady rfl
    rw [running] at isReady
    cases isReady
  · intro idx earlier payload grants less
    have outlived : (system.tasks.slots idx).generation ≠ generationAfter earlier := by
      rw [consistent.generation]
      exact generationAfter_ne less (consistent.bounded idx)
    have unresolved : system.tasks.resolveSameGeneration ⟨idx, generationAfter earlier⟩ = none :=
      resolveSameGeneration_stale outlived
    rw [State.send, unresolved]

/-- Every state of an orderly run keeps to the protocol. -/
theorem protocol_of_run {clone : ν → Option ν} {system : System ν}
    (run : Run clone Orderly system) : Protocol clone system :=
  (invariant_of_run run).protocol

/-- The main program after it has spawned a task and sent it a message. -/
def spawnedAndSent : System ℕ :=
  ((start fun _ => 0).spawn .spawned).send some ⟨2, 1⟩ 7 ⟨true, true⟩

theorem protocol_spawnedAndSent : Protocol some spawnedAndSent := by
  have run : Run some Orderly (start fun _ => 0 : System ℕ) := .start _ fun _ => by decide
  have spawns : Orderly (start fun _ => 0 : System ℕ) (.spawn .spawned) := by
    refine ⟨by decide, by decide, fun idx free => ?_⟩
    have isTwo : (start fun _ => 0 : System ℕ).tasks.freeSlot = some 2 := rfl
    obtain rfl := Option.some.inj (isTwo.symm.trans free)
    decide
  have sends : Orderly ((start fun _ => 0 : System ℕ).spawn .spawned)
      (.send ⟨2, 1⟩ 7 ⟨true, true⟩) := rfl
  have canSpawn : Event.Enabled (start fun _ => 0 : System ℕ) (.spawn .spawned) := trivial
  have canSend : Event.Enabled ((start fun _ => 0 : System ℕ).spawn .spawned)
      (.send ⟨2, 1⟩ 7 ⟨true, true⟩) := trivial
  exact protocol_of_run ((run.step canSpawn spawns rfl).step canSend sends rfl)

/-- Every state of every run keeps to the protocol. -/
def ProtocolKept : Prop :=
  ∀ (ν : Type) (clone : ν → Option ν) (system : System ν),
    Run clone (fun _ _ => True) system → Protocol clone system

/-- The slot claimed for a behavior whose frame is not entered is ready, but not in the ready
queue. -/
theorem not_protocolKept : ¬ProtocolKept := by
  intro kept
  have run : Run some (fun _ _ => True) (start fun _ => 0 : System ℕ) := .start _ fun _ => by decide
  have spawns : Event.Enabled (start fun _ => 0 : System ℕ) (.spawn .notEntered) := trivial
  have run := run.step spawns trivial rfl
  have listed := ((kept ℕ some _ run).queued 2).mpr ⟨rfl, by decide⟩
  exact not_mem_nil listed

end Gengo.Tasks
