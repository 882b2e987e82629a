import Gengo.Network.Sockets
import Gengo.Runs.Along
import Gengo.Tables.Entries
import Mathlib.Data.List.Nodup

/-!
# Connections and listeners

The tables of a runtime whose host has set its network handlers. A script names what it has opened
by an id, while the place of an entry changes when another one goes.
-/

namespace Gengo.Network

open List Tables

/-- `NetConn` or `NetListener`. -/
structure NetHandle where
  id : ℕ
  hostHandle : ℤ
  deriving DecidableEq

/-- `conns` or `listeners`. `opened` and `closed` record what has been entered, and what has been
closed, since the last reset, and `earlier` what was entered before it. `released` are the handles
that the host's close handler has been called with, ever since. -/
structure Handles where
  entries : List NetHandle := []
  nextId : ℕ := 1
  opened : List NetHandle := []
  closed : List NetHandle := []
  earlier : List NetHandle := []
  released : List ℤ := []

inductive HandlerError
  | tooMany (limit : ℕ)
  | notRegistered
  | hostHandler (rc : ℤ)
  | unknownHandle (id : ℕ)
  | deadlineExceeded
  | capabilityError
  /-- The next id does not fit a `u32`. -/
  | panic

/-- What a handler returns and leaves in `out_handle`, if it is registered. -/
abbrev HostAnswer :=
  Option (ℤ × ℤ)

namespace Handles

variable (handles : Handles)

/-- `findConn` or `findListener`. -/
def find (id : ℕ) : Option NetHandle :=
  handles.entries.find? (·.id = id)

def enter (hostHandle : ℤ) : Except HandlerError ℕ × Handles :=
  let handle : NetHandle := ⟨handles.nextId, hostHandle⟩
  if handles.nextId + 1 < 2 ^ 32 then
    (.ok handle.id, { handles with
      entries := handles.entries ++ [handle], nextId := handles.nextId + 1
      opened := handles.opened ++ [handle] })
  else (.error .panic, handles)

/-- `netDial` or `netListen`. -/
def dial (limit : ℕ) (answer : HostAnswer) : Except HandlerError ℕ × Handles :=
  if limit ≤ handles.entries.length then (.error (.tooMany limit), handles)
  else
    match answer with
    | none => (.error .notRegistered, handles)
    | some (rc, hostHandle) =>
      if rc < 0 then (.error (.hostHandler rc), handles) else handles.enter hostHandle

/-- `netListenerAccept`. What the host accepts for a full table is entered nowhere. -/
def accept (limit : ℕ) (listener : Option NetHandle) (listenerId : ℕ) (answer : HostAnswer) :
    Except HandlerError ℕ × Handles :=
  match listener, answer with
  | none, _ => (.error (.unknownHandle listenerId), handles)
  | some _, none => (.error .notRegistered, handles)
  | some _, some (rc, hostHandle) =>
    if rc = 0 then (.error .deadlineExceeded, handles)
    else if rc < 0 then (.error (.hostHandler rc), handles)
    else if limit ≤ handles.entries.length then (.error (.tooMany limit), handles)
    else handles.enter hostHandle

/-- `netClose` or `netListenerClose`, with `removeConn` or `removeListener`. -/
def close (id : ℕ) : Except HandlerError Unit × Handles :=
  match handles.entries.findIdx? (·.id = id) with
  | none => (.error .capabilityError, handles)
  | some idx => (.ok (), { handles with
      entries := swapRemove handles.entries idx
      closed := handles.entries[idx]?.toList ++ handles.closed
      released := (handles.entries[idx]?.map NetHandle.hostHandle).toList ++ handles.released })

/-- `netReset`, which closes the entries in their order. -/
def reset : Handles where
  earlier := handles.earlier ++ handles.opened
  released := handles.entries.map NetHandle.hostHandle ++ handles.released

end Handles

/-- The tables of a `NetEngineState` that has host handlers. -/
structure HostedTables where
  conns : Handles := {}
  listeners : Handles := {}

inductive NetEvent
  | dial (answer : HostAnswer)
  | accept (listenerId : ℕ) (answer : HostAnswer)
  | close (id : ℕ)
  | listen (answer : HostAnswer)
  | listenerClose (id : ℕ)
  | reset

def HostedTables.apply (state : HostedTables) : NetEvent → HostedTables
  | .dial answer => { state with conns := (state.conns.dial maxConns answer).2 }
  | .accept listenerId answer => { state with conns :=
      (state.conns.accept maxConns (state.listeners.find listenerId) listenerId answer).2 }
  | .close id => { state with conns := (state.conns.close id).2 }
  | .listen answer => { state with listeners := (state.listeners.dial maxListeners answer).2 }
  | .listenerClose id => { state with listeners := (state.listeners.close id).2 }
  | .reset => ⟨state.conns.reset, state.listeners.reset⟩

namespace Handles

/-- The ids are given out in order, and whatever has got one is in the table or has been closed. The
host has been told to close what has been closed and what was entered before the last reset, each
once. -/
structure Kept (limit : ℕ) (handles : Handles) : Prop where
  few : handles.entries.length ≤ limit
  nextId : handles.nextId = handles.opened.length + 1
  ids : handles.opened.map NetHandle.id = List.range' 1 handles.opened.length
  once : handles.opened ~ handles.entries ++ handles.closed
  released : handles.released ~ (handles.earlier ++ handles.closed).map NetHandle.hostHandle

variable {handles : Handles} {limit : ℕ}

theorem Kept.enter (kept : handles.Kept limit) (room : ¬limit ≤ handles.entries.length)
    (hostHandle : ℤ) : (handles.enter hostHandle).2.Kept limit := by
  rw [Handles.enter]
  split
  · constructor
    · rw [length_append]
      exact Nat.lt_of_not_le room
    · rw [kept.nextId, length_append]
      rfl
    · rw [map_append, kept.ids, length_append, length_singleton, range'_1_concat, Nat.add_comm 1,
        ← kept.nextId]
      rfl
    · rw [append_assoc]
      refine (kept.once.append_right _).trans ?_
      rw [append_assoc]
      exact perm_append_comm.append_left _
    · exact kept.released
  · exact kept

theorem Kept.dial (kept : handles.Kept limit) (answer : HostAnswer) :
    (handles.dial limit answer).2.Kept limit := by
  unfold Handles.dial
  split_ifs with room
  · exact kept
  · split
    · exact kept
    · split_ifs
      · exact kept
      · exact kept.enter room _

theorem Kept.accept (kept : handles.Kept limit) (listener : Option NetHandle) (listenerId : ℕ)
    (answer : HostAnswer) : (handles.accept limit listener listenerId answer).2.Kept limit := by
  unfold Handles.accept
  split
  · exact kept
  · exact kept
  · split_ifs with _ _ room
    · exact kept
    · exact kept
    · exact kept
    · exact kept.enter room _

theorem Kept.close (kept : handles.Kept limit) (id : ℕ) : (handles.close id).2.Kept limit := by
  rw [Handles.close]
  split
  · exact kept
  next idx found =>
    have inside : idx < handles.entries.length := (findIdx?_eq_some_iff_getElem.mp found).1
    constructor
    · exact (length_swapRemove_lt inside).le.trans kept.few
    · exact kept.nextId
    · exact kept.ids
    · rw [getElem?_eq_getElem inside]
      exact kept.once.trans (((perm_swapRemove inside).append_right _).trans perm_middle.symm)
    · rw [getElem?_eq_getElem inside]
      exact (kept.released.cons _).trans (perm_middle.symm.map NetHandle.hostHandle)

theorem Kept.reset (kept : handles.Kept limit) : handles.reset.Kept limit := by
  refine ⟨Nat.zero_le _, rfl, rfl, .nil, ?_⟩
  rw [Handles.reset, append_nil, map_append]
  calc handles.entries.map NetHandle.hostHandle ++ handles.released
    _ ~ handles.entries.map NetHandle.hostHandle ++
          (handles.earlier ++ handles.closed).map NetHandle.hostHandle :=
        kept.released.append_left _
    _ ~ handles.earlier.map NetHandle.hostHandle ++
          (handles.entries ++ handles.closed).map NetHandle.hostHandle := by
        simp only [map_append]
        exact perm_append_comm_assoc _ _ _
    _ ~ _ := (kept.once.symm.map NetHandle.hostHandle).append_left _

/-- An id finds what has been entered under it, until that is closed. -/
theorem Kept.find_iff (kept : handles.Kept limit) (id : ℕ) (handle : NetHandle) :
    handles.find id = some handle ↔
      handle ∈ handles.opened ∧ handle ∉ handles.closed ∧ handle.id = id := by
  have distinct : (handles.opened.map NetHandle.id).Nodup := kept.ids ▸ nodup_range'
  have split := nodup_append.mp (kept.once.nodup_iff.mp (Nodup.of_map _ distinct))
  have entered : ∀ entry, entry ∈ handles.opened ↔ entry ∈ handles.entries ∨ entry ∈
    handles.closed :=
    fun _ => kept.once.mem_iff.trans mem_append
  unfold Handles.find
  constructor
  · intro found
    have listed := mem_of_find?_eq_some found
    refine ⟨(entered handle).mpr (.inl listed), ?_, by simpa using find?_some found⟩
    exact fun isClosed => split.2.2 _ listed _ isClosed rfl
  · rintro ⟨isOpened, notClosed, rfl⟩
    have listed := ((entered handle).mp isOpened).resolve_right notClosed
    cases found : handles.entries.find? (·.id = handle.id) with
    | none => exact absurd (decide_eq_true rfl) (find?_eq_none.mp found handle listed)
    | some other =>
      have isOpened' := (entered other).mpr (.inl (mem_of_find?_eq_some found))
      have same : other.id = handle.id := by simpa using find?_some found
      rw [inj_on_of_nodup_map distinct isOpened' isOpened same]

def Exact (limit : ℕ) (handles : Handles) : Prop :=
  handles.Kept limit ∧ ∀ id handle, handles.find id = some handle ↔
    handle ∈ handles.opened ∧ handle ∉ handles.closed ∧ handle.id = id

end Handles

def HostedTables.Kept (state : HostedTables) : Prop :=
  state.conns.Kept maxConns ∧ state.listeners.Kept maxListeners

theorem kept_fresh : HostedTables.Kept {} :=
  ⟨⟨Nat.zero_le _, rfl, rfl, .nil, .nil⟩, Nat.zero_le _, rfl, rfl, .nil, .nil⟩

theorem kept_apply (state : HostedTables) (event : NetEvent) (kept : state.Kept) :
    (state.apply event).Kept := by
  rcases kept with ⟨conns, listeners⟩
  cases event with
  | dial answer => exact ⟨conns.dial answer, listeners⟩
  | accept listenerId answer => exact ⟨conns.accept _ listenerId answer, listeners⟩
  | close id => exact ⟨conns.close id, listeners⟩
  | listen answer => exact ⟨conns, listeners.dial answer⟩
  | listenerClose id => exact ⟨conns, listeners.close id⟩
  | reset => exact ⟨conns.reset, listeners.reset⟩

/-- After any operations, an id that a script has got names what was opened under it, or nothing
any more. -/
theorem exact_of_events (events : List NetEvent) :
    (events.foldl HostedTables.apply {}).conns.Exact maxConns ∧
      (events.foldl HostedTables.apply {}).listeners.Exact maxListeners := by
  have kept : (events.foldl HostedTables.apply {}).Kept :=
    Runs.invariant_foldl kept_fresh kept_apply
  exact ⟨⟨kept.1, kept.1.find_iff⟩, kept.2, kept.2.find_iff⟩

end Gengo.Network
