import Gengo.Mounts.State
import Gengo.Runs.Along

/-!
# The sandbox of mounted paths

A registry gives each name the target of the last call that registered it; the table, with
its offsets and its shared buffer, represents the registry. A path that is accepted starts
with a registered name and goes on below its target. Two things go wrong: on Windows a
component can contain backslashes, and a mount too many uses up room for names.
-/

namespace Gengo.Mounts

open List Option Bool
open Bytecode (Bytes)
open Host (slash)
open Runs (Along along_append along_congr invariant_foldl)

variable {δ : Type*}

/-- Where the files of a mount are. -/
inductive Target (δ : Type*)
  | directory (real : Bytes)
  | driver (driver : δ) (userdata : Option ℕ)
  deriving DecidableEq

/-- The targets of the names that are registered. -/
abbrev Registry (δ : Type*) : Type _ :=
  Bytes → Option (Target δ)

/-- The host registers a mount. -/
inductive Call (δ : Type*)
  | directory (name real : Bytes)
  | driver (name : Bytes) (driver : δ) (userdata : Option ℕ)

def Mount.target (mount : Mount δ) : Target δ :=
  match mount.kind with
  | .realPath => .directory mount.real
  | .driver => .driver mount.driver mount.userdata

namespace Call

def name : Call δ → Bytes
  | directory name _ => name
  | driver name _ _ => name

def target : Call δ → Target δ
  | directory _ real => .directory (EngineState.stripSlashes real)
  | driver _ callbacks userdata => .driver callbacks userdata

/-- What the call copies into the buffer. -/
def strings : Call δ → Bytes
  | directory name real => name ++ EngineState.stripSlashes real
  | driver name _ _ => name

/-- The name is a name, and a directory has a path. -/
def Valid : Call δ → Prop
  | directory name real => EngineState.nameValid name ∧ real ≠ []
  | driver name _ _ => EngineState.nameValid name

variable [Inhabited δ]

def apply (state : EngineState δ) : Call δ → Except MountError Unit × EngineState δ
  | directory name real => state.addMountToState name real
  | driver name callbacks userdata => state.addDriverMountToState name callbacks userdata

end Call

/-- A table, and the registry that the calls have made. -/
structure Ledger (δ : Type*) where
  table : EngineState δ
  registry : Registry δ

namespace Ledger

variable [Inhabited δ]

def start (buf : ℕ → UInt8) : Ledger δ :=
  ⟨.empty buf, fun _ => none⟩

/-- A call that succeeds registers its name, or gives it a new target. -/
def apply (ledger : Ledger δ) (call : Call δ) : Ledger δ :=
  match call.apply ledger.table with
  | (.ok (), table) =>
    ⟨table, Function.update ledger.registry call.name (some call.target)⟩
  | (.error _, table) => ⟨table, ledger.registry⟩

end Ledger

/-- The systems that separate the components of a path differently. -/
inductive TargetOs
  | posix
  | windows
  deriving DecidableEq, Repr

/-- `\` -/
def backslash : UInt8 :=
  92

/-- What the system takes for the components of a path without slashes. -/
def TargetOs.parts (comp : Bytes) : TargetOs → List Bytes
  | posix => [comp]
  | windows => comp.splitOn backslash

/-- The components below a mount lead further down. -/
def TargetOs.Descends (os : TargetOs) (rest : List Bytes) : Prop :=
  ∀ comp ∈ rest, ∀ part ∈ os.parts comp, badComponent part = false

/-- A path that is accepted leads into the target of the mount that it names. -/
structure Confines (os : TargetOs) (ledger : Ledger δ) (path : Bytes) : Prop where
  lookup : ∀ result, ledger.table.lookup path = .ok result →
    ∃ first rest, path.splitOn slash = first :: rest ∧ result.mount.name = first ∧
      ledger.registry first = some result.mount.target ∧
      result.rest = [slash].intercalate rest ∧ os.Descends rest
  resolve : ∀ bufLen result, ledger.table.resolve path bufLen = .ok result →
    ∃ first rest real, path.splitOn slash = first :: rest ∧
      ledger.registry first = some (.directory real) ∧
      result = [slash].intercalate (real :: rest) ∧ os.Descends rest

section Promise

variable [Inhabited δ]

/-- A call that fails leaves the table as it was, with the room for names that is left. -/
def KeptOnFailure (ledger : Ledger δ) (call : Call δ) : Prop :=
  ∀ err, (call.apply ledger.table).1 = .error err → (call.apply ledger.table).2 = ledger.table

/-- The calls that fail leave the table as it was, and after them the path is confined. -/
def Sandboxed (os : TargetOs) (buf : ℕ → UInt8) (calls : List (Call δ)) (path : Bytes) : Prop :=
  Along Ledger.apply KeptOnFailure (Ledger.start buf) calls ∧
    Confines os (calls.foldl Ledger.apply (Ledger.start buf)) path

end Promise

/-- A mount too many: a call for a new name whose strings fit, while all mounts are used. -/
def Overfills (ledger : Ledger δ) (call : Call δ) : Prop :=
  call.Valid ∧ ledger.table.strUsed + call.strings.length ≤ strBufSize ∧
    ledger.registry call.name = none ∧ maxMounts ≤ ledger.table.mounts.length

/-- A path with backslashes on Windows: its checks pass, it starts with a registered name,
and between backslashes it goes nowhere or up. -/
def Escapes (os : TargetOs) (registry : Registry δ) (path : Bytes) : Prop :=
  os = .windows ∧ pathValid path ∧ ∃ first rest, path.splitOn slash = first :: rest ∧
    registry first ≠ none ∧
    ∃ comp ∈ rest, ∃ part ∈ comp.splitOn backslash, badComponent part = true

/-- The strings of the mounts are in the used part of the buffer, and each name has the
target that the registry gives it. -/
structure Represents (ledger : Ledger δ) : Prop where
  inside : ∀ rec ∈ ledger.table.mounts,
    rec.nameOff + rec.nameLen ≤ ledger.table.strUsed ∧
      rec.realOff + rec.realLen ≤ ledger.table.strUsed
  registry_eq : ∀ name, ledger.registry name =
    (ledger.table.mounts.find? (ledger.table.hasName name)).map fun rec =>
      (ledger.table.mountAt rec).target

namespace EngineState

variable {state : EngineState δ} {name : Bytes} {target : TargetRec δ}
  {mounts mounts' : List (MountRec δ)}

@[simp]
theorem hasName_retargeted (rec : MountRec δ) :
    state.hasName name { rec with toTargetRec := target } = state.hasName name rec :=
  rfl

@[simp]
theorem hasName_withMounts : (state.withMounts mounts).hasName name = state.hasName name :=
  rfl

@[simp]
theorem mountAt_withMounts : (state.withMounts mounts).mountAt = state.mountAt :=
  rfl

variable {rec : MountRec δ}

theorem hasName_copyStrings (inside : rec.nameOff + rec.nameLen ≤ state.strUsed) (strings : Bytes) :
    (state.copyStrings strings).hasName name rec = state.hasName name rec := by
  simp only [hasName, nameOf, copyStrings, bytesAt_copyInto_of_le inside]

theorem target_copyStrings (inside : rec.realOff + rec.realLen ≤ state.strUsed) (strings : Bytes) :
    ((state.copyStrings strings).mountAt rec).target = (state.mountAt rec).target := by
  simp only [Mount.target, mountAt, copyStrings, bytesAt_copyInto_of_le inside]

theorem find?_copyStrings (inside : ∀ rec ∈ mounts, rec.nameOff + rec.nameLen ≤ state.strUsed)
    (strings : Bytes) :
    mounts.find? ((state.copyStrings strings).hasName name) =
      mounts.find? (state.hasName name) := by
  induction mounts with
  | nil => rfl
  | cons rec rest ih =>
    have below := ih fun other member =>
      inside other (mem_cons_of_mem rec member)
    have here := inside rec (mem_cons_self ..)
    simp only [List.find?_cons, hasName_copyStrings here, below]

theorem hasName_unique (other : Bytes) (named : state.hasName name rec = true) :
    state.hasName other rec = (name == other) := by
  have equal : state.nameOf rec = name := eq_of_beq named
  rw [hasName, equal]

theorem retarget_eq_none :
    retarget (state.hasName name) target mounts = none ↔
      mounts.find? (state.hasName name) = none := by
  induction mounts with
  | nil => simp [retarget]
  | cons rec rest ih =>
    cases named : state.hasName name rec
    · simp [retarget, named, ← ih]
    · simp [retarget, named]

/-- The first mount of the name has the new target, and the mounts of other names are found
where they were. -/
theorem find?_retarget
    (found : retarget (state.hasName name) target mounts = some mounts') (other : Bytes) :
    mounts'.find? (state.hasName other) =
      if other = name then
        (mounts.find? (state.hasName name)).map fun rec => { rec with toTargetRec := target }
      else mounts.find? (state.hasName other) := by
  induction mounts generalizing mounts' with
  | nil => simp [retarget] at found
  | cons rec rest ih =>
    cases named : state.hasName name rec
    · simp only [retarget, named, false_eq_true, if_false] at found
      rcases map_eq_some_iff.mp found with ⟨rest', restFound, rfl⟩
      have below := ih restFound
      cases first : state.hasName other rec
      · simp only [List.find?_cons, first, named, below]
      · have apart : ¬other = name := by
          rintro rfl
          rw [first] at named
          cases named
        simp [first, apart]
    · simp only [retarget, named, if_true, some.injEq] at found
      subst found
      have unique := hasName_unique other named
      by_cases same : other = name
      · subst same
        simp [named]
      · have apart : ¬name = other := fun equal => same equal.symm
        simp [unique, same, apart]

theorem mem_retarget (found : retarget (state.hasName name) target mounts = some mounts')
    (member : rec ∈ mounts') :
    rec ∈ mounts ∨ ∃ old ∈ mounts, rec = { old with toTargetRec := target } := by
  induction mounts generalizing mounts' with
  | nil => simp [retarget] at found
  | cons first rest ih =>
    cases named : state.hasName name first
    · simp only [retarget, named, false_eq_true, if_false] at found
      rcases map_eq_some_iff.mp found with ⟨rest', restFound, rfl⟩
      rcases mem_cons.mp member with rfl | inRest
      · exact .inl (mem_cons_self ..)
      · rcases ih restFound inRest with kept | ⟨old, inOld, equal⟩
        · exact .inl (mem_cons_of_mem _ kept)
        · exact .inr ⟨old, mem_cons_of_mem _ inOld, equal⟩
    · simp only [retarget, named, if_true, some.injEq] at found
      subst found
      rcases mem_cons.mp member with rfl | inRest
      · exact .inr ⟨first, mem_cons_self .., rfl⟩
      · exact .inl (mem_cons_of_mem _ inRest)

/-- How a registration ends. -/
inductive Registers (state : EngineState δ) (name strings : Bytes) (target : TargetRec δ) :
    Except MountError Unit × EngineState δ → Prop
  | full : strBufSize < state.strUsed + strings.length →
      Registers state name strings target (.error .outOfMountSpace, state)
  | replaced {mounts : List (MountRec δ)} :
      state.strUsed + strings.length ≤ strBufSize →
      retarget ((state.copyStrings strings).hasName name) target state.mounts = some mounts →
      Registers state name strings target (.ok (), (state.copyStrings strings).withMounts mounts)
  | crowded : state.strUsed + strings.length ≤ strBufSize →
      state.mounts.find? ((state.copyStrings strings).hasName name) = none →
      maxMounts ≤ state.mounts.length →
      Registers state name strings target (.error .tooManyMounts, state.copyStrings strings)
  | added : state.strUsed + strings.length ≤ strBufSize →
      state.mounts.find? ((state.copyStrings strings).hasName name) = none →
      state.mounts.length < maxMounts →
      Registers state name strings target
        (.ok (), (state.copyStrings strings).withMounts
          (state.mounts ++ [⟨target, state.strUsed, name.length⟩]))

theorem registers (state : EngineState δ) (name strings : Bytes) (target : TargetRec δ) :
    Registers state name strings target (state.register name strings target) := by
  rw [register]
  by_cases full : strBufSize < state.strUsed + strings.length
  · rw [if_pos full]
    exact .full full
  · rw [if_neg full]
    have fits := Nat.le_of_not_lt full
    have sameMounts : (state.copyStrings strings).mounts = state.mounts := rfl
    simp only [sameMounts]
    cases found : retarget ((state.copyStrings strings).hasName name) target state.mounts with
    | some mounts => exact .replaced fits found
    | none =>
      have missing := retarget_eq_none.mp found
      by_cases crowded : maxMounts ≤ state.mounts.length
      · simp only [if_pos crowded]
        exact .crowded fits missing crowded
      · simp only [if_neg crowded]
        exact .added fits missing (Nat.lt_of_not_le crowded)

end EngineState

namespace Represents

variable {ledger : Ledger δ}

theorem start [Inhabited δ] (buf : ℕ → UInt8) : Represents (Ledger.start (δ := δ) buf) where
  inside := by simp [Ledger.start, EngineState.empty]
  registry_eq := by simp [Ledger.start, EngineState.empty]

theorem copyStrings (represents : Represents ledger) (strings : Bytes) :
    Represents ⟨ledger.table.copyStrings strings, ledger.registry⟩ where
  inside rec member := by
    have bounds := represents.inside rec member
    simp only [EngineState.copyStrings]
    omega
  registry_eq name := by
    have sameMounts : (ledger.table.copyStrings strings).mounts = ledger.table.mounts := rfl
    simp only [sameMounts]
    rw [represents.registry_eq name, EngineState.find?_copyStrings fun rec member =>
      (represents.inside rec member).1]
    cases found : ledger.table.mounts.find? (ledger.table.hasName name) with
    | none => rfl
    | some rec =>
      have inside := represents.inside rec (mem_of_find?_eq_some found)
      exact congrArg some (EngineState.target_copyStrings inside.2 strings).symm

end Represents

namespace Call

variable {state : EngineState δ}

/-- What the call stores in the record of its mount. -/
def targetRec [Inhabited δ] (state : EngineState δ) : Call δ → TargetRec δ
  | directory name real =>
    ⟨.realPath, state.strUsed + name.length, (EngineState.stripSlashes real).length, default, none⟩
  | driver _ callbacks userdata => ⟨.driver, 0, 0, callbacks, userdata⟩

section Strings

theorem exists_strings (call : Call δ) : ∃ tail, call.strings = call.name ++ tail := by
  cases call with
  | directory name real => exact ⟨_, rfl⟩
  | driver name _ _ => exact ⟨[], (append_nil name).symm⟩

theorem strings_ne_nil {call : Call δ} (valid : call.Valid) : call.strings ≠ [] := by
  have named : call.name ≠ [] := by
    cases call with
    | directory name real =>
      have := valid.1
      simp only [EngineState.nameValid, decide_eq_true_eq] at this
      exact this.1
    | driver name _ _ =>
      simp only [Valid, EngineState.nameValid, decide_eq_true_eq] at valid
      exact valid.1
  rcases call.exists_strings with ⟨tail, strings⟩
  rw [strings]
  exact append_ne_nil_of_left_ne_nil named tail

theorem nameOf_copied (state : EngineState δ) (call : Call δ) (target : TargetRec δ) :
    (state.copyStrings call.strings).nameOf ⟨target, state.strUsed, call.name.length⟩ =
      call.name := by
  rcases call.exists_strings with ⟨tail, strings⟩
  rw [strings]
  exact bytesAt_copyInto_append state.strBuf state.strUsed [] call.name tail

end Strings

variable [Inhabited δ]

theorem apply_of_valid {call : Call δ} (valid : call.Valid) :
    call.apply state = state.register call.name call.strings (call.targetRec state) := by
  cases call with
  | directory name real =>
    simp [apply, EngineState.addMountToState, valid.1, valid.2, Call.name, strings, targetRec]
  | driver name callbacks userdata =>
    have named : EngineState.nameValid name = true := valid
    simp [apply, EngineState.addDriverMountToState, named, Call.name, strings, targetRec]

theorem apply_of_not_valid (state : EngineState δ) {call : Call δ} (invalid : ¬call.Valid) :
    ∃ err, call.apply state = (.error err, state) := by
  cases call with
  | directory name real =>
    by_cases named : EngineState.nameValid name = true
    · have missing : real = [] := by
        by_contra present
        exact invalid ⟨named, present⟩
      exact ⟨.invalidMountPath, by simp [apply, EngineState.addMountToState, named, missing]⟩
    · exact ⟨.invalidMountName, by simp [apply, EngineState.addMountToState, named]⟩
  | driver name callbacks userdata =>
    have unnamed : ¬EngineState.nameValid name = true := invalid
    exact ⟨.invalidMountName, by simp [apply, EngineState.addDriverMountToState, unnamed]⟩

theorem target_copied (call : Call δ) (nameOff nameLen : ℕ) :
    ((state.copyStrings call.strings).mountAt
      ⟨call.targetRec state, nameOff, nameLen⟩).target = call.target := by
  cases call with
  | directory name real =>
    have reads := bytesAt_copyInto_append state.strBuf state.strUsed name
      (EngineState.stripSlashes real) []
    rw [append_nil] at reads
    simp only [Mount.target, EngineState.mountAt, EngineState.copyStrings, targetRec, strings,
      target, reads]
  | driver name callbacks userdata => rfl

theorem targetRec_inside (state : EngineState δ) (call : Call δ) :
    (call.targetRec state).realOff + (call.targetRec state).realLen ≤
      state.strUsed + call.strings.length := by
  cases call with
  | directory name real => simp [targetRec, strings, Nat.add_assoc]
  | driver name callbacks userdata => exact Nat.zero_le _

end Call

namespace Represents

variable [Inhabited δ] {ledger : Ledger δ}

/-- Every call, whether it succeeds or fails, keeps the table and the registry together. -/
theorem apply (represents : Represents ledger) (call : Call δ) :
    Represents (ledger.apply call) := by
  have copied := represents.copyStrings call.strings
  by_cases valid : call.Valid
  · have registers := ledger.table.registers call.name call.strings (call.targetRec ledger.table)
    rw [← Call.apply_of_valid valid] at registers
    have inside := call.targetRec_inside ledger.table
    rw [Ledger.apply]
    generalize call.apply ledger.table = outcome at registers
    cases registers with
    | full tooLong => exact represents
    | crowded fits missing crowded => exact copied
    | @replaced mounts fits found =>
      constructor
      · intro rec member
        rcases EngineState.mem_retarget found member with kept | ⟨old, inOld, rfl⟩
        · exact copied.inside rec kept
        · exact ⟨(copied.inside old inOld).1, inside⟩
      · intro other
        have lookup := copied.registry_eq other
        have find := EngineState.find?_retarget found other
        simp only [EngineState.hasName_withMounts, EngineState.mountAt_withMounts]
        change _ = Option.map _ (mounts.find? _)
        rw [find]
        by_cases same : other = call.name
        · subst same
          cases old : ledger.table.mounts.find?
              ((ledger.table.copyStrings call.strings).hasName call.name) with
          | none =>
            rw [EngineState.retarget_eq_none.mpr old] at found
            cases found
          | some rec => simp [call.target_copied]
        · rw [Function.update_of_ne same, if_neg same]
          exact lookup
    | added fits missing room =>
      constructor
      · intro rec member
        rcases mem_append.mp member with kept | new
        · exact copied.inside rec kept
        · rw [mem_singleton.mp new]
          rcases call.exists_strings with ⟨tail, strings⟩
          refine ⟨?_, inside⟩
          change ledger.table.strUsed + call.name.length ≤
            ledger.table.strUsed + call.strings.length
          rw [strings, length_append]
          omega
      · intro other
        have lookup := copied.registry_eq other
        have named := call.nameOf_copied ledger.table (call.targetRec ledger.table)
        simp only [EngineState.hasName_withMounts, EngineState.mountAt_withMounts]
        change _ = Option.map _ (List.find? _ (_ ++ _))
        rw [List.find?_append]
        by_cases same : other = call.name
        · subst same
          simp [missing, EngineState.hasName, named, call.target_copied]
        · have apart : ¬call.name = other := fun equal => same equal.symm
          rw [Function.update_of_ne same, lookup]
          simp [EngineState.hasName, named, apart]
          rfl
  · rcases Call.apply_of_not_valid ledger.table valid with ⟨err, failed⟩
    rw [Ledger.apply, failed]
    exact represents

/-- A call that fails changes the table exactly when it is a mount too many. -/
theorem keptOnFailure_iff (represents : Represents ledger) (call : Call δ) :
    KeptOnFailure ledger call ↔ ¬Overfills ledger call := by
  have copied := (represents.copyStrings call.strings).registry_eq call.name
  by_cases valid : call.Valid
  · have registers := ledger.table.registers call.name call.strings (call.targetRec ledger.table)
    rw [← Call.apply_of_valid valid] at registers
    rw [KeptOnFailure]
    generalize call.apply ledger.table = outcome at registers
    cases registers with
    | full tooLong =>
      have kept : ¬Overfills ledger call := fun overfills =>
        Nat.not_lt.mpr overfills.2.1 tooLong
      simp [kept]
    | replaced fits found =>
      have kept : ¬Overfills ledger call := by
        rintro ⟨-, -, unregistered, -⟩
        rw [copied, map_eq_none_iff] at unregistered
        cases (EngineState.retarget_eq_none.mpr unregistered).symm.trans found
      simp [kept]
    | crowded fits missing crowded =>
      have unregistered : ledger.registry call.name = none := by
        rw [copied]
        exact map_eq_none_iff.mpr missing
      have overfills : Overfills ledger call := ⟨valid, fits, unregistered, crowded⟩
      have changed : ledger.table.copyStrings call.strings ≠ ledger.table := by
        intro same
        have used := congrArg EngineState.strUsed same
        have length := length_pos_iff.mpr (Call.strings_ne_nil valid)
        simp only [EngineState.copyStrings] at used
        omega
      simp [overfills, changed]
    | added fits missing room =>
      have kept : ¬Overfills ledger call := fun overfills =>
        Nat.not_lt.mpr overfills.2.2.2 room
      simp [kept]
  · rcases Call.apply_of_not_valid ledger.table valid with ⟨err, failed⟩
    have kept : ¬Overfills ledger call := fun overfills => valid overfills.1
    simp [KeptOnFailure, failed, kept]

end Represents

theorem splitOn_slash (path : Bytes) :
    ∃ rest, path.splitOn slash = path.takeWhile (· ≠ slash) :: rest ∧
      (path.dropWhile (· ≠ slash)).drop 1 = [slash].intercalate rest := by
  by_cases member : slash ∈ path
  · rcases eq_append_cons_of_mem member with ⟨first, below, rfl, apart⟩
    have passed : ∀ byte ∈ first, (byte ≠ slash : Bool) = true := by
      intro byte inFirst
      rw [decide_eq_true_eq]
      rintro rfl
      exact apart inFirst
    refine ⟨below.splitOn slash, ?_, ?_⟩
    · rw [splitOn_append_cons_self_of_not_mem apart, takeWhile_append_of_pos passed]
      simp
    · rw [dropWhile_append_of_pos passed, intercalate_splitOn]
      simp
  · have passed : ∀ byte ∈ path, (byte ≠ slash : Bool) = true := by
      intro byte inPath
      rw [decide_eq_true_eq]
      rintro rfl
      exact member inPath
    refine ⟨[], ?_, ?_⟩
    · rw [splitOn_eq_singleton member, takeWhile_eq_self_iff.mpr passed]
    · rw [dropWhile_eq_nil_iff.mpr passed]
      rfl

variable {path : Bytes}

theorem pathValid_components (valid : pathValid path) :
    ∀ comp ∈ path.splitOn slash, badComponent comp = false := by
  simp only [pathValid, decide_eq_true_eq] at valid
  simpa using valid.2.2.2

/-- An accepted path has a mount, whose record is the first of that name. -/
theorem lookup_eq_ok {state : EngineState δ} {result : LookupResult δ}
    (accepted : state.lookup path = .ok result) :
    pathValid path ∧ ∃ first rest rec, path.splitOn slash = first :: rest ∧
      state.mounts.find? (state.hasName first) = some rec ∧
      result = ⟨state.mountAt rec, [slash].intercalate rest⟩ := by
  rw [EngineState.lookup] at accepted
  by_cases valid : pathValid path
  · rw [if_neg (not_not.mpr valid)] at accepted
    rcases splitOn_slash path with ⟨rest, split, below⟩
    rw [below] at accepted
    cases found : state.mounts.find? (state.hasName (path.takeWhile (· ≠ slash))) with
    | none =>
      simp only [found] at accepted
      cases accepted
    | some rec =>
      simp only [found] at accepted
      cases accepted
      exact ⟨valid, _, rest, rec, split, found, rfl⟩
  · rw [if_pos valid] at accepted
    cases accepted

theorem lookup_of_find? {state : EngineState δ} {first : Bytes} {rest : List Bytes}
    {rec : MountRec δ} (valid : pathValid path) (split : path.splitOn slash = first :: rest)
    (found : state.mounts.find? (state.hasName first) = some rec) :
    state.lookup path = .ok ⟨state.mountAt rec, [slash].intercalate rest⟩ := by
  rcases splitOn_slash path with ⟨rest', split', below⟩
  have equal := split.symm.trans split'
  rcases List.cons.inj equal with ⟨rfl, rfl⟩
  rw [EngineState.lookup, if_neg (not_not.mpr valid), below]
  simp only [found]

/-- The parts of the components of a valid path lead down, unless a backslash makes them. -/
theorem descends_of_not_escapes {os : TargetOs} {registry : Registry δ} {first : Bytes}
    {rest : List Bytes} (valid : pathValid path) (split : path.splitOn slash = first :: rest)
    (registered : registry first ≠ none) (confined : ¬Escapes os registry path) :
    os.Descends rest := by
  intro comp inRest part inParts
  cases os with
  | posix =>
    have whole : part = comp := mem_singleton.mp inParts
    rw [whole]
    apply pathValid_components valid
    rw [split]
    exact mem_cons_of_mem first inRest
  | windows =>
    by_contra bad
    rw [not_eq_false] at bad
    exact confined ⟨rfl, valid, first, rest, split, registered, comp, inRest, part, inParts, bad⟩

/-- What `resolve` puts together is the target's path with the components below it. -/
theorem resolve_eq_ok {state : EngineState δ} {bufLen : ℕ} {result : Bytes}
    (accepted : state.resolve path bufLen = .ok result) :
    ∃ looked, state.lookup path = .ok looked ∧ looked.mount.kind = .realPath ∧
      result = if looked.rest = [] then looked.mount.real
        else looked.mount.real ++ slash :: looked.rest := by
  rw [EngineState.resolve] at accepted
  rcases lookup : state.lookup path with err | looked
  · simp only [lookup] at accepted
    cases accepted
  · simp only [lookup] at accepted
    by_cases kind : looked.mount.kind = .realPath
    · rw [if_neg (not_not.mpr kind)] at accepted
      refine ⟨looked, rfl, kind, ?_⟩
      by_cases tooLong : bufLen < looked.mount.real.length +
          if looked.rest ≠ [] then looked.rest.length + 1 else 0
      · rw [if_pos tooLong] at accepted
        cases accepted
      · rw [if_neg tooLong] at accepted
        by_cases whole : looked.rest = []
        · rw [if_pos whole] at accepted ⊢
          exact (Except.ok.inj accepted).symm
        · rw [if_neg whole] at accepted ⊢
          exact (Except.ok.inj accepted).symm
    · rw [if_pos kind] at accepted
      cases accepted

section Promise

variable [Inhabited δ] {ledger : Ledger δ}

omit [Inhabited δ] in
theorem Represents.confines_iff (represents : Represents ledger) (os : TargetOs) (path : Bytes) :
    Confines os ledger path ↔ ¬Escapes os ledger.registry path := by
  constructor
  · rintro confines ⟨rfl, valid, first, rest, split, registered, comp, inRest, part, inParts, bad⟩
    rw [represents.registry_eq first, ne_eq, map_eq_none_iff] at registered
    rcases ne_none_iff_exists'.mp registered with ⟨rec, found⟩
    rcases confines.lookup _ (lookup_of_find? valid split found) with
      ⟨first', rest', split', -, -, -, descends⟩
    rcases List.cons.inj (split.symm.trans split') with ⟨-, rfl⟩
    exact false_ne_true ((descends comp inRest part inParts).symm.trans bad)
  · intro confined
    have named : ∀ {first rec}, ledger.table.mounts.find? (ledger.table.hasName first) = some rec →
        ledger.registry first = some (ledger.table.mountAt rec).target := by
      intro first rec found
      rw [represents.registry_eq first, found, map_some]
    constructor
    · intro result accepted
      rcases lookup_eq_ok accepted with ⟨valid, first, rest, rec, split, found, rfl⟩
      have hasName : ledger.table.hasName first rec = true := List.find?_some found
      refine ⟨first, rest, split, eq_of_beq hasName, named found, rfl, ?_⟩
      exact descends_of_not_escapes valid split (by simp [named found]) confined
    · intro bufLen result accepted
      rcases resolve_eq_ok accepted with ⟨looked, lookup, kind, rfl⟩
      rcases lookup_eq_ok lookup with ⟨valid, first, rest, rec, split, found, rfl⟩
      have directory : (ledger.table.mountAt rec).target =
          .directory (ledger.table.mountAt rec).real := by
        rw [Mount.target, kind]
      refine ⟨first, rest, (ledger.table.mountAt rec).real, split, ?_, ?_, ?_⟩
      · rw [named found, directory]
      · cases rest with
        | nil => simp
        | cons comp rest =>
          have present : comp ≠ [] := by
            have good := pathValid_components valid comp (by simp [split])
            rintro rfl
            cases good
          have nonempty : [slash].intercalate (comp :: rest) ≠ [] := by
            cases rest with
            | nil => simpa using present
            | cons next rest => simp [present]
          simp only [if_neg nonempty]
          rfl
      · exact descends_of_not_escapes valid split (by simp [named found]) confined

/-- A history of the mount table keeps the sandbox for a path exactly when no call of it is a
mount too many, and the path has no component in which backslashes matter. -/
theorem sandboxed_iff (os : TargetOs) (buf : ℕ → UInt8) (calls : List (Call δ)) (path : Bytes) :
    Sandboxed os buf calls path ↔
      Along Ledger.apply (fun ledger call => ¬Overfills ledger call) (Ledger.start buf) calls ∧
        ¬Escapes os (calls.foldl Ledger.apply (Ledger.start buf)).registry path := by
  have kept : ∀ (ledger : Ledger δ) (call : Call δ), Represents ledger →
      Represents (ledger.apply call) := fun _ call represents => represents.apply call
  have last : Represents (calls.foldl Ledger.apply (Ledger.start buf)) :=
    invariant_foldl (Represents.start buf) kept
  rw [Sandboxed, last.confines_iff os path,
    along_congr (Represents.start buf) kept fun _ call represents =>
      represents.keptOnFailure_iff call]

end Promise

/-- `data` -/
def dataName : Bytes :=
  [100, 97, 116, 97]

/-- `data/..\..\etc` -/
def backslashPath : Bytes :=
  dataName ++ [47, 46, 46, 92, 46, 46, 92, 101, 116, 99]

/-- Drivers under the names `a`, `b`, `c` and so on. -/
def drivers (count : ℕ) : List (Call Unit) :=
  (List.range count).map fun i => .driver [97 + UInt8.ofNat i] () none

/-- On Windows a path climbs out of its mount; and the seventeenth name uses up a byte of the
buffer although its call fails. -/
theorem not_sandboxed :
    ¬Sandboxed (δ := Unit) .windows (fun _ => 0) [.directory dataName [100]] backslashPath ∧
      ¬Sandboxed .posix (fun _ => 0) (drivers 16 ++ [.driver [122] () none]) dataName := by
  constructor
  · rintro ⟨-, confines⟩
    have accepted := confines.lookup ⟨⟨dataName, .realPath, [100], (), none⟩, _⟩ rfl
    rcases accepted with ⟨first, rest, split, -, -, -, descends⟩
    rcases List.cons.inj split with ⟨-, rfl⟩
    have climbs := descends _ (mem_cons_self ..) dotDot (by decide)
    cases climbs
  · rintro ⟨along, -⟩
    have kept := (along_append.mp along).2.1 .tooManyMounts (by decide)
    have used := congrArg EngineState.strUsed kept
    revert used
    decide

end Gengo.Mounts
