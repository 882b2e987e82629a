import Gengo.Host.Sources
import Mathlib.Data.List.GetD

/-!
# The mount table of `cap:fs`

The host registers named mounts, each backed by a directory or by a driver of the host's own.
The strings of a mount are offsets into one buffer of the table, which only grows: a mount
that is registered again takes new room in it. A script's path starts with the name of a
mount.
-/

namespace Gengo.Mounts

open List
open Bytecode (Bytes)
open Host (slash)

/-- `MaxMounts`. -/
def maxMounts : ℕ :=
  16

/-- `StrBufSize`. -/
def strBufSize : ℕ :=
  4096

inductive MountKind
  | realPath
  | driver
  deriving DecidableEq, Repr

/-- What a mount leads to: the fields of a `MountRec` that registering it again replaces. -/
structure TargetRec (δ : Type*) where
  kind : MountKind
  realOff : ℕ
  realLen : ℕ
  driver : δ
  userdata : Option ℕ

structure MountRec (δ : Type*) extends TargetRec δ where
  nameOff : ℕ
  nameLen : ℕ

/-- The public description of a mount, with its strings. -/
structure Mount (δ : Type*) where
  name : Bytes
  kind : MountKind
  real : Bytes
  driver : δ
  userdata : Option ℕ

structure EngineState (δ : Type*) where
  mounts : List (MountRec δ)
  strBuf : ℕ → UInt8
  strUsed : ℕ

inductive MountError
  | tooManyMounts
  | invalidMountName
  | invalidMountPath
  | outOfMountSpace
  deriving DecidableEq, Repr

/-- The bytes of a buffer from an offset on. -/
def bytesAt (buf : ℕ → UInt8) (offset len : ℕ) : Bytes :=
  (List.range len).map fun i => buf (offset + i)

/-- `@memcpy`. -/
def copyInto (buf : ℕ → UInt8) (offset : ℕ) (bytes : Bytes) : ℕ → UInt8 :=
  fun pos => if offset ≤ pos then bytes.getD (pos - offset) (buf pos) else buf pos

theorem bytesAt_copyInto_of_le {buf : ℕ → UInt8} {offset len start : ℕ} {bytes : Bytes}
    (before : offset + len ≤ start) :
    bytesAt (copyInto buf start bytes) offset len = bytesAt buf offset len := by
  apply map_congr_left
  intro i inside
  have apart : ¬start ≤ offset + i := by
    have := mem_range.mp inside
    omega
  simp [copyInto, apart]

theorem bytesAt_copyInto_append (buf : ℕ → UInt8) (start : ℕ) (first bytes last : Bytes) :
    bytesAt (copyInto buf start (first ++ bytes ++ last)) (start + first.length) bytes.length =
      bytes := by
  apply ext_getElem
  · simp [bytesAt]
  · intro i _ inside
    have place : start ≤ start + first.length + i := by omega
    have index : start + first.length + i - start = first.length + i := by omega
    have bound : first.length + i < (first ++ bytes ++ last).length := by simp; omega
    simp only [bytesAt, getElem_map, getElem_range, copyInto, if_pos place, index]
    rw [getD_eq_getElem _ _ bound]
    simp [inside]

variable {δ : Type*}

namespace EngineState

variable (state : EngineState δ)

/-- A table as it is initialized; the buffer is undefined. -/
def empty (buf : ℕ → UInt8) : EngineState δ :=
  ⟨[], buf, 0⟩

def nameOf (rec : MountRec δ) : Bytes :=
  bytesAt state.strBuf rec.nameOff rec.nameLen

/-- The comparison that the loops over the mounts make. -/
def hasName (name : Bytes) (rec : MountRec δ) : Bool :=
  state.nameOf rec == name

def mountAt (rec : MountRec δ) : Mount δ where
  name := state.nameOf rec
  kind := rec.kind
  real := bytesAt state.strBuf rec.realOff rec.realLen
  driver := rec.driver
  userdata := rec.userdata

/-- Copy the strings of a mount to the end of the used part of the buffer. -/
def copyStrings (strings : Bytes) : EngineState δ :=
  { state with
    strBuf := copyInto state.strBuf state.strUsed strings
    strUsed := state.strUsed + strings.length }

def withMounts (mounts : List (MountRec δ)) : EngineState δ :=
  { state with mounts := mounts }

/-- The loop over the mounts: the first that has the name gets the target. -/
def retarget (hasName : MountRec δ → Bool) (target : TargetRec δ) :
    List (MountRec δ) → Option (List (MountRec δ))
  | [] => none
  | rec :: rest =>
    if hasName rec then some ({ rec with toTargetRec := target } :: rest)
    else (retarget hasName target rest).map (rec :: ·)

/-- What both add functions do once the name and the target are valid: the strings are
copied, and the mount of this name, or a new one, gets the target. -/
def register (name strings : Bytes) (target : TargetRec δ) :
    Except MountError Unit × EngineState δ :=
  if strBufSize < state.strUsed + strings.length then (.error .outOfMountSpace, state)
  else
    let copied := state.copyStrings strings
    match retarget (copied.hasName name) target copied.mounts with
    | some mounts => (.ok (), copied.withMounts mounts)
    | none =>
      -- By now the strings have taken their room.
      if maxMounts ≤ copied.mounts.length then (.error .tooManyMounts, copied)
      else
        (.ok (), copied.withMounts (copied.mounts ++ [⟨target, state.strUsed, name.length⟩]))

/-- A name that a mount can have. -/
def nameValid (name : Bytes) : Bool :=
  name ≠ [] ∧ slash ∉ name

/-- The target without its trailing slashes; a bare slash is kept. -/
def stripSlashes (real : Bytes) : Bytes :=
  match (real.reverse.dropWhile (· = slash)).reverse with
  | [] => real.take 1
  | stripped => stripped

variable [Inhabited δ]

/-- The default of a driver is the one without callbacks. -/
def addMountToState (name real : Bytes) : Except MountError Unit × EngineState δ :=
  if ¬nameValid name then (.error .invalidMountName, state)
  else if real = [] then (.error .invalidMountPath, state)
  else
    let r := stripSlashes real
    state.register name (name ++ r) ⟨.realPath, state.strUsed + name.length, r.length,
      default, none⟩

omit [Inhabited δ] in
def addDriverMountToState (name : Bytes) (driver : δ) (userdata : Option ℕ) :
    Except MountError Unit × EngineState δ :=
  if ¬nameValid name then (.error .invalidMountName, state)
  else state.register name name ⟨.driver, 0, 0, driver, userdata⟩

end EngineState

inductive LookupError
  | pathNotMounted
  | invalidPath
  | pathTooLong
  deriving DecidableEq, Repr

structure LookupResult (δ : Type*) where
  mount : Mount δ
  rest : Bytes

/-- `.` -/
def dot : Bytes :=
  [46]

/-- `..` -/
def dotDot : Bytes :=
  [46, 46]

/-- A component that leads nowhere or out of its directory. -/
def badComponent (comp : Bytes) : Bool :=
  comp = [] ∨ comp = dot ∨ comp = dotDot

/-- The checks of `lookup` on a path. -/
def pathValid (path : Bytes) : Bool :=
  path ≠ [] ∧ path.head? ≠ some slash ∧ 0 ∉ path ∧ (path.splitOn slash).all fun comp =>
    ¬badComponent comp

namespace EngineState

variable (state : EngineState δ)

def lookup (path : Bytes) : Except LookupError (LookupResult δ) :=
  if ¬pathValid path then .error .invalidPath
  else
    let head := path.takeWhile (· ≠ slash)
    let rest := (path.dropWhile (· ≠ slash)).drop 1
    match state.mounts.find? (state.hasName head) with
    | some rec => .ok ⟨state.mountAt rec, rest⟩
    | none => .error .pathNotMounted

/-- `resolve`, with the length of the buffer for the result. -/
def resolve (path : Bytes) (bufLen : ℕ) : Except LookupError Bytes :=
  match state.lookup path with
  | .error err => .error err
  | .ok ⟨mount, rest⟩ =>
    if mount.kind ≠ .realPath then .error .pathNotMounted
    else if bufLen < mount.real.length + (if rest ≠ [] then rest.length + 1 else 0) then
      .error .pathTooLong
    else if rest = [] then .ok mount.real
    else .ok (mount.real ++ slash :: rest)

end EngineState

end Gengo.Mounts
