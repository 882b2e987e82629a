import Gengo.Mounts.State
import Gengo.Paths.Lexical

/-!
# The paths of imports

The path of an import is joined to the directory of its importer and normalized: segments are
written one after the other, and a `..` takes back the last one that is not a `..` itself. The
sandbox compares the text that results with the text of its roots.
-/

namespace Gengo.Imports

open List
open Bytecode (Bytes)
open Host (slash)
open Mounts (dot dotDot)
open Paths (Component Path walk)

/-- `MaxModulePathBytes`. -/
def maxModulePathBytes : ℕ :=
  256

inductive ImportError
  | importPathTooLong
  | importNotFound
  | importOutsideRoot
  | unsupportedImportModule
  | chainedGbcLinkingNotSupported
  | importCycle
  | moduleLimitExceeded
  | source (err : Host.SourceError)
  deriving DecidableEq, Repr

/-- Whether the first byte is a slash. -/
def isAbsolute (path : Bytes) : Bool :=
  path.head? == some slash

def dirname (path : Bytes) : Bytes :=
  match path.reverse.dropWhile (· ≠ slash) with
  | [] => dot
  | _ :: dir => dir.reverse

def appendSuffix (base suffix : Bytes) : Except ImportError Bytes :=
  if maxModulePathBytes < base.length + suffix.length then .error .importPathTooLong
  else .ok (base ++ suffix)

/-- What has been written of a normalized path, and the start of each segment in it, from the
last segment back, with whether the segment is a `..` that nothing cancels. -/
structure Writing where
  buf : Bytes
  segs : List (ℕ × Bool)

namespace Writing

/-- The buffer is written behind the position where it is read. -/
def segment (absolute : Bool) (writing : Writing) (seg : Bytes) : Writing :=
  if seg = dot then writing
  else if seg = dotDot then
    match writing.segs with
    | (start, false) :: segs => ⟨writing.buf.take start, segs⟩
    | segs =>
      if absolute then writing
      else
        let base := if writing.buf ≠ [] then writing.buf ++ [slash] else writing.buf
        ⟨base ++ dotDot, (base.length, true) :: segs⟩
  else
    let base :=
      if writing.buf ≠ [] ∧ writing.buf.getLast? ≠ some slash then writing.buf ++ [slash]
      else writing.buf
    ⟨base ++ seg, (base.length, false) :: writing.segs⟩

def begin (absolute : Bool) : Writing :=
  ⟨if absolute then [slash] else [], []⟩

end Writing

/-- The segments between slashes. -/
def segments (path : Bytes) : List Bytes :=
  (path.splitOn slash).filter (· ≠ [])

def normalizePathInPlace (path : Bytes) : Bytes :=
  let writing :=
    (segments path).foldl (Writing.segment (isAbsolute path)) (.begin (isAbsolute path))
  if writing.buf = [] then dot else writing.buf

def joinAndNormalize (baseDir importName : Bytes) : Except ImportError Bytes :=
  if isAbsolute importName then
    if maxModulePathBytes < importName.length then .error .importPathTooLong
    else .ok (normalizePathInPlace importName)
  else if maxModulePathBytes < baseDir.length + 1 + importName.length then
    .error .importPathTooLong
  else if baseDir = dot then .ok (normalizePathInPlace importName)
  else .ok (normalizePathInPlace (baseDir ++ slash :: importName))

def pathIsUnderRoot (path root : Bytes) : Bool :=
  if root = [] then true
  else if root = dot then
    ¬(path = [] ∨ isAbsolute path ∨ path = dotDot ∨ (dotDot ++ [slash]).isPrefixOf path)
  else
    let r := if (dot ++ [slash]).isPrefixOf root then root.drop 2 else root
    if r = [] then true
    else if ¬r.isPrefixOf path then false
    else if path.length = r.length then true
    else path[r.length]? = some slash

/-- The lexical meaning of a segment. -/
def component (seg : Bytes) : Component Bytes :=
  if seg = [] ∨ seg = dot then .here else if seg = dotDot then .up else .name seg

/-- The lexical meaning of a path. -/
def lexical (path : Bytes) : Path Bytes where
  absolute := isAbsolute path
  route := (path.splitOn slash).map component

/-- The segments that lead somewhere. -/
def significant (path : Bytes) : List Bytes :=
  (path.splitOn slash).filter fun seg => ¬(seg = [] ∨ seg = dot)

variable {path : Bytes}

theorem walk_significant (dir : List Bytes) (segs : List Bytes) :
    walk dir ((segs.filter fun seg => ¬(seg = [] ∨ seg = dot)).map component) =
      walk dir (segs.map component) := by
  induction segs generalizing dir with
  | nil => rfl
  | cons seg segs ih =>
    by_cases idle : seg = [] ∨ seg = dot
    · rw [filter_cons_of_neg (by simp [idle]), ih]
      simp [component, idle, Component.enter]
    · rw [filter_cons_of_pos (by simp [idle])]
      simp only [map_cons, Paths.walk_cons, ih]

theorem lexical_locate (path : Bytes) (cwd : List Bytes) :
    (lexical path).locate cwd =
      walk ((lexical path).start cwd) ((significant path).map component) :=
  (walk_significant _ _).symm

/-- A segment that names a directory or a file. -/
def IsName (seg : Bytes) : Prop :=
  seg ≠ [] ∧ seg ≠ dot ∧ seg ≠ dotDot ∧ slash ∉ seg

theorem IsName.component {seg : Bytes} (named : IsName seg) : component seg = .name seg := by
  simp [Imports.component, named.1, named.2.1, named.2.2.1]

theorem slash_notMem_dotDot : slash ∉ dotDot := by
  decide

theorem slash_notMem_of_mem_splitOn {seg : Bytes} (mem : seg ∈ path.splitOn slash) :
    slash ∉ seg := by
  induction path generalizing seg with
  | nil => simp_all
  | cons byte rest ih =>
    rw [splitOn_cons_eq_if_modifyHead] at mem
    cases split : rest.splitOn slash with
    | nil => exact absurd split (splitOn_ne_nil _ _)
    | cons first others =>
      rw [split] at mem ih
      by_cases separator : (byte == slash) = true
      · rw [if_pos separator] at mem
        rcases mem_cons.mp mem with rfl | later
        · exact not_mem_nil
        · exact ih later
      · rw [if_neg separator] at mem
        rcases mem_cons.mp mem with rfl | later
        · intro inside
          rcases mem_cons.mp inside with same | inside
          · exact separator (by simp [same])
          · exact ih mem_cons_self inside
        · exact ih (mem_cons_of_mem _ later)

end Gengo.Imports
