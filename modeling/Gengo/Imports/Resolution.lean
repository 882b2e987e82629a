import Gengo.Imports.Normal

/-!
# The import sandbox

An import is resolved to a file by probing its name, the name with `.gengo` and the name with
`/mod.gengo`. A relative import is compared with the roots once, before the first probe. A
package-style name is compared before a probe only if its normal form escapes; otherwise the
comparison follows the probe.
-/

namespace Gengo.Imports

open Bytecode (Bytes)
open Host (slash gengoSuffix Compiling Answers SourceError)
open Mounts (dot dotDot)
open Paths (Component Path walk)

/-- `MaxModuleRoots`. -/
def maxModuleRoots : ℕ :=
  8

/-- `MaxModules`. -/
def maxModules : ℕ :=
  64

/-- `/mod.gengo`. -/
def modSuffix : Bytes :=
  slash :: [109, 111, 100] ++ gengoSuffix

/-- `StdModulePath`. -/
def stdModulePath : Bytes :=
  [115, 116, 100]

/-- `cap:`. -/
def capPrefix : Bytes :=
  [99, 97, 112, 58]

/-- `host:`. -/
def hostPrefix : Bytes :=
  [104, 111, 115, 116, 58]

/-- `.gbc`. -/
def gbcSuffix : Bytes :=
  [46, 103, 98, 99]

inductive ModuleState
  | loading
  | compiled
  | failed
  deriving DecidableEq, Repr

structure ModuleRecord where
  path : Bytes
  linkModuleId : Bytes
  state : ModuleState

/-- A compile session, with the module roots as they are configured. -/
structure Session where
  sourceRoot : Bytes
  moduleRoots : List Bytes
  modules : List ModuleRecord
  rejectLinkedDeps : Bool

namespace Session

variable (session : Session)

/-- The buffer of the session has room for the first module roots. -/
def isAllowedImportPath (path : Bytes) : Bool :=
  session.sourceRoot = [] || pathIsUnderRoot path session.sourceRoot ||
    (session.moduleRoots.take maxModuleRoots).any fun root => pathIsUnderRoot path root

abbrev Resolving :=
  Compiling (Except ImportError Bytes)

/-- One name that is tried for a package-style import. -/
def tryPackage (mightEscape : Bool) (path normalized : Bytes) (next : Resolving) : Resolving :=
  if mightEscape && !session.isAllowedImportPath normalized then
    .done (.error .importOutsideRoot)
  else
    .probe path fun found =>
      if !found then next
      else if !session.isAllowedImportPath normalized then .done (.error .importOutsideRoot)
      else .done (.ok normalized)

end Session

/-- A package-style name with a suffix, and its normal form. -/
def appended (importName suffix : Bytes) : Except ImportError (Bytes × Bytes) :=
  match appendSuffix importName suffix with
  | .error err => .error err
  | .ok path =>
    match joinAndNormalize dot path with
    | .error err => .error err
    | .ok normalized => .ok (path, normalized)

/-- A `.` as the first byte of an import. -/
def startsWithDot (importName : Bytes) : Bool :=
  importName.head? == some 46

/-- Imports of the standard library, the host and the capabilities name no files. -/
def namesFile (importName : Bytes) : Bool :=
  !(importName == stdModulePath ||
    (hostPrefix.isPrefixOf importName && hostPrefix.length < importName.length) ||
    (capPrefix.isPrefixOf importName && capPrefix.length < importName.length))

/-- `might_escape`. -/
def mightEscape (normalized : Bytes) : Bool :=
  isAbsolute normalized || (dotDot ++ [slash]).isPrefixOf normalized

namespace Session

variable (session : Session)

/-- `resolveImportPath` for a name that does not start with a dot. -/
def resolvePackage (importName : Bytes) : Resolving :=
  match joinAndNormalize dot importName with
  | .error err => .done (.error err)
  | .ok normalized =>
    session.tryPackage (mightEscape normalized) importName normalized <|
      match appended importName gengoSuffix with
      | .error err => .done (.error err)
      | .ok (withExt, normalizedExt) =>
        session.tryPackage (mightEscape normalized) withExt normalizedExt <|
          match appended importName modSuffix with
          | .error err => .done (.error err)
          | .ok (withMod, normalizedMod) =>
            session.tryPackage (mightEscape normalized) withMod normalizedMod <|
              .done (.error .unsupportedImportModule)

/-- `resolveImportPath` for a name that starts with a dot. -/
def resolveRelative (importerPath importName : Bytes) : Resolving :=
  match joinAndNormalize (dirname importerPath) importName with
  | .error err => .done (.error err)
  | .ok exact =>
    if !session.isAllowedImportPath exact then .done (.error .importOutsideRoot)
    else
      .probe exact fun found =>
        if found then .done (.ok exact)
        else
          match appendSuffix exact gengoSuffix with
          | .error err => .done (.error err)
          | .ok withExt =>
            .probe withExt fun found =>
              if found then .done (.ok withExt)
              else
                match appendSuffix exact modSuffix with
                | .error err => .done (.error err)
                | .ok withMod =>
                  .probe withMod fun found =>
                    if found then .done (.ok withMod)
                    else .done (.error .importNotFound)

def resolveImportPath (importerPath importName : Bytes) : Resolving :=
  if importName = stdModulePath then .done (.ok stdModulePath)
  else if importName = [] then .done (.error .importNotFound)
  else if !startsWithDot importName then session.resolvePackage importName
  else session.resolveRelative importerPath importName

def findModule (path : Bytes) : Option ModuleRecord :=
  session.modules.find? fun record =>
    record.path == path || (record.linkModuleId != [] && record.linkModuleId == path)

/-- `compileModuleFromPath`, up to the source of the module. -/
def compileModuleFromPath (path : Bytes) : Resolving :=
  if gbcSuffix.isSuffixOf path && session.rejectLinkedDeps then
    .done (.error .chainedGbcLinkingNotSupported)
  else
    match session.findModule path with
    | some record =>
      if record.state = .compiled then .done (.ok path) else .done (.error .importCycle)
    | none =>
      if maxModules ≤ session.modules.length then .done (.error .moduleLimitExceeded)
      else if maxModulePathBytes < path.length then .done (.error .importPathTooLong)
      else
        .load path fun source =>
          match source with
          | .ok _ => .done (.ok path)
          | .error err => .done (.error (.source err))

def compileResolved : Except ImportError Bytes → Resolving
  | .ok path => session.compileModuleFromPath path
  | .error err => .done (.error err)

/-- What `compileDependencies` asks of the source provider for one import. -/
def importFile (importerPath importName : Bytes) : Resolving :=
  if !namesFile importName then .done (.ok importName)
  else (session.resolveImportPath importerPath importName).bind session.compileResolved

end Session

/-- A file that an import may name: the path that is probed, the normal form that is compared
with the roots, and the path that the import resolves to. -/
structure Candidate where
  probe : Bytes
  gated : Bytes
  resolved : Bytes

/-- The candidates with suffixes, until one of them is too long. -/
def suffixed (spell : Bytes → Except ImportError Candidate) : List Bytes → List Candidate
  | [] => []
  | suffix :: rest =>
    match spell suffix with
    | .error _ => []
    | .ok candidate => candidate :: suffixed spell rest

def spellPackage (importName suffix : Bytes) : Except ImportError Candidate :=
  (appended importName suffix).map fun spelled => ⟨spelled.1, spelled.2, spelled.2⟩

def spellRelative (exact suffix : Bytes) : Except ImportError Candidate :=
  (appendSuffix exact suffix).map fun path => ⟨path, exact, path⟩

def packageCandidates (importName : Bytes) : List Candidate :=
  match joinAndNormalize dot importName with
  | .error _ => []
  | .ok normalized =>
    ⟨importName, normalized, normalized⟩ ::
      suffixed (spellPackage importName) [gengoSuffix, modSuffix]

def relativeCandidates (importerPath importName : Bytes) : List Candidate :=
  match joinAndNormalize (dirname importerPath) importName with
  | .error _ => []
  | .ok exact =>
    ⟨exact, exact, exact⟩ :: suffixed (spellRelative exact) [gengoSuffix, modSuffix]

/-- The files that an import may name, in the order in which they are tried. -/
def candidates (importerPath importName : Bytes) : List Candidate :=
  if !namesFile importName || importName = [] then []
  else if !startsWithDot importName then packageCandidates importName
  else relativeCandidates importerPath importName

/-- Whether the comparison with the roots comes before the probe. -/
def guarded (importName : Bytes) : Bool :=
  startsWithDot importName ||
    match joinAndNormalize dot importName with
    | .error _ => true
    | .ok normalized => mightEscape normalized

namespace Session

variable (session : Session)

/-- The path lies inside one of the directories that the session names. -/
def Allowed (path : Bytes) : Prop :=
  ∃ root ∈ session.sourceRoot :: session.moduleRoots, (lexical path).Inside (lexical root)

/-- The import sandbox: nothing outside is asked for, and nothing inside is refused. -/
structure Sandboxed (importerPath importName : Bytes) (answers : Answers) : Prop where
  confined : ∀ step ∈ ((session.importFile importerPath importName).run answers).1,
    session.Allowed step.path
  accepted : ((session.importFile importerPath importName).run answers).2 =
      .error .importOutsideRoot →
    ∀ candidate ∈ candidates importerPath importName,
      answers.sourceExists candidate.probe = true → ¬session.Allowed candidate.probe

/-- The comparison with the roots refuses no candidate that may be inside, and only before it
is probed; what it passes is inside. -/
def DecidedRightly (guarded : Bool) : List Candidate → Prop
  | [] => True
  | candidate :: rest =>
    if guarded && !session.isAllowedImportPath candidate.gated then
      ∀ refused ∈ candidate :: rest, ¬session.Allowed refused.probe
    else
      session.Allowed candidate.probe ∧ session.isAllowedImportPath candidate.gated = true ∧
        DecidedRightly guarded rest

/-- The resolution of an import, over its candidates. -/
def tryAll (guarded : Bool) (last : ImportError) : List Candidate → Resolving
  | [] => .done (.error last)
  | candidate :: rest =>
    if guarded && !session.isAllowedImportPath candidate.gated then
      .done (.error .importOutsideRoot)
    else
      .probe candidate.probe fun found =>
        if !found then tryAll guarded last rest
        else if !session.isAllowedImportPath candidate.gated then
          .done (.error .importOutsideRoot)
        else .done (.ok candidate.resolved)

end Session

end Gengo.Imports
