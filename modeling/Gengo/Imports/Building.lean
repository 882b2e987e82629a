import Gengo.Fallible.Sequencing
import Gengo.Imports.Resolution
import Gengo.Orders.DependenciesFirst

/-!
# Building the modules of a script

`compileRoot` and what it calls. The imports that a scan of a module's tokens meets are compiled
first, each by the same steps; then the module itself, and each import that the compiler meets
is resolved again. A precompiled artifact is linked as it is. What is looked up in the session
by a path, and what is compiled, is kept as a list of events.
-/

namespace Gengo.Imports

open Bytecode (Bytes)
open Fallible (Program)
open Host (Answers)

/-- `MaxImportsPerModule`. -/
def maxImportsPerModule : ℕ :=
  64

/-- `MaxModuleExports`. -/
def maxModuleExports : ℕ :=
  256

/-- `@mod:`. -/
def modPrefix : Bytes :=
  [64, 109, 111, 100, 58]

/-- `StdModuleGlobalName`, which is `module:std`. -/
def stdModuleGlobalName : Bytes :=
  [109, 111, 100, 117, 108, 101, 58, 115, 116, 100]

/-- The tokens that a scan for imports tells apart. -/
inductive Token
  | errInvalidChar
  | errUnterminatedString
  | errStringPoolExhausted
  | kwImport
  | lparen
  | string (src : Bytes)
  | rparen
  | other
  deriving DecidableEq, Repr

inductive ScanError
  | invalidChar
  | unterminatedString
  deriving DecidableEq, Repr

/-- The errors of a compilation; `ε` are the compiler's own. -/
inductive CompileError (ε : Type)
  | importing (err : ImportError)
  | scanning (err : ScanError)
  | capabilityNotEnabled
  | tooManyGlobals
  | other (err : ε)
  deriving DecidableEq, Repr

/-- A record of the session, with what an importer learns of the module. -/
structure Module (ξ : Type) extends ModuleRecord where
  globalName : Bytes
  exports : Option ξ

namespace Module

variable {ξ : Type}

/-- A module that has just begun. -/
def begin (path : Bytes) (isRoot : Bool) : Module ξ where
  path
  linkModuleId := []
  state := .loading
  globalName := if isRoot then [] else modPrefix ++ path
  exports := none

def fail (record : Module ξ) : Module ξ :=
  { record with toModuleRecord := { record.toModuleRecord with state := .failed } }

/-- A module whose compiler has succeeded. -/
def finish (exports : ξ) (record : Module ξ) : Module ξ :=
  { record with
    toModuleRecord := { record.toModuleRecord with state := .compiled }
    exports := some exports }

/-- An artifact brings its module id along. -/
def link (moduleId : Bytes) (exports : ξ) (record : Module ξ) : Module ξ :=
  { record with
    toModuleRecord := { record.toModuleRecord with linkModuleId := moduleId, state := .compiled }
    globalName := modPrefix ++ moduleId
    exports := some exports }

end Module

/-- A path answers to a record if it is the record's path or the id of its artifact. -/
def findModule {ξ : Type} (modules : List (Module ξ)) (path : Bytes) : Option (Module ξ) :=
  modules.find? fun record =>
    record.path == path || (record.linkModuleId != [] && record.linkModuleId == path)

/-- A step of a compilation that depends on how a module is identified. -/
inductive Event (ξ : Type)
  /-- A path is looked up among the records. -/
  | lookedUp (modules : List (Module ξ)) (path : Bytes)
  /-- A module is compiled, its dependencies being compiled. -/
  | begun (tokens : List Token)

/-- A compile session under way: the records, the globals that the module under way declares,
and the chunk, each piece of it with the path of its module. -/
structure Build (ν ξ : Type) where
  modules : List (Module ξ)
  knownGlobals : List Bytes
  chunk : List (Bytes × ν)
  events : List (Event ξ)

/-- What the compiler learns of an import. -/
structure Found (ξ : Type) where
  globalName : Bytes
  exports : Option ξ
  knownGlobals : List Bytes

/-- The compiler on a module, up to what it learns of the imports that it meets. It goes on
after an error, to collect others. -/
inductive Compilation (ν ξ ε : Type)
  | emit (piece : ν) (rest : Compilation ν ξ ε)
  | importing (name : Bytes) (next : Except (CompileError ε) (Found ξ) → Compilation ν ξ ε)
  | done (exports : ξ)
  | failed (err : CompileError ε)

namespace Compilation

variable {ν ξ ε : Type}

/-- What is emitted, and what comes of it, if the imports are answered. -/
def run (answer : Bytes → Except (CompileError ε) (Found ξ)) :
    Compilation ν ξ ε → List ν × Except (CompileError ε) ξ
  | emit piece rest => (piece :: (rest.run answer).1, (rest.run answer).2)
  | importing name next => (next (answer name)).run answer
  | done exports => ([], .ok exports)
  | failed err => ([], .error err)

/-- Every import that is met has one of the names. -/
def AsksOnly (names : Bytes → Prop) : Compilation ν ξ ε → Prop
  | emit _ rest => rest.AsksOnly names
  | importing name next => names name ∧ ∀ found, (next found).AsksOnly names
  | done _ | failed _ => True

end Compilation

/-- The tokens contain an import of the name. -/
def ImportedIn (tokens : List Token) (name : Bytes) : Prop :=
  [.kwImport, .lparen, .string name, .rparen] <:+: tokens

/-- What `gbc_reader.readIntoSession` splices into the chunk, and what it returns. -/
structure Artifact (ν ξ : Type) where
  code : List ν
  exports : ξ
  exportCount : ℕ
  moduleId : Bytes

/-- A configured session with its sources, the lexer, the compiler of a module and the reader
of artifacts. -/
structure Toolchain (ν ξ ε : Type) where
  session : Session
  answers : Answers
  isCapabilityEnabled : Bytes → Bool
  isHostModule : Bytes → Bool
  lex : Bytes → List Token
  scanGlobalDeclarations : (src modulePrefix : Bytes) → Except (CompileError ε) (List Bytes)
  compile : (emitHalt : Bool) → (path src : Bytes) → (knownGlobals : List Bytes) → Compilation ν ξ ε
  readIntoSession : Bytes → Except (CompileError ε) (Artifact ν ξ)
  /-- `importExpr` reads the four tokens of an import. -/
  compile_asksOnly : ∀ emitHalt path src knownGlobals,
    (compile emitHalt path src knownGlobals).AsksOnly (ImportedIn (lex src))

namespace Build

variable {ν ξ : Type} (build : Build ν ξ)

def record (event : Event ξ) : Build ν ξ :=
  { build with events := build.events ++ [event] }

/-- The module that is compiled now, by its tokens and what it declares. -/
def enter (tokens : List Token) (knownGlobals : List Bytes) : Build ν ξ :=
  { build.record (.begun tokens) with knownGlobals }

/-- A record is addressed by its path, which no other record has. -/
def change (path : Bytes) (update : Module ξ → Module ξ) : Build ν ξ :=
  { build with
    modules := build.modules.map fun record =>
      if record.path = path then update record else record }

def saveFailedModule (path : Bytes) : Build ν ξ :=
  build.change path Module.fail

def finish (path : Bytes) (exports : ξ) : Build ν ξ :=
  build.change path (Module.finish exports)

def link (path : Bytes) (artifact : Artifact ν ξ) : Build ν ξ :=
  build.change path (Module.link artifact.moduleId artifact.exports)

def begin (path : Bytes) (isRoot : Bool) : Build ν ξ :=
  { build with modules := build.modules ++ [.begin path isRoot] }

def splice (path : Bytes) (code : List ν) : Build ν ξ :=
  { build with chunk := build.chunk ++ code.map fun piece => (path, piece) }

/-- The compiler asks for the exports by the name that it has been given for the module. -/
def moduleGlobalName {ε : Type} (resolved : Bytes) : Except (CompileError ε) (Found ξ) :=
  match findModule build.modules resolved with
  | none => .error (.importing .importNotFound)
  | some record => .ok {
      globalName := record.globalName
      exports :=
        (findModule build.modules (record.globalName.drop modPrefix.length)).bind (·.exports)
      knownGlobals := build.knownGlobals }

/-- A module that is not a file. -/
def builtin (globalName : Bytes) : Found ξ where
  globalName
  exports := none
  knownGlobals := build.knownGlobals

end Build

/-- The names of the imports that the scan meets, up to a token that the lexer refuses. What an
`import` looks ahead at is consumed, whether it is an import or not. -/
def scanImports : List Token → List (Except ScanError Bytes)
  | [] => []
  | .errInvalidChar :: _ => [.error .invalidChar]
  | .errUnterminatedString :: _ => [.error .unterminatedString]
  | .errStringPoolExhausted :: _ => [.error .unterminatedString]
  | .kwImport :: .lparen :: .string name :: .rparen :: rest => .ok name :: scanImports rest
  | .kwImport :: .lparen :: .string _ :: _ :: rest => scanImports rest
  | .kwImport :: .lparen :: _ :: rest => scanImports rest
  | .kwImport :: _ :: rest => scanImports rest
  | _ :: rest => scanImports rest

/-- An import behind another `import` without a name is not met, as in `m.import import("x")`. -/
example : scanImports [.kwImport, .kwImport, .lparen, .string [120], .rparen] = [] :=
  rfl

namespace Toolchain

variable {ν ξ ε : Type} (toolchain : Toolchain ν ξ ε)

/-- The programs of a session. -/
abbrev Building (ν ξ ε α : Type) :=
  Program (Build ν ξ) (CompileError ε) α

def resolveImportPath (importerPath importName : Bytes) : Except (CompileError ε) Bytes :=
  ((toolchain.session.resolveImportPath importerPath importName).run toolchain.answers).2.mapError
    .importing

def loadSource (path : Bytes) : Except (CompileError ε) Bytes :=
  (toolchain.answers.loadSource path).mapError fun err => .importing (.source err)

/-- The paths of the imports that are met, without repetition. -/
def resolveImports (importerPath : Bytes) :
    List Bytes → List (Except ScanError Bytes) → Except (CompileError ε) (List Bytes)
  | imports, [] => .ok imports
  | _, .error err :: _ => .error (.scanning err)
  | imports, .ok name :: rest =>
    if !namesFile name then resolveImports importerPath imports rest
    else
      match toolchain.resolveImportPath importerPath name with
      | .error err => .error err
      | .ok resolved =>
        if resolved ∈ imports then resolveImports importerPath imports rest
        else if maxImportsPerModule ≤ imports.length then
          .error (.importing .moduleLimitExceeded)
        else resolveImports importerPath (imports ++ [resolved]) rest

def compileEach (compileModule : Bytes → Building ν ξ ε Unit) : List Bytes → Building ν ξ ε Unit
  | [] => pure ()
  | path :: rest => do
    compileModule path
    compileEach compileModule rest

def compileDependencies (compileModule : Bytes → Building ν ξ ε Unit)
    (importerPath src : Bytes) : Building ν ξ ε Unit := do
  let imports ←
    .ofExcept (toolchain.resolveImports importerPath [] (scanImports (toolchain.lex src)))
  compileEach compileModule imports

def beginModule (path : Bytes) (isRoot : Bool) : Building ν ξ ε Unit :=
  .reading fun build =>
    if maxModules ≤ build.modules.length then throw (.importing .moduleLimitExceeded)
    else if maxModulePathBytes < path.length then throw (.importing .importPathTooLong)
    else .update fun build => build.begin path isRoot

/-- Whether the module is to be compiled now. -/
def beginImportedModule (path : Bytes) : Building ν ξ ε Bool :=
  .reading fun build => do
    .update fun build => build.record (.lookedUp build.modules path)
    match findModule build.modules path with
    | some record =>
      if record.state = .compiled then pure false else throw (.importing .importCycle)
    | none =>
      beginModule path false
      pure true

def loadImportedModuleSource (path : Bytes) : Building ν ξ ε Bytes :=
  (Program.ofExcept (toolchain.loadSource path)).orElseUpdate fun build =>
    build.saveFailedModule path

/-- `linkGbcModule`, from the bytes of the artifact on. -/
def linkArtifact (path bytes : Bytes) : Building ν ξ ε Unit := do
  let artifact ← .ofExcept (toolchain.readIntoSession bytes)
  .update fun build => build.splice path artifact.code
  if maxModuleExports < artifact.exportCount then throw .tooManyGlobals
  else if maxModulePathBytes < artifact.moduleId.length then
    throw (.importing .importPathTooLong)
  else .update fun build => build.link path artifact

def linkGbcModule (path : Bytes) : Building ν ξ ε Unit := do
  let isNew ← beginImportedModule path
  if isNew then
    let bytes ← toolchain.loadImportedModuleSource path
    (toolchain.linkArtifact path bytes).orElseUpdate fun build => build.saveFailedModule path
  else pure ()

def resolveImportOpaque (compileModule : Bytes → Building ν ξ ε Unit)
    (importerPath importName : Bytes) : Building ν ξ ε (Found ξ) :=
  if capPrefix.isPrefixOf importName && capPrefix.length < importName.length then
    if toolchain.isCapabilityEnabled (importName.drop capPrefix.length) then
      .reading fun build => pure (build.builtin importName)
    else throw .capabilityNotEnabled
  else if hostPrefix.isPrefixOf importName && hostPrefix.length < importName.length then
    if toolchain.isHostModule (importName.drop hostPrefix.length) then
      .reading fun build => pure (build.builtin importName)
    else throw (.importing .importNotFound)
  else do
    let resolved ← .ofExcept (toolchain.resolveImportPath importerPath importName)
    if resolved = stdModulePath then
      .reading fun build => pure (build.builtin stdModuleGlobalName)
    else
      compileModule resolved
      .reading fun build => .ofExcept (build.moduleGlobalName resolved)

/-- The compiler on a module of the session. -/
def runCompilation (compileModule : Bytes → Building ν ξ ε Unit) (path : Bytes) :
    Compilation ν ξ ε → Building ν ξ ε ξ
  | .emit piece rest => do
    .update fun build => build.splice path [piece]
    runCompilation compileModule path rest
  | .importing name next => do
    let found ← (toolchain.resolveImportOpaque compileModule path name).attempt
    runCompilation compileModule path (next found)
  | .done exports => pure exports
  | .failed err => throw err

/-- The prefix of a module's global names; the root has none. -/
def modulePrefix (path : Bytes) (isRoot : Bool) : Bytes :=
  if isRoot then [] else modPrefix ++ path

def compileBegunModule (compileModule : Bytes → Building ν ξ ε Unit) (path src : Bytes)
    (emitHalt : Bool) : Building ν ξ ε Unit := do
  let known ← .ofExcept (toolchain.scanGlobalDeclarations src (modulePrefix path emitHalt))
  .update fun build => build.enter (toolchain.lex src) known
  let exports ←
    toolchain.runCompilation compileModule path (toolchain.compile emitHalt path src known)
  .update fun build => build.finish path exports

def compileImportedModule (compileModule : Bytes → Building ν ξ ε Unit) (path src : Bytes) :
    Building ν ξ ε Unit :=
  Program.orElseUpdate
    (do
      toolchain.compileDependencies compileModule path src
      toolchain.compileBegunModule compileModule path src false)
    fun build => build.saveFailedModule path

/-- `compileModuleFromPath`, down to a depth. -/
def compileModuleFromPath : (depth : ℕ) → (path : Bytes) → Building ν ξ ε Unit
  | 0, _ => .exhausted
  | depth + 1, path =>
    if gbcSuffix.isSuffixOf path then
      if toolchain.session.rejectLinkedDeps then
        throw (.importing .chainedGbcLinkingNotSupported)
      else toolchain.linkGbcModule path
    else do
      let isNew ← beginImportedModule path
      if isNew then
        let src ← toolchain.loadImportedModuleSource path
        toolchain.compileImportedModule (compileModuleFromPath depth) path src
      else pure ()

def compileRoot (depth : ℕ) (rootPath src : Bytes) : Building ν ξ ε Unit := do
  .update fun build => { build with modules := [], events := [] }
  beginModule rootPath true
  Program.orElseUpdate
    (do
      toolchain.compileDependencies (toolchain.compileModuleFromPath depth) rootPath src
      toolchain.compileBegunModule (toolchain.compileModuleFromPath depth) rootPath src true)
    fun build => { build with modules := [] }

end Toolchain

/-!
# What a build should give

The modules that a root reaches through imports, whatever file each path denotes; how a module
fails by itself; and the chunk of a build that succeeds, with the code of each file once and
after that of the files it imports.
-/

open Orders (DependenciesFirst)
open Relation (ReflTransGen TransGen)

/-- Every import of a file in the tokens is met by the scan. -/
def ScansAll (tokens : List Token) : Prop :=
  ∀ name, ImportedIn tokens name → namesFile name = true → .ok name ∈ scanImports tokens

/-- A path that is looked up has a record of its own, or none answers to it and none is of the
file that it denotes. A module that is compiled has been scanned for all of its imports. -/
def Event.Sound {ξ φ : Type} (file : Bytes → φ) : Event ξ → Prop
  | .lookedUp modules path =>
    (∀ record, findModule modules path = some record → record.path = path) ∧
      (findModule modules path = none → ∀ record ∈ modules, file record.path ≠ file path)
  | .begun tokens => ScansAll tokens

/-- The names of the imports in the tokens. -/
def importNames : List Token → List Bytes
  | [] => []
  | token :: rest =>
    match token :: rest with
    | .kwImport :: .lparen :: .string name :: .rparen :: _ => name :: importNames rest
    | _ => importNames rest

theorem mem_importNames {tokens : List Token} {name : Bytes} :
    name ∈ importNames tokens ↔ ImportedIn tokens name := by
  induction tokens with
  | nil => simp [importNames, ImportedIn]
  | cons token rest ih =>
    rw [ImportedIn, List.infix_cons_iff, ← ImportedIn, ← ih, importNames]
    split
    · rename_i other later tokens_eq
      rw [tokens_eq, List.mem_cons]
      simp [List.prefix_cons_iff]
    · rename_i noImport
      refine ⟨.inr, fun either => either.resolve_left ?_⟩
      rintro ⟨later, tokens_eq⟩
      exact noImport name later tokens_eq.symm

instance (tokens : List Token) : Decidable (ScansAll tokens) :=
  decidable_of_iff (∀ name ∈ importNames tokens, namesFile name = true →
    .ok name ∈ scanImports tokens) (by simp only [mem_importNames, ScansAll])

instance {ξ φ : Type} [DecidableEq φ] (file : Bytes → φ) (event : Event ξ) :
    Decidable (event.Sound file) :=
  match event with
  | .begun tokens => inferInstanceAs (Decidable (ScansAll tokens))
  | .lookedUp modules path =>
    match found : findModule modules path with
    | some record => decidable_of_iff (record.path = path) (by simp [Event.Sound, found])
    | none => decidable_of_iff (∀ record ∈ modules, file record.path ≠ file path)
        (by simp [Event.Sound, found])

namespace Toolchain

variable {ν ξ ε φ : Type} (toolchain : Toolchain ν ξ ε) (root src : Bytes)

/-- The root's source is given; that of any other module is loaded. -/
def sourceOf (path : Bytes) : Except (CompileError ε) Bytes :=
  if path = root then .ok src else toolchain.loadSource path

/-- The root and the modules that are no artifacts. -/
def IsSource (path : Bytes) : Prop :=
  path = root ∨ gbcSuffix.isSuffixOf path = false

/-- The module at a path contains an import that resolves to another. -/
def Requires (path target : Bytes) : Prop :=
  ∃ source name, IsSource root path ∧ toolchain.sourceOf root src path = .ok source ∧
    ImportedIn (toolchain.lex source) name ∧ namesFile name = true ∧
      toolchain.resolveImportPath path name = .ok target

def Reaches (path : Bytes) : Prop :=
  ReflTransGen (toolchain.Requires root src) root path

/-- A file that is reached under some path imports another. -/
def FileRequires (file : Bytes → φ) (importer imported : φ) : Prop :=
  ∃ path target, toolchain.Reaches root src path ∧ toolchain.Requires root src path target ∧
    file path = importer ∧ file target = imported

/-- The imports of files in the tokens are answered. -/
def Answers (tokens : List Token) (answer : Bytes → Except (CompileError ε) (Found ξ)) : Prop :=
  ∀ name, ImportedIn tokens name → namesFile name = true → ∃ found, answer name = .ok found

/-- What a module contributes to the chunk. -/
inductive IsCode (path : Bytes) : List ν → Prop
  | compiled {source : Bytes} {known : List Bytes} {exports : ξ}
      {answer : Bytes → Except (CompileError ε) (Found ξ)} {code : List ν}
      (isSource : IsSource root path)
      (loaded : toolchain.sourceOf root src path = .ok source)
      (scanned : toolchain.scanGlobalDeclarations source
        (modulePrefix path (decide (path = root))) = .ok known)
      (answers : Answers (toolchain.lex source) answer)
      (ran : (toolchain.compile (decide (path = root)) path source known).run answer =
        (code, .ok exports)) : IsCode path code
  | linked {bytes : Bytes} {artifact : Artifact ν ξ}
      (isArtifact : ¬IsSource root path)
      (permitted : toolchain.session.rejectLinkedDeps = false)
      (loaded : toolchain.loadSource path = .ok bytes)
      (read : toolchain.readIntoSession bytes = .ok artifact) : IsCode path artifact.code

/-- How a module fails by itself. -/
inductive FailsWith (path : Bytes) : CompileError ε → Prop
  | pathTooLong (long : maxModulePathBytes < path.length) :
      FailsWith path (.importing .importPathTooLong)
  | load {err : CompileError ε} (loaded : toolchain.sourceOf root src path = .error err) :
      FailsWith path err
  | imports {source : Bytes} {err : CompileError ε} (isSource : IsSource root path)
      (loaded : toolchain.sourceOf root src path = .ok source)
      (resolved : toolchain.resolveImports path [] (scanImports (toolchain.lex source)) =
        .error err) : FailsWith path err
  | declarations {source : Bytes} {err : CompileError ε} (isSource : IsSource root path)
      (loaded : toolchain.sourceOf root src path = .ok source)
      (scanned : toolchain.scanGlobalDeclarations source
        (modulePrefix path (decide (path = root))) = .error err) : FailsWith path err
  | compile {source : Bytes} {known : List Bytes} {err : CompileError ε}
      {answer : Bytes → Except (CompileError ε) (Found ξ)} {code : List ν}
      (isSource : IsSource root path)
      (loaded : toolchain.sourceOf root src path = .ok source)
      (scanned : toolchain.scanGlobalDeclarations source
        (modulePrefix path (decide (path = root))) = .ok known)
      (answers : Answers (toolchain.lex source) answer)
      (ran : (toolchain.compile (decide (path = root)) path source known).run answer =
        (code, .error err)) : FailsWith path err
  | chained (isArtifact : gbcSuffix.isSuffixOf path = true)
      (rejects : toolchain.session.rejectLinkedDeps = true) :
      FailsWith path (.importing .chainedGbcLinkingNotSupported)
  | read {bytes : Bytes} {err : CompileError ε} (isArtifact : ¬IsSource root path)
      (loaded : toolchain.loadSource path = .ok bytes)
      (read : toolchain.readIntoSession bytes = .error err) : FailsWith path err
  | tooManyExports {bytes : Bytes} {artifact : Artifact ν ξ} (isArtifact : ¬IsSource root path)
      (loaded : toolchain.loadSource path = .ok bytes)
      (read : toolchain.readIntoSession bytes = .ok artifact)
      (many : maxModuleExports < artifact.exportCount) : FailsWith path .tooManyGlobals
  | idTooLong {bytes : Bytes} {artifact : Artifact ν ξ} (isArtifact : ¬IsSource root path)
      (loaded : toolchain.loadSource path = .ok bytes)
      (read : toolchain.readIntoSession bytes = .ok artifact)
      (long : maxModulePathBytes < artifact.moduleId.length) :
      FailsWith path (.importing .importPathTooLong)

/-- A chunk that is made up of the code of modules, one after the other. -/
inductive Assembled : List Bytes → List (Bytes × ν) → Prop
  | nil : Assembled [] []
  | snoc {order : List Bytes} {chunk : List (Bytes × ν)} {path : Bytes} {code : List ν}
      (before : Assembled order chunk) (isCode : toolchain.IsCode root src path code) :
      Assembled (order ++ [path]) (chunk ++ code.map fun piece => (path, piece))

/-- Behind what the chunk held before, each reachable file has its code once, after the code of
every file that it imports, and no file imports itself. -/
def Compiled (file : Bytes → φ) (earlier chunk : List (Bytes × ν)) : Prop :=
  ∃ order code, toolchain.Assembled root src order code ∧ chunk = earlier ++ code ∧
    DependenciesFirst (toolchain.FileRequires root src file) (order.map file) ∧
    (∀ path ∈ order, toolchain.Reaches root src path) ∧
    (∀ path, toolchain.Reaches root src path → file path ∈ order.map file) ∧
    ∀ path, toolchain.Reaches root src path →
      ¬TransGen (toolchain.FileRequires root src file) (file path) (file path)

/-- A cycle of files, more files than a session holds, or a module that fails by itself. -/
def Fails (file : Bytes → φ) (err : CompileError ε) : Prop :=
  (err = .importing .importCycle ∧
    ∃ path, toolchain.Reaches root src path ∧
      TransGen (toolchain.FileRequires root src file) (file path) (file path)) ∨
  (err = .importing .moduleLimitExceeded ∧
    ∃ paths : List Bytes, (∀ path ∈ paths, toolchain.Reaches root src path) ∧
      (paths.map file).Nodup ∧ maxModules < paths.length) ∨
  ∃ path, toolchain.Reaches root src path ∧ toolchain.FailsWith root src path err

/-- A build that succeeds has compiled each module once and its dependencies first; one that
does not reports a cycle or the error of a module. -/
def Gives (file : Bytes → φ) (earlier : List (Bytes × ν)) :
    Except (CompileError ε) Unit → Build ν ξ → Prop
  | .ok _, build => toolchain.Compiled root src file earlier build.chunk
  | .error err, _ => toolchain.Fails root src file err

end Toolchain

end Gengo.Imports
