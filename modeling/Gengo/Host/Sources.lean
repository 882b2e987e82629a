import Gengo.Bytecode.Value

/-!
# Where an engine finds the modules of a script

A script's imports are probed and loaded through a source provider: the file system, a table
of sources, or a callback that asks the host's import loader, the bundles and the table in
turn. What the compiler asks, and what it makes of the answers, is a tree.
-/

namespace Gengo.Host

open Bytecode (Bytes)

inductive SourceError
  | importLoaderFailed
  | inputTooLong
  | importNotFound
  | openFailed
  | readFailed
  deriving DecidableEq, Repr

/-- What the host's import loader returns: a positive number of bytes that it has written,
nothing, or a failure. -/
inductive LoaderAnswer
  | written (source : Bytes)
  | nothing
  | failed
  deriving DecidableEq, Repr

structure Package where
  name : Bytes
  files : List (Bytes × Bytes)

/-- The part of an engine's configuration that imports depend on. -/
structure Engine where
  importLoader : Option (Bytes → LoaderAnswer)
  packageRegistry : List Package
  sourceEntries : List (Bytes × Bytes)

/-- The path separator. -/
def slash : UInt8 :=
  47

/-- `.gengo`. -/
def gengoSuffix : Bytes :=
  [46, 103, 101, 110, 103, 111]

def findSourceEntry (entries : List (Bytes × Bytes)) (path : Bytes) : Option Bytes :=
  (entries.find? fun entry => entry.1 = path).map Prod.snd

/-- `package_state.resolve`. -/
def resolve (packages : List Package) (importPath : Bytes) : Option Bytes :=
  let path :=
    if gengoSuffix.isSuffixOf importPath then
      importPath.take (importPath.length - gengoSuffix.length)
    else importPath
  match path.dropWhile (· ≠ slash) with
  | [] | [_] => none
  | _ :: filePath => do
    let package ← packages.find? fun package => package.name = path.takeWhile (· ≠ slash)
    findSourceEntry package.files filePath

/-- `importLoaderWrapper`. A buffer that the host has filled counts as truncated. -/
def importLoaderWrapper (maxInputBytes : ℕ) (engine : Engine) (path : Bytes) :
    Except SourceError (Option Bytes) :=
  let answer : Option LoaderAnswer := engine.importLoader.map fun load => load path
  match answer with
  | some (.written source) =>
    if maxInputBytes < source.length then .error .importLoaderFailed
    else if source.length = maxInputBytes then .error .inputTooLong
    else .ok (some source)
  | some .failed => .error .importLoaderFailed
  | some .nothing | none =>
    .ok ((resolve engine.packageRegistry path).or (findSourceEntry engine.sourceEntries path))

inductive SourceProvider
  | filesystem
  | table (entries : List (Bytes × Bytes))
  | callback (load : Bytes → Except SourceError (Option Bytes))

/-- `sourceProviderFromLoader`. -/
def sourceProviderFromLoader (maxInputBytes : ℕ) (engine : Engine) : Option SourceProvider :=
  if engine.importLoader.isNone ∧ engine.packageRegistry = [] then none
  else some (.callback (importLoaderWrapper maxInputBytes engine))

/-- `defaultSourceProvider`, of the configuration that `setupHostModules` makes. -/
def defaultSourceProvider (maxInputBytes : ℕ) (engine : Engine) : SourceProvider :=
  match sourceProviderFromLoader maxInputBytes engine with
  | some provider => provider
  | none =>
    if engine.sourceEntries ≠ [] then .table engine.sourceEntries else .filesystem

/-- `readFile`, with the size of the buffer. -/
abbrev FileSystem := Bytes → ℕ → Except SourceError Bytes

def fileExists (readFile : FileSystem) (path : Bytes) : Bool :=
  match readFile path 1 with
  | .ok _ | .error .inputTooLong => true
  | .error _ => false

namespace SourceProvider

variable (readFile : FileSystem) (maxInputBytes : ℕ)

def sourceExists (path : Bytes) : SourceProvider → Bool
  | filesystem => fileExists readFile path
  | table entries => (findSourceEntry entries path).isSome
  | callback load =>
    match load path with
    | .ok (some _) => true
    | _ => false

def loadSource (path : Bytes) : SourceProvider → Except SourceError Bytes
  | filesystem => readFile path maxInputBytes
  | table entries =>
    match findSourceEntry entries path with
    | some source => .ok source
    | none => .error .importNotFound
  | callback load =>
    match load path with
    | .ok (some source) => .ok source
    | .ok none => .error .importNotFound
    | .error err => .error err

end SourceProvider

/-- A compilation, up to what it learns of its imports. -/
inductive Compiling (γ : Type*)
  | done (result : γ)
  | probe (path : Bytes) (next : Bool → Compiling γ)
  | load (path : Bytes) (next : Except SourceError Bytes → Compiling γ)

/-- A step of the resolution of an import. -/
inductive Import
  | probed (path : Bytes) (found : Bool)
  | loaded (path : Bytes) (source : Except SourceError Bytes)

/-- The path that a step asks for. -/
def Import.path : Import → Bytes
  | .probed path _ | .loaded path _ => path

/-- The answers to a compilation's questions. -/
structure Answers where
  sourceExists : Bytes → Bool
  loadSource : Bytes → Except SourceError Bytes

def SourceProvider.answers (readFile : FileSystem) (maxInputBytes : ℕ)
    (provider : SourceProvider) : Answers where
  sourceExists path := provider.sourceExists readFile path
  loadSource path := provider.loadSource readFile maxInputBytes path

namespace Compiling

variable {γ : Type*} (answers answers' : Answers)

/-- The imports that a compilation resolves, and its result. -/
def run : Compiling γ → List Import × γ
  | done result => ([], result)
  | probe path next =>
    let rest := run (next (answers.sourceExists path))
    (.probed path (answers.sourceExists path) :: rest.1, rest.2)
  | load path next =>
    let rest := run (next (answers.loadSource path))
    (.loaded path (answers.loadSource path) :: rest.1, rest.2)

/-- A compilation that goes on with the result of another. -/
def bind {δ : Type*} (compiling : Compiling γ) (next : γ → Compiling δ) : Compiling δ :=
  match compiling with
  | done result => next result
  | probe path after => .probe path fun found => (after found).bind next
  | load path after => .load path fun source => (after source).bind next

/-- Every question that the compilation asks has the same two answers. -/
def SameAnswers : Compiling γ → Prop
  | done _ => True
  | probe path next =>
    answers.sourceExists path = answers'.sourceExists path ∧
      SameAnswers (next (answers.sourceExists path))
  | load path next =>
    answers.loadSource path = answers'.loadSource path ∧
      SameAnswers (next (answers.loadSource path))

variable {answers answers'}

theorem SameAnswers.run_eq {compiling : Compiling γ}
    (same : compiling.SameAnswers answers answers') :
    compiling.run answers = compiling.run answers' := by
  induction compiling with
  | done result => rfl
  | probe path next ih | load path next ih =>
    rcases same with ⟨answer, rest⟩
    have after := ih _ rest
    rw [answer] at after
    simp only [run, answer, after]

theorem sameAnswers_of_imports {compiling : Compiling γ}
    (imports : (compiling.run answers).1 = (compiling.run answers').1) :
    compiling.SameAnswers answers answers' := by
  induction compiling with
  | done result => trivial
  | probe path next ih =>
    rcases List.cons.inj imports with ⟨first, rest⟩
    have answer : answers.sourceExists path = answers'.sourceExists path :=
      (Import.probed.inj first).2
    rw [← answer] at rest
    exact ⟨answer, ih _ rest⟩
  | load path next ih =>
    rcases List.cons.inj imports with ⟨first, rest⟩
    have answer : answers.loadSource path = answers'.loadSource path :=
      (Import.loaded.inj first).2
    rw [← answer] at rest
    exact ⟨answer, ih _ rest⟩

end Compiling

end Gengo.Host
