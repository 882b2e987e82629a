import Gengo.Imports.Underway

/-!
# Dependencies first

What each part of a compilation ensures, from the imports of a module to the whole build. The
scan and the lookup by text are where it can go wrong: a path that is spelled in two ways, an
artifact whose id is another module's path, an import that the scan misses.
-/

namespace Gengo.Imports

open List Option Bool
open Bytecode (Bytes)
open Fallible (Program Development)
open Orders (DependenciesFirst)

namespace Toolchain

variable {ν ξ ε φ : Type} {toolchain : Toolchain ν ξ ε} {root src : Bytes} {file : Bytes → φ}
  {earlier : List (Bytes × ν)} {build after : Build ν ξ} {order : List Bytes} {path : Bytes}

theorem beginModule_full (build : Build ν ξ) {isRoot : Bool}
    (full : maxModules ≤ build.modules.length) :
    (beginModule path isRoot : Building ν ξ ε Unit) build =
      some (.error (.importing .moduleLimitExceeded), build) := by
  rw [beginModule, Program.reading, if_pos full]
  rfl

theorem beginModule_long (build : Build ν ξ) {isRoot : Bool}
    (room : ¬maxModules ≤ build.modules.length) (long : maxModulePathBytes < path.length) :
    (beginModule path isRoot : Building ν ξ ε Unit) build =
      some (.error (.importing .importPathTooLong), build) := by
  rw [beginModule, Program.reading, if_neg room, if_pos long]
  rfl

theorem beginModule_new (build : Build ν ξ) {isRoot : Bool}
    (room : ¬maxModules ≤ build.modules.length) (short : ¬maxModulePathBytes < path.length) :
    (beginModule path isRoot : Building ν ξ ε Unit) build =
      some (.ok (), build.begin path isRoot) := by
  rw [beginModule, Program.reading, if_neg room, if_neg short]
  rfl

theorem beginImportedModule_known {record : Module ξ}
    (found : findModule build.modules path = some record) :
    (beginImportedModule path : Building ν ξ ε Bool) build =
      (if record.state = .compiled then pure false
        else throw (.importing .importCycle) : Building ν ξ ε Bool) (build.lookUp path) := by
  rw [beginImportedModule, Program.reading]
  simp only [found]
  rfl

theorem beginImportedModule_new (found : findModule build.modules path = none) :
    (beginImportedModule path : Building ν ξ ε Bool) build =
      (beginModule path false >>= fun _ => pure true : Building ν ξ ε Bool)
        (build.lookUp path) := by
  rw [beginImportedModule, Program.reading]
  simp only [found]
  rfl

/-- What comes after a module is begun, by what its path is found to be. -/
theorem ensures_beginImportedModule {α : Type} {next : Bool → Building ν ξ ε α}
    {post : Except (CompileError ε) α → Build ν ξ → Prop}
    (known : ∀ record, findModule build.modules path = some record → record.state = .compiled →
      (Build.development file).Ensures (next false) (build.lookUp path) post)
    (cycle : ∀ record, findModule build.modules path = some record → record.state ≠ .compiled →
      (Build.development file).sound (build.lookUp path) →
        post (.error (.importing .importCycle)) (build.lookUp path))
    (full : findModule build.modules path = none → maxModules ≤ build.modules.length →
      (Build.development file).sound (build.lookUp path) →
        post (.error (.importing .moduleLimitExceeded)) (build.lookUp path))
    (long : findModule build.modules path = none → maxModulePathBytes < path.length →
      (Build.development file).sound (build.lookUp path) →
        post (.error (.importing .importPathTooLong)) (build.lookUp path))
    (new : findModule build.modules path = none → build.modules.length < maxModules →
      (Build.development file).Ensures (next true) ((build.lookUp path).begin path false) post) :
    (Build.development file).Ensures (beginImportedModule path >>= next) build post := by
  have looked : Build.Grows build (build.lookUp path) := Build.grows_record _
  cases found : findModule build.modules path with
  | some record =>
    have unfolded := beginImportedModule_known (ε := ε) found
    by_cases isCompiled : record.state = .compiled
    · rw [if_pos isCompiled] at unfolded
      exact .bind_of_ok unfolded looked (known record found isCompiled)
    · rw [if_neg isCompiled] at unfolded
      exact .bind_of_error unfolded looked (cycle record found isCompiled)
  | none =>
    have unfolded := beginImportedModule_new (ε := ε) found
    rw [Development.bind_apply] at unfolded
    by_cases isFull : maxModules ≤ build.modules.length
    · rw [beginModule_full (build.lookUp path) isFull, bind_some] at unfolded
      exact .bind_of_error unfolded looked (full found isFull)
    by_cases isLong : maxModulePathBytes < path.length
    · rw [beginModule_long (build.lookUp path) isFull isLong, bind_some] at unfolded
      exact .bind_of_error unfolded looked (long found isLong)
    · rw [beginModule_new (build.lookUp path) isFull isLong, bind_some] at unfolded
      have room : build.modules.length < maxModules := not_le.mp isFull
      exact .bind_of_ok unfolded
        ((Build.development file).trans looked (Build.grows_begin room)) (new found room)

variable (toolchain root src) in
/-- What comes of compiling some modules first. -/
def Advances (file : Bytes → φ) (earlier : List (Bytes × ν)) (build : Build ν ξ)
    (order : List Bytes) (required : Bytes → Prop) :
    Except (CompileError ε) Unit → Build ν ξ → Prop
  | .ok _, after => ∃ added,
      toolchain.Invariant root src file earlier after (order ++ added) ∧ Extends build after ∧
        ∀ path, required path → path ∈ order ++ added
  | .error err, _ => toolchain.Fails root src file err

variable (toolchain root src) in
/-- What comes of an import: nothing, if the module is compiled, and otherwise the module and
its dependencies are compiled. -/
structure Compiles (file : Bytes → φ) (earlier : List (Bytes × ν)) (build : Build ν ξ)
    (path : Bytes) (outcome : Except (CompileError ε) Unit) (after : Build ν ξ) : Prop where
  again : (∃ record ∈ build.modules, record.path = path) →
    (∀ record ∈ build.modules, record.path = path → record.state = .compiled) →
    (gbcSuffix.isSuffixOf path = true → toolchain.session.rejectLinkedDeps = false) →
    outcome = .ok () ∧ after = build.lookUp path
  first : ∀ order importer, toolchain.Ready root src file earlier build order importer →
    toolchain.Requires root src importer path →
      toolchain.Advances root src file earlier build order (· = path) outcome after

variable (toolchain root src) in
/-- A program compiles modules while there are enough records. -/
def CompilesFrom (file : Bytes → φ) (earlier : List (Bytes × ν)) (least : ℕ)
    (compileModule : Bytes → Building ν ξ ε Unit) : Prop :=
  ∀ build path, least ≤ build.modules.length → build.modules.length ≤ maxModules →
    (Build.development file).Ensures (compileModule path) build
      (toolchain.Compiles root src file earlier build path)

variable (toolchain) in
/-- What the compiler learns of an import when its module is compiled already. -/
def answerOf (build : Build ν ξ) (importerPath importName : Bytes) :
    Except (CompileError ε) (Found ξ) :=
  if capPrefix.isPrefixOf importName && capPrefix.length < importName.length then
    if toolchain.isCapabilityEnabled (importName.drop capPrefix.length) then
      .ok (build.builtin importName)
    else .error .capabilityNotEnabled
  else if hostPrefix.isPrefixOf importName && hostPrefix.length < importName.length then
    if toolchain.isHostModule (importName.drop hostPrefix.length) then
      .ok (build.builtin importName)
    else .error (.importing .importNotFound)
  else
    match toolchain.resolveImportPath importerPath importName with
    | .error err => .error err
    | .ok resolved =>
      if resolved = stdModulePath then .ok (build.builtin stdModuleGlobalName)
      else build.moduleGlobalName resolved

variable (toolchain root src) in
/-- What a module requires is compiled. -/
def Prepared (build : Build ν ξ) (path : Bytes) : Prop :=
  ∀ target, toolchain.Requires root src path target →
    (∃ record ∈ build.modules, record.path = target) ∧
      (∀ record ∈ build.modules, record.path = target → record.state = .compiled) ∧
      (gbcSuffix.isSuffixOf target = true → toolchain.session.rejectLinkedDeps = false)

/-- The records, the known globals and the chunk are left alone. -/
structure Same (build after : Build ν ξ) : Prop where
  modules : after.modules = build.modules
  knownGlobals : after.knownGlobals = build.knownGlobals
  chunk : after.chunk = build.chunk

variable (toolchain root src) in
/-- What comes of an import that the compiler meets. -/
def Answered (build : Build ν ξ) (path name : Bytes)
    (outcome : Except (CompileError ε) (Found ξ)) (after : Build ν ξ) : Prop :=
  toolchain.Prepared root src build path →
    (namesFile name = true → ∀ target, toolchain.resolveImportPath path name = .ok target →
      toolchain.Requires root src path target) →
    outcome = toolchain.answerOf build path name ∧ Same build after

theorem resolveImportPath_std {importerPath : Bytes} :
    toolchain.resolveImportPath importerPath stdModulePath = .ok stdModulePath := by
  rw [resolveImportPath, Session.resolveImportPath, if_pos rfl]
  rfl

variable {least : ℕ} {compileModule : Bytes → Building ν ξ ε Unit}

theorem ensures_resolveImportOpaque
    (compiles : toolchain.CompilesFrom root src file earlier least compileModule)
    (deep : least ≤ build.modules.length) (bounded : build.modules.length ≤ maxModules)
    (path name : Bytes) :
    (Build.development file).Ensures (toolchain.resolveImportOpaque compileModule path name)
      build (toolchain.Answered root src build path name) := by
  unfold resolveImportOpaque Answered answerOf
  by_cases isCap : (capPrefix.isPrefixOf name && capPrefix.length < name.length) = true
  · simp only [if_pos isCap]
    split
    · exact .of_reading (.of_pure fun _ _ _ => ⟨rfl, rfl, rfl, rfl⟩)
    · exact .of_throw fun _ _ _ => ⟨rfl, rfl, rfl, rfl⟩
  by_cases isHost : (hostPrefix.isPrefixOf name && hostPrefix.length < name.length) = true
  · simp only [if_neg isCap, if_pos isHost]
    split
    · exact .of_reading (.of_pure fun _ _ _ => ⟨rfl, rfl, rfl, rfl⟩)
    · exact .of_throw fun _ _ _ => ⟨rfl, rfl, rfl, rfl⟩
  simp only [if_neg isCap, if_neg isHost]
  cases resolves : toolchain.resolveImportPath path name with
  | error err =>
    exact .bind_of_error rfl ((Build.development file).refl build) fun _ _ _ =>
      ⟨rfl, rfl, rfl, rfl⟩
  | ok resolved =>
    refine .bind_of_ok rfl ((Build.development file).refl build) ?_
    by_cases isStd : resolved = stdModulePath
    · simp only [if_pos isStd]
      exact .of_reading (.of_pure fun _ _ _ => ⟨rfl, rfl, rfl, rfl⟩)
    · simp only [if_neg isStd]
      have isFile : namesFile name = true := by
        have notStd : name ≠ stdModulePath := by
          rintro rfl
          exact isStd (Except.ok.inj (resolves.symm.trans resolveImportPath_std))
        simp only [namesFile, beq_false_of_ne notStd, eq_false_iff.mpr isCap,
          eq_false_iff.mpr isHost]
        rfl
      refine (compiles build resolved deep bounded).bind ?_ ?_
      · intro _ middle _
        refine .of_reading (.of_except fun _ compiled prepared requires => ?_)
        rcases prepared resolved (requires isFile resolved rfl) with
          ⟨known, isCompiled, permitted⟩
        rw [(compiled.again known isCompiled permitted).2]
        exact ⟨rfl, rfl, rfl, rfl⟩
      · intro err middle _ _ compiled prepared requires
        rcases prepared resolved (requires isFile resolved rfl) with
          ⟨known, isCompiled, permitted⟩
        exact nomatch (compiled.again known isCompiled permitted).1

theorem Same.answerOf_eq (same : Same build after) (importerPath : Bytes) :
    toolchain.answerOf after importerPath = toolchain.answerOf build importerPath := by
  funext name
  unfold answerOf Build.builtin Build.moduleGlobalName
  rw [same.modules, same.knownGlobals]

theorem Same.prepared (same : Same build after)
    (prepared : toolchain.Prepared root src build path) :
    toolchain.Prepared root src after path := by
  intro target requires
  rw [same.modules]
  exact prepared target requires

theorem ensures_runCompilation
    (compiles : toolchain.CompilesFrom root src file earlier least compileModule)
    {tokens : List Token} {compilation : Compilation ν ξ ε}
    (asks : compilation.AsksOnly (ImportedIn tokens))
    (deep : least ≤ build.modules.length) (bounded : build.modules.length ≤ maxModules) :
    (Build.development file).Ensures (toolchain.runCompilation compileModule path compilation)
      build fun outcome after =>
        toolchain.Prepared root src build path →
        (∀ name, ImportedIn tokens name → namesFile name = true →
          ∀ target, toolchain.resolveImportPath path name = .ok target →
            toolchain.Requires root src path target) →
        outcome = (compilation.run (toolchain.answerOf build path)).2 ∧
          after.modules = build.modules ∧
          after.chunk = build.chunk ++
            (compilation.run (toolchain.answerOf build path)).1.map fun piece => (path, piece) := by
  induction compilation generalizing build with
  | emit piece rest ih =>
    have emitted : (Build.development file).Ensures
        (toolchain.runCompilation compileModule path rest) (build.splice path [piece]) _ :=
      ih asks deep bounded
    refine .bind_of_ok rfl (Build.grows_splice path [piece]) (emitted.mono ?_)
    rintro outcome after - - holds prepared requires
    rcases holds prepared requires with ⟨rfl, modules, chunk⟩
    refine ⟨rfl, modules, chunk.trans ?_⟩
    rw [Build.splice, append_assoc]
    rfl
  | importing name next ih =>
    have attempted : (Build.development file).Ensures
        (toolchain.resolveImportOpaque compileModule path name).attempt build
        fun outcome after => ∃ found, outcome = .ok found ∧
          toolchain.Answered root src build path name found after :=
      .attempt ((ensures_resolveImportOpaque compiles deep bounded path name).mono
        fun outcome after _ _ holds => ⟨outcome, rfl, holds⟩)
    refine attempted.bind ?_ ?_
    · intro found middle grows
      have later := ih found (asks.2 found) (deep.trans grows.modules) (grows.bounded bounded)
      refine later.mono ?_
      rintro outcome after - - holds ⟨given, isFound, answered⟩ prepared requires
      cases isFound
      rcases answered prepared (requires name asks.1) with ⟨answer, same⟩
      rcases holds (same.prepared prepared) requires with ⟨rfl, modules, chunk⟩
      rw [same.answerOf_eq, answer] at chunk ⊢
      rw [same.modules] at modules
      rw [same.chunk] at chunk
      exact ⟨rfl, modules, chunk⟩
    · rintro err middle - - ⟨_, wrong, -⟩
      exact nomatch wrong
  | done exports =>
    exact .of_pure fun _ _ _ => ⟨rfl, rfl, (append_nil _).symm⟩
  | failed err =>
    exact .of_throw fun _ _ _ => ⟨rfl, rfl, (append_nil _).symm⟩

/-- A module under way has become compiled. -/
def Completes (build after : Build ν ξ) (path : Bytes) : Prop :=
  ∃ update : Module ξ → Module ξ, (∀ record, (update record).path = record.path) ∧
    (∀ record, (update record).state = .compiled) ∧
      after.modules = (build.change path update).modules

theorem Assembled.permitted {chunk : List (Bytes × ν)}
    (assembled : toolchain.Assembled root src order chunk) (mem : path ∈ order)
    (notRoot : path ≠ root) (isArtifact : gbcSuffix.isSuffixOf path = true) :
    toolchain.session.rejectLinkedDeps = false := by
  induction assembled with
  | nil => exact absurd mem not_mem_nil
  | snoc _ isCode ih =>
    rcases mem_append.mp mem with before | last
    · exact ih before
    · rw [← mem_singleton.mp last] at isCode
      cases isCode with
      | compiled isSource =>
        rcases isSource with isRoot | notArtifact
        · exact absurd isRoot notRoot
        · exact absurd (notArtifact.symm.trans isArtifact) nofun
      | linked _ permitted => exact permitted

/-- Once the modules that it requires stand in the order, a module is prepared. -/
theorem Invariant.prepared
    (invariant : toolchain.Invariant root src file earlier build order)
    (reaches : toolchain.Reaches root src path) (fresh : path ∉ order)
    (ready : ∀ target, toolchain.Requires root src path target → target ∈ order) :
    toolchain.Prepared root src build path := by
  intro target requires
  have mem := ready target requires
  rcases (invariant.compiled target).mp mem with ⟨record, isRecord, rfl, isCompiled⟩
  refine ⟨⟨record, isRecord, rfl⟩, ?_, ?_⟩
  · intro other isOther same
    rw [invariant.unique isOther isRecord same]
    exact isCompiled
  · rcases invariant.assembled with ⟨code, assembled, -⟩
    refine assembled.permitted mem ?_
    intro isRoot
    rw [isRoot] at mem
    exact fresh (invariant.first.mem_of_reaches mem reaches)

variable (toolchain) in
/-- The imports of files that the scan of a source meets resolve to modules of the order. -/
def Met (order : List Bytes) (path source : Bytes) : Prop :=
  ∀ name, .ok name ∈ scanImports (toolchain.lex source) → namesFile name = true →
    ∃ target ∈ order, toolchain.resolveImportPath path name = .ok target

theorem Met.mem_of_requires {source target : Bytes} (met : toolchain.Met order path source)
    (scansAll : ScansAll (toolchain.lex source))
    (loaded : toolchain.sourceOf root src path = .ok source)
    (requires : toolchain.Requires root src path target) : target ∈ order := by
  rcases requires with ⟨_, name, -, loaded', imported, isFile, resolves⟩
  rw [loaded] at loaded'
  cases loaded'
  rcases met name (scansAll name imported isFile) isFile with ⟨_, mem, resolves'⟩
  rw [resolves] at resolves'
  cases resolves'
  exact mem

theorem Met.answers {source : Bytes} (met : toolchain.Met order path source)
    (scansAll : ScansAll (toolchain.lex source))
    (invariant : toolchain.Invariant root src file earlier build order) :
    Answers (toolchain.lex source) (toolchain.answerOf build path) := by
  intro name imported isFile
  rcases met name (scansAll name imported isFile) isFile with ⟨target, mem, resolves⟩
  simp only [namesFile, not_eq_true', or_eq_false_iff] at isFile
  simp only [answerOf, isFile.1.2, isFile.2, resolves, false_eq_true, if_false]
  by_cases isStd : target = stdModulePath
  · rw [if_pos isStd]
    exact ⟨_, rfl⟩
  · rw [if_neg isStd]
    rcases (invariant.compiled target).mp mem with ⟨record, isRecord, rfl, -⟩
    rcases findModule_isSome isRecord with ⟨found, isFound⟩
    rw [Build.moduleGlobalName, isFound]
    exact ⟨_, rfl⟩

theorem Invariant.notMem_order (invariant : toolchain.Invariant root src file earlier build order)
    {record : Module ξ} (mem : record ∈ build.modules) (notCompiled : record.state ≠ .compiled) :
    record.path ∉ order := by
  intro inOrder
  rcases (invariant.compiled record.path).mp inOrder with ⟨other, isOther, same, isCompiled⟩
  rw [invariant.unique isOther mem same] at isCompiled
  exact notCompiled isCompiled

section

variable (compiles : toolchain.CompilesFrom root src file earlier least compileModule)
include compiles

theorem ensures_compileBegunModule (deep : least ≤ build.modules.length)
    (bounded : build.modules.length ≤ maxModules) (path source : Bytes) (emitHalt : Bool) :
    (Build.development file).Ensures
      (toolchain.compileBegunModule compileModule path source emitHalt) build
      fun outcome after => ∀ order, emitHalt = decide (path = root) →
        toolchain.Invariant root src file earlier build order →
        (∃ record ∈ build.modules, record.path = path) → path ∉ order →
        IsSource root path → toolchain.sourceOf root src path = .ok source →
        toolchain.Met order path source →
        match outcome with
        | .ok _ => toolchain.Invariant root src file earlier after (order ++ [path]) ∧
            Completes build after path
        | .error err => toolchain.FailsWith root src path err := by
  unfold compileBegunModule
  cases scanned : toolchain.scanGlobalDeclarations source (modulePrefix path emitHalt) with
  | error err =>
    refine .bind_of_error rfl ((Build.development file).refl build) ?_
    rintro _ order rfl _ _ _ isSource loaded _
    exact .declarations isSource loaded scanned
  | ok known =>
    refine .bind_of_ok rfl ((Build.development file).refl build) ?_
    refine .bind_of_ok rfl (Build.Grows.of_length (fun _ mem => mem_append_left _ mem) rfl) ?_
    have ran : (Build.development file).Ensures
        (toolchain.runCompilation compileModule path (toolchain.compile emitHalt path source known))
        (build.enter (toolchain.lex source) known) _ :=
      ensures_runCompilation compiles (toolchain.compile_asksOnly _ _ _ _) deep bounded
    have isBegun : ∀ {middle}, Build.Grows
        (build.enter (toolchain.lex source) known) middle →
        (Build.development file).sound middle → ScansAll (toolchain.lex source) :=
      fun grows sound =>
        sound _ (grows.events _ (mem_append_right _ mem_cons_self))
    -- What the compiler on its own is promised.
    have own : ∀ order, toolchain.Invariant root src file earlier build order →
        (∃ record ∈ build.modules, record.path = path) → path ∉ order →
        IsSource root path → toolchain.sourceOf root src path = .ok source →
        toolchain.Met order path source → ScansAll (toolchain.lex source) →
        toolchain.Prepared root src build path ∧
          (∀ name, ImportedIn (toolchain.lex source) name → namesFile name = true →
            ∀ target, toolchain.resolveImportPath path name = .ok target →
              toolchain.Requires root src path target) ∧
          Answers (toolchain.lex source)
            (toolchain.answerOf (build.enter (toolchain.lex source) known) path) := by
      rintro order invariant ⟨record, isRecord, rfl⟩ fresh isSource loaded met scansAll
      refine ⟨invariant.prepared (invariant.reached record isRecord) fresh fun target =>
        met.mem_of_requires scansAll loaded, ?_, met.answers scansAll (invariant.congr rfl rfl)⟩
      intro name imported isFile target resolves
      exact ⟨source, name, isSource, loaded, imported, isFile, resolves⟩
    refine ran.bind ?_ ?_
    · intro exports middle grows
      refine .of_update (Build.grows_change _ _) ?_
      rintro sound holds order rfl invariant isKnown fresh isSource loaded met
      have scansAll := isBegun grows sound
      rcases own order invariant isKnown fresh isSource loaded met scansAll with
        ⟨prepared, requires, answers⟩
      rcases holds prepared requires with ⟨isOk, modules, chunk⟩
      have isCode := IsCode.compiled isSource loaded scanned answers (Prod.ext rfl isOk.symm)
      refine ⟨invariant.complete (.finish exports) (fun _ => rfl) (fun _ => rfl) isKnown fresh
        (fun _ => met.mem_of_requires scansAll loaded) isCode modules chunk,
        .finish exports, fun _ => rfl, fun _ => rfl, ?_⟩
      rw [Build.finish, Build.change, Build.change, modules]
      rfl
    · rintro err middle grows sound holds order rfl invariant isKnown fresh isSource loaded met
      have scansAll := isBegun grows sound
      rcases own order invariant isKnown fresh isSource loaded met scansAll with
        ⟨prepared, requires, answers⟩
      rcases holds prepared requires with ⟨isError, -, -⟩
      exact .compile isSource loaded scanned answers (Prod.ext rfl isError.symm)

theorem ensures_compileEach (paths : List Bytes) (deep : least ≤ build.modules.length)
    (bounded : build.modules.length ≤ maxModules) :
    (Build.development file).Ensures (compileEach compileModule paths) build
      fun outcome after => ∀ order importer,
        toolchain.Ready root src file earlier build order importer →
        (∀ path ∈ paths, toolchain.Requires root src importer path) →
        toolchain.Advances root src file earlier build order (· ∈ paths) outcome after := by
  induction paths generalizing build with
  | nil =>
    refine .of_pure fun _ order importer ready _ => ⟨[], ?_, .refl rfl, nofun⟩
    rw [append_nil]
    exact ready.invariant
  | cons path rest ih =>
    refine (compiles build path deep bounded).bind ?_ ?_
    · intro _ middle grows
      refine (ih (deep.trans grows.modules) (grows.bounded bounded)).mono ?_
      intro outcome after _ _ holds compiled order importer ready requires
      rcases compiled.first order importer ready (requires path mem_cons_self) with
        ⟨added, invariant, extends_, mem⟩
      have advances := holds _ importer (ready.extend invariant extends_)
        fun other later => requires other (mem_cons_of_mem _ later)
      cases outcome with
      | error err => exact advances
      | ok _ =>
        rcases advances with ⟨added', invariant', extends_', mem'⟩
        refine ⟨added ++ added', by rwa [← append_assoc], extends_.trans extends_', ?_⟩
        intro other isOther
        rw [← append_assoc]
        rcases mem_cons.mp isOther with rfl | later
        · exact mem_append_left _ (mem other rfl)
        · exact mem' other later
    · intro err middle _ _ compiled order importer ready requires
      exact compiled.first order importer ready (requires path mem_cons_self)

variable (toolchain root src) in
/-- What a module's dependencies and its compiler come to, from when it has begun. -/
def Ends (file : Bytes → φ) (earlier : List (Bytes × ν)) (begun : Build ν ξ)
    (order : List Bytes) (path : Bytes) : Except (CompileError ε) Unit → Build ν ξ → Prop
  | .ok _, after => ∃ added, toolchain.Invariant root src file earlier after
      (order ++ added ++ [path]) ∧ ∃ middle, Extends begun middle ∧ Completes middle after path
  | .error err, _ => toolchain.Fails root src file err

/-- A module that has begun: its dependencies first, then the module itself. -/
theorem ensures_module (deep : least ≤ build.modules.length)
    (bounded : build.modules.length ≤ maxModules) (path source : Bytes) (emitHalt : Bool) :
    (Build.development file).Ensures
      (do
        toolchain.compileDependencies compileModule path source
        toolchain.compileBegunModule compileModule path source emitHalt) build
      fun outcome after => ∀ order, emitHalt = decide (path = root) →
        toolchain.Ready root src file earlier build order path →
        (∃ record ∈ build.modules, record.path = path ∧ record.state ≠ .compiled) →
        IsSource root path → toolchain.sourceOf root src path = .ok source →
        toolchain.Ends root src file earlier build order path outcome after := by
  have dependencies : (Build.development file).Ensures
      (toolchain.compileDependencies compileModule path source) build
      fun outcome after => ∀ order,
        toolchain.Ready root src file earlier build order path →
        IsSource root path → toolchain.sourceOf root src path = .ok source →
        match outcome with
        | .ok _ => ∃ added, toolchain.Invariant root src file earlier after (order ++ added) ∧
            Extends build after ∧ toolchain.Met (order ++ added) path source
        | .error err => toolchain.Fails root src file err := by
    unfold compileDependencies
    cases resolved : toolchain.resolveImports path [] (scanImports (toolchain.lex source)) with
    | error err =>
      refine .bind_of_error rfl ((Build.development file).refl build) ?_
      intro _ order ready isSource loaded
      exact .inr (.inr ⟨path, ready.reaches, .imports isSource loaded resolved⟩)
    | ok paths =>
      refine .bind_of_ok rfl ((Build.development file).refl build) ?_
      refine (ensures_compileEach compiles paths deep bounded).mono ?_
      intro outcome after _ _ advances order ready isSource loaded
      have resolves := resolves_of_ok resolved
      have requires : ∀ target ∈ paths, toolchain.Requires root src path target := by
        intro target mem
        rcases resolves.only target mem with nothing | ⟨name, met, isFile, found⟩
        · exact absurd nothing not_mem_nil
        · exact ⟨source, name, isSource, loaded, importedIn_of_mem_scanImports met, isFile, found⟩
      have advanced := advances order path ready requires
      cases outcome with
      | error err => exact advanced
      | ok _ =>
        rcases advanced with ⟨added, invariant, extends_, mem⟩
        refine ⟨added, invariant, extends_, ?_⟩
        intro name met isFile
        rcases resolves.named name met isFile with ⟨target, isTarget, found⟩
        exact ⟨target, mem target isTarget, found⟩
  refine dependencies.bind ?_ ?_
  · intro _ middle grows
    refine (ensures_compileBegunModule compiles (deep.trans grows.modules)
      (grows.bounded bounded) path source emitHalt).mono ?_
    rintro outcome after - - holds ready order isRoot isReady ⟨record, mem, rfl, notCompiled⟩
      isSource loaded
    rcases ready order isReady isSource loaded with ⟨added, invariant, ⟨new, eq, isNew⟩, met⟩
    have isKnown : record ∈ middle.modules := eq ▸ mem_append_left _ mem
    have compiled := holds _ isRoot invariant ⟨record, isKnown, rfl⟩
      (invariant.notMem_order isKnown notCompiled) isSource loaded met
    cases outcome with
    | error err => exact .inr (.inr ⟨_, isReady.reaches, compiled⟩)
    | ok _ => exact ⟨added, compiled.1, middle, ⟨new, eq, isNew⟩, compiled.2⟩
  · intro err middle _ _ failed order _ ready _ isSource loaded
    exact failed order ready isSource loaded

end

theorem extends_of_completes {middle : Build ν ξ}
    (fresh : ∀ record ∈ build.modules, record.path ≠ path)
    (extends_ : Extends ((build.lookUp path).begin path false) middle)
    (completes : Completes middle after path) : Extends build after := by
  rcases extends_ with ⟨added, eq, compiled⟩
  rcases completes with ⟨update, -, state_eq, modules⟩
  have kept : (build.modules.map fun record =>
      if record.path = path then update record else record) = build.modules := by
    refine (map_congr_left fun record mem => ?_).trans (map_id _)
    exact if_neg (fresh record mem)
  refine ⟨(Module.begin path false :: added).map fun record =>
    if record.path = path then update record else record, ?_, ?_⟩
  · have begun : ((build.lookUp path).begin path false).modules =
        build.modules ++ [.begin path false] := rfl
    rw [modules, Build.change, eq, begun, append_assoc, map_append, kept]
    rfl
  · intro record mem
    rcases mem_map.mp mem with ⟨old, isOld, rfl⟩
    split
    · exact state_eq old
    · rename_i other
      rcases mem_cons.mp isOld with rfl | isAdded
      · exact absurd rfl other
      · exact compiled old isAdded

/-- What a path that is imported comes to, if a new module ends as it should. -/
theorem ensures_begun {next : Bool → Building ν ξ ε Unit} (stays : next false = pure ())
    (new : findModule build.modules path = none → build.modules.length < maxModules →
      (Build.development file).Ensures (next true) ((build.lookUp path).begin path false)
        fun outcome after => ∀ order,
          toolchain.Ready root src file earlier ((build.lookUp path).begin path false) order path →
          path ≠ root →
          toolchain.Ends root src file earlier ((build.lookUp path).begin path false) order path
            outcome after) :
    (Build.development file).Ensures (beginImportedModule path >>= next) build
      (toolchain.Compiles root src file earlier build path) := by
  refine ensures_beginImportedModule ?_ ?_ ?_ ?_ ?_
  · intro record found isCompiled
    rw [stays]
    refine .of_pure fun sound => ⟨fun _ _ _ => ⟨rfl, rfl⟩, ?_⟩
    intro order importer ready _
    refine ⟨[], ?_, .refl rfl, ?_⟩
    · rw [append_nil]
      exact ready.invariant.congr rfl rfl
    · rintro _ rfl
      rw [append_nil, ready.invariant.compiled]
      exact ⟨record, mem_of_findModule found, (Build.sound_lookUp sound).1 record found, isCompiled⟩
  · intro record found notCompiled sound
    have same := (Build.sound_lookUp sound).1 record found
    refine ⟨fun _ compiled _ => ?_, fun order importer ready requires => ?_⟩
    · exact absurd (compiled record (mem_of_findModule found) same) notCompiled
    · exact ready.cycle requires (mem_of_findModule found) same notCompiled
  · intro found full sound
    refine ⟨fun ⟨record, mem, same⟩ _ _ => ?_, fun order importer ready requires => ?_⟩
    · exact absurd same (path_ne_of_findModule found mem)
    · exact ready.limit requires ((Build.sound_lookUp sound).2 found) full
  · intro found long sound
    refine ⟨fun ⟨record, mem, same⟩ _ _ => ?_, fun order importer ready requires => ?_⟩
    · exact absurd same (path_ne_of_findModule found mem)
    · exact .inr (.inr ⟨path, ready.reaches_of_requires requires, .pathTooLong long⟩)
  · intro found room
    refine (new found room).mono ?_
    intro outcome after grows sound ends
    refine ⟨fun ⟨record, mem, same⟩ _ _ => ?_, fun order importer ready requires => ?_⟩
    · exact absurd same (path_ne_of_findModule found mem)
    have looked : (Build.development file).sound (build.lookUp path) :=
      fun event mem => sound event (Build.Grows.events grows event mem)
    have fresh := (Build.sound_lookUp looked).2 found
    have notRoot : path ≠ root := by
      rcases ready.invariant.rooted with ⟨record, mem, isRoot⟩
      exact fun same => path_ne_of_findModule found mem (isRoot.trans same.symm)
    have ended := ends order (ready.begin requires fresh) notRoot
    cases outcome with
    | error err => exact ended
    | ok _ =>
      rcases ended with ⟨added, invariant, middle, extends_, completes⟩
      refine ⟨added ++ [path], by rwa [← append_assoc], extends_of_completes
        (fun record mem => path_ne_of_findModule found mem) extends_ completes, ?_⟩
      rintro _ rfl
      simp

theorem loadImportedModuleSource_ok {source : Bytes}
    (loaded : toolchain.loadSource path = .ok source) :
    toolchain.loadImportedModuleSource path build = some (.ok source, build) := by
  rw [loadImportedModuleSource, loaded]
  rfl

theorem loadImportedModuleSource_error {err : CompileError ε}
    (loaded : toolchain.loadSource path = .error err) :
    toolchain.loadImportedModuleSource path build =
      some (.error err, build.saveFailedModule path) := by
  rw [loadImportedModuleSource, loaded]
  rfl

theorem sourceOf_eq (notRoot : path ≠ root) :
    toolchain.sourceOf root src path = toolchain.loadSource path :=
  if_neg notRoot

theorem ensures_linkArtifact {bytes : Bytes} (isArtifact : gbcSuffix.isSuffixOf path = true)
    (permitted : toolchain.session.rejectLinkedDeps = false)
    (loaded : toolchain.loadSource path = .ok bytes)
    (isNew : ∃ record ∈ build.modules, record.path = path ∧ record.state ≠ .compiled) :
    (Build.development file).Ensures (toolchain.linkArtifact path bytes) build
      fun outcome after => ∀ order,
        toolchain.Ready root src file earlier build order path → path ≠ root →
        toolchain.Ends root src file earlier build order path outcome after := by
  have refl := (Build.development file).refl build
  have notSource : path ≠ root → ¬IsSource root path := by
    rintro notRoot (isRoot | notArtifact)
    · exact notRoot isRoot
    · exact absurd (notArtifact.symm.trans isArtifact) nofun
  unfold linkArtifact
  cases read : toolchain.readIntoSession bytes with
  | error err =>
    refine .bind_of_error rfl refl ?_
    intro _ order ready notRoot
    exact .inr (.inr ⟨path, ready.reaches, .read (notSource notRoot) loaded read⟩)
  | ok artifact =>
    refine .bind_of_ok rfl refl (.bind_of_ok rfl (Build.grows_splice path artifact.code) ?_)
    by_cases many : maxModuleExports < artifact.exportCount
    · rw [if_pos many]
      refine .of_throw fun _ order ready notRoot => ?_
      exact .inr (.inr ⟨path, ready.reaches, .tooManyExports (notSource notRoot) loaded read many⟩)
    rw [if_neg many]
    by_cases long : maxModulePathBytes < artifact.moduleId.length
    · rw [if_pos long]
      refine .of_throw fun _ order ready notRoot => ?_
      exact .inr (.inr ⟨path, ready.reaches, .idTooLong (notSource notRoot) loaded read long⟩)
    rw [if_neg long]
    refine .of_update (Build.grows_change _ _) fun _ order ready notRoot => ?_
    have isCode : toolchain.IsCode root src path artifact.code :=
      .linked (notSource notRoot) permitted loaded read
    have noDependencies : ∀ target, toolchain.Requires root src path target → target ∈ order :=
      fun target ⟨_, _, isSource, _⟩ => absurd isSource (notSource notRoot)
    rcases isNew with ⟨record, mem, rfl, notCompiled⟩
    have completed : toolchain.Invariant root src file earlier
        ((build.splice record.path artifact.code).link record.path artifact)
        (order ++ [record.path]) :=
      ready.invariant.complete (.link artifact.moduleId artifact.exports) (fun _ => rfl)
        (fun _ => rfl) ⟨record, mem, rfl⟩ (ready.invariant.notMem_order mem notCompiled)
        noDependencies isCode rfl rfl
    refine ⟨[], ?_, build, .refl rfl, .link artifact.moduleId artifact.exports, fun _ => rfl,
      fun _ => rfl, rfl⟩
    rw [append_nil]
    exact completed

/-- While a depth is left for each record that is free, each import is compiled. -/
theorem compilesFrom_compileModuleFromPath {depth : ℕ} (deep : maxModules < depth + least) :
    toolchain.CompilesFrom root src file earlier least (toolchain.compileModuleFromPath depth) := by
  induction depth generalizing least with
  | zero => exact fun build path enough bounded => absurd (enough.trans bounded) (by omega)
  | succ depth ih =>
    intro build path enough bounded
    have begun : (((build.lookUp path).begin path false).modules.length) =
        build.modules.length + 1 := length_append
    have isNew : ∃ record ∈ ((build.lookUp path).begin path false).modules,
        record.path = path ∧ record.state ≠ .compiled :=
      ⟨.begin path false, mem_append_right _ mem_cons_self, rfl, nofun⟩
    unfold compileModuleFromPath
    by_cases isArtifact : gbcSuffix.isSuffixOf path = true
    · rw [if_pos isArtifact]
      by_cases rejects : toolchain.session.rejectLinkedDeps = true
      · rw [if_pos rejects]
        refine .of_throw fun _ => ⟨fun _ _ permitted => ?_, fun order importer ready requires => ?_⟩
        · exact absurd ((permitted isArtifact).symm.trans rejects) nofun
        · exact .inr (.inr ⟨path, ready.reaches_of_requires requires, .chained isArtifact rejects⟩)
      rw [if_neg rejects]
      refine ensures_begun rfl fun _ _ => ?_
      cases loaded : toolchain.loadSource path with
      | error err =>
        refine .bind_of_error (loadImportedModuleSource_error loaded)
          (Build.grows_change _ _) fun _ order ready notRoot => ?_
        exact .inr (.inr ⟨path, ready.reaches, .load ((sourceOf_eq notRoot).trans loaded)⟩)
      | ok bytes =>
        refine .bind_of_ok (loadImportedModuleSource_ok loaded) ((Build.development file).refl _) ?_
        exact (ensures_linkArtifact isArtifact (eq_false_iff.mpr rejects) loaded
          isNew).orElseUpdate (fun _ => Build.grows_change _ _) fun _ _ holds => holds
    · rw [if_neg isArtifact]
      refine ensures_begun rfl fun _ room => ?_
      cases loaded : toolchain.loadSource path with
      | error err =>
        refine .bind_of_error (loadImportedModuleSource_error loaded)
          (Build.grows_change _ _) fun _ order ready notRoot => ?_
        exact .inr (.inr ⟨path, ready.reaches, .load ((sourceOf_eq notRoot).trans loaded)⟩)
      | ok source =>
        refine .bind_of_ok (loadImportedModuleSource_ok loaded) ((Build.development file).refl _) ?_
        have inner := ih (show maxModules < depth + (least + 1) by omega)
        refine ((ensures_module inner (begun ▸ Nat.succ_le_succ enough) (begun ▸ room) path
          source false).mono ?_).orElseUpdate (fun _ => Build.grows_change _ _)
            fun _ _ holds => holds
        intro outcome after _ _ holds order ready notRoot
        exact holds order (decide_eq_false notRoot).symm ready isNew
          (.inr (eq_false_iff.mpr isArtifact)) ((sourceOf_eq notRoot).trans loaded)

variable {depth : ℕ} {start : Build ν ξ}

/-- The invariant and the root's own record, before its dependencies. -/
theorem ready_root : toolchain.Ready root src file start.chunk
    (({ start with modules := [], events := [] } : Build ν ξ).begin root true) [] root where
  invariant :=
    { rooted := ⟨_, mem_cons_self, rfl⟩
      reached := fun record mem => mem_singleton.mp mem ▸ .refl
      files := nodup_singleton _
      compiled := fun path => ⟨nofun, fun ⟨record, mem, _, isCompiled⟩ => by
        rw [mem_singleton.mp mem] at isCompiled
        exact nomatch isCompiled⟩
      first := .nil
      assembled := ⟨[], .nil, (append_nil _).symm⟩ }
  reaches := .refl
  leads record mem _ := mem_singleton.mp mem ▸ .refl

/-- Once the root is compiled, so is everything that it reaches, and nothing requires itself. -/
theorem Invariant.compiled_chunk
    (invariant : toolchain.Invariant root src file earlier build order) (mem : root ∈ order) :
    toolchain.Compiled root src file earlier build.chunk := by
  rcases invariant.assembled with ⟨code, assembled, chunk⟩
  have all : ∀ path, toolchain.Reaches root src path → path ∈ order :=
    fun path reaches => invariant.first.mem_of_reaches mem reaches
  have reached : ∀ path ∈ order, toolchain.Reaches root src path := by
    intro path isCompiled
    rcases (invariant.compiled path).mp isCompiled with ⟨record, isRecord, rfl, -⟩
    exact invariant.reached record isRecord
  have injective : ∀ path ∈ order, ∀ other ∈ order, file path = file other → path = other := by
    intro path isCompiled other isCompiled' same
    rcases (invariant.compiled path).mp isCompiled with ⟨record, isRecord, rfl, -⟩
    rcases (invariant.compiled other).mp isCompiled' with ⟨record', isRecord', rfl, -⟩
    rw [inj_on_of_nodup_map invariant.files isRecord isRecord' same]
  have first : DependenciesFirst (toolchain.FileRequires root src file) (order.map file) := by
    refine invariant.first.map injective ?_
    rintro path isCompiled _ ⟨path', target, reaches, requires, same, rfl⟩
    rw [injective path' (all path' reaches) path isCompiled same] at requires
    exact ⟨target, requires, rfl⟩
  refine ⟨order, code, assembled, chunk, first, reached, ?_, ?_⟩
  · exact fun path reaches => mem_map_of_mem (all path reaches)
  · exact fun path reaches => first.acyclic (mem_map_of_mem (all path reaches))

variable (toolchain) in
/-- Modules are compiled once and their dependencies first, or the build reports why not. -/
def CompilesOnce (file : Bytes → φ) (depth : ℕ) (root src : Bytes) (start : Build ν ξ) : Prop :=
  ∃ outcome build, toolchain.compileRoot depth root src start = some (outcome, build) ∧
    toolchain.Gives root src file start.chunk outcome build

variable (toolchain) in
/-- Whatever the build looks up or compiles, it identifies by the file and with its imports. -/
def IdentifiesFiles (file : Bytes → φ) (depth : ℕ) (root src : Bytes) (start : Build ν ξ) : Prop :=
  ∀ outcome build, toolchain.compileRoot depth root src start = some (outcome, build) →
    ∀ event ∈ build.events, event.Sound file

/-- A build in which every path that is looked up stands for its file, and every module is
scanned for all of its imports, compiles each reachable file once and its dependencies first. -/
theorem compilesOnce_of_identifiesFiles (deep : maxModules < depth)
    (identifies : toolchain.IdentifiesFiles file depth root src start) :
    toolchain.CompilesOnce file depth root src start := by
  let begun : Build ν ξ := { start with modules := [], events := [] }
  have unfolded : toolchain.compileRoot depth root src start =
      (beginModule root true >>= fun _ => Program.orElseUpdate
        (do
          toolchain.compileDependencies (toolchain.compileModuleFromPath depth) root src
          toolchain.compileBegunModule (toolchain.compileModuleFromPath depth) root src true)
        fun build => { build with modules := [] } : Building ν ξ ε Unit) begun := rfl
  have room : ¬maxModules ≤ begun.modules.length := Nat.not_le.mpr (Nat.succ_pos 63)
  rw [Development.bind_apply] at unfolded
  by_cases long : maxModulePathBytes < root.length
  · rw [beginModule_long begun room long, bind_some] at unfolded
    exact ⟨_, _, unfolded, .inr (.inr ⟨root, .refl, .pathTooLong long⟩)⟩
  rw [beginModule_new begun room long, bind_some] at unfolded
  have compiles : toolchain.CompilesFrom root src file start.chunk 0
      (toolchain.compileModuleFromPath depth) := compilesFrom_compileModuleFromPath deep
  have one : (begun.begin root true).modules.length ≤ maxModules := Nat.succ_le_succ
    (Nat.zero_le 63)
  rcases ensures_module compiles (Nat.zero_le _) one root src true with
    ⟨outcome, after, runs, -, holds⟩
  have ends : (∀ event ∈ after.events, event.Sound file) →
      toolchain.Ends root src file start.chunk (begun.begin root true) [] root outcome after :=
    fun sound => holds sound [] (decide_eq_true rfl).symm ready_root
      ⟨.begin root true, mem_cons_self, rfl, nofun⟩ (.inl rfl) (if_pos rfl)
  simp only [ExceptT.bindCont] at unfolded
  rw [Program.orElseUpdate, runs] at unfolded
  cases outcome with
  | error err =>
    have failed : toolchain.compileRoot depth root src start =
        some (.error err, { after with modules := [] }) := unfolded
    exact ⟨_, _, failed, ends fun event mem => identifies _ _ failed event mem⟩
  | ok _ =>
    have succeeded : toolchain.compileRoot depth root src start = some (.ok (), after) :=
      unfolded
    rcases ends (identifies _ _ succeeded) with ⟨added, invariant, -⟩
    exact ⟨_, _, succeeded, invariant.compiled_chunk (mem_append_right _ mem_cons_self)⟩

/-- The tokens of an import. -/
def importTokens (name : Bytes) : List Token :=
  [.kwImport, .lparen, .string name, .rparen]

/-- A module that imports some names, and emits a piece. -/
def importAll : List Bytes → Compilation ℕ Unit Empty
  | [] => .emit 0 (.done ())
  | name :: rest => .importing name fun found =>
    match found with
    | .ok _ => importAll rest
    | .error err => .failed err

theorem importAll_asksOnly {names : Bytes → Prop} {imports : List Bytes}
    (all : ∀ name ∈ imports, names name) : (importAll imports).AsksOnly names := by
  induction imports with
  | nil => trivial
  | cons name rest ih =>
    refine ⟨all name mem_cons_self, fun found => ?_⟩
    cases found with
    | error err => trivial
    | ok _ => exact ih fun other mem => all other (mem_cons_of_mem _ mem)

/-- The file that a path denotes in the working directory `app`. -/
def located (path : Bytes) : List Bytes :=
  (lexical path).locate [[97, 112, 112]]

/-- Empty files `a.gengo` and `b.gengo` in the working directory, and a root that imports some
names. -/
def sample (imports : List Bytes) : Toolchain ℕ Unit Empty where
  session := ⟨[], [], [], false⟩
  answers :=
    { sourceExists := fun path => located path ∈ [[[97, 112, 112], 97 :: Host.gengoSuffix],
        [[97, 112, 112], 98 :: Host.gengoSuffix]]
      loadSource := fun _ => .ok [] }
  isCapabilityEnabled _ := false
  isHostModule _ := false
  lex source := if source = [] then [] else (imports.map importTokens).flatten
  scanGlobalDeclarations _ _ := .ok []
  compile _ _ source _ := importAll (if source = [] then [] else imports)
  readIntoSession _ := .error .tooManyGlobals
  compile_asksOnly _ _ source _ := by
    refine importAll_asksOnly fun name mem => ?_
    by_cases empty : source = []
    · rw [if_pos empty] at mem
      exact absurd mem List.not_mem_nil
    · rw [if_neg empty] at mem ⊢
      exact List.infix_of_mem_flatten (List.mem_map_of_mem mem)

/-- Nothing has been compiled. -/
def noBuild : Build ℕ Unit :=
  ⟨[], [], [], []⟩

theorem Assembled.mem_order {chunk : List (Bytes × ν)} {piece : ν}
    (assembled : toolchain.Assembled root src order chunk) (mem : (path, piece) ∈ chunk) :
    path ∈ order := by
  induction assembled with
  | nil => exact absurd mem not_mem_nil
  | snoc _ _ ih =>
    rcases mem_append.mp mem with before | last
    · exact mem_append_left _ (ih before)
    · rcases mem_map.mp last with ⟨_, _, same⟩
      exact mem_append_right _ (mem_singleton.mpr (congrArg Prod.fst same).symm)

/-- The root `m` imports `./a` and `b`. -/
theorem compilesOnce_sample :
    (sample [[46, 47, 97], [98]]).CompilesOnce located 65 [109] [1] noBuild := by
  refine compilesOnce_of_identifiesFiles (by decide) fun outcome build runs => ?_
  have sound : ((sample [[46, 47, 97], [98]]).compileRoot 65 [109] [1] noBuild).all fun last =>
      last.2.events.all fun event => event.Sound located := by decide +kernel
  rw [runs] at sound
  simpa using sound

/-- The root `m` imports `./a` and `/app/a`, which is the same file. -/
theorem not_compilesOnce :
    ¬(sample [[46, 47, 97], [47, 97, 112, 112, 47, 97]]).CompilesOnce located 65 [109] [1]
      noBuild := by
  rintro ⟨outcome, build, runs, gives⟩
  have chunk : ((sample [[46, 47, 97], [47, 97, 112, 112, 47, 97]]).compileRoot 65 [109] [1]
      noBuild).map (fun last => (last.1.isOk, last.2.chunk)) =
      some (true, [(97 :: Host.gengoSuffix, 0), ([47, 97, 112, 112, 47, 97] ++ Host.gengoSuffix, 0),
        ([109], 0)]) := by decide +kernel
  rw [runs, map_some] at chunk
  rcases Prod.mk.inj (some.inj chunk) with ⟨isOk, pieces⟩
  cases outcome with
  | error err => exact nomatch isOk
  | ok _ =>
    rcases gives with ⟨order, code, assembled, same, first, -⟩
    have isCode : code = build.chunk := same.symm
    rw [pieces] at isCode
    have relative : (97 :: Host.gengoSuffix, 0) ∈ code := by simp [isCode]
    have absolute : ([47, 97, 112, 112, 47, 97] ++ Host.gengoSuffix, 0) ∈ code := by
      simp [isCode]
    have one := inj_on_of_nodup_map first.nodup (assembled.mem_order relative)
      (assembled.mem_order absolute) (by decide)
    exact absurd one (by decide)

end Toolchain

end Gengo.Imports
