import Gengo.Imports.Building

/-!
# A build under way

The compiled modules stand in an order with the dependencies first, and the modules under way
lead to the one that imports next. A path that leads back to one of them closes a cycle.
-/

namespace Gengo.Imports

open List
open Bytecode (Bytes)
open Fallible (Program Development)
open Orders (DependenciesFirst)
open Relation (ReflTransGen TransGen)

namespace Build

variable {ν ξ φ : Type}

/-- Events are kept, and records are never taken back, up to the limit. -/
structure Grows (build after : Build ν ξ) : Prop where
  events : ∀ event ∈ build.events, event ∈ after.events
  modules : build.modules.length ≤ after.modules.length
  bounded : build.modules.length ≤ maxModules → after.modules.length ≤ maxModules

/-- Builds whose steps identify modules rightly. -/
def development (file : Bytes → φ) : Development (Build ν ξ) where
  grows := Grows
  sound build := ∀ event ∈ build.events, event.Sound file
  refl _ := ⟨fun _ mem => mem, le_rfl, id⟩
  trans first second :=
    ⟨fun event mem => second.events event (first.events event mem),
      first.modules.trans second.modules, fun bound => second.bounded (first.bounded bound)⟩
  sound_of_grows grows sound event mem := sound event (grows.events event mem)

variable {build after : Build ν ξ}

theorem Grows.of_length (events : ∀ event ∈ build.events, event ∈ after.events)
    (same : after.modules.length = build.modules.length) : Grows build after :=
  ⟨events, same.ge, fun bound => same.trans_le bound⟩

theorem grows_record (event : Event ξ) : Grows build (build.record event) :=
  .of_length (fun _ mem => mem_append_left _ mem) rfl

theorem grows_change (path : Bytes) (update : Module ξ → Module ξ) :
    Grows build (build.change path update) :=
  .of_length (fun _ mem => mem) (length_map _)

theorem grows_splice (path : Bytes) (code : List ν) : Grows build (build.splice path code) :=
  .of_length (fun _ mem => mem) rfl

theorem grows_begin {path : Bytes} {isRoot : Bool} (room : build.modules.length < maxModules) :
    Grows build (build.begin path isRoot) := by
  have length : (build.begin path isRoot).modules.length = build.modules.length + 1 :=
    length_append
  exact ⟨fun _ mem => mem, by omega, fun _ => by omega⟩

/-- The build when a path has been looked up. -/
def lookUp (build : Build ν ξ) (path : Bytes) : Build ν ξ :=
  build.record (.lookedUp build.modules path)

theorem sound_lookUp {file : Bytes → φ} {path : Bytes}
    (sound : (development file).sound (build.lookUp path)) :
    (Event.lookedUp build.modules path).Sound file :=
  sound _ (mem_append_right _ mem_cons_self)

end Build

section Records

variable {ξ : Type} {modules : List (Module ξ)} {path : Bytes} {record : Module ξ}

theorem mem_of_findModule (found : findModule modules path = some record) : record ∈ modules :=
  mem_of_find?_eq_some found

theorem findModule_isSome (mem : record ∈ modules) :
    ∃ found, findModule modules record.path = some found := by
  refine Option.isSome_iff_exists.mp (List.find?_isSome.mpr ⟨record, mem, ?_⟩)
  rw [beq_self_eq_true, Bool.true_or]

theorem path_ne_of_findModule (none_ : findModule modules path = none) (mem : record ∈ modules) :
    record.path ≠ path := by
  rintro rfl
  rcases findModule_isSome mem with ⟨found, isFound⟩
  rw [none_] at isFound
  exact nomatch isFound

end Records

theorem importedIn_of_mem_scanImports {tokens : List Token} {name : Bytes}
    (mem : .ok name ∈ scanImports tokens) : ImportedIn tokens name := by
  have later : ∀ (before : List Token) {rest : List Token}, ImportedIn rest name →
      ImportedIn (before ++ rest) name :=
    fun _ _ imported => imported.trans (suffix_append _ _).isInfix
  fun_induction scanImports tokens with
  | case1 | case2 | case3 | case4 => simp at mem
  | case5 other rest ih =>
    rcases mem_cons.mp mem with same | mem
    · cases same
      exact (prefix_append [_, _, _, _] rest).isInfix
    · exact later [_, _, _, _] (ih mem)
  | case6 _ _ _ _ ih => exact later [_, _, _, _] (ih mem)
  | case7 _ _ _ _ ih => exact later [_, _, _] (ih mem)
  | case8 _ _ _ _ _ ih => exact later [_, _] (ih mem)
  | case9 _ _ _ _ _ _ _ _ _ ih => exact later [_] (ih mem)

namespace Toolchain

variable {ν ξ ε φ : Type} {toolchain : Toolchain ν ξ ε} {root src : Bytes}

/-- Paths that are those seen before and those of the imports that a scan meets. -/
structure Resolves (toolchain : Toolchain ν ξ ε) (importerPath : Bytes) (imports : List Bytes)
    (met : List (Except ScanError Bytes)) (paths : List Bytes) : Prop where
  kept : ∀ path ∈ imports, path ∈ paths
  named : ∀ name, .ok name ∈ met → namesFile name = true →
    ∃ path ∈ paths, toolchain.resolveImportPath importerPath name = .ok path
  only : ∀ path ∈ paths, path ∈ imports ∨ ∃ name, .ok name ∈ met ∧ namesFile name = true ∧
    toolchain.resolveImportPath importerPath name = .ok path

variable {importerPath : Bytes} {imports paths : List Bytes}

theorem Resolves.skip {name : Bytes} {rest : List (Except ScanError Bytes)}
    (others : toolchain.Resolves importerPath imports rest paths)
    (named : namesFile name = true → ∃ path ∈ paths,
      toolchain.resolveImportPath importerPath name = .ok path) :
    toolchain.Resolves importerPath imports (.ok name :: rest) paths where
  kept := others.kept
  named other mem isFile := by
    rcases mem_cons.mp mem with same | later
    · cases same
      exact named isFile
    · exact others.named other later isFile
  only path mem :=
    (others.only path mem).imp_right fun ⟨other, met, found⟩ =>
      ⟨other, mem_cons_of_mem _ met, found⟩

theorem Resolves.take {name path : Bytes} {rest : List (Except ScanError Bytes)}
    (others : toolchain.Resolves importerPath (imports ++ [path]) rest paths)
    (isFile : namesFile name = true)
    (resolves : toolchain.resolveImportPath importerPath name = .ok path) :
    toolchain.Resolves importerPath imports (.ok name :: rest) paths where
  kept other mem := others.kept other (mem_append_left _ mem)
  named other mem isFile := by
    rcases mem_cons.mp mem with same | later
    · cases same
      exact ⟨path, others.kept path (by simp), resolves⟩
    · exact others.named other later isFile
  only other mem := by
    rcases others.only other mem with seen | ⟨found, met, isFile, resolves⟩
    · rcases mem_append.mp seen with earlier | last
      · exact .inl earlier
      · rw [mem_singleton.mp last]
        exact .inr ⟨name, mem_cons_self, isFile, resolves⟩
    · exact .inr ⟨found, mem_cons_of_mem _ met, isFile, resolves⟩

theorem resolves_of_ok {met : List (Except ScanError Bytes)}
    (resolved : toolchain.resolveImports importerPath imports met = .ok paths) :
    toolchain.Resolves importerPath imports met paths := by
  fun_induction resolveImports toolchain importerPath imports met with
  | case1 imports =>
    cases resolved
    exact ⟨fun _ mem => mem, nofun, fun _ mem => .inl mem⟩
  | case2 | case4 | case6 => exact nomatch resolved
  | case3 imports name rest builtin ih =>
    have notFile : namesFile name = false := by simpa using builtin
    exact (ih resolved).skip fun isFile => absurd (notFile ▸ isFile) nofun
  | case5 imports name rest _ path resolves seen ih =>
    have others := ih resolved
    exact others.skip fun _ => ⟨path, others.kept path seen, resolves⟩
  | case7 imports name rest isFile path resolves _ _ ih =>
    exact (ih resolved).take (by simpa using isFile) resolves

variable (toolchain root src) in
/-- The records are of different files, all of them reachable, and the compiled ones stand in an
order with the dependencies first, in which the chunk has their code. -/
structure Invariant (file : Bytes → φ) (earlier : List (Bytes × ν)) (build : Build ν ξ)
    (order : List Bytes) : Prop where
  rooted : ∃ record ∈ build.modules, record.path = root
  reached : ∀ record ∈ build.modules, toolchain.Reaches root src record.path
  files : (build.modules.map fun record => file record.path).Nodup
  compiled : ∀ path, path ∈ order ↔
    ∃ record ∈ build.modules, record.path = path ∧ record.state = .compiled
  first : DependenciesFirst (toolchain.Requires root src) order
  assembled : ∃ code, toolchain.Assembled root src order code ∧ build.chunk = earlier ++ code

variable (toolchain root src) in
/-- A module is to import: every module under way leads to it. -/
structure Ready (file : Bytes → φ) (earlier : List (Bytes × ν)) (build : Build ν ξ)
    (order : List Bytes) (importer : Bytes) : Prop where
  invariant : toolchain.Invariant root src file earlier build order
  reaches : toolchain.Reaches root src importer
  leads : ∀ record ∈ build.modules, record.state ≠ .compiled →
    ReflTransGen (toolchain.Requires root src) record.path importer

/-- Only compiled modules have been added. -/
def Extends (build after : Build ν ξ) : Prop :=
  ∃ added, after.modules = build.modules ++ added ∧ ∀ record ∈ added, record.state = .compiled

variable {file : Bytes → φ} {earlier : List (Bytes × ν)} {build after : Build ν ξ}
  {order : List Bytes} {path importer : Bytes}

theorem Extends.refl (same : after.modules = build.modules) : Extends build after :=
  ⟨[], by rw [same, append_nil], nofun⟩

theorem Extends.trans {last : Build ν ξ} (first : Extends build after)
    (second : Extends after last) : Extends build last := by
  rcases first with ⟨added, eq, compiled⟩
  rcases second with ⟨added', eq', compiled'⟩
  refine ⟨added ++ added', by rw [eq', eq, append_assoc], ?_⟩
  intro record mem
  exact (mem_append.mp mem).elim (compiled record) (compiled' record)

namespace Invariant

section

variable (invariant : toolchain.Invariant root src file earlier build order)
include invariant

theorem unique {record other : Module ξ} (mem : record ∈ build.modules)
    (mem' : other ∈ build.modules) (same : record.path = other.path) : record = other :=
  inj_on_of_nodup_map invariant.files mem mem' (congrArg file same)

theorem congr (modules : after.modules = build.modules) (chunk : after.chunk = build.chunk) :
    toolchain.Invariant root src file earlier after order where
  rooted := modules ▸ invariant.rooted
  reached := modules ▸ invariant.reached
  files := modules ▸ invariant.files
  compiled := modules ▸ invariant.compiled
  first := invariant.first
  assembled := chunk ▸ invariant.assembled

theorem begin (reaches : toolchain.Reaches root src path) {isRoot : Bool}
    (fresh : ∀ record ∈ build.modules, file record.path ≠ file path) :
    toolchain.Invariant root src file earlier (build.begin path isRoot) order where
  rooted := invariant.rooted.imp fun _ known => ⟨mem_append_left _ known.1, known.2⟩
  reached record mem := by
    rcases mem_append.mp mem with known | new
    · exact invariant.reached record known
    · rw [mem_singleton.mp new]
      exact reaches
  files := by
    rw [Build.begin, map_append, nodup_append]
    refine ⟨invariant.files, nodup_singleton _, ?_⟩
    intro one mem other mem'
    rcases mem_map.mp mem with ⟨record, isRecord, rfl⟩
    rw [map_singleton, mem_singleton] at mem'
    rw [mem']
    exact fresh record isRecord
  compiled other := by
    rw [invariant.compiled]
    constructor
    · rintro ⟨record, mem, same⟩
      exact ⟨record, mem_append_left _ mem, same⟩
    · rintro ⟨record, mem, same, isCompiled⟩
      rcases mem_append.mp mem with known | new
      · exact ⟨record, known, same, isCompiled⟩
      · rw [mem_singleton.mp new] at isCompiled
        exact nomatch isCompiled
  first := invariant.first
  assembled := invariant.assembled

/-- A module under way is completed, with its dependencies in the order. -/
theorem complete (update : Module ξ → Module ξ)
    (path_eq : ∀ record, (update record).path = record.path)
    (state_eq : ∀ record, (update record).state = .compiled)
    (known : ∃ record ∈ build.modules, record.path = path) (fresh : path ∉ order)
    (ready : ∀ target, toolchain.Requires root src path target → target ∈ order) {code : List ν}
    (isCode : toolchain.IsCode root src path code) (modules : after.modules = build.modules)
    (chunk : after.chunk = build.chunk ++ code.map fun piece => (path, piece)) :
    toolchain.Invariant root src file earlier (after.change path update) (order ++ [path]) := by
  have kept : ∀ record : Module ξ,
      (if record.path = path then update record else record).path = record.path := by
    intro record
    split
    · exact path_eq record
    · rfl
  have mem_iff : ∀ {record}, record ∈ (after.change path update).modules ↔
      ∃ old ∈ build.modules, (if old.path = path then update old else old) = record := by
    intro record
    rw [← modules]
    exact mem_map
  constructor
  · rcases invariant.rooted with ⟨record, mem, rfl⟩
    exact ⟨_, mem_iff.mpr ⟨record, mem, rfl⟩, kept record⟩
  · intro record mem
    rcases mem_iff.mp mem with ⟨old, isOld, rfl⟩
    rw [kept]
    exact invariant.reached old isOld
  · have same : ((after.change path update).modules.map fun record => file record.path) =
        build.modules.map fun record => file record.path := by
      rw [Build.change, modules, map_map]
      exact map_congr_left fun record _ => congrArg file (kept record)
    rw [same]
    exact invariant.files
  · intro other
    rw [mem_append, invariant.compiled, mem_singleton]
    constructor
    · rintro (⟨record, mem, rfl, isCompiled⟩ | rfl)
      · refine ⟨_, mem_iff.mpr ⟨record, mem, rfl⟩, kept record, ?_⟩
        split
        · exact state_eq record
        · exact isCompiled
      · rcases known with ⟨record, mem, rfl⟩
        refine ⟨_, mem_iff.mpr ⟨record, mem, rfl⟩, kept record, ?_⟩
        rw [if_pos rfl]
        exact state_eq record
    · rintro ⟨record, mem, rfl, isCompiled⟩
      rcases mem_iff.mp mem with ⟨old, isOld, rfl⟩
      rw [kept]
      by_cases isPath : old.path = path
      · exact .inr isPath
      · rw [if_neg isPath] at isCompiled
        exact .inl ⟨old, isOld, rfl, isCompiled⟩
  · exact invariant.first.snoc fresh ready
  · rcases invariant.assembled with ⟨earlierCode, assembled, same⟩
    exact ⟨_, assembled.snoc isCode, by rw [Build.change, chunk, same, append_assoc]⟩

end

end Invariant

namespace Ready

section

variable (ready : toolchain.Ready root src file earlier build order importer)
include ready

theorem extend {added : List Bytes}
    (invariant : toolchain.Invariant root src file earlier after (order ++ added))
    (extends_ : Extends build after) :
    toolchain.Ready root src file earlier after (order ++ added) importer where
  invariant := invariant
  reaches := ready.reaches
  leads record mem notCompiled := by
    rcases extends_ with ⟨new, eq, compiled⟩
    rw [eq] at mem
    rcases mem_append.mp mem with known | isNew
    · exact ready.leads record known notCompiled
    · exact absurd (compiled record isNew) notCompiled

theorem reaches_of_requires (requires : toolchain.Requires root src importer path) :
    toolchain.Reaches root src path :=
  ready.reaches.tail requires

theorem begin (requires : toolchain.Requires root src importer path)
    (fresh : ∀ record ∈ build.modules, file record.path ≠ file path) :
    toolchain.Ready root src file earlier ((build.lookUp path).begin path false) order path where
  invariant := (ready.invariant.congr rfl rfl : toolchain.Invariant root src file earlier
    (build.lookUp path) order).begin (ready.reaches_of_requires requires) fresh
  reaches := ready.reaches_of_requires requires
  leads record mem notCompiled := by
    rcases mem_append.mp mem with known | new
    · exact (ready.leads record known notCompiled).tail requires
    · rw [mem_singleton.mp new]
      exact .refl

end

theorem fileRequires {target : Bytes} (reaches : toolchain.Reaches root src path)
    (needs : TransGen (toolchain.Requires root src) path target) :
    TransGen (toolchain.FileRequires root src file) (file path) (file target) := by
  have reached : ∀ {middle}, TransGen (toolchain.Requires root src) path middle →
      toolchain.Reaches root src middle :=
    fun needs => ReflTransGen.trans reaches needs.to_reflTransGen
  induction needs with
  | single need => exact .single ⟨path, _, reaches, need, rfl, rfl⟩
  | tail before need ih =>
    exact ih.tail ⟨_, _, reached before, need, rfl, rfl⟩

/-- An import of a module under way closes a cycle. -/
theorem cycle (ready : toolchain.Ready root src file earlier build order importer)
    (requires : toolchain.Requires root src importer path) {record : Module ξ}
    (mem : record ∈ build.modules) (same : record.path = path)
    (notCompiled : record.state ≠ .compiled) :
    toolchain.Fails root src file (.importing .importCycle) := by
  have back := ready.leads record mem notCompiled
  rw [same] at back
  exact .inl ⟨rfl, path, ready.reaches_of_requires requires,
    fileRequires (ready.reaches_of_requires requires) (.tail' back requires)⟩

theorem limit (ready : toolchain.Ready root src file earlier build order importer)
    (requires : toolchain.Requires root src importer path)
    (fresh : ∀ record ∈ build.modules, file record.path ≠ file path)
    (full : maxModules ≤ build.modules.length) :
    toolchain.Fails root src file (.importing .moduleLimitExceeded) := by
  have begun := (ready.begin requires fresh).invariant
  refine .inr (.inl ⟨rfl, ((build.lookUp path).begin path false).modules.map (·.path), ?_, ?_, ?_⟩)
  · intro other mem
    rcases mem_map.mp mem with ⟨record, isRecord, rfl⟩
    exact begun.reached record isRecord
  · rw [map_map]
    exact begun.files
  · rw [length_map]
    exact Nat.lt_of_le_of_lt full (length_append ▸ Nat.lt_succ_self _)

end Ready

end Toolchain

end Gengo.Imports
