import Gengo.Imports.Resolution

/-!
# When the import sandbox holds

The resolution of an import tries its candidates one after the other. The sandbox holds for
every file system exactly if the comparison with the roots decides rightly on the candidates,
up to the first one that it refuses. For roots that are spelled plainly it decides by the
location alone.
-/

namespace Gengo.Imports

open List Except
open Bytecode (Bytes)
open Host (slash gengoSuffix Compiling Answers SourceError)
open Mounts (dot dotDot)
open Paths (Component Path walk)

namespace Session

variable (session : Session)

theorem tryAll_cons_package (guarded : Bool) (last : ImportError) (path normalized : Bytes)
    (rest : List Candidate) :
    session.tryAll guarded last (⟨path, normalized, normalized⟩ :: rest) =
      session.tryPackage guarded path normalized (session.tryAll guarded last rest) :=
  rfl

theorem resolvePackage_eq {importName normalized : Bytes}
    (joined : joinAndNormalize dot importName = .ok normalized) :
    ∃ last, session.resolvePackage importName =
        session.tryAll (mightEscape normalized) last (packageCandidates importName) := by
  simp only [resolvePackage, packageCandidates, joined, tryAll_cons_package, suffixed, spellPackage]
  cases ext : appended importName gengoSuffix with
  | error err => exact ⟨err, rfl⟩
  | ok withExt =>
    cases mod : appended importName modSuffix with
    | error err => exact ⟨err, rfl⟩
    | ok withMod => exact ⟨.unsupportedImportModule, rfl⟩

theorem resolveRelative_eq (importerPath importName : Bytes) :
    ∃ last, session.resolveRelative importerPath importName =
        session.tryAll true last (relativeCandidates importerPath importName) := by
  simp only [resolveRelative, relativeCandidates]
  cases joined : joinAndNormalize (dirname importerPath) importName with
  | error err => exact ⟨err, rfl⟩
  | ok exact_ =>
    have flip : ∀ (found : Bool) (yes no : Resolving),
        (if found = false then no else yes) = if found then yes else no := by
      intro found yes no
      cases found <;> rfl
    cases passed : session.isAllowedImportPath exact_ with
    | false => exact ⟨.importNotFound, by simp [tryAll, passed]⟩
    | true =>
      -- The one comparison stands for those of all candidates.
      cases ext : appendSuffix exact_ gengoSuffix with
      | error err =>
        refine ⟨err, ?_⟩
        simp [tryAll, suffixed, spellRelative, ext, passed, flip, Except.map]
      | ok withExt =>
        cases mod : appendSuffix exact_ modSuffix with
        | error err =>
          refine ⟨err, ?_⟩
          simp [tryAll, suffixed, spellRelative, ext, mod, passed, flip, Except.map]
        | ok withMod =>
          refine ⟨.importNotFound, ?_⟩
          simp [tryAll, suffixed, spellRelative, ext, mod, passed, flip, Except.map]

theorem resolveImportPath_eq (importerPath : Bytes) {importName : Bytes}
    (file : namesFile importName = true) :
    ∃ last, session.resolveImportPath importerPath importName =
        session.tryAll (guarded importName) last (candidates importerPath importName) := by
  have notStd : importName ≠ stdModulePath := by
    rintro rfl
    exact absurd file (by decide)
  simp only [resolveImportPath, if_neg notStd, candidates, file]
  by_cases empty : importName = []
  · exact ⟨.importNotFound, by simp [empty, tryAll]⟩
  · cases relative : startsWithDot importName with
    | true =>
      rcases session.resolveRelative_eq importerPath importName with ⟨last, same⟩
      exact ⟨last, by simp [empty, relative, guarded, same]⟩
    | false =>
      cases joined : joinAndNormalize dot importName with
      | error err =>
        exact ⟨err, by simp [empty, resolvePackage, packageCandidates, joined, tryAll]⟩
      | ok normalized =>
        rcases session.resolvePackage_eq joined with ⟨last, same⟩
        exact ⟨last, by simp [empty, relative, guarded, joined, same]⟩

end Session

theorem joinAndNormalize_ok {importName normalized : Bytes}
    (joined : joinAndNormalize dot importName = .ok normalized) :
    normalized = normalizePathInPlace importName := by
  unfold joinAndNormalize at joined
  split at joined
  · split at joined
    · cases joined
    · exact (ok.inj joined).symm
  · split at joined
    · cases joined
    · rw [if_pos rfl] at joined
      exact (ok.inj joined).symm

theorem suffixed_probes {spell : Bytes → Except ImportError Candidate} {base : Bytes}
    (spells : ∀ suffix candidate, spell suffix = .ok candidate →
      candidate.probe = base ++ suffix) (suffixes : List Bytes) :
    (suffixed spell suffixes).map Candidate.probe <+: suffixes.map (base ++ ·) := by
  induction suffixes with
  | nil => exact prefix_refl _
  | cons suffix rest ih =>
    rw [suffixed]
    cases spelled : spell suffix with
    | error err => exact nil_prefix
    | ok candidate =>
      rw [map_cons, map_cons, spells suffix candidate spelled, prefix_cons_inj]
      exact ih

theorem mem_suffixed {spell : Bytes → Except ImportError Candidate} {suffixes : List Bytes}
    {candidate : Candidate} (mem : candidate ∈ suffixed spell suffixes) :
    ∃ suffix, spell suffix = .ok candidate := by
  induction suffixes with
  | nil => cases mem
  | cons suffix rest ih =>
    rw [suffixed] at mem
    cases spelled : spell suffix with
    | error err =>
      rw [spelled] at mem
      cases mem
    | ok first =>
      rw [spelled] at mem
      rcases mem_cons.mp mem with rfl | later
      · exact ⟨suffix, spelled⟩
      · exact ih later

theorem appendSuffix_ok {base suffix path : Bytes}
    (fits : appendSuffix base suffix = .ok path) : path = base ++ suffix := by
  unfold appendSuffix at fits
  split at fits
  · cases fits
  · exact (ok.inj fits).symm

theorem spellRelative_ok {exact_ suffix : Bytes} {candidate : Candidate}
    (fits : spellRelative exact_ suffix = .ok candidate) :
    candidate = ⟨exact_ ++ suffix, exact_, exact_ ++ suffix⟩ := by
  unfold spellRelative at fits
  cases appendFits : appendSuffix exact_ suffix with
  | error err =>
    rw [appendFits] at fits
    cases fits
  | ok path =>
    rw [appendFits] at fits
    rw [← ok.inj fits, appendSuffix_ok appendFits]

theorem spellPackage_ok {importName suffix : Bytes} {candidate : Candidate}
    (fits : spellPackage importName suffix = .ok candidate) :
    candidate = ⟨importName ++ suffix, normalizePathInPlace (importName ++ suffix),
      normalizePathInPlace (importName ++ suffix)⟩ := by
  unfold spellPackage appended at fits
  cases appendFits : appendSuffix importName suffix with
  | error err =>
    rw [appendFits] at fits
    cases fits
  | ok path =>
    cases joined : joinAndNormalize dot path with
    | error err =>
      simp only [appendFits, joined] at fits
      cases fits
    | ok normalized =>
      simp only [appendFits, joined] at fits
      rw [← ok.inj fits, joinAndNormalize_ok joined, appendSuffix_ok appendFits]

theorem candidates_distinct (importerPath importName : Bytes) :
    ((candidates importerPath importName).map Candidate.probe).Nodup := by
  have distinct : ∀ (base : Bytes) (spell : Bytes → Except ImportError Candidate),
      (∀ suffix candidate, spell suffix = .ok candidate → candidate.probe = base ++ suffix) →
      (base :: (suffixed spell [gengoSuffix, modSuffix]).map Candidate.probe).Nodup := by
    intro base spell spells
    have all : ([[], gengoSuffix, modSuffix].map (base ++ ·)).Nodup := by
      apply List.Nodup.map (append_right_injective base)
      decide
    rw [map_cons, append_nil] at all
    have below := suffixed_probes spells [gengoSuffix, modSuffix]
    exact all.sublist (List.Sublist.cons_cons base below.sublist)
  unfold candidates
  split
  · exact nodup_nil
  · split
    · unfold packageCandidates
      split
      · exact nodup_nil
      · exact distinct importName _ fun suffix candidate fits => by rw [spellPackage_ok fits]
    · unfold relativeCandidates
      split
      · exact nodup_nil
      next exact_ _ =>
        exact distinct exact_ _ fun suffix candidate fits => by rw [spellRelative_ok fits]

theorem candidates_locate {importerPath importName : Bytes} {candidate : Candidate}
    (mem : candidate ∈ candidates importerPath importName) (cwd : List Bytes) :
    (lexical candidate.resolved).locate cwd = (lexical candidate.probe).locate cwd := by
  unfold candidates at mem
  split at mem
  · cases mem
  · split at mem
    · unfold packageCandidates at mem
      split at mem
      · cases mem
      next normalized joined =>
        rcases mem_cons.mp mem with rfl | later
        · rw [joinAndNormalize_ok joined]
          exact locate_normalizePathInPlace importName cwd
        · rcases mem_suffixed later with ⟨suffix, fits⟩
          rw [spellPackage_ok fits]
          exact locate_normalizePathInPlace _ cwd
    · unfold relativeCandidates at mem
      split at mem
      · cases mem
      · rcases mem_cons.mp mem with rfl | later
        · rfl
        · rcases mem_suffixed later with ⟨suffix, fits⟩
          rw [spellRelative_ok fits]

namespace Session

variable (session : Session)

theorem compileModuleFromPath_run (path : Bytes) (answers : Answers) :
    (∀ step ∈ ((session.compileModuleFromPath path).run answers).1, step.path = path) ∧
      ((session.compileModuleFromPath path).run answers).2 ≠ .error .importOutsideRoot := by
  unfold compileModuleFromPath
  split
  · simp [Compiling.run]
  · split
    · split <;> simp [Compiling.run]
    · split
      · simp [Compiling.run]
      · split
        · simp [Compiling.run]
        · cases loaded : answers.loadSource path <;> simp [Compiling.run, loaded, Host.Import.path]

/-- What the sandbox asks of the rest of a resolution. -/
def Fine (answers : Answers) (resolving : Resolving) (rest : List Candidate) : Prop :=
  (∀ step ∈ (resolving.run answers).1, session.Allowed step.path) ∧
    ((resolving.run answers).2 = .error .importOutsideRoot →
      ∀ candidate ∈ rest, answers.sourceExists candidate.probe = true →
        ¬session.Allowed candidate.probe)

variable {session}

theorem Allowed.congr {path path' : Bytes} (allowed : session.Allowed path)
    (same : ∀ cwd, (lexical path').locate cwd = (lexical path).locate cwd) :
    session.Allowed path' := by
  rcases allowed with ⟨root, mem, inside⟩
  exact ⟨root, mem, inside.of_locate same⟩

theorem fine_outside_iff {answers : Answers} {rest : List Candidate} :
    session.Fine answers (.done (.error .importOutsideRoot)) rest ↔
      ∀ candidate ∈ rest, answers.sourceExists candidate.probe = true →
        ¬session.Allowed candidate.probe := by
  simp [Fine, Compiling.run]

theorem fine_compileModuleFromPath {answers : Answers} {path : Bytes} {rest : List Candidate}
    (allowed : session.Allowed path) :
    session.Fine answers (session.compileModuleFromPath path) rest := by
  rcases session.compileModuleFromPath_run path answers with ⟨asked, result⟩
  constructor
  · intro step mem
    rw [asked step mem]
    exact allowed
  · intro outside
    exact absurd outside result

theorem fine_probe_iff {answers : Answers} {path : Bytes} {next : Bool → Resolving}
    {rest : List Candidate} :
    session.Fine answers (.probe path next) rest ↔
      session.Allowed path ∧ session.Fine answers (next (answers.sourceExists path)) rest := by
  simp [Fine, Compiling.run, Host.Import.path, and_assoc]

theorem fine_cons_iff {answers : Answers} {resolving : Resolving} {candidate : Candidate}
    {rest : List Candidate} (absent : answers.sourceExists candidate.probe = false) :
    session.Fine answers resolving (candidate :: rest) ↔ session.Fine answers resolving rest := by
  simp [Fine, absent]

/-- For all file systems in which the candidates tried so far are absent, the rest of the
resolution keeps to the sandbox exactly if it is decided rightly. -/
theorem fine_tryAll_iff {guarded : Bool} (last : ImportError) {rest : List Candidate}
    (located : ∀ candidate ∈ rest, ∀ cwd,
      (lexical candidate.resolved).locate cwd = (lexical candidate.probe).locate cwd)
    (tried : List Bytes) (distinct : (tried ++ rest.map Candidate.probe).Nodup) :
    (∀ answers : Answers, (∀ path ∈ tried, answers.sourceExists path = false) →
        session.Fine answers ((session.tryAll guarded last rest).bind session.compileResolved)
          rest) ↔
      session.DecidedRightly guarded rest := by
  induction rest generalizing tried with
  | nil =>
    have fine : ∀ answers, session.Fine answers (.done (.error last)) [] := by
      intro answers
      simp [Fine, Compiling.run]
    exact iff_of_true (fun answers _ => fine answers) trivial
  | cons candidate rest ih =>
    have apart : ∀ path ∈ (candidate :: rest).map Candidate.probe, path ∉ tried :=
      fun path mem tried => disjoint_of_nodup_append distinct tried mem
    have locatedRest := fun later mem => located later (mem_cons_of_mem candidate mem)
    have after := ih locatedRest (tried ++ [candidate.probe]) (by simpa using distinct)
    -- Everything that has not been tried exists.
    let full : Answers := ⟨fun path => path ∉ tried, fun _ => .error .importNotFound⟩
    have fullTried : ∀ path ∈ tried, full.sourceExists path = false := by
      intro path mem
      simp [full, mem]
    have fullHere : full.sourceExists candidate.probe = true := by
      simp [full, apart candidate.probe (by simp)]
    rw [tryAll, DecidedRightly]
    by_cases refuses : (guarded && !session.isAllowedImportPath candidate.gated) = true
    · rw [if_pos refuses, if_pos refuses]
      simp only [Compiling.bind, compileResolved, fine_outside_iff]
      constructor
      · intro fine refused mem
        exact fine full fullTried refused mem
          (by simp [full, apart refused.probe (mem_map_of_mem mem)])
      · intro outside answers _ refused mem _
        exact outside refused mem
    · rw [if_neg refuses, if_neg refuses]
      simp only [Compiling.bind, fine_probe_iff]
      constructor
      · intro fine
        have allowed := (fine full fullTried).1
        refine ⟨allowed, ?_, ?_⟩
        · by_contra refused
          have found := (fine full fullTried).2
          rw [fullHere, Bool.eq_false_iff.mpr refused] at found
          exact fine_outside_iff.mp found candidate mem_cons_self fullHere allowed
        · rw [← after]
          intro answers absent
          have absentHere := absent candidate.probe (by simp)
          have rest_ := (fine answers fun path mem => absent path (by simp [mem])).2
          rw [absentHere, fine_cons_iff absentHere] at rest_
          exact rest_
      · rintro ⟨allowed, passed, decided⟩ answers absent
        refine ⟨allowed, ?_⟩
        cases found : answers.sourceExists candidate.probe with
        | true =>
          rw [passed]
          exact fine_compileModuleFromPath (allowed.congr (located candidate mem_cons_self))
        | false =>
          rw [fine_cons_iff found]
          refine after.mpr decided answers ?_
          intro path mem
          rcases mem_append.mp mem with earlier | here
          · exact absent path earlier
          · rw [mem_singleton.mp here, found]

end Session

/-- A session whose roots are spelled plainly, and not too many. -/
structure PlainSession extends Session where
  plain : ∀ root ∈ sourceRoot :: moduleRoots, plainRoot root = true
  few : moduleRoots.length ≤ maxModuleRoots

/-- A normalized path without doubled separators. -/
structure SinglePath where
  path : Bytes
  normalized : IsNormalized path
  single : Single path

theorem PlainSession.isAllowedImportPath_iff (session : PlainSession) (path : SinglePath) :
    session.isAllowedImportPath path.path = true ↔ session.Allowed path.path := by
  have decides : ∀ root ∈ session.sourceRoot :: session.moduleRoots,
      (pathIsUnderRoot path.path root = true ↔ (lexical path.path).Inside (lexical root)) :=
    fun root mem => pathIsUnderRoot_iff path.normalized path.single (session.plain root mem)
  have named : session.sourceRoot ≠ [] := by
    intro empty
    have plain := session.plain session.sourceRoot mem_cons_self
    rw [empty] at plain
    exact absurd plain (by decide)
  rw [Session.isAllowedImportPath, take_of_length_le session.few]
  simp only [named, decide_false, Bool.false_or, Bool.or_eq_true, any_eq_true,
    Session.Allowed, mem_cons, exists_eq_or_imp]
  rw [decides _ mem_cons_self]
  refine or_congr_right (exists_congr fun root => and_congr_right fun mem => ?_)
  exact decides root (mem_cons_of_mem _ mem)

/-- The import sandbox holds for every file system exactly if the comparison with the roots
decides rightly on the candidates of the import. Under plain roots it is the location that
the comparison decides by. -/
theorem importsSandboxed_iff (session : Session) (importerPath importName : Bytes) :
    ((∀ answers, session.Sandboxed importerPath importName answers) ↔
        session.DecidedRightly (guarded importName) (candidates importerPath importName)) ∧
      ∀ (plain : PlainSession) (path : SinglePath),
        plain.isAllowedImportPath path.path = true ↔ plain.Allowed path.path := by
  refine ⟨?_, PlainSession.isAllowedImportPath_iff⟩
  have fields : (∀ answers, session.Sandboxed importerPath importName answers) ↔
      ∀ answers, session.Fine answers (session.importFile importerPath importName)
        (candidates importerPath importName) :=
    forall_congr' fun answers => ⟨fun sandboxed => ⟨sandboxed.1, sandboxed.2⟩,
      fun fine => ⟨fine.1, fine.2⟩⟩
  rw [fields, Session.importFile]
  cases file : namesFile importName with
  | false =>
    have none_ : candidates importerPath importName = [] := by simp [candidates, file]
    rw [none_]
    refine iff_of_true (fun answers => ?_) trivial
    simp [Session.Fine, Compiling.run]
  | true =>
    rcases session.resolveImportPath_eq importerPath file with
      ⟨last, resolved⟩
    rw [← Session.fine_tryAll_iff last (fun candidate mem => candidates_locate mem) []
      (by simpa using candidates_distinct importerPath importName)]
    simp [resolved]

/-- From the root `src`, the import of `etc` probes a file of that name beside the root. -/
theorem not_importsSandboxed :
    ¬∀ (session : Session) (importerPath importName : Bytes) (answers : Answers),
      session.sourceRoot ≠ [] → session.Sandboxed importerPath importName answers := by
  intro sandboxed
  let session : Session := ⟨[115, 114, 99], [], [], false⟩
  let answers : Answers := ⟨fun _ => false, fun _ => .error .importNotFound⟩
  have confined := (sandboxed session [115, 114, 99, 47, 109] [101, 116, 99] answers
    (by decide)).confined (.probed [101, 116, 99] false) mem_cons_self
  rcases confined with ⟨root, mem, inside⟩
  rw [mem_singleton.mp mem] at inside
  exact absurd (inside []) (by decide)

end Gengo.Imports
