import Gengo.Imports.Paths

/-!
# Normalized paths

The invariant of `normalizePathInPlace`: what is written consists of the steps up that nothing
cancels and of names, the recorded starts tell them apart, and it leads where the segments
read so far lead. From it follow the meaning and the shape of a normalized path, and what the
textual comparison with a root decides.
-/

namespace Gengo.Imports

open List
open Bytecode (Bytes)
open Host (slash)
open Mounts (dot dotDot)
open Paths (Component Path walk)

/-- The next segment can be written at once. -/
def Ready (buf : Bytes) : Prop :=
  buf = [] ∨ buf.getLast? = some slash

/-- A written buffer, its recorded segments, and the segments that it spells. -/
inductive Written (absolute : Bool) : Bytes → List (ℕ × Bool) → List Bytes → Prop
  | begin : Written absolute (if absolute then [slash] else []) [] []
  | name {base : Bytes} {segs : List (ℕ × Bool)} {spelled : List Bytes} {seg : Bytes}
      (before : Written absolute base segs spelled) (ready : Ready base) (named : IsName seg) :
      Written absolute (base ++ seg) ((base.length, false) :: segs) (spelled ++ [seg])
  | up {base : Bytes} {segs : List (ℕ × Bool)} {count : ℕ}
      (before : Written absolute base segs (List.replicate count dotDot)) (ready : Ready base)
      (relative : absolute = false) :
      Written absolute (base ++ dotDot) ((base.length, true) :: segs)
        (List.replicate (count + 1) dotDot)
  | separator {buf : Bytes} {segs : List (ℕ × Bool)} {spelled : List Bytes}
      (before : Written absolute buf segs spelled) (written : buf ≠ []) :
      Written absolute (buf ++ [slash]) segs spelled

namespace Written

variable {absolute : Bool} {buf : Bytes} {segs : List (ℕ × Bool)} {spelled : List Bytes}

section

variable (written : Written absolute buf segs spelled)
include written

/-- The segments are steps up, none of them in an absolute path, and then names. -/
theorem shape :
    ∃ (ups : ℕ) (names : List Bytes), spelled = List.replicate ups dotDot ++ names ∧
      (∀ name ∈ names, IsName name) ∧ (absolute = true → ups = 0) := by
  induction written with
  | begin => exact ⟨0, [], rfl, by simp, fun _ => rfl⟩
  | @name _ _ _ seg _ _ named ih =>
    rcases ih with ⟨ups, names, rfl, proper, fromTop⟩
    refine ⟨ups, names ++ [seg], by simp, ?_, fromTop⟩
    intro name mem
    rcases mem_append.mp mem with earlier | last
    · exact proper name earlier
    · exact mem_singleton.mp last ▸ named
  | @up _ _ count _ _ relative _ =>
    exact ⟨count + 1, [], by simp, by simp, by simp [relative]⟩
  | separator _ _ ih => exact ih

/-- Without a recorded segment, or after a `..`, there are only steps up. -/
theorem only_ups (last : ∀ start rest, segs ≠ (start, false) :: rest) :
    ∃ count, spelled = List.replicate count dotDot := by
  induction written with
  | begin => exact ⟨0, rfl⟩
  | name => exact absurd rfl (last _ _)
  | @up _ _ count => exact ⟨count + 1, rfl⟩
  | separator _ _ ih => exact ih last

theorem start_le {start : ℕ} {up : Bool} {rest : List (ℕ × Bool)}
    (last : segs = (start, up) :: rest) : start ≤ buf.length := by
  induction written with
  | begin => simp at last
  | name | up =>
    have start_eq := congrArg Prod.fst (List.cons.inj last).1
    simp only at start_eq
    simp [← start_eq]
  | separator _ _ ih =>
    rw [length_append]
    exact Nat.le_add_right_of_le (ih last)

theorem take {start : ℕ} {rest : List (ℕ × Bool)} (last : segs = (start, false) :: rest) :
    ∃ earlier seg, spelled = earlier ++ [seg] ∧ IsName seg ∧
      Written absolute (buf.take start) rest earlier := by
  induction written with
  | begin | up => simp at last
  | @name base _ earlier seg before _ named _ =>
    have parts := List.cons.inj last
    have start_eq : base.length = start := congrArg Prod.fst parts.1
    subst start_eq
    rw [take_left', ← parts.2]
    · exact ⟨earlier, seg, rfl, named, before⟩
    · rfl
  | separator before _ ih =>
    rw [take_append_of_le_length (before.start_le last)]
    exact ih last

/-- A separator, unless the buffer is empty or ends with one. -/
theorem separate :
    Written absolute (if buf ≠ [] ∧ buf.getLast? ≠ some slash then buf ++ [slash] else buf)
        segs spelled ∧
      Ready (if buf ≠ [] ∧ buf.getLast? ≠ some slash then buf ++ [slash] else buf) := by
  by_cases open_ : buf ≠ [] ∧ buf.getLast? ≠ some slash
  · rw [if_pos open_]
    exact ⟨written.separator open_.1, .inr (by simp)⟩
  · rw [if_neg open_]
    refine ⟨written, ?_⟩
    by_cases empty : buf = []
    · exact .inl empty
    · exact .inr (not_not.mp fun other => open_ ⟨empty, other⟩)

/-- A separator, unless the buffer is empty. -/
theorem separateAll :
    Written absolute (if buf ≠ [] then buf ++ [slash] else buf) segs spelled ∧
      Ready (if buf ≠ [] then buf ++ [slash] else buf) := by
  by_cases empty : buf = []
  · rw [if_neg (not_not.mpr empty)]
    exact ⟨written, .inl empty⟩
  · rw [if_pos empty]
    exact ⟨written.separator empty, .inr (by simp)⟩

end

end Written

/-- What is written leads from a directory where the segments read so far lead. -/
def Writing.Reads (absolute : Bool) (writing : Writing) (read : List Bytes) : Prop :=
  ∃ spelled, Written absolute writing.buf writing.segs spelled ∧
    ∀ dir, (absolute = true → dir = []) →
      walk dir (spelled.map component) = walk dir (read.map component)

theorem component_dotDot : component dotDot = .up := by
  decide

theorem component_dot : component dot = .here := by
  decide

theorem Writing.Reads.segment {absolute : Bool} {writing : Writing} {read : List Bytes}
    {seg : Bytes} (reads : writing.Reads absolute read) (full : seg ≠ [])
    (whole : slash ∉ seg) : (writing.segment absolute seg).Reads absolute (read ++ [seg]) := by
  rcases reads with ⟨spelled, written, leads⟩
  unfold Writing.segment
  by_cases isDot : seg = dot
  · rw [if_pos isDot]
    refine ⟨spelled, written, ?_⟩
    intro dir fromTop
    simp [leads dir fromTop, isDot, component_dot, Component.enter]
  rw [if_neg isDot]
  by_cases isUp : seg = dotDot
  · rw [if_pos isUp]
    split
    next start rest last =>
      rcases written.take last with ⟨earlier, name, rfl, named, before⟩
      refine ⟨earlier, before, ?_⟩
      intro dir fromTop
      have after := leads dir fromTop
      rw [map_append, Paths.walk_append] at after
      simp [← after, isUp, component_dotDot, named.component, Component.enter]
    next segs notName =>
      rcases written.only_ups notName with ⟨count, rfl⟩
      cases absolute with
      | true =>
        rw [if_pos rfl]
        refine ⟨_, written, ?_⟩
        intro dir fromTop
        rcases fromTop rfl
        have after := leads [] fun _ => rfl
        rw [map_append, Paths.walk_append, ← after, isUp, map_replicate,
          component_dotDot, Paths.walk_ups]
        simp [component_dotDot, Component.enter]
      | false =>
        rw [if_neg Bool.false_ne_true]
        refine ⟨_, written.separateAll.1.up written.separateAll.2 rfl, ?_⟩
        intro dir fromTop
        rw [replicate_succ', map_append, Paths.walk_append, leads dir fromTop, isUp,
          map_append, Paths.walk_append]
  · rw [if_neg isUp]
    have named : IsName seg := ⟨full, isDot, isUp, whole⟩
    refine ⟨_, written.separate.1.name written.separate.2 named, ?_⟩
    intro dir fromTop
    simp [leads dir fromTop]

theorem Writing.Reads.foldl {absolute : Bool} {writing : Writing} {read segs : List Bytes}
    (reads : writing.Reads absolute read) (full : ∀ seg ∈ segs, seg ≠ [] ∧ slash ∉ seg) :
    (segs.foldl (Writing.segment absolute) writing).Reads absolute (read ++ segs) := by
  induction segs generalizing writing read with
  | nil => rwa [append_nil]
  | cons seg segs ih =>
    have first := full seg mem_cons_self
    have after := ih (reads.segment first.1 first.2)
      fun later mem => full later (mem_cons_of_mem seg mem)
    rwa [append_assoc, singleton_append] at after

theorem reads_segments (path : Bytes) :
    ((segments path).foldl (Writing.segment (isAbsolute path)) (.begin (isAbsolute path))).Reads
      (isAbsolute path) (segments path) := by
  have start : (Writing.begin (isAbsolute path)).Reads (isAbsolute path) [] :=
    ⟨[], .begin, fun _ _ => rfl⟩
  refine start.foldl ?_
  intro seg mem
  rcases mem_filter.mp mem with ⟨split, full⟩
  exact ⟨by simpa using full, slash_notMem_of_mem_splitOn split⟩

theorem isAbsolute_append {base rest : Bytes} (written : base ≠ []) :
    isAbsolute (base ++ rest) = isAbsolute base := by
  cases base with
  | nil => exact absurd rfl written
  | cons byte base => rfl

theorem isAbsolute_eq_false {seg : Bytes} (whole : slash ∉ seg) : isAbsolute seg = false := by
  cases seg with
  | nil => rfl
  | cons byte seg =>
    have other : byte ≠ slash := fun same => whole (by simp [same])
    simp [isAbsolute, other]

theorem significant_slash (first last : Bytes) :
    significant (first ++ slash :: last) = significant first ++ significant last := by
  rw [significant, splitOn_append_cons_self, filter_append]
  rfl

theorem Ready.exists_slash {base : Bytes} (ready : Ready base) (written : base ≠ []) :
    ∃ first, base = first ++ [slash] :=
  List.getLast?_eq_some_iff.mp (ready.resolve_left written)

theorem Ready.significant_append {base : Bytes} (ready : Ready base) (seg : Bytes) :
    significant (base ++ seg) = significant base ++ significant seg := by
  by_cases empty : base = []
  · rw [empty]
    rfl
  · rcases ready.exists_slash empty with ⟨first, rfl⟩
    rw [append_assoc, singleton_append, significant_slash, significant_slash]
    have nothing : significant [] = [] := by decide
    rw [nothing, append_nil]

theorem significant_segment {seg : Bytes} (full : seg ≠ []) (notDot : seg ≠ dot)
    (whole : slash ∉ seg) : significant seg = [seg] := by
  rw [significant, splitOn_eq_singleton whole]
  simp [full, notDot]

namespace Written

variable {absolute : Bool} {buf : Bytes} {segs : List (ℕ × Bool)} {spelled : List Bytes}

theorem isAbsolute_eq (written : Written absolute buf segs spelled) :
    isAbsolute buf = absolute := by
  have push : ∀ {base seg : Bytes}, isAbsolute base = absolute → slash ∉ seg →
      isAbsolute (base ++ seg) = absolute := by
    intro base seg before whole
    by_cases empty : base = []
    · subst empty
      rw [nil_append, isAbsolute_eq_false whole, ← before]
      rfl
    · rw [isAbsolute_append empty, before]
  induction written with
  | begin => cases absolute <;> rfl
  | name _ _ named ih => exact push ih named.2.2.2
  | up _ _ _ ih => exact push ih slash_notMem_dotDot
  | separator _ full ih => rw [isAbsolute_append full, ih]

theorem significant_eq (written : Written absolute buf segs spelled) :
    significant buf = spelled := by
  induction written with
  | begin => cases absolute <;> decide
  | name _ ready named ih =>
    rw [ready.significant_append, ih, significant_segment named.1 named.2.1 named.2.2.2]
  | up _ ready _ ih =>
    rw [ready.significant_append, ih, replicate_succ']
    congr 1
  | @separator buf _ _ _ _ ih =>
    have nothing : significant [] = [] := by decide
    rw [significant_slash, ih, nothing, append_nil]

end Written

/-- What `normalizePathInPlace` returns: a written buffer, or a dot instead of an empty one. -/
def IsNormalized (path : Bytes) : Prop :=
  path = dot ∨ path ≠ [] ∧ ∃ absolute segs spelled, Written absolute path segs spelled

theorem isNormalized_normalizePathInPlace (path : Bytes) :
    IsNormalized (normalizePathInPlace path) := by
  rcases reads_segments path with ⟨_, written, -⟩
  rw [normalizePathInPlace]
  split
  case isTrue => exact .inl rfl
  case isFalse full => exact .inr ⟨full, _, _, _, written⟩

theorem isAbsolute_dot (buf : Bytes) :
    isAbsolute (if buf = [] then dot else buf) = isAbsolute buf := by
  by_cases empty : buf = []
  · rw [if_pos empty, empty]
    decide
  · rw [if_neg empty]

theorem significant_dot (buf : Bytes) :
    significant (if buf = [] then dot else buf) = significant buf := by
  by_cases empty : buf = []
  · rw [if_pos empty, empty]
    decide
  · rw [if_neg empty]

variable {path : Bytes}

theorem start_congr {path' : Bytes} (same : isAbsolute path = isAbsolute path') (cwd : List Bytes) :
    (lexical path).start cwd = (lexical path').start cwd := by
  have absolute : (lexical path).absolute = (lexical path').absolute := same
  rw [Path.start, Path.start, absolute]

theorem locate_normalizePathInPlace (path : Bytes) (cwd : List Bytes) :
    (lexical (normalizePathInPlace path)).locate cwd = (lexical path).locate cwd := by
  rcases reads_segments path with ⟨spelled, written, leads⟩
  have absolute : isAbsolute (normalizePathInPlace path) = isAbsolute path := by
    rw [normalizePathInPlace, isAbsolute_dot, written.isAbsolute_eq]
  have spells : significant (normalizePathInPlace path) = spelled := by
    rw [normalizePathInPlace, significant_dot, written.significant_eq]
  have start := start_congr absolute cwd
  have fromTop : isAbsolute path = true → (lexical path).start cwd = [] := by
    intro isTop
    simp [Path.start, lexical, isTop]
  rw [lexical_locate, lexical_locate, spells, start, leads _ fromTop, ← walk_significant,
    segments, filter_filter, significant]
  congr 3
  funext seg
  simp
  tauto

theorem Path.inside_congr {path path' root root' : Path Bytes}
    (paths : ∀ cwd, path.locate cwd = path'.locate cwd)
    (roots : ∀ cwd, root.locate cwd = root'.locate cwd) :
    path.Inside root ↔ path'.Inside root' := by
  simp only [Path.Inside, paths, roots]

/-- Steps up that come first, then at least one name, with single separators only between
them. -/
def plainPath (root : Bytes) : Bool :=
  let segs := root.splitOn slash
  let names := if isAbsolute root then segs.tail else segs.dropWhile (· = dotDot)
  names ≠ [] ∧ names.all fun seg => ¬(seg = [] ∨ seg = dot ∨ seg = dotDot)

/-- The dot, or a plain path, or a relative one after `./`. -/
def plainRoot (root : Bytes) : Bool :=
  root = dot ∨
    if (dot ++ [slash]).isPrefixOf root then plainPath (root.drop 2) ∧ ¬isAbsolute (root.drop 2)
    else plainPath root

/-- A path without two separators in a row. -/
def Single (path : Bytes) : Prop :=
  ¬[slash, slash] <:+: path

/-- The components of a path with given steps up and names. -/
def components (absolute : Bool) (ups : ℕ) (names : List Bytes) : List Bytes :=
  (if absolute then [[]] else []) ++ (List.replicate ups dotDot ++ names)

variable {root : Bytes}

theorem isNamePart {seg : Bytes} (mem : seg ∈ root.splitOn slash)
    (proper : ¬(seg = [] ∨ seg = dot ∨ seg = dotDot)) : IsName seg := by
  simp only [not_or] at proper
  exact ⟨proper.1, proper.2.1, proper.2.2, slash_notMem_of_mem_splitOn mem⟩

theorem splitOn_of_plainPath (plain : plainPath root = true) :
    ∃ (ups : ℕ) (names : List Bytes),
      root.splitOn slash = components (isAbsolute root) ups names ∧ names ≠ [] ∧
        (∀ name ∈ names, IsName name) ∧ (isAbsolute root = true → ups = 0) := by
  simp only [plainPath, decide_eq_true_eq, all_eq_true] at plain
  cases absolute : isAbsolute root with
  | true =>
    rw [absolute, if_pos rfl] at plain
    refine ⟨0, (root.splitOn slash).tail, ?_, plain.1, ?_, fun _ => rfl⟩
    · cases root with
      | nil => simp [isAbsolute] at absolute
      | cons byte rest =>
        have first : byte = slash := by simpa [isAbsolute] using absolute
        simp [first, splitOn_cons_eq_if_modifyHead, components]
    · intro name mem
      exact isNamePart (mem_of_mem_tail mem) (plain.2 name mem)
  | false =>
    rw [absolute, if_neg Bool.false_ne_true] at plain
    refine ⟨((root.splitOn slash).takeWhile (· = dotDot)).length,
      (root.splitOn slash).dropWhile (· = dotDot), ?_, plain.1, ?_, by simp⟩
    · have ups : (root.splitOn slash).takeWhile (· = dotDot) =
          List.replicate ((root.splitOn slash).takeWhile (· = dotDot)).length dotDot := by
        apply eq_replicate_of_mem
        intro seg mem
        simpa using mem_takeWhile_imp mem
      rw [components, ← ups, if_neg Bool.false_ne_true, nil_append, takeWhile_append_dropWhile]
    · intro name mem
      exact isNamePart ((dropWhile_sublist _).subset mem) (plain.2 name mem)

/-- Steps up and names, as `significant` reads them. -/
structure Reading (path : Bytes) (ups : ℕ) (names : List Bytes) : Prop where
  spells : significant path = List.replicate ups dotDot ++ names
  names : ∀ name ∈ names, IsName name
  fromTop : isAbsolute path = true → ups = 0

variable {ups : ℕ} {names : List Bytes}

theorem Reading.locate (reading : Reading path ups names) (cwd : List Bytes) :
    (lexical path).locate cwd = (Path.normal (isAbsolute path) ups names).locate cwd := by
  have named : names.map component = names.map .name :=
    map_congr_left fun name mem => (reading.names name mem).component
  rw [lexical_locate, reading.spells, map_append, map_replicate, component_dotDot, named]
  rfl

theorem Reading.inside_iff {rootUps : ℕ} {rootNames : List Bytes}
    (reading : Reading path ups names) (rootReading : Reading root rootUps rootNames)
    (anchored : rootNames ≠ [] ∨ isAbsolute root = false ∧ rootUps = 0) :
    (lexical path).Inside (lexical root) ↔
      isAbsolute path = isAbsolute root ∧ ups = rootUps ∧ rootNames <+: names := by
  rw [Path.inside_congr reading.locate rootReading.locate]
  exact Path.inside_normal_iff reading.fromTop rootReading.fromTop anchored

theorem IsNormalized.exists_reading (normalized : IsNormalized path) :
    ∃ ups names, Reading path ups names := by
  rcases normalized with rfl | ⟨-, absolute, segs, spelled, written⟩
  · exact ⟨0, [], by decide, by simp, fun _ => rfl⟩
  · rcases written.shape with ⟨ups, names, rfl, proper, fromTop⟩
    refine ⟨ups, names, written.significant_eq, proper, ?_⟩
    rwa [written.isAbsolute_eq]

theorem replicate_append_prefix_iff {rootUps : ℕ} {rootNames : List Bytes}
    (proper : ∀ name ∈ names, IsName name) (rootProper : ∀ name ∈ rootNames, IsName name)
    (named : rootNames ≠ []) :
    List.replicate rootUps dotDot ++ rootNames <+: List.replicate ups dotDot ++ names ↔
      ups = rootUps ∧ rootNames <+: names := by
  induction rootUps generalizing ups with
  | zero =>
    cases ups with
    | zero => simp
    | succ ups =>
      cases rootNames with
      | nil => exact absurd rfl named
      | cons name rest =>
        have other : name ≠ dotDot := (rootProper name mem_cons_self).2.2.1
        simp [replicate_succ, other]
  | succ rootUps ih =>
    cases ups with
    | zero =>
      cases names with
      | nil => simp [replicate_succ]
      | cons name rest =>
        have other : dotDot ≠ name := (proper name mem_cons_self).2.2.1.symm
        simp [replicate_succ, other]
    | succ ups =>
      rw [replicate_succ, replicate_succ, cons_append, cons_append, cons_prefix_cons, ih]
      simp

/-- A text under a root, up to a separator. -/
theorem under_iff :
    (root.isPrefixOf path = true ∧
        (path.length = root.length ∨ path[root.length]? = some slash)) ↔
      root.splitOn slash <+: path.splitOn slash := by
  rw [Paths.splitOn_isPrefix_iff, isPrefixOf_iff_prefix]
  constructor
  · rintro ⟨⟨rest, rfl⟩, edge⟩
    cases rest with
    | nil => exact .inl (append_nil root).symm
    | cons byte rest =>
      right
      have separator : byte = slash := by simpa using edge
      exact ⟨rest, by simp [separator]⟩
  · rintro (rfl | ⟨rest, rfl⟩)
    · exact ⟨prefix_refl _, .inl rfl⟩
    · exact ⟨⟨slash :: rest, by simp⟩, .inr (by simp)⟩

theorem head?_splitOn_slash (first last : Bytes) :
    ((first ++ slash :: last).splitOn slash).head? = (first.splitOn slash).head? := by
  rw [splitOn_append_cons_self, List.head?_append_of_ne_nil _ (splitOn_ne_nil _ _)]

namespace Written

variable {buf : Bytes} {segs : List (ℕ × Bool)} {spelled : List Bytes}

theorem head?_splitOn (written : Written false buf segs spelled) (full : buf ≠ []) :
    spelled ≠ [] ∧ (buf.splitOn slash).head? = spelled.head? := by
  have push : ∀ {base seg : Bytes} {segs : List (ℕ × Bool)} {spelled : List Bytes},
      Written false base segs spelled →
      (base ≠ [] → spelled ≠ [] ∧ (base.splitOn slash).head? = spelled.head?) →
      Ready base → slash ∉ seg →
      spelled ++ [seg] ≠ [] ∧ ((base ++ seg).splitOn slash).head? = (spelled ++ [seg]).head? := by
    intro base seg segs spelled before head ready whole
    refine ⟨by simp, ?_⟩
    by_cases empty : base = []
    · subst empty
      have nothing : spelled = [] := by rw [← before.significant_eq]; decide
      rw [nothing, nil_append, splitOn_eq_singleton whole, nil_append]
    · rcases head empty with ⟨some_, head⟩
      rcases ready.exists_slash empty with ⟨earlier, rfl⟩
      rw [append_assoc, singleton_append, head?_splitOn_slash,
        List.head?_append_of_ne_nil _ some_, ← head, head?_splitOn_slash]
  induction written with
  | begin => exact absurd rfl full
  | name before ready named ih =>
    exact push before ih ready named.2.2.2
  | up before ready _ ih =>
    rw [replicate_succ']
    exact push before ih ready slash_notMem_dotDot
  | separator _ written ih =>
    rw [head?_splitOn_slash]
    exact ih written

end Written

theorem Single.of_append {first last : Bytes} (single : Single (first ++ last)) : Single first :=
  fun doubled => single (doubled.trans (prefix_append first last).isInfix)

namespace Written

variable {absolute : Bool} {buf : Bytes} {segs : List (ℕ × Bool)} {spelled : List Bytes}

/-- The components of a written text: the segments, between single separators, and an empty
one after a separator at the end. -/
theorem splitOn_of_single (written : Written absolute buf segs spelled) (full : buf ≠ [])
    (single : Single buf) :
    buf.splitOn slash = (if absolute then [[]] else []) ++ spelled ++
      (if buf.getLast? = some slash then [[]] else []) := by
  have push : ∀ {base seg : Bytes} {segs : List (ℕ × Bool)} {spelled : List Bytes},
      Written absolute base segs spelled →
      (base ≠ [] → Single base → base.splitOn slash = (if absolute then [[]] else []) ++
        spelled ++ (if base.getLast? = some slash then [[]] else [])) →
      Ready base → seg ≠ [] → slash ∉ seg → Single (base ++ seg) →
      (base ++ seg).splitOn slash = (if absolute then [[]] else []) ++ (spelled ++ [seg]) ++
        (if (base ++ seg).getLast? = some slash then [[]] else []) := by
    intro base seg segs spelled before split ready full whole single
    have noSlash : (base ++ seg).getLast? ≠ some slash := by
      intro last
      rw [List.getLast?_append_of_ne_nil base full] at last
      exact whole (mem_of_getLast? last)
    rw [if_neg noSlash, append_nil]
    by_cases empty : base = []
    · subst empty
      have nothing : spelled = [] := by rw [← before.significant_eq]; decide
      have relative : absolute = false := before.isAbsolute_eq.symm
      rw [nothing, relative, nil_append, splitOn_eq_singleton whole]
      rfl
    · have parts := split empty single.of_append
      rcases ready.exists_slash empty with ⟨earlier, rfl⟩
      have edge : (earlier ++ [slash]).getLast? = some slash := by simp
      rw [if_pos edge, splitOn_append_cons_self, splitOn_nil] at parts
      rw [append_assoc, singleton_append, splitOn_append_cons_self,
        append_cancel_right parts, splitOn_eq_singleton whole, append_assoc]
  induction written with
  | begin =>
    cases absolute with
    | false => exact absurd rfl full
    | true => decide
  | name before ready named ih =>
    exact push before ih ready named.1 named.2.2.2 single
  | up before ready _ ih =>
    rw [replicate_succ']
    exact push before ih ready (by decide) slash_notMem_dotDot single
  | @separator buf _ _ _ written ih =>
    have noSlash : buf.getLast? ≠ some slash := by
      intro last
      rcases List.getLast?_eq_some_iff.mp last with ⟨earlier, rfl⟩
      exact single ⟨earlier, [], by simp⟩
    have edge : (buf ++ [slash]).getLast? = some slash := by simp
    rw [splitOn_append_cons_self, splitOn_nil, ih written single.of_append, if_neg noSlash,
      if_pos edge, append_nil]

end Written

/-- A root that is spelled plainly, without the `./` in front of it. -/
theorem exists_plainPath (plain : plainRoot root = true) (other : root ≠ dot) :
    ∃ r, plainPath r = true ∧
      (∀ cwd, (lexical root).locate cwd = (lexical r).locate cwd) ∧
      ∀ path, pathIsUnderRoot path root = true ↔ r.splitOn slash <+: path.splitOn slash := by
  have notEmpty : ∀ {r : Bytes}, plainPath r = true → r ≠ [] := by
    rintro r names rfl
    exact absurd names (by decide)
  have notRoot : root ≠ [] := by
    rintro rfl
    exact absurd plain (by decide)
  have compare : ∀ path r : Bytes,
      (if r = [] then true else if ¬r.isPrefixOf path then false
        else if path.length = r.length then true else decide (path[r.length]? = some slash)) =
          true ↔ r = [] ∨ r.splitOn slash <+: path.splitOn slash := by
    intro path r
    rw [← under_iff]
    by_cases empty : r = []
    · simp [empty]
    · by_cases below : r.isPrefixOf path = true <;> simp [empty, below]
  simp only [plainRoot, other, false_or, decide_eq_true_eq] at plain
  by_cases stripped : (dot ++ [slash]).isPrefixOf root = true
  · rw [if_pos stripped] at plain
    simp only [Bool.not_eq_true] at plain
    rcases plain with ⟨names, relative⟩
    refine ⟨root.drop 2, names, ?_, ?_⟩
    · rcases isPrefixOf_iff_prefix.mp stripped with ⟨rest, rfl⟩
      intro cwd
      have text : dot ++ [slash] ++ rest = dot ++ slash :: rest := by simp
      have drop : (dot ++ [slash] ++ rest).drop 2 = rest := rfl
      have nothing : significant dot = [] := by decide
      rw [drop] at relative ⊢
      rw [lexical_locate, lexical_locate, text, significant_slash, nothing, nil_append]
      congr 1
      exact start_congr (by rw [relative]; rfl) cwd
    · intro path
      rw [pathIsUnderRoot, if_neg notRoot, if_neg other, if_pos stripped, compare]
      simp [notEmpty names]
  · rw [if_neg stripped] at plain
    refine ⟨root, plain, fun _ => rfl, ?_⟩
    intro path
    rw [pathIsUnderRoot, if_neg notRoot, if_neg other, if_neg stripped, compare]
    simp [notRoot]

theorem Reading.of_plainPath (plain : plainPath root = true) :
    ∃ ups names, Reading root ups names ∧ names ≠ [] ∧
      root.splitOn slash = components (isAbsolute root) ups names := by
  rcases splitOn_of_plainPath plain with ⟨ups, names, split, named, proper, fromTop⟩
  have kept : names.filter (fun seg => ¬(seg = [] ∨ seg = dot)) = names := by
    apply filter_eq_self.mpr
    intro name mem
    simp [(proper name mem).1, (proper name mem).2.1]
  have up : decide (¬(dotDot = [] ∨ dotDot = dot)) = true := by decide
  have spells : significant root = List.replicate ups dotDot ++ names := by
    rw [significant, split, components, filter_append, filter_append,
      filter_replicate, if_pos up, kept]
    cases isAbsolute root <;> rfl
  exact ⟨ups, names, ⟨spells, proper, fromTop⟩, named, split⟩

theorem pathIsUnderRoot_dot_iff (normalized : IsNormalized path)
    (reading : Reading path ups names) :
    pathIsUnderRoot path dot = true ↔ isAbsolute path = false ∧ ups = 0 := by
  have written : path ≠ [] := by
    rcases normalized with rfl | ⟨full, -⟩
    · decide
    · exact full
  have starts : (path = dotDot ∨ (dotDot ++ [slash]).isPrefixOf path = true) ↔
      (path.splitOn slash).head? = some dotDot := by
    rw [ isPrefixOf_iff_prefix, eq_comm, ← Paths.splitOn_isPrefix_iff,
      splitOn_eq_singleton slash_notMem_dotDot]
    cases split : path.splitOn slash with
    | nil => exact absurd split (splitOn_ne_nil _ _)
    | cons first rest => simp [eq_comm]
  have head : isAbsolute path = false → ((path.splitOn slash).head? = some dotDot ↔ ups ≠ 0) := by
    intro relative
    rcases normalized with rfl | ⟨full, absolute, segs, spelled, isWritten⟩
    · have nothing : significant dot = [] := by decide
      have spelled := reading.spells
      rw [nothing] at spelled
      rw [eq_comm, append_eq_nil_iff, replicate_eq_nil_iff] at spelled
      have first : (dot.splitOn slash).head? ≠ some dotDot := by decide
      simp [spelled.1, first]
    · have same : absolute = false := isWritten.isAbsolute_eq.symm.trans relative
      subst same
      have spells := isWritten.significant_eq
      rw [reading.spells] at spells
      rw [(isWritten.head?_splitOn full).2, ← spells]
      cases ups with
      | zero =>
        cases names with
        | nil => simp
        | cons name rest =>
          have other := (reading.names name mem_cons_self).2.2.1
          simp [other]
      | succ ups => simp [replicate_succ]
  have notRoot : dot ≠ [] := by decide
  rw [pathIsUnderRoot, if_neg notRoot, if_pos rfl, decide_eq_true_eq, starts]
  cases relative : isAbsolute path with
  | true => simp
  | false =>
    rw [head relative]
    simp [written]

/-- For roots that are spelled plainly, the comparison decides whether a normalized path lies
inside, up to separators that normalization has doubled. -/
theorem pathIsUnderRoot_iff (normalized : IsNormalized path) (single : Single path)
    (plain : plainRoot root = true) :
    pathIsUnderRoot path root = true ↔ (lexical path).Inside (lexical root) := by
  rcases normalized.exists_reading with ⟨ups, names, reading⟩
  by_cases isDot : root = dot
  · subst isDot
    have here : Reading dot 0 [] := ⟨by decide, by simp, fun _ => rfl⟩
    rw [pathIsUnderRoot_dot_iff normalized reading, reading.inside_iff here (.inr ⟨by decide, rfl⟩)]
    have relative : isAbsolute dot = false := by decide
    simp [relative]
  · rcases exists_plainPath plain isDot with ⟨r, plainR, same, decides⟩
    rcases Reading.of_plainPath plainR with ⟨rootUps, rootNames, rootReading, named, rootSplit⟩
    rw [decides, Path.inside_congr (fun _ => rfl) same, reading.inside_iff rootReading (.inl named)]
    constructor
    · intro below
      have segments := below.filter fun seg => ¬(seg = [] ∨ seg = dot)
      rw [← significant, ← significant, reading.spells, rootReading.spells,
        replicate_append_prefix_iff reading.names rootReading.names named] at segments
      refine ⟨?_, segments⟩
      rcases (Paths.splitOn_isPrefix_iff slash).mp below with same | ⟨rest, rfl⟩
      · rw [same]
      · have written : r ≠ [] := by
          rintro rfl
          exact absurd plainR (by decide)
        rw [append_assoc, isAbsolute_append written]
    · rintro ⟨start, rfl, below⟩
      rcases normalized with rfl | ⟨full, absolute, segs, spelled, written⟩
      · -- The dot has no names.
        have nothing : significant dot = [] := by decide
        have spelled := reading.spells
        rw [nothing, eq_comm, append_eq_nil_iff] at spelled
        rw [spelled.2, prefix_nil] at below
        exact absurd below named
      · have spells := written.significant_eq
        rw [reading.spells] at spells
        rw [written.splitOn_of_single full single, rootSplit, ← start, written.isAbsolute_eq,
          ← spells, components, append_assoc, prefix_append_right_inj,
          append_assoc, prefix_append_right_inj]
        exact below.trans (prefix_append _ _)

end Gengo.Imports
