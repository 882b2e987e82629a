import Gengo.Imports.InPlace
import Mathlib.Data.List.Chain

/-!
# Canonical paths

A canonical path has steps up only in front, names behind them and single separators between
them, so that its text follows from the place that it leads to. Normalization leaves a separator
behind when a `..` takes back a name: at the end of a path, or doubled before the next `..` that
nothing cancels, it keeps the result from being canonical.
-/

namespace Gengo.Imports

open List
open Bytecode (Bytes)
open Host (slash)
open Mounts (dot dotDot)
open Paths (Path)

def spell (absolute : Bool) (segs : List Bytes) : Bytes :=
  if segs = [] then (if absolute then [slash] else dot)
  else [slash].intercalate ((if absolute then [[]] else []) ++ segs)

/-- What a canonical path consists of. -/
structure Spelling where
  absolute : Bool
  ups : ℕ
  names : List Bytes
  proper : ∀ name ∈ names, IsName name
  fromTop : absolute = true → ups = 0

namespace Spelling

def segs (spelling : Spelling) : List Bytes :=
  List.replicate spelling.ups dotDot ++ spelling.names

def text (spelling : Spelling) : Bytes :=
  spell spelling.absolute spelling.segs

variable (spelling : Spelling)

theorem whole {seg : Bytes} (mem : seg ∈ spelling.segs) : seg ≠ [] ∧ seg ≠ dot ∧ slash ∉ seg := by
  rcases mem_append.mp mem with up | name
  · rw [eq_of_mem_replicate up]
    decide
  · have named := spelling.proper seg name
    exact ⟨named.1, named.2.1, named.2.2.2⟩

theorem splitOn_text (full : spelling.segs ≠ []) :
    spelling.text.splitOn slash = (if spelling.absolute then [[]] else []) ++ spelling.segs := by
  rw [text, spell, if_neg full]
  apply splitOn_intercalate
  · intro seg mem
    rcases mem_append.mp mem with first | mem
    · cases absolute : spelling.absolute <;> simp_all
    · exact (spelling.whole mem).2.2
  · simp [full]

theorem isAbsolute_text : isAbsolute spelling.text = spelling.absolute := by
  by_cases empty : spelling.segs = []
  · rw [text, spell, if_pos empty]
    cases spelling.absolute <;> decide
  · rw [text, spell, if_neg empty]
    cases parts : spelling.segs with
    | nil => exact absurd parts empty
    | cons seg rest =>
      have first := spelling.whole (parts ▸ mem_cons_self : seg ∈ spelling.segs)
      cases spelling.absolute with
      | true => simp [isAbsolute]
      | false =>
        cases seg with
        | nil => exact absurd rfl first.1
        | cons byte seg =>
          have other : byte ≠ slash := fun same => first.2.2 (by simp [same])
          simp [isAbsolute, other]

theorem reading : Reading spelling.text spelling.ups spelling.names where
  spells := by
    by_cases empty : spelling.segs = []
    · rw [text, spell, if_pos empty, ← segs, empty]
      cases spelling.absolute <;> decide
    · have kept : spelling.segs.filter (fun seg => ¬(seg = [] ∨ seg = dot)) = spelling.segs := by
        apply filter_eq_self.mpr
        intro seg mem
        simp [(spelling.whole mem).1, (spelling.whole mem).2.1]
      rw [significant, splitOn_text _ empty, filter_append, kept]
      cases spelling.absolute <;> rfl
  names := spelling.proper
  fromTop absolute := spelling.fromTop (spelling.isAbsolute_text ▸ absolute)

end Spelling

def Canonical (path : Bytes) : Prop :=
  ∃ spelling : Spelling, path = spelling.text

theorem Canonical.tail {path : Bytes} (canonical : Canonical path) (other : path ≠ [slash]) :
    [] ∉ (path.splitOn slash).tail := by
  rcases canonical with ⟨spelling, rfl⟩
  by_cases empty : spelling.segs = []
  · rw [Spelling.text, spell, if_pos empty] at other ⊢
    cases absolute : spelling.absolute with
    | true => exact absurd (if_pos absolute) other
    | false => decide
  · intro mem
    have inside : [] ∈ spelling.segs := by
      rw [spelling.splitOn_text empty] at mem
      cases absolute : spelling.absolute with
      | true => simpa [absolute] using mem
      | false => exact mem_of_mem_tail (by simpa [absolute] using mem)
    exact (spelling.whole inside).1 rfl

/-- The place that a path in normal form leads to, from wherever it starts, tells its steps up
and its names. -/
theorem normal_inj {absolute absolute' : Bool} {ups ups' : ℕ} {names names' : List Bytes}
    (fromTop : absolute = true → ups = 0) (fromTop' : absolute' = true → ups' = 0)
    (same : ∀ cwd, (Path.normal absolute ups names).locate cwd =
      (Path.normal absolute' ups' names').locate cwd) :
    absolute = absolute' ∧ ups = ups' ∧ names = names' := by
  rcases Path.exists_fresh (names ++ names') with ⟨fresh, notMem⟩
  simp only [mem_append, not_or] at notMem
  have far := same (List.replicate (ups + ups' + 1) fresh)
  have count := congrArg (List.count fresh) far
  have none := count_eq_zero.mpr notMem.1
  have none' := count_eq_zero.mpr notMem.2
  cases absolute with
  | true =>
    rw [fromTop rfl] at far count ⊢
    cases absolute' with
    | true =>
      rw [fromTop' rfl, Path.locate_normal_absolute, Path.locate_normal_absolute] at far
      exact ⟨rfl, (fromTop' rfl).symm, far⟩
    | false =>
      simp [Path.locate_normal_absolute, Path.locate_normal_relative, none, none'] at count
  | false =>
    cases absolute' with
    | true =>
      rw [fromTop' rfl] at count
      simp [Path.locate_normal_absolute, Path.locate_normal_relative, none, none'] at count
    | false =>
      simp only [Path.locate_normal_relative, count_append, none, none',
        take_replicate, count_replicate_self, length_replicate] at far count
      have as_many : ups = ups' := by omega
      subst as_many
      exact ⟨rfl, rfl, append_cancel_left far⟩

theorem Canonical.eq_of_locate {path path' : Bytes} (canonical : Canonical path)
    (canonical' : Canonical path')
    (same : ∀ cwd, (lexical path).locate cwd = (lexical path').locate cwd) : path = path' := by
  rcases canonical with ⟨⟨absolute, ups, names, proper, fromTop⟩, rfl⟩
  rcases canonical' with ⟨⟨absolute', ups', names', proper', fromTop'⟩, rfl⟩
  have parts := normal_inj fromTop fromTop' fun cwd => by
    have here := same cwd
    rwa [(Spelling.reading _).locate, (Spelling.reading _).locate, Spelling.isAbsolute_text,
      Spelling.isAbsolute_text] at here
  rcases parts with ⟨rfl, rfl, rfl⟩
  rfl

/-- Reads the segments of a path behind steps up that nothing cancels and names. In a gap, the
last step up has taken a name back and left something in front of it: the path ends in none, and
no other step up that nothing cancels comes in one. -/
def tidyFrom (absolute : Bool) (ups depth : ℕ) (gap : Bool) : List Bytes → Bool
  | [] => !gap
  | seg :: segs =>
    if seg = dot then tidyFrom absolute ups depth gap segs
    else if seg = dotDot then
      if depth ≠ 0 then
        tidyFrom absolute ups (depth - 1) (ups + (depth - 1) ≠ 0) segs
      else if absolute then tidyFrom absolute ups depth gap segs
      else !gap && tidyFrom absolute (ups + 1) 0 false segs
    else tidyFrom absolute ups (depth + 1) false segs

def Tidy (path : Bytes) : Prop :=
  tidyFrom (isAbsolute path) 0 0 false (segments path) = true

instance (path : Bytes) : Decidable (Tidy path) :=
  inferInstanceAs (Decidable (_ = true))

theorem single_iff (path : Bytes) :
    Single path ↔ path.IsChain fun first next => ¬(first = slash ∧ next = slash) := by
  rw [isChain_iff_forall_rel_of_append_cons_cons]
  constructor
  · rintro single first next before after rfl ⟨rfl, rfl⟩
    exact single ⟨before, after, by simp⟩
  · rintro apart ⟨before, after, split⟩
    exact @apart slash slash before after (by simp [← split]) ⟨rfl, rfl⟩

theorem Single.append {first last : Bytes} (single : Single first) (single' : Single last)
    (apart : first.getLast? ≠ some slash ∨ last.head? ≠ some slash) :
    Single (first ++ last) := by
  rw [single_iff] at single single' ⊢
  refine isChain_append.mpr ⟨single, single', ?_⟩
  rintro byte last _ head ⟨rfl, rfl⟩
  exact apart.elim (absurd last) (absurd head)

theorem single_of_notMem {seg : Bytes} (whole : slash ∉ seg) : Single seg := by
  rintro ⟨before, after, split⟩
  exact whole (by simp [← split])

variable {absolute : Bool} {buf : Bytes} {segs : List (ℕ × Bool)} {spelled : List Bytes}

namespace Written

theorem not_name_mem {count : ℕ}
    (written : Written absolute buf segs (List.replicate count dotDot)) (start : ℕ) :
    (start, false) ∉ segs := by
  generalize isUps : List.replicate count dotDot = spelled at written
  induction written generalizing count with
  | begin => exact not_mem_nil
  | @name _ _ _ seg _ _ named _ =>
    have mem : seg ∈ List.replicate count dotDot := by simp [isUps]
    exact absurd (eq_of_mem_replicate mem) named.2.2.1
  | up _ _ _ ih =>
    intro mem
    rcases mem_cons.mp mem with same | mem
    · cases same
    · exact ih rfl mem
  | separator _ _ ih => exact ih isUps

/-- What is left when a name is taken back can be written behind at once. -/
theorem ready_take {start : ℕ} {rest : List (ℕ × Bool)}
    (written : Written absolute buf segs spelled) (last : segs = (start, false) :: rest) :
    Ready (buf.take start) := by
  induction written with
  | begin => cases last
  | name _ ready =>
    cases last
    rwa [take_left]
  | up => simp at last
  | separator before _ ih =>
    rw [take_append_of_le_length (before.start_le last)]
    exact ih last

end Written

/-- What has been written, without a doubled separator: steps up, so many names, and a
separator behind them in a gap. -/
structure Writing.Spells (absolute : Bool) (writing : Writing) (ups depth : ℕ) (gap : Bool) :
    Prop where
  written : ∃ names, Written absolute writing.buf writing.segs
    (List.replicate ups dotDot ++ names) ∧ names.length = depth ∧ ∀ name ∈ names, IsName name
  single : Single writing.buf
  gap : gap = true ↔ writing.buf.getLast? = some slash ∧ ups + depth ≠ 0
  fromTop : absolute = true → ups = 0

/-- A doubled separator stands before every name that can be taken back. -/
def Writing.Doubled (writing : Writing) : Prop :=
  ∃ front, front ++ [slash, slash] <+: writing.buf ∧
    ∀ start, (start, false) ∈ writing.segs → (front ++ [slash, slash]).length ≤ start

/-- What `normalizePathInPlace` returns in the end. -/
def Writing.result (writing : Writing) : Bytes :=
  if writing.buf = [] then dot else writing.buf

theorem nil_mem_tail (front : Bytes) {rest : Bytes} (ends : rest = [] ∨ rest.head? = some slash) :
    [] ∈ ((front ++ slash :: rest).splitOn slash).tail := by
  have empty : [] ∈ rest.splitOn slash := by
    rcases ends with rfl | separated
    · decide
    · rcases List.head?_eq_some_iff.mp separated with ⟨later, rfl⟩
      simp [splitOn_cons_eq_if_modifyHead]
  rw [splitOn_append_cons_self, tail_append_of_ne_nil (splitOn_ne_nil _ _)]
  exact mem_append_right _ empty

namespace Writing

variable {writing : Writing} {ups depth : ℕ} {gap : Bool}

theorem Doubled.not_canonical (doubled : writing.Doubled) : ¬Canonical writing.result := by
  rcases doubled with ⟨front, ⟨rest, split⟩, -⟩
  intro canonical
  have empty : [] ∈ ((front ++ slash :: slash :: rest).splitOn slash).tail :=
    nil_mem_tail front (.inr rfl)
  simp only [append_assoc, cons_append, nil_append] at split
  rw [split] at empty
  have full : writing.buf ≠ [] := by simp [← split]
  rw [result, if_neg full] at canonical
  refine canonical.tail ?_ empty
  intro same
  have length := congrArg List.length (split.trans same)
  simp only [length_append, length_cons, length_nil] at length
  omega

theorem Doubled.segment (doubled : writing.Doubled) (seg : Bytes) :
    (writing.segment absolute seg).Doubled := by
  rcases doubled with ⟨front, inside, before⟩
  have push : ∀ (text more : Bytes) (up : Bool),
      Doubled ⟨writing.buf ++ text ++ more,
        ((writing.buf ++ text).length, up) :: writing.segs⟩ := by
    intro text more up
    refine ⟨front, ?_, ?_⟩
    · rw [append_assoc]
      exact inside.trans (prefix_append _ _)
    · intro start mem
      rcases mem_cons.mp mem with same | mem
      · cases same
        refine inside.length_le.trans ?_
        simp
      · exact before start mem
  unfold Writing.segment
  simp only [ite_separator]
  split
  · exact ⟨front, inside, before⟩
  · split
    · split
      next start rest last =>
        have le := before start (last ▸ mem_cons_self)
        refine ⟨front, prefix_take_iff.mpr ⟨inside, le⟩, ?_⟩
        intro start mem
        exact before start (last ▸ mem_cons_of_mem _ mem)
      next =>
        split
        · exact ⟨front, inside, before⟩
        · exact push _ _ _
    · exact push _ _ _

theorem Doubled.foldl (doubled : writing.Doubled) (segs : List Bytes) :
    (segs.foldl (Writing.segment absolute) writing).Doubled := by
  induction segs generalizing writing with
  | nil => exact doubled
  | cons seg segs ih => exact ih (doubled.segment seg)

section

variable (spells : writing.Spells absolute ups depth gap)
include spells

/-- What has been written is canonical unless it ends in a gap. -/
theorem Spells.canonical_iff : Canonical writing.result ↔ gap = false := by
  rcases spells.written with ⟨names, written, rfl, proper⟩
  cases inGap : gap with
  | true =>
    rcases spells.gap.mp inGap with ⟨last, more⟩
    rcases List.getLast?_eq_some_iff.mp last with ⟨front, split⟩
    have empty := nil_mem_tail front (.inl rfl)
    rw [← split] at empty
    simp only [reduceCtorEq, iff_false]
    intro canonical
    have full : writing.buf ≠ [] := by simp [split]
    rw [result, if_neg full] at canonical
    refine canonical.tail ?_ empty
    intro same
    have nothing : significant [slash] = [] := by decide
    have spelled := written.significant_eq
    rw [same, nothing, eq_comm, append_eq_nil_iff, replicate_eq_nil_iff] at spelled
    simp [spelled] at more
  | false =>
    simp only [iff_true]
    refine ⟨⟨absolute, ups, names, proper, spells.fromTop⟩, ?_⟩
    change writing.result = spell absolute (List.replicate ups dotDot ++ names)
    rw [result]
    by_cases empty : writing.buf = []
    · have relative := written.isAbsolute_eq
      have spelled := written.significant_eq
      rw [empty] at relative spelled
      rw [if_pos empty, ← spelled, ← relative]
      decide
    · have joined : [slash].intercalate (writing.buf.splitOn slash) = writing.buf :=
        intercalate_splitOn slash
      rw [written.splitOn_of_single empty spells.single] at joined
      rw [if_neg empty, ← joined]
      by_cases last : writing.buf.getLast? = some slash
      · -- Only the slash of an absolute path that leads to the top.
        have none : List.replicate ups dotDot ++ names = [] := by
          by_contra more
          rw [← length_eq_zero_iff, length_append, length_replicate] at more
          exact spells.gap.not.mp (by simp [inGap]) ⟨last, more⟩
        rw [none, if_pos last] at joined ⊢
        cases absolute with
        | true => rfl
        | false => exact absurd joined.symm empty
      · rw [if_neg last, append_nil] at joined ⊢
        have more : List.replicate ups dotDot ++ names ≠ [] := by
          intro none
          rw [none] at joined
          cases absolute <;> exact empty joined.symm
        rw [spell, if_neg more]

theorem Spells.depth_ne_zero_iff :
    depth ≠ 0 ↔ ∃ start rest, writing.segs = (start, false) :: rest := by
  rcases spells.written with ⟨names, written, rfl, proper⟩
  constructor
  · intro some_
    by_contra none
    push Not at none
    rcases written.only_ups none with ⟨count, ups⟩
    cases names with
    | nil => exact some_ rfl
    | cons name names =>
      have mem : name ∈ List.replicate count dotDot := by simp [← ups]
      exact (proper name mem_cons_self).2.2.1 (eq_of_mem_replicate mem)
  · rintro ⟨start, rest, last⟩ none
    rcases written.take last with ⟨earlier, seg, split, named, -⟩
    rw [length_eq_zero_iff.mp none, append_nil] at split
    have mem : seg ∈ List.replicate ups dotDot := by simp [split]
    exact named.2.2.1 (eq_of_mem_replicate mem)

theorem Spells.take {start : ℕ} {rest : List (ℕ × Bool)}
    (last : writing.segs = (start, false) :: rest) :
    Spells absolute ⟨writing.buf.take start, rest⟩ ups (depth - 1) (ups + (depth - 1) ≠ 0) := by
  have some_ := spells.depth_ne_zero_iff.mpr ⟨start, rest, last⟩
  rcases spells.written with ⟨names, written, rfl, proper⟩
  rcases written.take last with ⟨earlier, seg, split, named, before⟩
  rcases eq_nil_or_concat names with rfl | ⟨kept, name, rfl⟩
  · exact absurd rfl some_
  rw [concat_eq_append, ← append_assoc] at split
  rcases append_inj' split rfl with ⟨rfl, -⟩
  constructor
  · exact ⟨kept, before, by simp, fun name mem => proper name (by simp [mem])⟩
  · have parts : Single (writing.buf.take start ++ writing.buf.drop start) := by
      rw [take_append_drop]
      exact spells.single
    exact parts.of_append
  · have ready := written.ready_take last
    have spelled := before.significant_eq
    simp only [decide_eq_true_eq, length_concat, Nat.add_sub_cancel]
    constructor
    · intro more
      refine ⟨ready.resolve_left fun empty => more ?_, more⟩
      have nothing : significant [] = [] := by decide
      rw [empty, nothing, eq_comm, append_eq_nil_iff, replicate_eq_nil_iff] at spelled
      simp [spelled]
    · exact And.right
  · exact spells.fromTop

end

theorem Spells.push {base seg : Bytes} {segs : List (ℕ × Bool)} (full : seg ≠ [])
    (whole : slash ∉ seg) (single : Single base) (fromTop : absolute = true → ups = 0)
    (written : ∃ names, Written absolute (base ++ seg) segs (List.replicate ups dotDot ++ names) ∧
      names.length = depth ∧ ∀ name ∈ names, IsName name) :
    Spells absolute ⟨base ++ seg, segs⟩ ups depth false where
  written := written
  single := by
    refine single.append (single_of_notMem whole) (.inr fun head => whole ?_)
    exact mem_of_mem_head? head
  gap := by
    rw [List.getLast?_append_of_ne_nil _ full]
    exact iff_of_false (by simp) fun last => whole (mem_of_getLast? last.1)
  fromTop := fromTop

theorem single_separator {needed : Prop} [Decidable needed] {buf : Bytes} (single : Single buf)
    (apart : needed → buf.getLast? ≠ some slash) :
    Single (if needed then buf ++ [slash] else buf) := by
  split
  next need => exact single.append (by simp [single_iff]) (.inl (apart need))
  next => exact single

theorem segment_up (none : ∀ start rest, writing.segs ≠ (start, false) :: rest) :
    writing.segment false dotDot =
      ⟨(if writing.buf ≠ [] then writing.buf ++ [slash] else writing.buf) ++ dotDot,
        ((if writing.buf ≠ [] then writing.buf ++ [slash] else writing.buf).length, true) ::
          writing.segs⟩ := by
  rw [segment, if_neg (by decide), if_pos rfl]
  split
  next start rest last => exact absurd last (none start rest)
  next => rfl

theorem Spells.no_name (spells : writing.Spells absolute ups 0 gap) :
    (∀ start rest, writing.segs ≠ (start, false) :: rest) ∧
      Written absolute writing.buf writing.segs (List.replicate ups dotDot) := by
  constructor
  · intro start rest last
    exact spells.depth_ne_zero_iff.mpr ⟨start, rest, last⟩ rfl
  · rcases spells.written with ⟨names, written, none, -⟩
    rwa [length_eq_zero_iff.mp none, append_nil] at written

theorem Spells.up (spells : writing.Spells false ups 0 false) :
    Spells false (writing.segment false dotDot) (ups + 1) 0 false := by
  rcases spells.no_name with ⟨none, written⟩
  have separated := written.separateAll
  rw [segment_up none]
  refine Spells.push (by decide) slash_notMem_dotDot (single_separator spells.single ?_) (by simp)
    ⟨[], ?_, rfl, by simp⟩
  · intro full last
    have some_ := (written.head?_splitOn full).1
    rw [ne_eq, replicate_eq_nil_iff] at some_
    exact Bool.false_ne_true (spells.gap.mpr ⟨last, some_⟩)
  · rw [append_nil]
    exact separated.1.up separated.2 rfl

theorem Spells.doubled (spells : writing.Spells false ups 0 true) :
    (writing.segment false dotDot).Doubled := by
  rcases spells.no_name with ⟨none, written⟩
  rcases List.getLast?_eq_some_iff.mp (spells.gap.mp rfl).1 with ⟨front, split⟩
  have full : writing.buf ≠ [] := by simp [split]
  rw [segment_up none, if_pos full, split]
  refine ⟨front, by simp, ?_⟩
  intro start mem
  rcases mem_cons.mp mem with same | mem
  · cases same
  · exact absurd mem (written.not_name_mem start)

theorem Spells.name (spells : writing.Spells absolute ups depth gap) {seg : Bytes}
    (named : IsName seg) :
    Spells absolute (writing.segment absolute seg) ups (depth + 1) false := by
  rcases spells.written with ⟨names, written, rfl, proper⟩
  rw [segment, if_neg named.2.1, if_neg named.2.2.1]
  refine Spells.push named.1 named.2.2.2 (single_separator spells.single And.right) spells.fromTop
    ⟨names ++ [seg], ?_, by simp, ?_⟩
  · rw [← append_assoc]
    exact written.separate.1.name written.separate.2 named
  · intro name mem
    rcases mem_append.mp mem with mem | mem
    · exact proper name mem
    · exact mem_singleton.mp mem ▸ named

/-- What a path writes is canonical just where its segments leave no gap. -/
theorem Spells.tidyFrom_iff (spells : writing.Spells absolute ups depth gap) {segs : List Bytes}
    (full : ∀ seg ∈ segs, seg ≠ [] ∧ slash ∉ seg) :
    Canonical (segs.foldl (segment absolute) writing).result ↔
      tidyFrom absolute ups depth gap segs = true := by
  induction segs generalizing writing ups depth gap with
  | nil =>
    rw [foldl_nil, spells.canonical_iff, tidyFrom, Bool.not_eq_true']
  | cons seg segs ih =>
    have later : ∀ seg ∈ segs, seg ≠ [] ∧ slash ∉ seg :=
      fun next mem => full next (mem_cons_of_mem _ mem)
    rw [foldl_cons, tidyFrom]
    by_cases isDot : seg = dot
    · rw [if_pos isDot, segment, if_pos isDot]
      exact ih spells later
    rw [if_neg isDot]
    by_cases isUp : seg = dotDot
    · subst isUp
      rw [if_pos rfl]
      by_cases some_ : depth ≠ 0
      · rcases spells.depth_ne_zero_iff.mp some_ with ⟨start, rest, last⟩
        rw [if_pos some_, segment, if_neg isDot, if_pos rfl, last]
        exact ih (spells.take last) later
      · rw [if_neg some_]
        have noNames := not_not.mp some_
        subst noNames
        cases absolute with
        | true =>
          rw [if_pos rfl, segment, if_neg isDot, if_pos rfl]
          split
          next start rest last => exact absurd last (spells.no_name.1 start rest)
          next => exact ih spells later
        | false =>
          rw [if_neg Bool.false_ne_true]
          cases gap with
          | true =>
            rw [Bool.not_true, Bool.false_and]
            exact iff_of_false (spells.doubled.foldl segs).not_canonical Bool.false_ne_true
          | false => exact ih spells.up later
    · rw [if_neg isUp]
      have first := full seg mem_cons_self
      exact ih (spells.name ⟨first.1, isDot, isUp, first.2⟩) later

end Writing

theorem mem_segments {path seg : Bytes} (mem : seg ∈ segments path) : seg ≠ [] ∧ slash ∉ seg := by
  rcases mem_filter.mp mem with ⟨split, full⟩
  exact ⟨by simpa using full, slash_notMem_of_mem_splitOn split⟩

theorem canonical_normalizePathInPlace_iff (path : Bytes) :
    Canonical (normalizePathInPlace path) ↔ Tidy path := by
  refine Writing.Spells.tidyFrom_iff ⟨⟨[], .begin, rfl, by simp⟩, ?_, ?_, fun _ => rfl⟩
    fun _ => mem_segments
  · cases isAbsolute path <;> simp [Writing.begin, single_iff]
  · simp

theorem tidyFrom_names (absolute : Bool) (ups depth : ℕ) {names : List Bytes}
    (proper : ∀ name ∈ names, IsName name) :
    tidyFrom absolute ups depth false names = true := by
  induction names generalizing depth with
  | nil => rfl
  | cons name names ih =>
    have named := proper name mem_cons_self
    rw [tidyFrom, if_neg named.2.1, if_neg named.2.2.1]
    exact ih _ fun later mem => proper later (mem_cons_of_mem _ mem)

theorem tidyFrom_ups (ups count : ℕ) {names : List Bytes}
    (proper : ∀ name ∈ names, IsName name) :
    tidyFrom false ups 0 false (List.replicate count dotDot ++ names) = true := by
  induction count generalizing ups with
  | zero => exact tidyFrom_names false ups 0 proper
  | succ count ih => exact ih (ups + 1)

theorem tidyFrom_filter (absolute : Bool) (ups depth : ℕ) (gap : Bool) (segs : List Bytes) :
    tidyFrom absolute ups depth gap (segs.filter (· ≠ dot)) =
      tidyFrom absolute ups depth gap segs := by
  induction segs generalizing ups depth gap with
  | nil => rfl
  | cons seg segs ih =>
    by_cases isDot : seg = dot
    · rw [filter_cons_of_neg (by simp [isDot]), tidyFrom, if_pos isDot, ih]
    · rw [filter_cons_of_pos (by simp [isDot]), tidyFrom, tidyFrom, if_neg isDot, if_neg isDot]
      simp only [ih]

theorem Reading.tidy {path : Bytes} {ups : ℕ} {names : List Bytes}
    (reading : Reading path ups names) : Tidy path := by
  have segs : (segments path).filter (· ≠ dot) = List.replicate ups dotDot ++ names := by
    rw [← reading.spells, segments, filter_filter, significant]
    congr 1
    funext seg
    simp [Bool.and_comm]
  rw [Tidy, ← tidyFrom_filter, segs]
  cases absolute : isAbsolute path with
  | true =>
    rw [reading.fromTop absolute]
    exact tidyFrom_names true 0 0 reading.names
  | false => exact tidyFrom_ups 0 ups reading.names

theorem Canonical.normalizePathInPlace_eq {path : Bytes} (canonical : Canonical path) :
    normalizePathInPlace path = path := by
  have tidy : Tidy path := by
    rcases canonical with ⟨spelling, rfl⟩
    exact spelling.reading.tidy
  exact ((canonical_normalizePathInPlace_iff path).mpr tidy).eq_of_locate canonical
    (locate_normalizePathInPlace path)

/-- A second round of normalization takes out what the first one has left: it gives one text to
all paths that lead to one place. -/
theorem normalizePathInPlace_twice_eq_iff (path path' : Bytes) :
    normalizePathInPlace (normalizePathInPlace path) =
        normalizePathInPlace (normalizePathInPlace path') ↔
      ∀ cwd, (lexical path).locate cwd = (lexical path').locate cwd := by
  have canonical : ∀ path, Canonical (normalizePathInPlace (normalizePathInPlace path)) := by
    intro path
    rcases (isNormalized_normalizePathInPlace path).exists_reading with ⟨_, _, reading⟩
    exact (canonical_normalizePathInPlace_iff _).mpr reading.tidy
  constructor
  · intro same cwd
    have leads := locate_normalizePathInPlace (normalizePathInPlace path) cwd
    rwa [same, locate_normalizePathInPlace, locate_normalizePathInPlace,
      locate_normalizePathInPlace, eq_comm] at leads
  · intro same
    apply (canonical path).eq_of_locate (canonical path')
    simpa only [locate_normalizePathInPlace] using same

/-- A directory and an import whose join fits the buffer. -/
structure Join where
  baseDir : Bytes
  importName : Bytes
  fits : (if isAbsolute importName then importName.length
    else baseDir.length + 1 + importName.length) ≤ maxModulePathBytes

/-- The path that a join stands for. -/
def Join.path (join : Join) : Bytes :=
  if isAbsolute join.importName then join.importName
  else join.baseDir ++ slash :: join.importName

theorem Join.joinInBuffer_eq (join : Join) :
    joinInBuffer join.baseDir join.importName = .ok (some (normalizePathInPlace join.path)) := by
  rcases join with ⟨baseDir, importName, fits⟩
  rw [Imports.joinInBuffer_eq, joinAndNormalize, path]
  by_cases absolute : isAbsolute importName = true
  · rw [if_pos absolute] at fits ⊢
    rw [if_neg (not_lt.mpr fits), if_pos absolute]
    rfl
  · rw [if_neg absolute] at fits ⊢
    rw [if_neg (not_lt.mpr fits), if_neg absolute]
    split
    next here =>
      -- The directory of the dot is left out, and adds nothing.
      have segs : segments (dot ++ slash :: importName) = dot :: segments importName := by
        rw [segments_append (by decide) (by decide) (.inr rfl), segments_slash]
      have relative : isAbsolute (dot ++ slash :: importName) = isAbsolute importName := by
        rw [Bool.not_eq_true] at absolute
        rw [absolute]
        rfl
      rw [here, Except.map, normalizePathInPlace, normalizePathInPlace, relative, segs, foldl_cons]
      rfl
    next => rfl

/-- Joining in the buffer gives the one canonical path to where the join leads. -/
def Join.Canonicalizes (join : Join) (result : Bytes) : Prop :=
  joinInBuffer join.baseDir join.importName = .ok (some result) ∧ Canonical result ∧
    (∀ cwd, (lexical result).locate cwd = (lexical join.path).locate cwd) ∧
    normalizePathInPlace result = result

theorem Join.canonicalizes_iff (join : Join) (result : Bytes) :
    join.Canonicalizes result ↔ result = normalizePathInPlace join.path ∧ Tidy join.path := by
  rw [Canonicalizes, join.joinInBuffer_eq, ← canonical_normalizePathInPlace_iff]
  constructor
  · rintro ⟨same, canonical, -⟩
    rw [Except.ok.injEq, Option.some.injEq] at same
    exact ⟨same.symm, same ▸ canonical⟩
  · rintro ⟨rfl, canonical⟩
    exact ⟨rfl, canonical, locate_normalizePathInPlace _, canonical.normalizePathInPlace_eq⟩

/-- Two joins are normalized to canonical paths, which are the same where the joins lead to the
same place. -/
def Join.Agree (first second : Join) : Prop :=
  ∃ result result', first.Canonicalizes result ∧ second.Canonicalizes result' ∧
    ((∀ cwd, (lexical first.path).locate cwd = (lexical second.path).locate cwd) → result = result')

theorem agree_iff (first second : Join) :
    first.Agree second ↔ Tidy first.path ∧ Tidy second.path := by
  simp only [Join.Agree, Join.canonicalizes_iff]
  constructor
  · rintro ⟨_, _, ⟨-, tidy⟩, ⟨-, tidy'⟩, -⟩
    exact ⟨tidy, tidy'⟩
  · rintro ⟨tidy, tidy'⟩
    refine ⟨_, _, ⟨rfl, tidy⟩, ⟨rfl, tidy'⟩, ?_⟩
    intro same
    apply Canonical.eq_of_locate
    · exact (canonical_normalizePathInPlace_iff _).mpr tidy
    · exact (canonical_normalizePathInPlace_iff _).mpr tidy'
    · simpa only [locate_normalizePathInPlace] using same

/-- `a/b` and `..`, which are joined to `a/`. -/
def upFromTwo : Join :=
  ⟨[97, 47, 98], [46, 46], by decide⟩

theorem not_agree : ¬upFromTwo.Agree upFromTwo := by
  rintro ⟨_, _, canonicalizes, -⟩
  exact absurd ((Join.canonicalizes_iff _ _).mp canonicalizes).2 (by decide)

end Gengo.Imports
