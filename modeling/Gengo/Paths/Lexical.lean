import Mathlib.Data.Fintype.EquivFin

/-!
# Lexical resolution of paths

A path is a route of components, from the topmost directory or from a working directory that
the text of the path does not name. One path lies inside another when it does from every
working directory. Paths in normal form, with all their steps up in front, lie inside each
other only if they say so.
-/

namespace Gengo.Paths

open List

/-- A component of a path. -/
inductive Component (κ : Type*)
  | here
  | up
  | name (name : κ)
  deriving DecidableEq

variable {κ : Type*}

namespace Component

/-- Where a component leads from a directory. Above the topmost directory there is none. -/
def enter (dir : List κ) : Component κ → List κ
  | here => dir
  | up => dir.dropLast
  | name entry => dir ++ [entry]

end Component

/-- Where a route leads from a directory. -/
def walk (dir : List κ) (route : List (Component κ)) : List κ :=
  route.foldl Component.enter dir

variable (dir : List κ)

@[simp]
theorem walk_nil : walk dir [] = dir :=
  rfl

@[simp]
theorem walk_cons (component : Component κ) (route : List (Component κ)) :
    walk dir (component :: route) = walk (component.enter dir) route :=
  rfl

@[simp]
theorem walk_append (first last : List (Component κ)) :
    walk dir (first ++ last) = walk (walk dir first) last :=
  foldl_append

@[simp]
theorem walk_names (names : List κ) : walk dir (names.map .name) = dir ++ names := by
  induction names generalizing dir with
  | nil => simp
  | cons name names ih =>
    simp [ih, Component.enter]

@[simp]
theorem walk_ups (count : ℕ) :
    walk dir (List.replicate count .up) = dir.take (dir.length - count) := by
  induction count generalizing dir with
  | zero => simp
  | succ count ih =>
    rw [replicate_succ, walk_cons, ih, Component.enter,
      length_dropLast, dropLast_eq_take, take_take]
    congr 1
    omega

structure Path (κ : Type*) where
  absolute : Bool
  route : List (Component κ)

namespace Path

variable (path root : Path κ)

/-- The directory where a path starts. -/
def start (cwd : List κ) : List κ :=
  if path.absolute then [] else cwd

def locate (cwd : List κ) : List κ :=
  walk (path.start cwd) path.route

/-- From every working directory, the path leads to the root or to something below it. -/
def Inside : Prop :=
  ∀ cwd, root.locate cwd <+: path.locate cwd

/-- A path in normal form. -/
def normal (absolute : Bool) (ups : ℕ) (names : List κ) : Path κ where
  absolute := absolute
  route := List.replicate ups .up ++ names.map .name

theorem locate_normal_relative (ups : ℕ) (names cwd : List κ) :
    (normal false ups names).locate cwd = cwd.take (cwd.length - ups) ++ names := by
  simp [locate, start, normal]

theorem locate_normal_absolute (names cwd : List κ) : (normal true 0 names).locate cwd = names := by
  simp [locate, start, normal]

theorem exists_fresh [Infinite κ] (names : List κ) : ∃ fresh : κ, fresh ∉ names := by
  classical
  rcases Infinite.exists_notMem_finset names.toFinset with ⟨fresh, notMem⟩
  exact ⟨fresh, fun mem => notMem (mem_toFinset.mpr mem)⟩

variable {ups rootUps : ℕ} {names rootNames : List κ}

theorem inside_relative_iff [Infinite κ] (anchored : rootNames ≠ [] ∨ rootUps = 0) :
    (normal false ups names).Inside (normal false rootUps rootNames) ↔
      ups = rootUps ∧ rootNames <+: names := by
  simp only [Inside, locate_normal_relative]
  constructor
  · intro inside
    rcases exists_fresh (names ++ rootNames) with ⟨fresh, notMem⟩
    have apart := inside (List.replicate (ups + rootUps) fresh)
    rw [take_replicate, take_replicate, length_replicate] at apart
    have counts : min (ups + rootUps - rootUps) (ups + rootUps) = ups ∧
        min (ups + rootUps - ups) (ups + rootUps) = rootUps := by omega
    rw [counts.1, counts.2] at apart
    rcases Nat.lt_trichotomy ups rootUps with fewer | same | more
    · -- The root's first name stands where the path has a component of the directory.
      have named : rootNames ≠ [] := anchored.resolve_right (Nat.ne_of_gt (by omega))
      have split : List.replicate rootUps fresh =
          List.replicate ups fresh ++ List.replicate (rootUps - ups) fresh := by
        rw [← replicate_add]
        congr 1
        omega
      rw [split, append_assoc, prefix_append_right_inj] at apart
      cases rootNames with
      | nil => exact absurd rfl named
      | cons name rest =>
        have positive : rootUps - ups = rootUps - ups - 1 + 1 := by omega
        rw [positive, replicate_succ, cons_append, cons_prefix_cons] at apart
        exact absurd (by simp [apart.1]) notMem
    · subst same
      exact ⟨rfl, (prefix_append_right_inj _).mp apart⟩
    · have split : List.replicate ups fresh =
          List.replicate rootUps fresh ++ List.replicate (ups - rootUps) fresh := by
        rw [← replicate_add]
        congr 1
        omega
      rw [split, append_assoc, prefix_append_right_inj] at apart
      have positive : ups - rootUps = ups - rootUps - 1 + 1 := by omega
      rw [positive, replicate_succ, cons_append] at apart
      have mem : fresh ∈ names := apart.subset mem_cons_self
      exact absurd (mem_append_left _ mem) notMem
  · rintro ⟨rfl, below⟩ cwd
    exact (prefix_append_right_inj _).mpr below

theorem inside_absolute_iff :
    (normal true 0 names).Inside (normal true 0 rootNames) ↔ rootNames <+: names := by
  simp only [Inside, locate_normal_absolute, forall_const]

theorem not_inside_of_relative_root [Infinite κ] :
    ¬(normal true 0 names).Inside (normal false rootUps rootNames) := by
  intro inside
  rcases exists_fresh names with ⟨fresh, -⟩
  have long := (inside (List.replicate (names.length + 1 + rootUps) fresh)).length_le
  simp only [locate_normal_relative, locate_normal_absolute, length_append,
    length_take, length_replicate] at long
  omega

theorem not_inside_of_absolute_root [Infinite κ] (named : rootNames ≠ []) :
    ¬(normal false ups names).Inside (normal true 0 rootNames) := by
  intro inside
  cases rootNames with
  | nil => exact named rfl
  | cons name rest =>
    rcases exists_fresh [name] with ⟨fresh, notMem⟩
    have first := inside (List.replicate (ups + 1) fresh)
    rw [locate_normal_relative, locate_normal_absolute, length_replicate,
      take_replicate, Nat.add_sub_cancel_left, Nat.min_eq_left (by omega),
      replicate_one, singleton_append, cons_prefix_cons] at first
    exact notMem (by simp [first.1])

/-- Inside, in normal form: the same start, as many steps up, and further down. -/
theorem inside_normal_iff [Infinite κ] {absolute rootAbsolute : Bool}
    (fromTop : absolute = true → ups = 0) (rootFromTop : rootAbsolute = true → rootUps = 0)
    (anchored : rootNames ≠ [] ∨ rootAbsolute = false ∧ rootUps = 0) :
    (normal absolute ups names).Inside (normal rootAbsolute rootUps rootNames) ↔
      absolute = rootAbsolute ∧ ups = rootUps ∧ rootNames <+: names := by
  cases absolute with
  | false =>
    cases rootAbsolute with
    | false =>
      rw [inside_relative_iff (anchored.imp_right And.right)]
      exact ⟨fun inside => ⟨rfl, inside⟩, And.right⟩
    | true =>
      rw [rootFromTop rfl]
      have named : rootNames ≠ [] := anchored.resolve_right (by simp)
      simp [not_inside_of_absolute_root named]
  | true =>
    rw [fromTop rfl]
    cases rootAbsolute with
    | false => simp [not_inside_of_relative_root]
    | true => simp [rootFromTop rfl, inside_absolute_iff]

theorem Inside.of_locate {path path' root : Path κ}
    (same : ∀ cwd, path'.locate cwd = path.locate cwd) (inside : path.Inside root) :
    path'.Inside root := by
  intro cwd
  rw [same cwd]
  exact inside cwd

end Path

variable {α : Type*} [DecidableEq α] (separator : α)

omit [DecidableEq α] in
theorem intercalate_append {between : List α} {first last : List (List α)}
    (firstParts : first ≠ []) (lastParts : last ≠ []) :
    between.intercalate (first ++ last) =
      between.intercalate first ++ (between ++ between.intercalate last) := by
  induction first with
  | nil => exact absurd rfl firstParts
  | cons part parts ih =>
    cases parts with
    | nil => simp [intercalate_cons_of_ne_nil lastParts]
    | cons next parts =>
      rw [cons_append, intercalate_cons_of_ne_nil (by simp), ih (by simp), intercalate_cons_cons]
      simp only [append_assoc]

/-- A text is a prefix up to a separator exactly if its components are. -/
theorem splitOn_isPrefix_iff {first text : List α} :
    first.splitOn separator <+: text.splitOn separator ↔
      first = text ∨ first ++ [separator] <+: text := by
  constructor
  · rintro ⟨rest, split⟩
    have joined : [separator].intercalate (text.splitOn separator) = text :=
      intercalate_splitOn separator
    rw [← split] at joined
    cases rest with
    | nil =>
      left
      rw [append_nil, intercalate_splitOn] at joined
      exact joined
    | cons component rest =>
      right
      rw [intercalate_append (splitOn_ne_nil separator first) (by simp),
        intercalate_splitOn] at joined
      exact ⟨_, by rw [← joined, append_assoc]⟩
  · rintro (rfl | ⟨rest, rfl⟩)
    · exact prefix_refl _
    · rw [append_assoc, singleton_append, splitOn_append_cons_self]
      exact prefix_append _ _

end Gengo.Paths
