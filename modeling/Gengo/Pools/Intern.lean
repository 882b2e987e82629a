import Mathlib.Data.List.Basic

/-!
# Pools of references

A pool holds references to contents that live in a memory of their own. Interning a
reference gives the index of one that reads the same, if such contents are looked for, and
appends the reference otherwise. What an index denotes then depends on the memory, so it
lasts as long as no reference of the pool is written through.
-/

namespace Gengo.Pools

/-- At most so many references. -/
structure Pool (Ref : Type*) (capacity : ℕ) where
  refs : List Ref
  fits : refs.length ≤ capacity

namespace Pool

variable {Ref Content : Type*} {capacity : ℕ}

theorem push_fits {refs : List Ref} (ref : Ref) (room : refs.length < capacity) :
    (refs ++ [ref]).length ≤ capacity := by
  rw [List.length_append, List.length_singleton]
  exact room

theorem take_fits {refs : List Ref} (count : ℕ) (fits : refs.length ≤ capacity) :
    (refs.take count).length ≤ capacity :=
  Nat.le_trans (List.length_take_le' count refs) fits

/-- The pool with a reference appended. -/
def push (pool : Pool Ref capacity) (ref : Ref) (room : pool.refs.length < capacity) :
    Pool Ref capacity where
  refs := pool.refs ++ [ref]
  fits := push_fits ref room

/-- The pool without the references from an index on. -/
def truncate (pool : Pool Ref capacity) (count : ℕ) : Pool Ref capacity where
  refs := pool.refs.take count
  fits := take_fits count pool.fits

section Lookup

variable [DecidableEq Content]

/-- The first index that reads as a content, if such contents are looked for. -/
def lookup (pool : Pool Ref capacity) (read : Ref → Content) (scans : Content → Bool)
    (content : Content) : Option ℕ :=
  if scans content then pool.refs.findIdx? fun ref => decide (read ref = content) else none

/-- The index of a reference's content, and the pool after it has been interned. -/
def intern (pool : Pool Ref capacity) (read : Ref → Content) (scans : Content → Bool)
    (ref : Ref) : Option (ℕ × Pool Ref capacity) :=
  match pool.lookup read scans (read ref) with
  | some index => some (index, pool)
  | none =>
    if room : pool.refs.length < capacity then some (pool.refs.length, pool.push ref room)
    else none

/-- Interning the reference appends it. -/
def Adds (pool : Pool Ref capacity) (read : Ref → Content) (scans : Content → Bool)
    (ref : Ref) : Prop :=
  pool.lookup read scans (read ref) = none ∧ pool.refs.length < capacity

end Lookup

/-- The reference at an index reads as a content. -/
def Reads (pool : Pool Ref capacity) (read : Ref → Content) (index : ℕ) (content : Content) :
    Prop :=
  ∃ ref, pool.refs[index]? = some ref ∧ read ref = content

/-- Every index of a ledger reads as the content it was given out for. -/
def Denotes (pool : Pool Ref capacity) (read : Ref → Content) (ledger : List (ℕ × Content)) :
    Prop :=
  ∀ entry ∈ ledger, pool.Reads read entry.1 entry.2

section Reading

variable {pool : Pool Ref capacity} {read read' : Ref → Content} {index count : ℕ}
  {content : Content} {ledger : List (ℕ × Content)} {ref : Ref}

theorem Reads.push (reads : pool.Reads read index content)
    (room : pool.refs.length < capacity) : (pool.push ref room).Reads read index content := by
  rcases reads with ⟨held, at_index, read_eq⟩
  refine ⟨held, ?_, read_eq⟩
  have below := (List.getElem?_eq_some_iff.mp at_index).1
  simpa [Pool.push, List.getElem?_append_left below] using at_index

theorem reads_push (room : pool.refs.length < capacity) :
    (pool.push ref room).Reads read pool.refs.length (read ref) :=
  ⟨ref, by simp [Pool.push], rfl⟩

theorem Reads.change (same : ∀ ref ∈ pool.refs, read' ref = read ref)
    (reads : pool.Reads read index content) : pool.Reads read' index content := by
  rcases reads with ⟨held, at_index, rfl⟩
  exact ⟨held, at_index, same held (List.mem_of_getElem? at_index)⟩

theorem Reads.truncate (below : index < count) (reads : pool.Reads read index content) :
    (pool.truncate count).Reads read index content := by
  rcases reads with ⟨held, at_index, read_eq⟩
  exact ⟨held, by simpa [Pool.truncate, below] using at_index, read_eq⟩

@[simp]
theorem denotes_nil : pool.Denotes read [] := by
  simp [Denotes]

theorem denotes_cons_iff :
    pool.Denotes read ((index, content) :: ledger) ↔
      pool.Reads read index content ∧ pool.Denotes read ledger := by
  simp [Denotes]

theorem Denotes.push (denotes : pool.Denotes read ledger)
    (room : pool.refs.length < capacity) : (pool.push ref room).Denotes read ledger :=
  fun entry mem => (denotes entry mem).push room

theorem Denotes.change (same : ∀ ref ∈ pool.refs, read' ref = read ref)
    (denotes : pool.Denotes read ledger) : pool.Denotes read' ledger :=
  fun entry mem => (denotes entry mem).change same

/-- A pool that is cut short still denotes the entries that it keeps. -/
theorem Denotes.truncate (denotes : pool.Denotes read ledger) :
    (pool.truncate count).Denotes read (ledger.filter fun entry => entry.1 < count) := by
  intro entry mem
  rcases List.mem_filter.mp mem with ⟨mem, below⟩
  exact (denotes entry mem).truncate (by simpa using below)

end Reading

section Interning

variable [DecidableEq Content] {pool pool' : Pool Ref capacity} {read : Ref → Content}
  {scans : Content → Bool} {index : ℕ} {ref : Ref} {ledger : List (ℕ × Content)}

theorem reads_of_lookup {content : Content}
    (found : pool.lookup read scans content = some index) :
    pool.Reads read index content := by
  by_cases scanned : scans content
  · rw [lookup, if_pos scanned, List.findIdx?_eq_some_iff_getElem] at found
    rcases found with ⟨below, equal, _⟩
    exact ⟨pool.refs[index], List.getElem?_eq_getElem below, by simpa using equal⟩
  · simp [lookup, scanned] at found

/-- What interning does: a reference that reads the same is found, or this one is added. -/
theorem intern_cases (interned : pool.intern read scans ref = some (index, pool')) :
    (pool' = pool ∧ pool.Reads read index (read ref) ∧ ¬ pool.Adds read scans ref) ∨
      ∃ room : pool.refs.length < capacity, pool.Adds read scans ref ∧
        pool' = pool.push ref room ∧ index = pool.refs.length := by
  unfold intern at interned
  cases found : pool.lookup read scans (read ref) with
  | some held =>
    simp only [found, Option.some.injEq, Prod.mk.injEq] at interned
    rcases interned with ⟨rfl, rfl⟩
    exact .inl ⟨rfl, reads_of_lookup found, by simp [Adds, found]⟩
  | none =>
    by_cases room : pool.refs.length < capacity
    · simp only [found, room, dite_true, Option.some.injEq, Prod.mk.injEq] at interned
      rcases interned with ⟨rfl, rfl⟩
      exact .inr ⟨room, ⟨found, room⟩, rfl, rfl⟩
    · simp [found, room] at interned

theorem intern_of_adds (adds : pool.Adds read scans ref) :
    pool.intern read scans ref = some (pool.refs.length, pool.push ref adds.2) := by
  simp [intern, adds.1, adds.2]

/-- The index that interning gives denotes the content that it was given for, and the
indices given before denote what they did. -/
theorem Denotes.intern (denotes : pool.Denotes read ledger)
    (interned : pool.intern read scans ref = some (index, pool')) :
    pool'.Denotes read ((index, read ref) :: ledger) := by
  rcases intern_cases interned with ⟨rfl, reads, _⟩ | ⟨room, _, rfl, rfl⟩
  · exact denotes_cons_iff.mpr ⟨reads, denotes⟩
  · exact denotes_cons_iff.mpr ⟨reads_push room, denotes.push room⟩

end Interning

end Pool

end Gengo.Pools
