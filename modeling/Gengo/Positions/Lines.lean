import Gengo.Positions.Effects
import Gengo.Positions.Fusion

/-!
# The line table under its edits

A line table is sound for what is demanded of the bytes of the code: it is ordered, it does not
reach behind the code, it remembers its last entry, and at every byte it says what is demanded
there. Each edit of the table keeps that, under the condition that goes with it.
-/

namespace Gengo.Positions

open Bytecode Tables List Option

/-- What is demanded of the table at one byte. -/
abbrev Demand (β : Type) :=
  Option β → Prop

/-- The position before the first byte, which no byte may have. -/
def noPosition : ℕ × ℕ :=
  (0, 0xffff)

namespace LineTable

/-- The position last written. -/
def last (table : LineTable) : ℕ × ℕ :=
  (table.lastLine, table.lastCol)

structure Sound (table : LineTable) (demands : List (Demand (ℕ × ℕ))) : Prop where
  ordered : Sparse.Ordered LineEntry.ip table.entries
  inside : ∀ entry ∈ table.entries, entry.ip ≤ demands.length
  last_eq : table.last = (table.entries.getLast?.map LineEntry.position).getD noPosition
  proper : ∀ entry ∈ table.entries, entry.position ≠ noPosition
  follows : Sparse.Follows LineEntry.ip LineEntry.position table.entries demands

variable {table : LineTable} {demands : List (Demand (ℕ × ℕ))}

theorem sound_empty : Sound {} [] where
  ordered := .nil
  inside := nofun
  last_eq := rfl
  proper := nofun
  follows := .nil

theorem last_ofEntries (entries : List LineEntry) :
    (ofEntries entries).last =
      ((ofEntries entries).entries.getLast?.map LineEntry.position).getD noPosition := by
  rw [last, ofEntries]
  cases entries.getLast? <;> rfl

theorem entryAt_eq_governing (ordered : Sparse.Ordered LineEntry.ip table.entries) (i : ℕ) :
    table.entryAt i = Sparse.governing LineEntry.ip table.entries i := by
  rw [entryAt]
  cases head : table.entries.head? with
  | none =>
    rw [List.head?_eq_none_iff.mp head]
    rfl
  | some first =>
    by_cases behind : i < first.ip
    · have none_ : Sparse.governing LineEntry.ip table.entries i = none := by
        have all : ∀ entry ∈ table.entries, i < entry.ip := by
          rcases List.head?_eq_some_iff.mp head with ⟨rest, eq⟩
          rw [Sparse.Ordered, eq, pairwise_cons] at ordered
          rw [eq]
          intro entry mem
          rcases mem_cons.mp mem with rfl | later
          · exact behind
          · exact behind.trans_le (ordered.1 entry later)
        rw [← nil_append table.entries, Sparse.governing_append_of_lt all]
        rfl
      rw [none_]
      exact if_pos behind
    · rw [Sparse.governing_eq_bisect ordered head (not_lt.mp behind)]
      exact if_neg behind

theorem lineAt_colAt (ordered : Sparse.Ordered LineEntry.ip table.entries) (i : ℕ) :
    (table.lineAt i, table.colAt i) =
      (Sparse.valueAt LineEntry.ip LineEntry.position table.entries i).getD (0, 0) := by
  rw [lineAt, colAt, entryAt_eq_governing ordered, Sparse.valueAt]
  cases Sparse.governing LineEntry.ip table.entries i <;> rfl

namespace Sound

variable {room line col : ℕ} {demand : Demand (ℕ × ℕ)}

section

variable (sound : Sound table demands)
include sound

theorem valueAt_end :
    Sparse.valueAt LineEntry.ip LineEntry.position table.entries demands.length =
      table.entries.getLast?.map LineEntry.position := by
  rw [Sparse.valueAt, Sparse.governing_eq_getLast? sound.inside]

/-- A table that already ends in a position says it of the next byte too. -/
theorem snoc_of_last (proper : (line, col) ≠ noPosition) (same : table.last = (line, col))
    (holds : demand (some (line, col))) :
    Sound table (demands ++ [demand]) where
  ordered := sound.ordered
  inside := by
    intro entry mem
    have le := sound.inside entry mem
    rw [length_append, length_singleton]
    omega
  last_eq := sound.last_eq
  proper := sound.proper
  follows := by
    refine sound.follows.snoc ?_
    have last_eq := sound.last_eq
    rw [same] at last_eq
    rw [sound.valueAt_end]
    cases ends : table.entries.getLast? with
    | none =>
      rw [ends] at last_eq
      exact absurd last_eq proper
    | some entry =>
      rw [ends, map_some, getD_some] at last_eq
      rwa [map_some, ← last_eq]

theorem append (proper : (line, col) ≠ noPosition) (holds : demand (some (line, col))) :
    Sound { entries := table.entries ++ [{ ip := demands.length, line, col }]
            lastLine := line
            lastCol := col } (demands ++ [demand]) where
  ordered := sound.ordered.append (pairwise_singleton _ _) fun entry mem later isNew => by
    rw [mem_singleton.mp isNew]
    exact sound.inside entry mem
  inside := by
    intro entry mem
    rw [length_append, length_singleton]
    rcases mem_append.mp mem with earlier | isNew
    · have le := sound.inside entry earlier
      omega
    · rw [mem_singleton.mp isNew]
      exact Nat.le_succ _
  last_eq := by rw [List.getLast?_append_of_ne_nil _ (cons_ne_nil _ _)]; rfl
  proper := by
    intro entry mem
    rcases mem_append.mp mem with earlier | isNew
    · exact sound.proper entry earlier
    · rw [mem_singleton.mp isNew]
      exact proper
  follows := by
    refine Sparse.Follows.snoc (sound.follows.append_entries fun entry isNew => ?_) ?_
    · rw [mem_singleton.mp isNew]
    rw [Sparse.valueAt, Sparse.governing_eq_getLast?]
    · rw [List.getLast?_append_of_ne_nil _ (cons_ne_nil _ _)]
      exact holds
    · intro entry mem
      rcases mem_append.mp mem with earlier | isNew
      · exact sound.inside entry earlier
      · rw [mem_singleton.mp isNew]

/-- One byte is written. Room is needed only for a position that differs from the last. -/
theorem record (proper : (line, col) ≠ noPosition)
    (fits : table.last = (line, col) ∨ table.entries.length < room)
    (holds : demand (some (line, col))) :
    Sound (table.record room demands.length line col) (demands ++ [demand]) := by
  rw [LineTable.record]
  split
  · exact sound.append proper holds
  · rename_i keeps
    refine sound.snoc_of_last proper ?_ holds
    rcases fits with same | fits
    · exact same
    · rw [LineTable.last, Prod.mk.injEq]
      by_contra differs
      exact keeps ⟨by omega, fits⟩

end

end Sound

theorem last_record {room ip line col : ℕ}
    (fits : table.last = (line, col) ∨ table.entries.length < room) :
    (table.record room ip line col).last = (line, col) := by
  rw [LineTable.record]
  split
  · rfl
  · rename_i keeps
    rcases fits with same | fits
    · exact same
    · rw [LineTable.last, Prod.mk.injEq]
      by_contra differs
      exact keeps ⟨by omega, fits⟩

namespace Sound

variable {line col : ℕ}

section

variable (sound : Sound table demands)
include sound

theorem recordRun (room : ℕ) (demand : Demand (ℕ × ℕ)) (proper : (line, col) ≠ noPosition)
    (fits : table.last = (line, col) ∨ table.entries.length < room)
    (holds : demand (some (line, col))) (count : ℕ) :
    Sound (table.recordRun room demands.length line col count)
      (demands ++ List.replicate count demand) ∧
      (0 < count → (table.recordRun room demands.length line col count).last = (line, col)) := by
  induction count with
  | zero =>
    rw [replicate_zero, append_nil]
    exact ⟨sound, nofun⟩
  | succ count ih =>
    rcases ih with ⟨written, last_eq⟩
    have fits' : (table.recordRun room demands.length line col count).last = (line, col) ∨
        (table.recordRun room demands.length line col count).entries.length < room := by
      cases count with
      | zero => exact fits
      | succ count => exact .inl (last_eq (Nat.succ_pos _))
    have length_eq : (demands ++ List.replicate count demand).length = demands.length + count := by
      rw [length_append, length_replicate]
    refine ⟨?_, fun _ => last_record fits'⟩
    rw [LineTable.recordRun, ← length_eq, replicate_succ', ← append_assoc]
    exact written.record proper fits' holds

/-- Bytes of which nothing is demanded may follow without an entry. -/
theorem append_free {free : List (Demand (ℕ × ℕ))}
    (none_ : ∀ demand ∈ free, ∀ value, demand value) : Sound table (demands ++ free) where
  ordered := sound.ordered
  inside := by
    intro entry mem
    have le := sound.inside entry mem
    rw [length_append]
    omega
  last_eq := sound.last_eq
  proper := sound.proper
  follows := by
    intro pos demand at_
    rcases Nat.lt_or_ge pos demands.length with inside | outside
    · rw [List.getElem?_append_left inside] at at_
      exact sound.follows pos demand at_
    · rw [List.getElem?_append_right outside] at at_
      exact none_ demand (mem_of_getElem? at_) _

theorem rewind {keep : ℕ} (before : ∀ entry ∈ table.entries, entry.ip ≤ keep) :
    Sound table (demands.take keep) where
  ordered := sound.ordered
  inside := by
    intro entry mem
    have le := sound.inside entry mem
    have le' := before entry mem
    rw [length_take]
    omega
  last_eq := sound.last_eq
  proper := sound.proper
  follows := sound.follows.take keep

theorem truncateTo (pos : ℕ) : Sound (table.truncateTo pos) (demands.take pos) := by
  have entries_eq : (table.truncateTo pos).entries =
      table.entries.filter fun entry => entry.ip < pos :=
    sound.ordered.rdropWhile_eq_filter
  constructor
  · rw [entries_eq]
    exact sound.ordered.filter _
  · intro entry mem
    rw [entries_eq, mem_filter, decide_eq_true_eq] at mem
    have le := sound.inside entry mem.1
    rw [length_take]
    omega
  · exact last_ofEntries _
  · intro entry mem
    rw [entries_eq] at mem
    exact sound.proper entry (mem_filter.mp mem).1
  · rw [entries_eq]
    exact sound.follows.truncate pos

end

end Sound

end LineTable

theorem moveIp_le_iff {start len ip pos : ℕ} (outside : ¬(start < ip ∧ ip < start + len)) :
    moveIp (start + len) len ip ≤ pos ↔ ip ≤ if pos < start then pos else pos + len := by
  unfold moveIp
  split <;> split <;> omega

theorem getElem?_cut {α : Type} {items : List α} {start len pos : ℕ}
    (inside : start + len ≤ items.length) :
    (items.take start ++ items.drop (start + len))[pos]? =
      items[if pos < start then pos else pos + len]? := by
  have length_take : (items.take start).length = start := by
    rw [length_take]
    omega
  split
  · rename_i before
    rw [List.getElem?_append_left (by omega), List.getElem?_take_of_lt before]
  · rw [List.getElem?_append_right (by omega), length_take, List.getElem?_drop]
    congr 1
    omega

namespace LineTable

theorem outside_of_mem_kept {table : LineTable} {start len : ℕ} {entry : LineEntry}
    (kept : entry ∈ table.entries.filter
      fun entry => ¬(start ≤ entry.ip ∧ entry.ip < start + len)) :
    entry ∈ table.entries ∧ ¬(start ≤ entry.ip ∧ entry.ip < start + len) := by
  simpa only [mem_filter, decide_eq_true_eq] using kept

theorem ordered_deleteRange {table : LineTable} (start len : ℕ)
    (ordered : Sparse.Ordered LineEntry.ip table.entries) :
    Sparse.Ordered LineEntry.ip (table.deleteRange start len).entries := by
  refine pairwise_map.mpr ((ordered.filter _).imp_of_mem ?_)
  intro first second firstMem secondMem le
  have firstOutside := (outside_of_mem_kept firstMem).2
  have secondOutside := (outside_of_mem_kept secondMem).2
  change moveIp _ _ _ ≤ moveIp _ _ _
  unfold moveIp
  split <;> split <;> omega

/-- What the table says when a range has been cut out is what the entries outside the range
said of the same byte before. -/
theorem valueAt_deleteRange (table : LineTable) (start len pos : ℕ) :
    Sparse.valueAt LineEntry.ip LineEntry.position (table.deleteRange start len).entries pos =
      Sparse.valueAt LineEntry.ip LineEntry.position
        (table.entries.filter fun entry => ¬(start ≤ entry.ip ∧ entry.ip < start + len))
        (if pos < start then pos else pos + len) := by
  refine Sparse.valueAt_map (fun _ _ => rfl) fun entry mem => ?_
  have outside := (outside_of_mem_kept mem).2
  exact moveIp_le_iff (by omega)

namespace Sound

variable {table : LineTable} {demands : List (Demand (ℕ × ℕ))} {start len : ℕ}

/-- A range is cut out of the code. The entry that governs the code behind the range must not
be dropped with it. -/
theorem deleteRange (sound : Sound table demands) (inside : start + len ≤ demands.length)
    (keeps : start + len < demands.length → ∀ entry,
      Sparse.governing LineEntry.ip table.entries (start + len) = some entry →
        ¬(start ≤ entry.ip ∧ entry.ip < start + len)) :
    Sound (table.deleteRange start len) (demands.take start ++ demands.drop (start + len)) := by
  have entries_eq : (table.deleteRange start len).entries =
      (table.entries.filter fun entry => ¬(start ≤ entry.ip ∧ entry.ip < start + len)).map
        fun entry => { entry with ip := moveIp (start + len) len entry.ip } :=
    rfl
  constructor
  · exact ordered_deleteRange start len sound.ordered
  · rw [entries_eq]
    intro entry' mem
    rcases mem_map.mp mem with ⟨entry, kept, rfl⟩
    have le := sound.inside entry (outside_of_mem_kept kept).1
    have outside := (outside_of_mem_kept kept).2
    rw [length_append, length_take, length_drop]
    change moveIp _ _ _ ≤ _
    unfold moveIp
    split <;> omega
  · exact last_ofEntries _
  · rw [entries_eq]
    intro entry' mem
    rcases mem_map.mp mem with ⟨entry, kept, rfl⟩
    exact sound.proper entry (outside_of_mem_kept kept).1
  · refine sound.follows.reread fun pos demand at_ =>
      ⟨if pos < start then pos else pos + len, getElem?_cut inside ▸ at_, ?_⟩
    have bound := (List.getElem?_eq_some_iff.mp at_).1
    rw [length_append, length_take, length_drop] at bound
    rw [valueAt_deleteRange, Sparse.valueAt, Sparse.governing_filter, Sparse.valueAt]
    intro entry governs
    have le := Sparse.le_of_governing governs
    by_contra dropped
    have inRange : start ≤ entry.ip ∧ entry.ip < start + len := by simpa using dropped
    split at le
    · omega
    · rw [if_neg (by omega)] at governs
      exact keeps (by omega) entry (Sparse.governing_of_le governs (by omega) (by omega)) inRange

end Sound

end LineTable

namespace LineTable

variable {table out : LineTable} {room ip line col : ℕ}

/-- What the searches find at a position. -/
def positionAt (table : LineTable) (i : ℕ) : ℕ × ℕ :=
  (table.lineAt i, table.colAt i)

/-- The number of entries up to a position. -/
def entriesTo (table : LineTable) (pos : ℕ) : ℕ :=
  (table.entries.filter fun entry => entry.ip ≤ pos).length

theorem record_of_last (same : table.last = (line, col)) :
    table.record room ip line col = table := by
  rw [LineTable.last, Prod.mk.injEq] at same
  rw [LineTable.record, if_neg]
  rintro ⟨differs | differs, -⟩
  · exact differs same.1.symm
  · exact differs same.2.symm

theorem recordRun_succ (fits : table.last = (line, col) ∨ table.entries.length < room)
    (count : ℕ) :
    table.recordRun room ip line col (count + 1) = table.record room ip line col := by
  induction count with
  | zero => rfl
  | succ count ih =>
    rw [LineTable.recordRun, ih, record_of_last (last_record fits)]

/-- How far a table has been rebuilt: it ends in what the old one says at the last position,
with no more entries than the old one has up to there. -/
def RebuiltTo (table out : LineTable) : Option ℕ → Prop
  | none => out.entries = []
  | some pos => out.last = table.positionAt pos ∧ out.entries.length ≤ max (table.entriesTo pos) 1

variable {demands : List (Demand (ℕ × ℕ))} {previous : Option ℕ} {src : ℕ}

theorem entriesTo_le (table : LineTable) (pos : ℕ) : table.entriesTo pos ≤ table.entries.length :=
  length_filter_le _ _

theorem entriesTo_lt (sound : Sound table demands) {pos : ℕ} (le : pos ≤ src)
    (differs : table.positionAt pos ≠ table.positionAt src) :
    table.entriesTo pos < table.entriesTo src := by
  refine Sparse.count_lt_of_governing_ne le fun same => differs ?_
  rw [positionAt, positionAt, lineAt_colAt sound.ordered, lineAt_colAt sound.ordered,
    Sparse.valueAt, same, Sparse.valueAt]

theorem entriesTo_mono (table : LineTable) {pos : ℕ} (le : pos ≤ src) :
    table.entriesTo pos ≤ table.entriesTo src :=
  (Sparse.filter_sublist_of_le le).length_le

/-- The first entry stands at the beginning, so that a table has begun before it goes on. -/
theorem entriesTo_pos (head : ∀ entry, table.entries.head? = some entry → entry.ip = 0) {pos : ℕ}
    (lt : table.entriesTo pos < table.entriesTo src) : 0 < table.entriesTo pos := by
  rw [entriesTo]
  cases entries : table.entries with
  | nil => simp [entriesTo, entries] at lt
  | cons first rest =>
    have first_ip := head first (by rw [entries, List.head?_cons])
    simp [first_ip]

theorem RebuiltTo.fits (rebuilt : RebuiltTo table out previous) (sound : Sound table demands)
    (le : ∀ pos, previous = some pos → pos ≤ src)
    (head : ∀ entry, table.entries.head? = some entry → entry.ip = 0) :
    out.last = table.positionAt src ∨ out.entries.length < max table.entries.length 1 := by
  cases previous with
  | none =>
    rw [RebuiltTo] at rebuilt
    rw [rebuilt]
    exact .inr (by simp)
  | some pos =>
    rcases rebuilt with ⟨last_eq, count⟩
    by_cases same : table.positionAt pos = table.positionAt src
    · exact .inl (last_eq.trans same)
    · have lt := entriesTo_lt sound (le pos rfl) same
      have total := table.entriesTo_le src
      have begun := entriesTo_pos head lt
      exact .inr (by omega)

theorem RebuiltTo.record (rebuilt : RebuiltTo table out previous) (sound : Sound table demands)
    (le : ∀ pos, previous = some pos → pos ≤ src)
    (head : ∀ entry, table.entries.head? = some entry → entry.ip = 0) (newIp : ℕ) :
    RebuiltTo table (out.record (max table.entries.length 1) newIp (table.lineAt src)
      (table.colAt src)) (some src) := by
  have fits := rebuilt.fits sound le head
  refine ⟨last_record fits, ?_⟩
  cases previous with
  | none =>
    rw [RebuiltTo] at rebuilt
    rw [LineTable.record]
    split <;> simp [rebuilt]
  | some pos =>
    rcases rebuilt with ⟨last_eq, count⟩
    have mono := table.entriesTo_mono (le pos rfl)
    by_cases same : out.last = table.positionAt src
    · rw [record_of_last same]
      omega
    · have lt := entriesTo_lt sound (le pos rfl) fun agree => same (last_eq.trans agree)
      rw [LineTable.record]
      split
      · rw [length_append, length_singleton]
        have begun := entriesTo_pos head lt
        omega
      · omega

namespace Sound

/-- The table that is built anew for the groups, each with the position of its first byte. -/
theorem rebuildLines (sound : Sound table demands)
    (head : ∀ entry, table.entries.head? = some entry → entry.ip = 0)
    (closed : ∀ demand ∈ demands, demand none → demand (some (0, 0)))
    {groups : List Group} (increasing : groups.Pairwise fun first second => first.src ≤ second.src)
    (inside : ∀ group ∈ groups, group.src < demands.length)
    (wide : ∀ group ∈ groups, 0 < group.width)
    {outDemands : List (Demand (ℕ × ℕ))} (outSound : Sound out outDemands)
    (rebuilt : RebuiltTo table out previous)
    (later : ∀ pos, previous = some pos → ∀ group ∈ groups, pos ≤ group.src) :
    Sound (Positions.rebuildLines table (max table.entries.length 1) groups outDemands.length out)
      (outDemands ++ groups.flatMap fun group =>
        List.replicate group.width (demands.getD group.src fun _ => True)) := by
  induction groups generalizing out outDemands previous with
  | nil => simpa [Positions.rebuildLines] using outSound
  | cons group groups ih =>
    have parts := pairwise_cons.mp increasing
    have src_lt := inside group mem_cons_self
    rcases Nat.exists_eq_succ_of_ne_zero (wide group mem_cons_self).ne' with ⟨rest, width_eq⟩
    have before : ∀ pos, previous = some pos → pos ≤ group.src := fun pos eq =>
      later pos eq group mem_cons_self
    have fits := rebuilt.fits sound before head
    have demand_eq : demands.getD group.src (fun _ => True) = demands[group.src] :=
      getD_eq_getElem _ _ src_lt
    have holds : demands[group.src] (some (table.positionAt group.src)) := by
      have told := sound.follows group.src _ (List.getElem?_eq_getElem src_lt)
      rw [positionAt, lineAt_colAt sound.ordered]
      cases found : Sparse.valueAt LineEntry.ip LineEntry.position table.entries group.src with
      | none =>
        rw [found] at told
        exact closed _ (getElem_mem src_lt) told
      | some position =>
        rw [found] at told
        exact told
    have proper : table.positionAt group.src ≠ noPosition := by
      rw [positionAt, lineAt_colAt sound.ordered, Sparse.valueAt]
      cases governs : Sparse.governing LineEntry.ip table.entries group.src with
      | none => decide
      | some entry => exact sound.proper entry (Sparse.mem_of_governing governs)
    have written := (outSound.recordRun _ _ proper fits holds group.width).1
    rw [width_eq, recordRun_succ fits, ← width_eq] at written
    have length_eq : (outDemands ++ List.replicate group.width demands[group.src]).length =
        outDemands.length + group.width := by
      rw [length_append, length_replicate]
    have all := ih parts.2
      (fun other mem => inside other (mem_cons_of_mem _ mem))
      (fun other mem => wide other (mem_cons_of_mem _ mem)) written
      (rebuilt.record sound before head outDemands.length)
      fun pos eq other mem => some.inj eq ▸ parts.1 other mem
    rw [length_eq] at all
    rw [Positions.rebuildLines, flatMap_cons, demand_eq, ← append_assoc]
    exact all

theorem ofEntries (sound : Sound table demands) :
    Sound (LineTable.ofEntries table.entries) demands where
  ordered := sound.ordered
  inside := sound.inside
  last_eq := last_ofEntries table.entries
  proper := sound.proper
  follows := sound.follows

end Sound

end LineTable

end Gengo.Positions
