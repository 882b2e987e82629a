import Gengo.Positions.Lines

/-!
# Positions when a range of the code is deleted

The emitter deletes a range of the code and moves what lies behind it up. Positions in the code
are kept in the functions that the constants lead to, in the table of modules and in the line
table. Each of them is told apart by what the deletion needs to get it right.
-/

namespace Gengo.Positions

open Bytecode Tables List Function

/-- The function that a deletion moves for a constant. -/
def movedFunc : Constant FuncRef → Option FuncRef
  | .function func | .closure func _ => some func
  | _ => none

/-- How often a deletion moves a function. -/
def moveCount (consts : List (Constant FuncRef)) (func : FuncRef) : ℕ :=
  consts.countP fun const => movedFunc const == some func

theorem ip_moveFunc (tailStart len : ℕ) (funcs : List FuncObj) (const : Constant FuncRef)
    (func : FuncRef) :
    (moveFunc tailStart len funcs const)[func]?.map FuncObj.ip = funcs[func]?.map fun obj =>
        if movedFunc const == some func then moveIp tailStart len obj.ip else obj.ip := by
  have modified : ∀ other, (funcs.modify other fun obj =>
      { obj with ip := moveIp tailStart len obj.ip })[func]?.map FuncObj.ip =
        funcs[func]?.map fun obj =>
          if (some other == some func) = true then moveIp tailStart len obj.ip else obj.ip := by
    intro other
    rw [List.getElem?_modify]
    by_cases same : other = func
    · subst same
      cases funcs[other]? <;> simp
    · cases funcs[func]? <;> simp [same]
  cases const with
  | function other | closure other _ => exact modified other
  | _ => cases found : funcs[func]? <;> simp [moveFunc, movedFunc, found]

theorem ip_foldl_moveFunc (tailStart len : ℕ) (consts : List (Constant FuncRef))
    (funcs : List FuncObj) (func : FuncRef) :
    (consts.foldl (moveFunc tailStart len) funcs)[func]?.map FuncObj.ip =
      funcs[func]?.map fun obj => (moveIp tailStart len)^[moveCount consts func] obj.ip := by
  induction consts generalizing funcs with
  | nil => rfl
  | cons const consts ih =>
    have first := ip_moveFunc tailStart len funcs const func
    rw [foldl_cons, ih, moveCount, moveCount, countP_cons]
    cases found : funcs[func]? with
    | none =>
      rw [found, Option.map_none, Option.map_eq_none_iff] at first
      rw [first]
      rfl
    | some obj =>
      rw [found, Option.map_some, Option.map_eq_some_iff] at first
      rcases first with ⟨moved, movedAt, movedIp⟩
      rw [movedAt, Option.map_some, Option.map_some, movedIp]
      split
      · rw [iterate_succ_apply]
      · rw [Nat.add_zero]

/-- A position that is moved more than once lands further up, unless the first move takes it out
of the reach of the next one. -/
theorem iterate_moveIp_eq_iff {start len ip count : ℕ} (positive : 0 < len)
    (behind : start + len ≤ ip) :
    (moveIp (start + len) len)^[count] ip = ip - len ↔
      count = 1 ∨ 1 < count ∧ ip < start + len + len := by
  have le : ∀ (count pos : ℕ), (moveIp (start + len) len)^[count] pos ≤ pos := by
    intro count
    induction count with
    | zero => exact fun pos => Nat.le_refl pos
    | succ count ih =>
      intro pos
      rw [iterate_succ_apply]
      refine (ih _).trans ?_
      unfold moveIp
      split <;> omega
  have stays : ∀ (count pos : ℕ), pos < start + len →
      (moveIp (start + len) len)^[count] pos = pos := by
    intro count pos before
    refine iterate_fixed ?_ count
    unfold moveIp
    rw [if_neg (not_le.mpr before)]
  have once : moveIp (start + len) len ip = ip - len := by
    unfold moveIp
    rw [if_pos behind]
  match count with
  | 0 => exact iff_of_false (by rw [iterate_zero_apply]; omega) (by omega)
  | 1 => exact iff_of_true once (.inl rfl)
  | count + 2 =>
    rw [iterate_succ_apply, once]
    by_cases near : ip < start + len + len
    · exact iff_of_true (stays _ _ (by omega)) (.inr ⟨by omega, near⟩)
    · have again : moveIp (start + len) len (ip - len) = ip - len - len := by
        unfold moveIp
        rw [if_pos (by omega)]
      have further := le count (ip - len - len)
      rw [iterate_succ_apply, again]
      exact iff_of_false (by omega) (by omega)

namespace LineTable

variable {table : LineTable} {start len pos : ℕ}

/-- The position of the byte before a byte, or that of code without one. -/
def positionBefore (table : LineTable) : ℕ → ℕ × ℕ
  | 0 => (0, 0)
  | pos + 1 => table.positionAt pos

/-- The table without the entries of a range. -/
def without (table : LineTable) (start len : ℕ) : LineTable :=
  ofEntries (table.entries.filter fun entry => ¬(start ≤ entry.ip ∧ entry.ip < start + len))

/-- The search goes the same way when the entries behind a range have moved up with the code. -/
theorem position_entryAt_deleteRange {old : ℕ}
    (survives : old = if pos < start then pos else pos + len) :
    ((table.deleteRange start len).entryAt pos).map LineEntry.position =
      ((table.without start len).entryAt old).map LineEntry.position := by
  have inOrder : ∀ entry ∈ (table.without start len).entries,
      moveIp (start + len) len entry.ip ≤ pos ↔ entry.ip ≤ old := by
    intro entry kept
    have outside := (outside_of_mem_kept kept).2
    rw [survives]
    exact moveIp_le_iff (by omega)
  have moved : (table.deleteRange start len).entries =
      (table.without start len).entries.map fun entry =>
        { entry with ip := moveIp (start + len) len entry.ip } := rfl
  unfold entryAt
  rw [moved, List.head?_map]
  generalize (table.without start len).entries = kept at inOrder
  cases kept with
  | nil => rfl
  | cons first rest =>
    have atFirst := inOrder first mem_cons_self
    have keys : ∀ index,
        (((first :: rest).map fun entry : LineEntry =>
            { entry with ip := moveIp (start + len) len entry.ip }).map LineEntry.ip).getD index 0
              ≤ pos ↔
          ((first :: rest).map LineEntry.ip).getD index 0 ≤ old := by
      intro index
      rw [List.map_map, List.getD_eq_getElem?_getD, List.getD_eq_getElem?_getD,
        List.getElem?_map, List.getElem?_map]
      cases found : (first :: rest)[index]? with
      | none => exact iff_of_true (Nat.zero_le _) (Nat.zero_le _)
      | some entry => exact inOrder entry (mem_of_getElem? found)
    dsimp only [List.head?_cons, Option.map_some]
    rw [Sparse.bisect, Sparse.bisect, Sparse.bisectLoop_congr keys, List.length_map,
      List.getElem?_map]
    by_cases before : old < first.ip
    · rw [if_pos before, if_pos (by omega)]
    · rw [if_neg before, if_neg (by omega), Option.map_map]
      rfl

theorem positionAt_deleteRange {old : ℕ}
    (survives : old = if pos < start then pos else pos + len) :
    (table.deleteRange start len).positionAt pos = (table.without start len).positionAt old := by
  have same : ((table.deleteRange start len).entryAt pos).map LineEntry.position =
      ((table.without start len).entryAt old).map LineEntry.position :=
    position_entryAt_deleteRange survives
  have position (entry : Option LineEntry) :
      ((entry.map LineEntry.line).getD 0, (entry.map LineEntry.col).getD 0) =
        (entry.map LineEntry.position).getD (0, 0) := by
    cases entry <;> rfl
  rw [positionAt, positionAt, lineAt, colAt, lineAt, colAt, position, position, same]

section

variable (ordered : Sparse.Ordered LineEntry.ip table.entries)
include ordered

theorem positionAt_eq (pos : ℕ) :
    table.positionAt pos =
      (Sparse.valueAt LineEntry.ip LineEntry.position table.entries pos).getD (0, 0) :=
  lineAt_colAt ordered pos

theorem positionBefore_eq (start : ℕ) :
    table.positionBefore start =
      (((table.entries.filter fun entry => entry.ip < start).getLast?).map
        LineEntry.position).getD (0, 0) := by
  cases start with
  | zero => simp [positionBefore]
  | succ start =>
    simp only [positionBefore, positionAt_eq ordered, Sparse.valueAt, Sparse.governing,
      Nat.lt_succ_iff]

variable {entry : LineEntry}

/-- Where an entry of the range governed, the code before the range does afterwards. -/
theorem filter_outside_eq (governs : Sparse.governing LineEntry.ip table.entries pos = some entry)
    (inRange : start ≤ entry.ip ∧ entry.ip < start + len) :
    (table.entries.filter fun entry => ¬(start ≤ entry.ip ∧ entry.ip < start + len)).filter
        (fun entry => entry.ip ≤ pos) =
      table.entries.filter fun entry => entry.ip < start := by
  rw [filter_filter]
  refine filter_congr fun other mem => ?_
  have le := Sparse.le_of_governing governs
  by_cases before : other.ip ≤ pos
  · have notLater := ordered.le_governing governs mem before
    rw [Bool.eq_iff_iff]
    simp [before]
    omega
  · rw [Bool.eq_iff_iff]
    simp [before]
    omega

theorem positionAt_deleteRange_of_kept {old : ℕ}
    (survives : old = if pos < start then pos else pos + len)
    (kept : ∀ entry, Sparse.governing LineEntry.ip table.entries old = some entry →
      ¬(start ≤ entry.ip ∧ entry.ip < start + len)) :
    (table.deleteRange start len).positionAt pos = table.positionAt old := by
  rw [positionAt_eq (ordered_deleteRange start len ordered), positionAt_eq ordered,
    valueAt_deleteRange, ← survives, Sparse.valueAt, Sparse.governing_filter, Sparse.valueAt]
  intro entry governs
  exact decide_eq_true (kept entry governs)

/-- A byte whose entry is dropped gets the position of the byte before the range. -/
theorem positionAt_deleteRange_of_dropped {old : ℕ}
    (survives : old = if pos < start then pos else pos + len)
    (governs : Sparse.governing LineEntry.ip table.entries old = some entry)
    (inRange : start ≤ entry.ip ∧ entry.ip < start + len) :
    (table.deleteRange start len).positionAt pos = table.positionBefore start := by
  rw [positionAt_eq (ordered_deleteRange start len ordered), positionBefore_eq ordered,
    valueAt_deleteRange, ← survives, Sparse.valueAt, Sparse.governing,
    filter_outside_eq ordered governs inRange]

/-- The entry that governs the byte behind a range stands in the range if there is one in it and
none at the byte itself. -/
theorem exists_governing_in_range (mem : entry ∈ table.entries)
    (inRange : start ≤ entry.ip ∧ entry.ip < start + len)
    (none_ : ∀ other ∈ table.entries, other.ip ≠ start + len) :
    ∃ last, Sparse.governing LineEntry.ip table.entries (start + len) = some last ∧
      start ≤ last.ip ∧ last.ip < start + len := by
  cases governs : Sparse.governing LineEntry.ip table.entries (start + len) with
  | none =>
    rw [Sparse.governing, List.getLast?_eq_none_iff, filter_eq_nil_iff] at governs
    exact absurd (governs entry mem) (by simpa using inRange.2.le)
  | some last =>
    have notLater := ordered.le_governing governs mem inRange.2.le
    have le := Sparse.le_of_governing governs
    have apart := none_ last (Sparse.mem_of_governing governs)
    exact ⟨last, rfl, by omega, by omega⟩

/-- No entry of the range governs code behind it: there is none in the range, or one stands at
the code behind it, or that code has the position of the code before the range. -/
def SurvivesCut (table : LineTable) (start len : ℕ) : Prop :=
  (∃ entry ∈ table.entries, start ≤ entry.ip ∧ entry.ip < start + len) →
    (∃ entry ∈ table.entries, entry.ip = start + len) ∨
      table.positionAt (start + len) = table.positionBefore start

/-- Every byte that is left has its position still. -/
theorem positions_deleteRange_iff {codeLen : ℕ} :
    (∀ pos, pos + len < codeLen ∨ pos < start →
        (table.deleteRange start len).positionAt pos =
          table.positionAt (if pos < start then pos else pos + len)) ↔
      (start + len < codeLen → table.SurvivesCut start len) := by
  constructor
  · rintro keeps inside ⟨entry, mem, inRange⟩
    by_contra neither
    rw [not_or] at neither
    rcases exists_governing_in_range ordered mem inRange
      (fun other mem same => neither.1 ⟨other, mem, same⟩) with ⟨last, governs, lastInRange⟩
    have survives : start + len = if start < start then start else start + len := by simp
    have dropped := positionAt_deleteRange_of_dropped ordered survives governs lastInRange
    have kept := keeps start (.inl inside)
    rw [← survives, dropped] at kept
    exact neither.2 kept.symm
  · intro cut pos left
    cases governs : Sparse.governing LineEntry.ip table.entries
        (if pos < start then pos else pos + len) with
    | none =>
      refine positionAt_deleteRange_of_kept ordered rfl fun entry found => ?_
      rw [governs] at found
      cases found
    | some entry =>
      by_cases inRange : start ≤ entry.ip ∧ entry.ip < start + len
      · have le := Sparse.le_of_governing governs
        have behind : ¬pos < start := by
          intro before
          rw [if_pos before] at le
          omega
        rw [if_neg behind] at governs le ⊢
        have mem := Sparse.mem_of_governing governs
        have atTail : Sparse.governing LineEntry.ip table.entries (start + len) = some entry :=
          Sparse.governing_of_le governs inRange.2.le (by omega)
        rw [positionAt_deleteRange_of_dropped ordered (if_neg behind).symm governs inRange]
        rcases cut (by omega) ⟨entry, mem, inRange⟩ with ⟨other, otherMem, same⟩ | same
        · have notLater := ordered.le_governing atTail otherMem same.le
          omega
        · rw [← same, positionAt_eq ordered, positionAt_eq ordered, Sparse.valueAt, atTail,
            Sparse.valueAt, governs]
      · refine positionAt_deleteRange_of_kept ordered rfl fun other found => ?_
        rw [governs] at found
        cases found
        exact inRange

end

end LineTable

/-- Where a byte stands after a range of `len` bytes from `start` on was taken out. -/
inductive Follows (start len : ℕ) : ℕ → ℕ → Prop where
  | before {ip : ℕ} (before : ip < start) : Follows start len ip ip
  | behind {ip : ℕ} (behind : start + len ≤ ip) : Follows start len ip (ip - len)

theorem follows_iff {start len old new : ℕ} :
    Follows start len old new ↔ old < start ∧ new = old ∨ start + len ≤ old ∧ new = old - len := by
  constructor
  · intro follows
    cases follows with
    | before before => exact .inl ⟨before, rfl⟩
    | behind behind => exact .inr ⟨behind, rfl⟩
  · rintro (⟨before, rfl⟩ | ⟨behind, rfl⟩)
    · exact .before before
    · exact .behind behind

theorem follows_moveIp_iff {start len ip : ℕ} :
    Follows start len ip (moveIp (start + len) len ip) ↔
      len = 0 ∨ ¬(start ≤ ip ∧ ip < start + len) := by
  rw [follows_iff]
  unfold moveIp
  split <;> omega

namespace State

variable (state : State)

/-- The entries of the functions, the modules and the line table follow the code from which a
range is taken out. -/
structure PositionExact (start len : ℕ) : Prop where
  funcs : ∀ ref ∈ state.chunk.poolFuncs, ∀ func, state.chunk.funcs[ref]? = some func →
    ∃ moved, (state.deleteCodeRange start len).chunk.funcs[ref]? = some moved ∧
      Follows start len func.ip moved.ip
  modules : List.Forall₂ (fun old new => Follows start len old.ipStart new.ipStart)
    state.boundaries (state.deleteCodeRange start len).boundaries
  positions : ∀ old new, old < state.codeLen → Follows start len old new →
    (state.deleteCodeRange start len).lineTable.positionAt new = state.lineTable.positionAt old

/-- A range of the code with no function in it. -/
structure Removable (start len : ℕ) : Prop where
  inside : start + len ≤ state.codeLen
  funcs : ∀ ref ∈ state.chunk.poolFuncs, ∀ func, state.chunk.funcs[ref]? = some func →
    ¬(start ≤ func.ip ∧ func.ip < start + len)

/-- Every function behind the range is held or closed over by one constant, or by more of them
and the first move takes it out of the reach of the next. No module begins in the range. In a line
table in the order of the code, the code behind the range does not depend on an entry of the range;
in one that a fold has left out of order, no search for a byte that is left does. -/
structure ShiftsUniformly (start len : ℕ) : Prop where
  funcs : ∀ ref ∈ state.chunk.poolFuncs, ∀ func, state.chunk.funcs[ref]? = some func →
    start + len ≤ func.ip →
      moveCount state.chunk.consts ref = 1 ∨
        1 < moveCount state.chunk.consts ref ∧ func.ip < start + len + len
  modules : ∀ boundary ∈ state.boundaries,
    ¬(start ≤ boundary.ipStart ∧ boundary.ipStart < start + len)
  lines : Sparse.Ordered LineEntry.ip state.lineTable.entries → start + len < state.codeLen →
    state.lineTable.SurvivesCut start len
  folded : ¬Sparse.Ordered LineEntry.ip state.lineTable.entries →
    ∀ pos < state.codeLen, ¬(start ≤ pos ∧ pos < start + len) →
      (state.lineTable.without start len).positionAt pos = state.lineTable.positionAt pos

variable {state} {start len : ℕ}

theorem deleteCodeRange_zero : state.deleteCodeRange start 0 = state :=
  if_pos (.inl rfl)

theorem positionExact_zero : state.PositionExact start 0 := by
  have same : ∀ {old new : ℕ}, Follows start 0 old new → new = old := by
    intro old new follows
    cases follows with
    | before before => rfl
    | behind behind => exact Nat.sub_zero old
  have stays : ∀ ip, Follows start 0 ip ip := by
    intro ip
    by_cases before : ip < start
    · exact .before before
    · exact .behind (not_lt.mp before)
  constructor
  · intro ref _ func found
    exact ⟨func, by rw [deleteCodeRange_zero, found], stays func.ip⟩
  · rw [deleteCodeRange_zero]
    exact List.forall₂_same.mpr fun boundary _ => stays boundary.ipStart
  · intro old new _ follows
    rw [deleteCodeRange_zero, same follows]

section

variable (removable : state.Removable start len) (positive : 0 < len)

include removable positive

theorem deleteCodeRange_eq :
    (state.deleteCodeRange start len).chunk.funcs =
        state.chunk.consts.foldl (moveFunc (start + len) len) state.chunk.funcs ∧
      (state.deleteCodeRange start len).boundaries = state.boundaries.map (fun boundary =>
        { boundary with ipStart := moveIp (start + len) len boundary.ipStart }) ∧
      (state.deleteCodeRange start len).lineTable = state.lineTable.deleteRange start len := by
  have inside := removable.inside
  have goes : ¬(len = 0 ∨ state.codeLen ≤ start ∨ state.codeLen < start + len) := by omega
  simp only [boundaries, deleteCodeRange, if_neg goes, and_self]

/-- A function follows the code if it lies before the range, or is moved exactly once. -/
theorem follows_funcs_iff :
    (∀ ref ∈ state.chunk.poolFuncs, ∀ func, state.chunk.funcs[ref]? = some func →
        ∃ moved, (state.deleteCodeRange start len).chunk.funcs[ref]? = some moved ∧
          Follows start len func.ip moved.ip) ↔
      ∀ ref ∈ state.chunk.poolFuncs, ∀ func, state.chunk.funcs[ref]? = some func →
        start + len ≤ func.ip →
          moveCount state.chunk.consts ref = 1 ∨
            1 < moveCount state.chunk.consts ref ∧ func.ip < start + len + len := by
  refine forall₄_congr fun ref pooled func found => ?_
  have outside := removable.funcs ref pooled func found
  have movedIp := ip_foldl_moveFunc (start + len) len state.chunk.consts state.chunk.funcs ref
  rw [← (deleteCodeRange_eq removable positive).1, found, Option.map_some,
    Option.map_eq_some_iff] at movedIp
  rcases movedIp with ⟨moved, movedAt, movedIp⟩
  by_cases behind : start + len ≤ func.ip
  · rw [← iterate_moveIp_eq_iff positive behind, ← movedIp]
    constructor
    · rintro ⟨other, otherAt, follows⟩ _
      obtain rfl := Option.some.inj (movedAt.symm.trans otherAt)
      generalize moved.ip = ip at follows
      cases follows with
      | before before => omega
      | behind _ => rfl
    · intro landed
      exact ⟨moved, movedAt, landed behind ▸ .behind behind⟩
  · have before : func.ip < start := by omega
    have stays : moveIp (start + len) len func.ip = func.ip := if_neg behind
    rw [iterate_fixed stays] at movedIp
    exact iff_of_true ⟨moved, movedAt, by rw [movedIp]; exact .before before⟩
      fun le => absurd le behind

theorem follows_modules_iff :
    List.Forall₂ (fun old new => Follows start len old.ipStart new.ipStart)
        state.boundaries (state.deleteCodeRange start len).boundaries ↔
      ∀ boundary ∈ state.boundaries,
        ¬(start ≤ boundary.ipStart ∧ boundary.ipStart < start + len) := by
  rw [(deleteCodeRange_eq removable positive).2.1, List.forall₂_map_right_iff, List.forall₂_same]
  refine forall₂_congr fun boundary _ => ?_
  rw [follows_moveIp_iff, or_iff_right positive.ne']

theorem follows_folded_iff :
    (∀ old new, old < state.codeLen → Follows start len old new →
        (state.deleteCodeRange start len).lineTable.positionAt new =
          state.lineTable.positionAt old) ↔
      ∀ pos < state.codeLen, ¬(start ≤ pos ∧ pos < start + len) →
        (state.lineTable.without start len).positionAt pos = state.lineTable.positionAt pos := by
  rw [(deleteCodeRange_eq removable positive).2.2]
  constructor
  · intro keeps pos small outside
    by_cases before : pos < start
    · have kept := keeps pos pos small (.before before)
      rwa [LineTable.positionAt_deleteRange (if_pos before).symm] at kept
    · have survives : pos = if pos - len < start then pos - len else pos - len + len := by
        split <;> omega
      have kept := keeps pos (pos - len) small (.behind (by omega))
      rwa [LineTable.positionAt_deleteRange survives] at kept
  · intro keeps old new small follows
    cases follows with
    | before before =>
      rw [LineTable.positionAt_deleteRange (if_pos before).symm]
      exact keeps old small (by omega)
    | behind behind =>
      have survives : old = if old - len < start then old - len else old - len + len := by
        split <;> omega
      rw [LineTable.positionAt_deleteRange survives]
      exact keeps old small (by omega)

theorem follows_positions_iff (ordered : Sparse.Ordered LineEntry.ip state.lineTable.entries) :
    (∀ old new, old < state.codeLen → Follows start len old new →
        (state.deleteCodeRange start len).lineTable.positionAt new =
          state.lineTable.positionAt old) ↔
      (start + len < state.codeLen → state.lineTable.SurvivesCut start len) := by
  have inside := removable.inside
  rw [(deleteCodeRange_eq removable positive).2.2,
    ← LineTable.positions_deleteRange_iff ordered]
  constructor
  · intro keeps pos left
    by_cases before : pos < start
    · rw [if_pos before]
      exact keeps pos pos (by omega) (.before before)
    · rw [if_neg before]
      have follows : Follows start len (pos + len) (pos + len - len) := .behind (by omega)
      rw [Nat.add_sub_cancel] at follows
      exact keeps (pos + len) pos (by omega) follows
  · intro keeps old new small follows
    cases follows with
    | before before =>
      rw [keeps old (.inr before), if_pos before]
    | behind behind =>
      rw [keeps (old - len) (.inl (by omega)), if_neg (by omega), Nat.sub_add_cancel (by omega)]

end

/-- A deletion keeps all positions exactly if the positions behind the range move up as one. -/
theorem positionExact_iff (state : State) (start len : ℕ) (removable : state.Removable start len) :
    state.PositionExact start len ↔ len = 0 ∨ state.ShiftsUniformly start len := by
  rcases Nat.eq_zero_or_pos len with rfl | positive
  · exact iff_of_true positionExact_zero (.inl rfl)
  · rw [or_iff_right positive.ne']
    constructor
    · intro exact_
      constructor
      · exact (follows_funcs_iff removable positive).mp exact_.funcs
      · exact (follows_modules_iff removable positive).mp exact_.modules
      · exact fun ordered =>
          (follows_positions_iff removable positive ordered).mp exact_.positions
      · exact fun _ => (follows_folded_iff removable positive).mp exact_.positions
    · intro uniformly
      constructor
      · exact (follows_funcs_iff removable positive).mpr uniformly.funcs
      · exact (follows_modules_iff removable positive).mpr uniformly.modules
      · by_cases ordered : Sparse.Ordered LineEntry.ip state.lineTable.entries
        · exact (follows_positions_iff removable positive ordered).mpr (uniformly.lines ordered)
        · exact (follows_folded_iff removable positive).mpr (uniformly.folded ordered)

/-- A function without parameters whose body begins at `ip`. -/
def bodyAt (ip : ℕ) : FuncObj where
  ip
  arity := 0
  isVariadic := false
  variadicType := []
  captureSlots := []
  paramTypes := []
  hasTypedParams := false
  returnTypes := []
  hasTypedReturns := false

/-- A call of the standard library in a module, with a function literal as its argument: the two
bytes from position two on are the preamble that is taken out. -/
def stdCall (consts : List (Constant FuncRef)) (func : ℕ) (lines : List LineEntry)
    (few : consts.length ≤ MaxConst) : State where
  chunk :=
    { code := List.replicate 8 0
      consts
      funcs := [bodyAt func]
      moduleBoundaries := [{ ipStart := 0, path := [109] }]
      codeLen_le := by decide
      constCount_le := few }
  lineTable := LineTable.ofEntries lines

theorem removable_stdCall {consts : List (Constant FuncRef)} {func : ℕ} {lines : List LineEntry}
    (few : consts.length ≤ MaxConst) (behind : 4 ≤ func) :
    (stdCall consts func lines few).Removable 2 2 where
  inside := (by decide : 2 + 2 ≤ 8)
  funcs := by
    intro ref _ obj found
    have mem : obj ∈ [bodyAt func] := mem_of_getElem? found
    obtain rfl := mem_singleton.mp mem
    exact fun inRange => absurd inRange.2 (not_lt.mpr behind)

/-- One constant leads to the literal, and the line changes behind the preamble. -/
theorem positionExact_stdCall :
    (stdCall [.closure 0 0] 6 [⟨0, 1, 0⟩, ⟨4, 2, 0⟩] (by decide)).PositionExact 2 2 := by
  refine (positionExact_iff _ 2 2 (removable_stdCall _ (by decide))).mpr (.inr ?_)
  constructor
  · intro ref pooled _ _ _
    have mem : ref ∈ [0] := pooled
    obtain rfl := mem_singleton.mp mem
    exact .inl rfl
  · decide
  · rintro - - ⟨entry, mem, inRange⟩
    revert entry
    decide
  · exact fun folded => absurd (by simp [stdCall, LineTable.ofEntries, Sparse.Ordered]) folded

/-- A deletion of a range without a function goes wrong: the line changes with the preamble, the
literal is the behavior of a task, or two constants lead to it. -/
theorem not_positionExact :
    (∃ state : State, state.Removable 2 2 ∧
      state.lineTable.entries = [⟨0, 1, 0⟩, ⟨2, 2, 0⟩] ∧ ¬state.PositionExact 2 2) ∧
    (∃ state : State, state.Removable 2 2 ∧
      state.chunk.consts = [.taskType { name := [84], qualifiedName := [84], behavior := 0 }] ∧
      ¬state.PositionExact 2 2) ∧
    ∃ state : State, state.Removable 2 2 ∧ state.chunk.consts = [.function 0, .closure 0 0] ∧
      ¬state.PositionExact 2 2 := by
  refine ⟨?lines, ?task, ?shared⟩
  case lines =>
    refine ⟨stdCall [] 6 [⟨0, 1, 0⟩, ⟨2, 2, 0⟩] (by decide),
      removable_stdCall _ (by decide), rfl, fun exact_ => ?_⟩
    have kept := exact_.positions 4 2 (by decide) (.behind (by decide))
    revert kept
    decide
  case task =>
    refine ⟨stdCall [.taskType { name := [84], qualifiedName := [84], behavior := 0 }] 6
      [⟨0, 1, 0⟩] (by decide), removable_stdCall _ (by decide), rfl, fun exact_ => ?_⟩
    rcases exact_.funcs 0 (by decide) (bodyAt 6) rfl with ⟨moved, movedAt, follows⟩
    obtain rfl : bodyAt 6 = moved := Option.some.inj movedAt
    exact absurd (follows_iff.mp follows) (by decide)
  case shared =>
    refine ⟨stdCall [.function 0, .closure 0 0] 6 [⟨0, 1, 0⟩] (by decide),
      removable_stdCall _ (by decide), rfl, fun exact_ => ?_⟩
    rcases exact_.funcs 0 (by decide) (bodyAt 6) rfl with ⟨moved, movedAt, follows⟩
    obtain rfl : bodyAt 2 = moved := Option.some.inj movedAt
    exact absurd (follows_iff.mp follows) (by decide)

end State

end Gengo.Positions
