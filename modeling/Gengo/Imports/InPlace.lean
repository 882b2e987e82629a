import Gengo.Imports.Normal

/-!
# Normalizing in place

A path is joined in a buffer of `maxModulePathBytes` bytes and normalized there: segments are
written where bytes have been read. A run fails where it would write over a byte that has not
been read, leave the buffer or record a segment too many. None does, and the result is the one
of `normalizePathInPlace`.
-/

namespace Gengo.Imports

open List Option
open Bytecode (Bytes)
open Host (slash)
open Mounts (dot dotDot)

/-- The buffer, split where it is read, the end of what is written in it, and the segments. -/
structure Cursor where
  read : Bytes
  unread : Bytes
  writeI : ℕ
  segs : List (ℕ × Bool)

namespace Cursor

def advance (cursor : Cursor) (count : ℕ) : Cursor :=
  { cursor with
    read := cursor.read ++ cursor.unread.take count
    unread := cursor.unread.drop count }

def write (cursor : Cursor) (text : Bytes) : Option Cursor :=
  if cursor.writeI + text.length ≤ cursor.read.length then
    some { cursor with
      read :=
        cursor.read.take cursor.writeI ++ text ++ cursor.read.drop (cursor.writeI + text.length)
      writeI := cursor.writeI + text.length }
  else none

/-- `copyForwards` of a segment, which must not start before the place where it is written. -/
def copyForwards (segStart : ℕ) (cursor : Cursor) : Option Cursor :=
  if cursor.writeI ≤ segStart then cursor.write (cursor.read.drop segStart) else none

/-- Writes a segment behind a separator, where one is needed, and records its start. -/
def push (needed : Prop) [Decidable needed] (up : Bool) (writeSeg : Cursor → Option Cursor)
    (cursor : Cursor) : Option Cursor :=
  (cursor.write (if needed then [slash] else [])).bind fun cursor =>
    if cursor.segs.length < maxModulePathBytes then
      writeSeg { cursor with segs := (cursor.writeI, up) :: cursor.segs }
    else none

/-- The segment ends where the buffer is read. -/
def segment (absolute : Bool) (segStart : ℕ) (cursor : Cursor) : Option Cursor :=
  let seg := cursor.read.drop segStart
  if seg = dot then some cursor
  else if seg = dotDot then
    match cursor.segs with
    | (start, false) :: segs => some { cursor with writeI := start, segs }
    | _ =>
      if absolute then some cursor
      else cursor.push (cursor.writeI ≠ 0) true (write · dotDot)
  else
    cursor.push (cursor.writeI ≠ 0 ∧ cursor.read[cursor.writeI - 1]? ≠ some slash) false
      (copyForwards segStart)

def round (absolute : Bool) (cursor : Cursor) : Option Cursor :=
  let cursor := cursor.advance (cursor.unread.takeWhile (· = slash)).length
  if cursor.unread = [] then some cursor
  else
    (cursor.advance (cursor.unread.takeWhile (· ≠ slash)).length).segment absolute
      cursor.read.length

/-- The loop, for a number of rounds within which it has to end. -/
def rounds (absolute : Bool) : ℕ → Cursor → Option Cursor
  | 0, _ => none
  | fuel + 1, cursor =>
    if cursor.unread = [] then some cursor
    else (cursor.round absolute).bind (rounds absolute fuel)

def start (path : Bytes) : Cursor :=
  if isAbsolute path then ⟨[slash], path.tail, 1, []⟩ else ⟨[], path, 0, []⟩

end Cursor

def normalizeBuffer (path : Bytes) : Option Bytes :=
  (Cursor.rounds (isAbsolute path) (path.length + 1) (.start path)).map fun cursor =>
    if cursor.writeI = 0 then (if isAbsolute path then [slash] else dot)
    else cursor.read.take cursor.writeI

def joinInBuffer (baseDir importName : Bytes) : Except ImportError (Option Bytes) :=
  if isAbsolute importName then
    if maxModulePathBytes < importName.length then .error .importPathTooLong
    else .ok (normalizeBuffer importName)
  else if maxModulePathBytes < baseDir.length + 1 + importName.length then
    .error .importPathTooLong
  else if baseDir = dot then .ok (normalizeBuffer importName)
  else .ok (normalizeBuffer (baseDir ++ slash :: importName))

variable (rest : Bytes)

theorem segments_slash : segments (slash :: rest) = segments rest := by
  simp [segments, splitOn_cons_eq_if_modifyHead]

theorem segments_dropWhile : segments (rest.dropWhile (· = slash)) = segments rest := by
  induction rest with
  | nil => rfl
  | cons byte rest ih =>
    by_cases separator : byte = slash
    · rw [dropWhile_cons_of_pos (by simpa using separator), ih, separator, segments_slash]
    · rw [dropWhile_cons_of_neg (by simpa using separator)]

theorem head?_dropWhile :
    rest.dropWhile (· ≠ slash) = [] ∨ (rest.dropWhile (· ≠ slash)).head? = some slash := by
  induction rest with
  | nil => exact .inl rfl
  | cons byte rest ih =>
    by_cases separator : byte = slash
    · simp [separator]
    · simpa [separator] using ih

theorem slash_notMem_takeWhile : slash ∉ rest.takeWhile (· ≠ slash) := by
  intro mem
  simpa using mem_takeWhile_imp mem

theorem segments_append {seg rest : Bytes} (full : seg ≠ []) (whole : slash ∉ seg)
    (ends : rest = [] ∨ rest.head? = some slash) :
    segments (seg ++ rest) = seg :: segments rest := by
  have alone := splitOn_eq_singleton whole
  rcases ends with rfl | separated
  · simp [segments, alone, full]
  · rcases List.head?_eq_some_iff.mp separated with ⟨later, rfl⟩
    rw [segments_slash, segments, splitOn_append_cons_self, alone]
    simp [segments, full]

theorem Written.length_segs_le {absolute : Bool} {buf : Bytes} {segs : List (ℕ × Bool)}
    {spelled : List Bytes} (written : Written absolute buf segs spelled) :
    segs.length ≤ buf.length := by
  induction written with
  | begin => simp
  | name _ _ named ih =>
    have long := length_pos_of_ne_nil named.1
    simp only [length_cons, length_append]
    omega
  | up _ _ _ ih =>
    simp only [length_cons, length_append, dotDot, length_nil]
    omega
  | separator _ _ ih =>
    rw [length_append]
    omega

namespace Writing

variable {absolute : Bool} {writing : Writing} {read : List Bytes} {rest seg unread : Bytes}

/-- The buffer where a text has been written over what was read, up to the rest of that. -/
def cursor (writing : Writing) (rest unread : Bytes) : Cursor :=
  ⟨writing.buf ++ rest, unread, writing.buf.length, writing.segs⟩

theorem write_cursor {text : Bytes} (room : text.length ≤ rest.length) :
    (writing.cursor rest unread).write text =
      some (cursor ⟨writing.buf ++ text, writing.segs⟩ (rest.drop text.length) unread) := by
  rw [Cursor.write, cursor, if_pos (by simpa using room), take_left, drop_append]
  simp [cursor]

theorem cursor_take {start : ℕ} {segs : List (ℕ × Bool)} (le : start ≤ writing.buf.length) :
    cursor ⟨writing.buf.take start, segs⟩ (writing.buf.drop start ++ rest) unread =
      ⟨writing.buf ++ rest, unread, start, segs⟩ := by
  rw [cursor, ← append_assoc, take_append_drop, length_take_of_le le]

/-- A segment is recorded between a separator, where one is needed, and its text. -/
theorem exists_push (reads : writing.Reads absolute read) {separator : Bytes} {needed : Prop}
    [Decidable needed] (isSeparator : separator = if needed then [slash] else [])
    (text : Bytes) (full : text ≠ []) (room : (separator ++ text).length ≤ rest.length)
    (fits : (writing.buf ++ rest).length ≤ maxModulePathBytes) (up : Bool)
    (writeSeg : Cursor → Option Cursor)
    (writes : ∀ middle : Writing, middle.buf = writing.buf ++ separator →
      writeSeg (middle.cursor (rest.drop separator.length) unread) =
        (middle.cursor (rest.drop separator.length) unread).write text) :
    ∃ rest', (writing.cursor rest unread).push needed up writeSeg =
        some (cursor ⟨writing.buf ++ separator ++ text,
          ((writing.buf ++ separator).length, up) :: writing.segs⟩ rest' unread) ∧
      (writing.buf ++ separator ++ text).length + rest'.length = (writing.buf ++ rest).length := by
  have more := length_pos_of_ne_nil full
  simp only [length_append] at room fits ⊢
  have spare : writing.segs.length < maxModulePathBytes := by
    rcases reads with ⟨spelled, written, -⟩
    have few := written.length_segs_le
    omega
  refine ⟨(rest.drop separator.length).drop text.length, ?_, ?_⟩
  · rw [Cursor.push, ← isSeparator, write_cursor (by omega), bind_some]
    have written := writes ⟨_, ((writing.buf ++ separator).length, up) :: writing.segs⟩ rfl
    rw [write_cursor (by rw [length_drop]; omega)] at written
    rw [← length_append]
    exact (if_pos spare).trans written
  · simp only [length_drop]
    omega

theorem ite_separator {needed : Prop} [Decidable needed] (buf : Bytes) :
    (if needed then buf ++ [slash] else buf) = buf ++ if needed then [slash] else [] := by
  split
  · rfl
  · rw [append_nil]

theorem drop_cursor {segStart : ℕ} (place : (writing.buf ++ rest).length = segStart) :
    (writing.cursor (rest ++ seg) unread).read.drop segStart = seg := by
  rw [cursor, ← append_assoc, ← place, drop_left]

theorem copyForwards_cursor {segStart : ℕ} (place : (writing.buf ++ rest).length = segStart) :
    (writing.cursor (rest ++ seg) unread).copyForwards segStart =
      (writing.cursor (rest ++ seg) unread).write seg := by
  have before : (writing.cursor (rest ++ seg) unread).writeI ≤ segStart := by
    rw [← place, length_append]
    exact Nat.le_add_right _ _
  rw [Cursor.copyForwards, if_pos before, drop_cursor place]

theorem separated_iff (rest unread : Bytes) :
    (writing.buf ≠ [] ∧ writing.buf.getLast? ≠ some slash) ↔
      (writing.cursor rest unread).writeI ≠ 0 ∧
        (writing.cursor rest unread).read[(writing.cursor rest unread).writeI - 1]? ≠
          some slash := by
  simp only [cursor, ne_eq, length_eq_zero_iff, List.getLast?_eq_getElem?]
  apply and_congr_right
  intro full
  have more := length_pos_of_ne_nil full
  rw [List.getElem?_append_left (by omega)]

/-- What a segment does in the buffer is what it does to the writing. -/
theorem exists_segment (reads : writing.Reads absolute read) (full : seg ≠ [])
    (room : writing.buf = (Writing.begin absolute).buf ∨ rest ≠ []) (unread : Bytes)
    (fits : (writing.buf ++ (rest ++ seg)).length ≤ maxModulePathBytes) :
    ∃ rest', (writing.cursor (rest ++ seg) unread).segment absolute (writing.buf ++ rest).length =
        some ((writing.segment absolute seg).cursor rest' unread) ∧
      (writing.segment absolute seg).buf.length + rest'.length =
        (writing.buf ++ (rest ++ seg)).length := by
  have here : (writing.cursor (rest ++ seg) unread).read.drop (writing.buf ++ rest).length =
      seg := drop_cursor rfl
  have space : ∀ {needed : Prop} [Decidable needed],
      (needed → writing.buf ≠ (Writing.begin absolute).buf) →
      (if needed then [slash] else []).length ≤ rest.length := by
    intro needed _ further
    split
    next need => exact length_pos_of_ne_nil (room.resolve_left (further need))
    next => exact Nat.zero_le _
  unfold Cursor.segment Writing.segment
  simp only [here, ite_separator]
  by_cases isDot : seg = dot
  · simp only [if_pos isDot]
    exact ⟨_, rfl, (length_append).symm⟩
  simp only [if_neg isDot]
  by_cases isUp : seg = dotDot
  · simp only [if_pos isUp]
    rcases writing with ⟨buf, _ | ⟨⟨start, _ | _⟩, segs⟩⟩
    case pos.cons.false =>
      -- The last name is taken back, and nothing is written.
      rcases reads with ⟨spelled, written, -⟩
      have le := written.start_le rfl
      refine ⟨buf.drop start ++ (rest ++ seg), congrArg some (cursor_take le).symm, ?_⟩
      rw [← length_append, ← append_assoc]
      exact congrArg (fun front => (front ++ (rest ++ seg)).length) (take_append_drop _ _)
    all_goals
      cases absolute with
      | true => exact ⟨_, rfl, (length_append).symm⟩
      | false =>
        have isSeparator : (if buf ≠ [] then [slash] else []) =
            if buf.length ≠ 0 then [slash] else [] := by
          simp only [ne_eq, length_eq_zero_iff]
        refine exists_push reads isSeparator dotDot (by decide) ?_ fits true (·.write dotDot)
          fun _ _ => rfl
        have inside : (if buf ≠ [] then [slash] else []).length ≤ rest.length := space id
        simp only [length_append, isUp] at inside ⊢
        omega
  · simp only [if_neg isUp]
    have inside : (if writing.buf ≠ [] ∧ writing.buf.getLast? ≠ some slash then [slash]
        else []).length ≤ rest.length := by
      apply space
      intro opened start
      rw [start] at opened
      cases absolute <;> exact absurd opened (by decide)
    refine exists_push reads (by simp only [separated_iff (rest ++ seg) unread]) seg full ?_ fits
      false (Cursor.copyForwards (writing.buf ++ rest).length) ?_
    · rw [length_append, length_append]
      omega
    · intro middle place
      rw [drop_append_of_le_length inside]
      apply copyForwards_cursor
      rw [place, length_append, length_append, length_append, length_drop]
      omega

/-- A round starts at a separator, at the end, or before anything is written. -/
def Edge (absolute : Bool) (writing : Writing) (unread : Bytes) : Prop :=
  unread = [] ∨ unread.head? = some slash ∨ writing.buf = (Writing.begin absolute).buf

@[simp]
theorem unread_cursor : (writing.cursor rest unread).unread = unread :=
  rfl

theorem advance_cursor {first later : Bytes} (parts : first ++ later = unread) :
    (writing.cursor rest unread).advance first.length = writing.cursor (rest ++ first) later := by
  rw [Cursor.advance, cursor, ← parts, take_left, drop_left, append_assoc]
  rfl

/-- One round reads a segment at least, or the separators at the end. -/
theorem exists_round (reads : writing.Reads absolute read) (edge : writing.Edge absolute unread)
    (more : unread ≠ [])
    (fits : (writing.buf ++ (rest ++ unread)).length ≤ maxModulePathBytes) :
    ∃ after rest' unread' read',
      (writing.cursor rest unread).round absolute = some (cursor after rest' unread') ∧
      after.Reads absolute read' ∧ after.Edge absolute unread' ∧
      unread'.length < unread.length ∧
      (after.buf ++ (rest' ++ unread')).length = (writing.buf ++ (rest ++ unread)).length ∧
      (segments unread').foldl (Writing.segment absolute) after =
        (segments unread).foldl (Writing.segment absolute) writing := by
  have opened : unread.takeWhile (· = slash) ++ unread.dropWhile (· = slash) = unread :=
    takeWhile_append_dropWhile
  have left := segments_dropWhile unread
  have next := List.head?_dropWhile_not (fun byte => decide (byte = slash)) unread
  have separated : unread.head? = some slash → unread.takeWhile (· = slash) ≠ [] := by
    intro head
    rcases List.head?_eq_some_iff.mp head with ⟨later, split⟩
    simp [split]
  have skipped : (writing.cursor rest unread).advance (unread.takeWhile (· = slash)).length =
      writing.cursor _ _ := advance_cursor opened
  simp only [Cursor.round, unread_cursor, skipped]
  generalize unread.takeWhile (· = slash) = separators at opened separated ⊢
  generalize unread.dropWhile (· = slash) = remaining at opened left next ⊢
  have total := congrArg List.length opened
  rw [length_append] at total
  by_cases ended : remaining = []
  · subst ended
    refine ⟨writing, rest ++ separators, [], read, if_pos rfl, reads, .inl rfl,
      length_pos_of_ne_nil more, ?_, ?_⟩
    · simp only [length_append, length_nil] at total ⊢
      omega
    · rw [left]
  · have parts : remaining.takeWhile (· ≠ slash) ++ remaining.dropWhile (· ≠ slash) =
        remaining := takeWhile_append_dropWhile
    have whole := slash_notMem_takeWhile remaining
    have ends := head?_dropWhile remaining
    have full : remaining.takeWhile (· ≠ slash) ≠ [] := by
      cases remaining with
      | nil => exact absurd rfl ended
      | cons byte remaining => simpa using next
    have advanced : (writing.cursor (rest ++ separators) remaining).advance
        (remaining.takeWhile (· ≠ slash)).length = writing.cursor _ _ := advance_cursor parts
    rw [if_neg ended, advanced]
    generalize remaining.takeWhile (· ≠ slash) = seg at parts whole full ⊢
    generalize remaining.dropWhile (· ≠ slash) = later at parts ends ⊢
    have count := congrArg List.length parts
    have some_ := length_pos_of_ne_nil full
    rw [length_append] at count
    have room : writing.buf = (Writing.begin absolute).buf ∨ rest ++ separators ≠ [] := by
      rcases edge with none | separator | start
      · exact absurd none more
      · exact .inr (append_ne_nil_of_right_ne_nil _ (separated separator))
      · exact .inl start
    have within : (writing.buf ++ (rest ++ separators ++ seg)).length ≤ maxModulePathBytes := by
      simp only [length_append] at fits ⊢
      omega
    rcases exists_segment reads full room later within with ⟨rest', written, length⟩
    refine ⟨_, rest', later, _, written, reads.segment full whole, ends.imp_right .inl, ?_, ?_, ?_⟩
    · omega
    · simp only [length_append] at length ⊢
      omega
    · rw [← left, ← parts, segments_append full whole ends, foldl_cons]

theorem exists_rounds (reads : writing.Reads absolute read) (edge : writing.Edge absolute unread)
    {fuel : ℕ} (enough : unread.length < fuel)
    (fits : (writing.buf ++ (rest ++ unread)).length ≤ maxModulePathBytes) :
    ∃ rest', (writing.cursor rest unread).rounds absolute fuel =
      some (((segments unread).foldl (Writing.segment absolute) writing).cursor rest' []) := by
  induction fuel generalizing writing rest unread read with
  | zero => exact absurd enough (Nat.not_lt_zero _)
  | succ fuel ih =>
    by_cases ended : unread = []
    · subst ended
      exact ⟨rest, if_pos rfl⟩
    · rcases exists_round reads edge ended fits with
        ⟨after, rest', unread', read', round, reads', edge', fewer, same, left⟩
      rw [← left]
      rcases ih reads' edge' (by omega) (same ▸ fits) with ⟨last, ran⟩
      exact ⟨last, (if_neg ended).trans (by rw [round, bind_some, ran])⟩

end Writing

/-- Normalizing in place ends, stays within what has been read, and does what it is to do. -/
theorem normalizeBuffer_eq {path : Bytes} (fits : path.length ≤ maxModulePathBytes) :
    normalizeBuffer path = some (normalizePathInPlace path) := by
  have begun : (Writing.begin (isAbsolute path)).Reads (isAbsolute path) [] :=
    ⟨[], .begin, fun _ _ => rfl⟩
  have started : ∃ unread, Cursor.start path = (Writing.begin (isAbsolute path)).cursor [] unread ∧
      (Writing.begin (isAbsolute path)).buf ++ unread = path ∧ segments unread = segments path := by
    unfold Cursor.start
    cases absolute : isAbsolute path with
    | false => exact ⟨path, rfl, rfl, rfl⟩
    | true =>
      rcases List.head?_eq_some_iff.mp (by simpa [isAbsolute] using absolute) with ⟨rest, rfl⟩
      exact ⟨rest, rfl, rfl, (segments_slash rest).symm⟩
  rcases started with ⟨unread, start, whole, segs⟩
  have enough : unread.length < path.length + 1 := by
    rw [← whole, length_append]
    omega
  have within : ((Writing.begin (isAbsolute path)).buf ++ ([] ++ unread)).length ≤
      maxModulePathBytes := whole.symm ▸ fits
  rcases Writing.exists_rounds begun (.inr (.inr rfl)) enough within with ⟨rest, ran⟩
  rcases reads_segments path with ⟨spelled, written, -⟩
  rw [segs] at ran
  rw [normalizeBuffer, start, ran, map_some, normalizePathInPlace]
  generalize (segments path).foldl _ (Writing.begin (isAbsolute path)) = ended at written
  by_cases empty : ended.buf = []
  · have zero : (ended.cursor rest []).writeI = 0 := congrArg List.length empty
    rw [if_pos empty, if_pos zero, ← written.isAbsolute_eq, empty]
    rfl
  · have more : (ended.cursor rest []).writeI ≠ 0 := fun zero =>
      empty (length_eq_zero_iff.mp zero)
    rw [if_neg empty, if_neg more]
    exact congrArg some take_left

theorem joinInBuffer_eq (baseDir importName : Bytes) :
    joinInBuffer baseDir importName = (joinAndNormalize baseDir importName).map some := by
  unfold joinInBuffer joinAndNormalize
  split
  · split
    next => rfl
    next fits => rw [normalizeBuffer_eq (not_lt.mp fits), Except.map]
  · split
    next => rfl
    next fits =>
      split
      next => rw [normalizeBuffer_eq (by omega), Except.map]
      next => rw [normalizeBuffer_eq (by simp; omega), Except.map]

end Gengo.Imports
