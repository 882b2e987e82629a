import Gengo.Fallible.Sequencing
import Gengo.Positions.Emission

/-!
# What emission does to the positions

However an emitting function folds, it goes back to some point of the code and writes a run of
bytes from there on, all under one line and under the column that is pending. Everything that
is said of positions follows from that.
-/

namespace Gengo.Positions

open Bytecode Fallible Option Nat

/-- Write one position for every byte of a run. -/
def LineTable.recordRun (table : LineTable) (room ip line col : ℕ) : ℕ → LineTable
  | 0 => table
  | count + 1 => (table.recordRun room ip line col count).record room (ip + count) line col

theorem LineTable.recordRun_add (table : LineTable) (room ip line col first second : ℕ) :
    table.recordRun room ip line col (first + second) =
      (table.recordRun room ip line col first).recordRun room (ip + first) line col second := by
  induction second with
  | zero => rfl
  | succ second ih =>
    rw [← add_assoc, recordRun, ih, recordRun, add_assoc]

namespace State

variable {state after middle : State} {keep line count count' : ℕ}

/-- The code from `keep` on is a run of new bytes, written under one position. -/
structure Emits (state : State) (keep line count : ℕ) (after : State) : Prop where
  codeLen : after.codeLen = keep + count
  lineTable : after.lineTable =
    state.lineTable.recordRun MaxLineEntries keep (min line 0xffff) state.pendingCol count
  boundaries : after.boundaries = state.boundaries
  pendingCol : after.pendingCol = state.pendingCol

theorem Emits.trans (first : state.Emits keep line count middle)
    (second : middle.Emits middle.codeLen line count' after) :
    state.Emits keep line (count + count') after where
  codeLen := by rw [second.codeLen, first.codeLen, add_assoc]
  lineTable := by
    rw [second.lineTable, first.lineTable, first.codeLen, first.pendingCol, LineTable.recordRun_add]
  boundaries := second.boundaries.trans first.boundaries
  pendingCol := second.pendingCol.trans first.pendingCol

theorem Emits.of_rewind (first : state.Emits keep line 0 middle)
    (second : middle.Emits middle.codeLen line count after) : state.Emits keep line count after :=
  zero_add count ▸ first.trans second

theorem Emits.of_quiet (first : state.Emits keep line count middle)
    (second : middle.Emits middle.codeLen line 0 after) : state.Emits keep line count after :=
  first.trans second

theorem emits_refl (state : State) (line : ℕ) : state.Emits state.codeLen line 0 state :=
  ⟨rfl, rfl, rfl, rfl⟩

variable {pos : ℕ}

theorem emits_setCodeLen (le : pos ≤ state.codeLen) (line : ℕ) :
    state.Emits pos line 0 (state.setCodeLen pos) where
  codeLen := by
    rw [State.codeLen, Bytecode.State.codeLen, setCodeLen, List.length_take]
    exact min_eq_left le
  lineTable := rfl
  boundaries := rfl
  pendingCol := rfl

theorem emits_setConstCount (state : State) (count line : ℕ) :
    state.Emits state.codeLen line 0 (state.setConstCount count) :=
  ⟨rfl, rfl, rfl, rfl⟩

theorem emits_setConst (state : State) (idx : ℕ) (v : Constant FuncRef) (line : ℕ) :
    state.Emits state.codeLen line 0 (state.setConst idx v) :=
  ⟨rfl, rfl, rfl, rfl⟩

theorem emits_patchByte (state : State) (offset : ℕ) (val : UInt8) (line : ℕ) :
    state.Emits state.codeLen line 0 (state.patchByte offset val) where
  codeLen := List.length_set
  lineTable := rfl
  boundaries := rfl
  pendingCol := rfl

theorem emits_trackConst (state : State) (op : Op) (idx preCount line : ℕ) :
    state.Emits state.codeLen line 0 (state.trackConst op idx preCount) := by
  rw [trackConst]
  split <;> exact ⟨rfl, rfl, rfl, rfl⟩

variable {idx : ℕ}

theorem emits_addConst {v : Constant FuncRef} (ok : state.addConst v = .ok (after, idx))
    (line : ℕ) : state.Emits state.codeLen line 0 after := by
  rw [addConst] at ok
  split at ok
  · cases ok
    exact ⟨rfl, rfl, rfl, rfl⟩
  · cases ok

variable {s : Bytes}

theorem emits_internStr (ok : state.internStr s = .ok after) (line : ℕ) :
    state.Emits state.codeLen line 0 after := by
  rw [internStr] at ok
  split at ok
  · cases ok
    exact emits_refl state line
  · split at ok
    · cases ok
    · cases ok
      exact ⟨rfl, rfl, rfl, rfl⟩

variable {bump : Bool}

theorem emits_addStringConst (ok : state.addStringConst s bump = .ok (after, idx)) (line : ℕ) :
    state.Emits state.codeLen line 0 after := by
  rw [addStringConst] at ok
  split at ok
  · cases ok
    exact emits_refl state line
  · split at ok
    · rcases bind_eq_ok.mp ok with ⟨interned, internedEq, added⟩
      exact (emits_internStr internedEq line).of_quiet (emits_addConst added line)
    · cases ok

variable {bytes : Bytes}

theorem emits_addConcat (ok : state.addConcat bytes = .ok (after, idx)) (line : ℕ) :
    state.Emits state.codeLen line 0 after := by
  rw [addConcat] at ok
  split at ok
  · cases ok
    exact emits_refl state line
  · split at ok
    · cases ok
    · rcases bind_eq_ok.mp ok with ⟨interned, internedEq, added⟩
      exact (emits_internStr internedEq line).of_quiet (emits_addConst added line)

theorem emits_emitByte {b : UInt8} (ok : state.emitByte b line = .ok after) :
    state.Emits state.codeLen line 1 after := by
  rw [emitByte] at ok
  split at ok
  · cases ok
    exact
      { codeLen := List.length_append
        lineTable := rfl
        boundaries := rfl
        pendingCol := rfl }
  · cases ok

variable {op : Op}

theorem emits_emitConstIdx (ok : state.emitConstIdx op idx line = .ok after) :
    state.Emits state.codeLen line 3 after := by
  rcases bind_eq_ok.mp ok with ⟨first, firstEq, ok⟩
  rcases bind_eq_ok.mp ok with ⟨second, secondEq, ok⟩
  exact ((emits_emitByte firstEq).trans (emits_emitByte secondEq)).trans (emits_emitByte ok)

theorem emits_emitOpConst {v : Constant FuncRef} (ok : state.emitOpConst op v line = .ok after) :
    state.Emits state.codeLen line 3 after := by
  rcases bind_eq_ok.mp ok with ⟨⟨added, idx⟩, addedEq, ok⟩
  rcases bind_eq_ok.mp ok with ⟨written, writtenEq, ok⟩
  cases ok
  exact ((emits_addConst addedEq line).of_rewind (emits_emitConstIdx writtenEq)).of_quiet
    (emits_trackConst written op idx _ line)

theorem emits_emitOpStringConst (ok : state.emitOpStringConst op s bump line = .ok after) :
    state.Emits state.codeLen line 3 after := by
  rcases bind_eq_ok.mp ok with ⟨⟨added, idx⟩, addedEq, ok⟩
  rcases bind_eq_ok.mp ok with ⟨written, writtenEq, ok⟩
  cases ok
  exact ((emits_addStringConst addedEq line).of_rewind (emits_emitConstIdx writtenEq)).of_quiet
    (emits_trackConst written op idx _ line)

variable {result : Constant FuncRef}

theorem emits_emitFoldedResult (ok : state.emitFoldedResult result line = .ok after) :
    ∃ count, state.Emits state.codeLen line count after := by
  unfold emitFoldedResult at ok
  split at ok
  · have written := emits_emitByte ok
    exact ⟨1, written.codeLen, written.lineTable, written.boundaries, written.pendingCol⟩
  · exact ⟨3, emits_emitOpConst ok⟩

theorem lt_of_constPairPos? (found : state.constPairPos? = some pos) : pos + 6 = state.codeLen := by
  rw [constPairPos?, bind_eq_some_iff] at found
  rcases found with ⟨rhsPos, rhs, lhs⟩
  have rhsEnd := (filter_eq_some_iff.mp rhs).2
  have lhsEnd := (filter_eq_some_iff.mp lhs).2
  rw [beq_iff_eq] at rhsEnd lhsEnd
  omega

theorem constPairPos?_of_constPair? {lhs rhs : Constant FuncRef}
    (found : state.constPair? = some (pos, lhs, rhs)) : state.constPairPos? = some pos := by
  rw [constPair?] at found
  split at found
  · cases found
    assumption
  · cases found

theorem le_of_binFold? (found : state.binFold? op = some (pos, result)) : pos ≤ state.codeLen := by
  rw [binFold?, bind_eq_some_iff] at found
  rcases found with ⟨⟨pos', lhs, rhs⟩, pair, folded⟩
  rcases map_eq_some_iff.mp folded with ⟨_, _, eq⟩
  cases eq
  have := lt_of_constPairPos? (constPairPos?_of_constPair? pair)
  omega

theorem le_of_concat? (found : state.concat? op = some (pos, bytes)) : pos ≤ state.codeLen := by
  unfold concat? at found
  split at found
  · cases found
    rename_i pair
    have := lt_of_constPairPos? (constPairPos?_of_constPair? pair)
    omega
  · cases found

theorem le_of_boolLitPos? (found : state.boolLitPos? op = some pos) : pos ≤ state.codeLen := by
  rw [boolLitPos?] at found
  split at found
  · have := (filter_eq_some_iff.mp found).2
    rw [beq_iff_eq] at this
    omega
  · cases found

/-- The operands that `emitOp` folds begin here. -/
def opFoldPos? (state : State) (op : Op) : Option ℕ :=
  match if foldsInEmitOp op then state.binFold? op else none with
  | some (lhsPos, _) => some lhsPos
  | none => state.boolLitPos? op

/-- The operands that `emitBinOpFused` folds begin here. -/
def fusedFoldPos? (state : State) (op : Op) (bump : Bool) : Option ℕ :=
  match state.binFold? op with
  | some (lhsPos, _) => some lhsPos
  | none =>
    match if bump then state.concat? op else none with
    | some (lhsPos, _) => some lhsPos
    | none => { state with lastConstCodePos := none }.opFoldPos? op

theorem le_of_opFoldPos? (found : state.opFoldPos? op = some pos) : pos ≤ state.codeLen := by
  rw [opFoldPos?] at found
  split at found
  · rename_i folds
    cases found
    split at folds
    · exact le_of_binFold? folds
    · cases folds
  · exact le_of_boolLitPos? found

theorem le_of_fusedFoldPos? (found : state.fusedFoldPos? op bump = some pos) :
    pos ≤ state.codeLen := by
  rw [fusedFoldPos?] at found
  split at found
  · rename_i folds
    cases found
    exact le_of_binFold? folds
  · split at found
    · rename_i concats
      cases found
      split at concats
      · exact le_of_concat? concats
      · cases concats
    · have le := le_of_opFoldPos? found
      exact le

theorem emits_dropConstPair (le : pos ≤ state.codeLen) (count line : ℕ) :
    state.Emits pos line 0 (state.dropConstPair pos count) := by
  have parts := (emits_setCodeLen le line).of_quiet (emits_setConstCount _ count line)
  exact ⟨parts.codeLen, parts.lineTable, parts.boundaries, parts.pendingCol⟩

theorem emits_emitFolded (le : pos ≤ state.codeLen)
    (ok : state.emitFolded pos result line = .ok after) :
    ∃ count, state.Emits pos line count after := by
  rcases emits_emitFoldedResult ok with ⟨count, written⟩
  exact ⟨count, (emits_dropConstPair le _ line).of_rewind written⟩

theorem emits_emitPlainOp (ok : state.emitPlainOp op line = .ok after) :
    state.Emits state.codeLen line 1 after := by
  have written := emits_emitByte ok
  exact ⟨written.codeLen, written.lineTable, written.boundaries, written.pendingCol⟩

theorem emits_emitOp (ok : state.emitOp op line = .ok after) :
    ∃ count, state.Emits ((state.opFoldPos? op).getD state.codeLen) line count after := by
  rw [emitOp] at ok
  rw [opFoldPos?]
  cases folds : (if foldsInEmitOp op then state.binFold? op else none) with
  | some folded =>
    simp only [folds] at ok ⊢
    refine emits_emitFolded ?_ ok
    split at folds
    · exact le_of_binFold? folds
    · cases folds
  | none =>
    simp only [folds] at ok ⊢
    cases literal : state.boolLitPos? op with
    | some pos =>
      simp only [literal] at ok
      have written := emits_emitByte ok
      have rewound := emits_setCodeLen (le_of_boolLitPos? literal) line
      exact ⟨1, rewound.of_rewind
        ⟨written.codeLen, written.lineTable, written.boundaries, written.pendingCol⟩⟩
    | none =>
      simp only [literal] at ok
      cases unary : state.unaryFold? op with
      | some v =>
        simp only [unary] at ok
        cases ok
        exact ⟨0, emits_setConst state _ v line⟩
      | none =>
        simp only [unary] at ok
        exact ⟨1, emits_emitPlainOp ok⟩

theorem emits_emitConcat (le : pos ≤ state.codeLen)
    (ok : state.emitConcat pos bytes line = .ok after) :
    ∃ count, state.Emits pos line count after := by
  rcases bind_eq_ok.mp ok with ⟨⟨pooled, idx⟩, pooledEq, ok⟩
  rcases bind_eq_ok.mp ok with ⟨written, writtenEq, ok⟩
  cases ok
  have rewound := (emits_dropConstPair le _ line).of_quiet (emits_addConcat pooledEq line)
  have all := rewound.of_rewind (emits_emitConstIdx writtenEq)
  exact ⟨3, all.codeLen, all.lineTable, all.boundaries, all.pendingCol⟩

theorem emits_emitBinOpFused (ok : state.emitBinOpFused op bump line = .ok after) :
    ∃ count, state.Emits ((state.fusedFoldPos? op bump).getD state.codeLen) line count after := by
  rw [emitBinOpFused] at ok
  rw [fusedFoldPos?]
  cases folds : state.binFold? op with
  | some folded =>
    simp only [folds] at ok ⊢
    exact emits_emitFolded (le_of_binFold? folds) ok
  | none =>
    simp only [folds] at ok ⊢
    cases concats : (if bump then state.concat? op else none) with
    | some folded =>
      simp only [concats] at ok ⊢
      refine emits_emitConcat ?_ ok
      split at concats
      · exact le_of_concat? concats
      · cases concats
    | none =>
      simp only [concats] at ok ⊢
      rcases emits_emitOp ok with ⟨count, written⟩
      exact ⟨count, written.codeLen, written.lineTable, written.boundaries, written.pendingCol⟩

end State

end Gengo.Positions
