import Gengo.Positions.Lines

/-!
# The groups of a round of fusion

The groups tile the code: each begins where the one before it ends, and what lies inside of one
is no target. So a target at which an instruction begins is the beginning of a group, and the
position map keeps its place among the groups.
-/

namespace Gengo.Positions

open Bytecode Fallible List Option Nat

/-- Groups that follow one another from a position to the end of the code. -/
inductive Tiles (oldLen : ℕ) : ℕ → List Group → Prop where
  | nil {ip : ℕ} : oldLen ≤ ip → Tiles oldLen ip []
  | cons {group : Group} {groups : List Group} : group.src < oldLen → 0 < group.width →
      group.src < group.next →
      (∀ pos ∈ group.inner, group.src < pos ∧ pos < group.next ∧ pos < oldLen) →
      Tiles oldLen group.next groups → Tiles oldLen group.src (group :: groups)

namespace Tiles

variable {oldLen ip : ℕ} {groups : List Group}

section

variable (tiles : Tiles oldLen ip groups)
include tiles

theorem le_src : ∀ group ∈ groups, ip ≤ group.src := by
  induction tiles with
  | nil _ => exact nofun
  | @cons group groups _ _ lt _ _ ih =>
    intro other mem
    rcases mem_cons.mp mem with rfl | later
    · exact le_rfl
    · exact lt.le.trans (ih other later)

theorem increasing : groups.Pairwise fun first second => first.src ≤ second.src := by
  induction tiles with
  | nil _ => exact .nil
  | cons _ _ lt _ rest ih =>
    exact .cons (fun other mem => lt.le.trans (rest.le_src other mem)) ih

theorem inside : ∀ group ∈ groups, group.src < oldLen := by
  induction tiles with
  | nil _ => exact nofun
  | cons src_lt _ _ _ _ ih =>
    exact forall_mem_cons.mpr ⟨src_lt, ih⟩

theorem wide : ∀ group ∈ groups, 0 < group.width := by
  induction tiles with
  | nil _ => exact nofun
  | cons _ width_pos _ _ _ ih =>
    exact forall_mem_cons.mpr ⟨width_pos, ih⟩

end

/-- A position that the map keeps: the beginning of a group, or the end. -/
def Kept (oldLen : ℕ) (groups : List Group) (pos : ℕ) : Prop :=
  pos = oldLen ∨ ∃ group ∈ groups, group.src = pos

variable {group : Group} {pos : ℕ}

/-- A kept position that is not the first one lies among the later groups. -/
theorem kept_tail (kept : Kept oldLen (group :: groups) pos) (differs : pos ≠ group.src) :
    Kept oldLen groups pos := by
  rcases kept with isEnd | ⟨other, mem, eq⟩
  · exact .inl isEnd
  · rcases mem_cons.mp mem with rfl | later
    · exact absurd eq.symm differs
    · exact .inr ⟨other, later, eq⟩

theorem lookup_head (groups : List Group) (oldLen newIp : ℕ) :
    (slots oldLen (group :: groups) newIp).lookup group.src = some newIp := by
  rw [slots, cons_append, lookup_cons, beq_self_eq_true]

theorem lookup_tail {newIp : ℕ} (tiles : Tiles oldLen group.next groups)
    (inner : ∀ other ∈ group.inner, group.src < other ∧ other < group.next ∧ other < oldLen)
    (kept : Kept oldLen groups pos) (differs : pos ≠ group.src) :
    (slots oldLen (group :: groups) newIp).lookup pos =
      (slots oldLen groups (newIp + group.width)).lookup pos := by
  have outside : ∀ entry ∈ group.inner.map fun other => (other, newIp),
      (pos == entry.1) = false := by
    intro entry mem
    rcases mem_map.mp mem with ⟨other, isInner, rfl⟩
    have bounds := inner other isInner
    rw [beq_eq_false_iff_ne]
    rcases kept with rfl | ⟨later, laterMem, rfl⟩
    · exact bounds.2.2.ne'
    · exact (bounds.2.1.trans_le (tiles.le_src later laterMem)).ne'
  rw [slots, cons_append, lookup_cons, beq_eq_false_iff_ne.mpr differs]
  generalize group.inner.map (fun other => (other, newIp)) = entries at outside ⊢
  induction entries with
  | nil => rfl
  | cons entry entries ih =>
    rw [cons_append, lookup_cons, outside entry mem_cons_self]
    exact ih fun other mem => outside other (mem_cons_of_mem _ mem)

/-- A kept position has a new one, between the beginning and the end of the output. -/
theorem exists_lookup (tiles : Tiles oldLen ip groups) (kept : Kept oldLen groups pos) (newIp : ℕ) :
    ∃ new, (slots oldLen groups newIp).lookup pos = some new ∧ newIp ≤ new ∧
      new ≤ newIp + newLength groups := by
  induction tiles generalizing newIp with
  | nil _ =>
    rcases kept with rfl | ⟨group, mem, -⟩
    · have found : (slots pos [] newIp).lookup pos = some newIp := by
        rw [slots, lookup_cons, beq_self_eq_true]
      exact ⟨newIp, found, le_rfl, le_add_right _ _⟩
    · cases mem
  | @cons group groups src_lt width_pos lt inner rest ih =>
    have length_eq : newLength (group :: groups) = group.width + newLength groups := by
      rw [newLength, map_cons, sum_cons, newLength]
    by_cases first : pos = group.src
    · exact ⟨newIp, first ▸ lookup_head groups oldLen newIp, le_rfl, le_add_right _ _⟩
    · have keptLater := kept_tail kept first
      rcases ih keptLater (newIp + group.width) with ⟨new, found, from_, upTo⟩
      exact ⟨new, (lookup_tail rest inner keptLater first).trans found, by omega, by omega⟩

/-- A new byte lies behind a kept position if the group it belongs to does. -/
theorem exists_group {α : Type} (tiles : Tiles oldLen ip groups) {told : Group → α}
    {index newIp : ℕ} {item : α} (at_ : (groups.flatMap fun group =>
      List.replicate group.width (told group))[index]? = some item) :
    ∃ group ∈ groups, item = told group ∧ ∀ pos, Kept oldLen groups pos →
      (((slots oldLen groups newIp).lookup pos).getD 0 ≤ newIp + index ↔ pos ≤ group.src) := by
  induction tiles generalizing newIp index with
  | nil _ => simp at at_
  | @cons group groups src_lt width_pos lt inner rest ih =>
    rw [flatMap_cons] at at_
    rcases lt_or_ge index group.width with inFirst | later
    · rw [List.getElem?_append_left (by simpa using inFirst), List.getElem?_replicate,
        if_pos inFirst, some.injEq] at at_
      refine ⟨group, mem_cons_self, at_.symm, fun pos kept => ?_⟩
      by_cases first : pos = group.src
      · rw [first, lookup_head, getD_some]
        exact ⟨fun _ => le_rfl, fun _ => le_add_right _ _⟩
      · have keptLater := kept_tail kept first
        rcases exists_lookup rest keptLater (newIp + group.width) with ⟨new, found, from_, -⟩
        rw [lookup_tail rest inner keptLater first, found, getD_some]
        have behind : group.src < pos := by
          rcases keptLater with rfl | ⟨other, mem, rfl⟩
          · exact src_lt
          · exact lt.trans_le (rest.le_src other mem)
        omega
    · rw [List.getElem?_append_right (by simpa using later), length_replicate] at at_
      rcases @ih (index - group.width) (newIp + group.width) at_ with
        ⟨other, mem, item_eq, iff_⟩
      refine ⟨other, mem_cons_of_mem _ mem, item_eq, fun pos kept => ?_⟩
      by_cases first : pos = group.src
      · rw [first, lookup_head, getD_some]
        exact ⟨fun _ => lt.le.trans (rest.le_src other mem), fun _ => le_add_right _ _⟩
      · have keptLater := kept_tail kept first
        rw [lookup_tail rest inner keptLater first, ← iff_ pos keptLater]
        omega

end Tiles

theorem getD_ipMapOf {oldLen pos : ℕ} {groups : List Group} (le : pos ≤ oldLen) :
    (ipMapOf oldLen groups).getD pos 0 = ((slots oldLen groups 0).lookup pos).getD 0 := by
  have lt : pos < (List.range (oldLen + 1)).length := by
    rw [length_range]
    omega
  rw [ipMapOf, getD_eq_getElem _ _ (by simpa using lt), getElem_map, getElem_range]

section Grouping

variable {read : ℕ → UInt8} {code : List UInt8} {targets : ℕ → Bool}

variable {inst : DecodedInstruction}

theorem opAt_of_decodeAt (agrees : ∀ pos raw, code[pos]? = some raw → read pos = raw) {pos : ℕ}
    (decoded : decodeAt code pos = .ok inst) :
    opAt read pos = some inst.op ∧ inst.width = inst.op.width := by
  rcases fields_of_decodeAt decoded with ⟨raw, at_, operation, width_eq, -⟩
  exact ⟨by rw [opAt, agrees pos raw at_, operation], width_eq⟩

variable {f : Op}

/-- What a fusion of four has checked: the third and the fourth instruction are no targets, and
their widths are those that the pass goes on with. -/
theorem fuse4At_eq_some {aPos bPos oldLen : ℕ} {b : Op}
    (fused : fuse4At read aPos bPos b oldLen targets = some f) :
    ∃ third fourth, opAt read (bPos + b.width) = some third ∧
      opAt read (bPos + b.width + third.width) = some fourth ∧
      third.width = fuse4ThirdWidth f ∧
      2 + b.width + third.width + fourth.width = fuse4Consumed f ∧ 0 < fourth.width ∧
      bPos + b.width + third.width + fourth.width ≤ oldLen ∧
      targets (bPos + b.width) = false ∧ targets (bPos + b.width + third.width) = false := by
  rw [fuse4At] at fused
  split at fused
  · rename_i isLoad
    simp only at fused
    split at fused
    · cases fused
    · split at fused
      · rename_i field
        split at fused
        · rename_i held
          rcases held with ⟨fits, isSet, -, -, -, thirdFree, fourthFree⟩
          cases fused
          rw [field.2] at fits isSet thirdFree fourthFree ⊢
          exact ⟨.constAdd, .setField, field.2 ▸ field.1, isSet, rfl, rfl, by decide, fits,
            thirdFree, fourthFree⟩
        · cases fused
      · split at fused
        · rename_i held
          rcases held with ⟨fits, isAdd, isSet, -, thirdFree, fourthFree⟩
          cases fused
          refine ⟨.add, .setLocal, isAdd, isSet, ?_, ?_, by decide, fits, thirdFree, fourthFree⟩
          · rcases isLoad with rfl | rfl <;> rfl
          · rcases isLoad with rfl | rfl <;> rfl
        · cases fused
  · cases fused

theorem not_target_of_fuse {ip oldLen : ℕ}
    (fuses : decideAt read ip inst oldLen targets = .fuse f) :
    ip + inst.width < oldLen ∧ targets (ip + inst.width) = false := by
  rw [decideAt] at fuses
  split at fuses
  · cases fuses
  · rename_i fits
    split at fuses
    · cases fuses
    · split at fuses
      · cases fuses
      · split at fuses
        · cases fuses
        · rename_i free
          exact ⟨not_le.mp fits, Bool.not_eq_true _ ▸ free⟩

theorem exists_of_fuse4 {ip oldLen : ℕ} (fuses : decideAt read ip inst oldLen targets = .fuse4 f) :
    ip + inst.width < oldLen ∧ targets (ip + inst.width) = false ∧ inst.op = .getLocal ∧
      ∃ b, opAt read (ip + inst.width) = some b ∧
        fuse4At read ip (ip + inst.width) b oldLen targets = some f := by
  rw [decideAt] at fuses
  split at fuses
  · cases fuses
  · rename_i fits
    split at fuses
    · cases fuses
    · rename_i b opcode
      split at fuses
      · cases fuses
      · split at fuses
        · cases fuses
        · rename_i free
          split at fuses
          · rename_i found
            cases fuses
            split at found
            · rename_i isLoad
              exact ⟨not_le.mp fits, Bool.not_eq_true _ ▸ free, isLoad, b, opcode, found⟩
            · cases found
          · split at fuses <;> cases fuses

/-- What stands at the beginning of a group, and that what is merged into it is no target: the
instructions of a group follow one another up to the next group. -/
structure Grouped (code : List UInt8) (targets : ℕ → Bool) (ip : ℕ) (group : Group) : Prop where
  src_eq : group.src = ip
  wide : 0 < group.width
  lt_next : ip < group.next
  inner : ∀ pos ∈ group.inner, ip < pos ∧ pos < group.next ∧ pos < code.length
  goesOn : ∀ pos insts, Run code ip pos insts → pos < code.length → targets pos = true →
    pos = ip ∨ ∃ rest, Run code group.next pos rest

theorem run_of_not_target {ip width pos : ℕ} {insts : List DecodedInstruction}
    (run : Run code ip pos insts) (target : targets pos = true) (free : targets ip = false)
    (widths : ∀ inst, decodeAt code ip = .ok inst → inst.width = width) :
    ∃ rest, Run code (ip + width) pos rest := by
  cases run with
  | nil pos =>
    rw [free] at target
    cases target
  | @cons _ _ inst rest decoded later => exact ⟨rest, widths inst decoded ▸ later⟩

theorem grouped_of_groupAt (agrees : ∀ pos raw, code[pos]? = some raw → read pos = raw) {ip : ℕ}
    {group : Group} (ok : groupAt read code targets ip = .ok group) :
    Grouped code targets ip group := by
  rcases bind_eq_ok.mp ok with ⟨inst, decoded, ok⟩
  have inst_wide := width_pos_of_decodeAt decoded
  have firstStep : ∀ pos insts, Run code ip pos insts →
      pos = ip ∨ ∃ rest, Run code (ip + inst.width) pos rest := by
    intro pos insts run
    cases run with
    | nil pos => exact .inl rfl
    | @cons _ _ other rest decoded' later =>
      rw [decoded] at decoded'
      cases decoded'
      exact .inr ⟨rest, later⟩
  cases decides : decideAt read ip inst code.length targets with
  | keep | flipTail =>
    simp only [decides] at ok
    cases ok
    exact ⟨rfl, inst_wide, Nat.lt_add_of_pos_right inst_wide, nofun,
      fun pos insts run _ _ => firstStep pos insts run⟩
  | fuse f =>
    simp only [decides] at ok
    rcases bind_eq_ok.mp ok with ⟨second, secondDecoded, ok⟩
    cases ok
    have second_wide := width_pos_of_decodeAt secondDecoded
    rcases not_target_of_fuse decides with ⟨fits, free⟩
    constructor
    · rfl
    · exact f.width_pos
    · simp only
      omega
    · intro pos mem
      rw [mem_singleton.mp mem]
      simp only
      omega
    · intro pos insts run _ target
      rcases firstStep pos insts run with isFirst | ⟨rest, later⟩
      · exact .inl isFirst
      · exact .inr (run_of_not_target later target free fun other decoded' => by
          rw [secondDecoded] at decoded'
          cases decoded'
          rfl)
  | fuse4 f =>
    simp only [decides] at ok
    rcases bind_eq_ok.mp ok with ⟨second, secondDecoded, ok⟩
    cases ok
    have second_wide := width_pos_of_decodeAt secondDecoded
    rcases exists_of_fuse4 decides with ⟨fits, free, isLoad, b, opcode, found⟩
    rcases opAt_of_decodeAt agrees secondDecoded with ⟨secondOp, second_width⟩
    obtain rfl : b = second.op := some.inj (opcode.symm.trans secondOp)
    rcases fuse4At_eq_some found with ⟨third, fourth, thirdOp, fourthOp, third_width, consumed,
      fourth_wide, ends, thirdFree, fourthFree⟩
    have inst_width : inst.width = 2 := by
      rw [(opAt_of_decodeAt agrees decoded).2, isLoad]
      rfl
    have widthOf : ∀ {pos op}, opAt read pos = some op → ∀ other,
        decodeAt code pos = .ok other → other.width = op.width := by
      intro pos op opcode other decoded'
      rcases opAt_of_decodeAt agrees decoded' with ⟨otherOp, other_width⟩
      rw [other_width, some.inj (otherOp.symm.trans opcode)]
    rw [second_width] at second_wide
    constructor
    · rfl
    · exact f.width_pos
    · simp only
      omega
    · intro pos mem
      simp only [mem_cons, not_mem_nil, or_false] at mem
      simp only
      omega
    · intro pos insts run _ target
      rcases firstStep pos insts run with isFirst | ⟨rest, later⟩
      · exact .inl isFirst
      · rcases run_of_not_target later target free (widthOf opcode) with ⟨_, later⟩
        rcases run_of_not_target later target thirdFree (widthOf thirdOp) with ⟨_, later⟩
        rcases run_of_not_target later target fourthFree (widthOf fourthOp) with ⟨rest, later⟩
        refine .inr ⟨rest, ?_⟩
        have next_eq : ip + inst.width + second.op.width + third.width + fourth.width =
            ip + fuse4Consumed f := by omega
        exact next_eq ▸ later

/-- The groups tile the code, and every target at which an instruction begins begins one. -/
theorem tiles_of_groupsFrom (agrees : ∀ pos raw, code[pos]? = some raw → read pos = raw)
    {fuel ip : ℕ} {groups : List Group} (enough : code.length ≤ ip + fuel)
    (ok : groupsFrom read code targets fuel ip = .ok groups) :
    Tiles code.length ip groups ∧ ∀ pos insts, Run code ip pos insts → pos < code.length →
      targets pos = true → ∃ group ∈ groups, group.src = pos := by
  induction fuel generalizing ip groups with
  | zero =>
    cases ok
    refine ⟨.nil enough, fun pos insts run inside _ => ?_⟩
    have := run.le
    omega
  | succ fuel ih =>
    rw [groupsFrom] at ok
    split at ok
    · rename_i inside
      rcases bind_eq_ok.mp ok with ⟨group, groupOk, ok⟩
      rcases bind_eq_ok.mp ok with ⟨others, othersOk, ok⟩
      cases ok
      have grouped := grouped_of_groupAt agrees groupOk
      have lt_next := grouped.lt_next
      rcases ih (by omega) othersOk with ⟨tiles, covers⟩
      have src_eq := grouped.src_eq
      subst src_eq
      refine ⟨.cons inside grouped.wide lt_next grouped.inner tiles, ?_⟩
      intro pos insts run posInside target
      rcases grouped.goesOn pos insts run posInside target with isFirst | ⟨rest, later⟩
      · exact ⟨group, mem_cons_self, isFirst.symm⟩
      · rcases covers pos rest later posInside target with ⟨other, mem, eq⟩
        exact ⟨other, mem_cons_of_mem _ mem, eq⟩
    · cases ok
      refine ⟨.nil (by omega), fun pos insts run inside _ => ?_⟩
      have := run.le
      omega

end Grouping

/-!
# The module table under the edits of the code

The last module that begins at or before a byte gives its path. The table is never searched by
bisection, so it needs no order; each edit of the code keeps what is demanded of it.
-/

open Tables

/-- The module table does not reach behind the code, and says at every byte what is demanded. -/
structure ModulesSound (boundaries : List ModuleBoundary) (demands : List (Demand Bytes)) :
    Prop where
  inside : ∀ boundary ∈ boundaries, boundary.ipStart ≤ demands.length
  follows : Sparse.Follows ModuleBoundary.ipStart ModuleBoundary.path boundaries demands

theorem State.pathAt_eq_valueAt (state : State) (ip : ℕ) :
    state.pathAt ip =
      (Sparse.valueAt ModuleBoundary.ipStart ModuleBoundary.path state.boundaries ip).getD [] := by
  rw [pathAt, ← List.head?_filter, filter_reverse, List.head?_reverse, Sparse.valueAt,
    Sparse.governing]

namespace ModulesSound

variable {boundaries : List ModuleBoundary} {demands : List (Demand Bytes)}

section

variable (sound : ModulesSound boundaries demands)
include sound

theorem valueAt_of_le {pos : ℕ} (le : demands.length ≤ pos) :
    Sparse.valueAt ModuleBoundary.ipStart ModuleBoundary.path boundaries pos =
      boundaries.getLast?.map ModuleBoundary.path := by
  rw [Sparse.valueAt, Sparse.governing_eq_getLast? fun boundary mem =>
    (sound.inside boundary mem).trans le]

theorem append (added : List (Demand Bytes))
    (holds : ∀ demand ∈ added, demand (boundaries.getLast?.map ModuleBoundary.path)) :
    ModulesSound boundaries (demands ++ added) where
  inside := by
    intro boundary mem
    have le := sound.inside boundary mem
    rw [length_append]
    omega
  follows := by
    intro pos demand at_
    rcases lt_or_ge pos demands.length with inside | outside
    · rw [List.getElem?_append_left inside] at at_
      exact sound.follows pos demand at_
    · rw [List.getElem?_append_right outside] at at_
      rw [sound.valueAt_of_le outside]
      exact holds demand (mem_of_getElem? at_)

/-- The code is set back to a position that no module begins behind. -/
theorem rewind {keep : ℕ} (before : ∀ boundary ∈ boundaries, boundary.ipStart ≤ keep) :
    ModulesSound boundaries (demands.take keep) where
  inside := by
    intro boundary mem
    have le := sound.inside boundary mem
    have le' := before boundary mem
    rw [length_take]
    omega
  follows := sound.follows.take keep

theorem begin_ (path : Bytes) :
    ModulesSound (boundaries ++ [{ ipStart := demands.length, path }]) demands where
  inside := by
    intro boundary mem
    rcases mem_append.mp mem with earlier | isNew
    · exact sound.inside boundary earlier
    · rw [mem_singleton.mp isNew]
  follows := by
    refine sound.follows.append_entries fun boundary isNew => ?_
    rw [mem_singleton.mp isNew]

theorem deleteRange {start len : ℕ} (inside : start + len ≤ demands.length)
    (outside : ∀ boundary ∈ boundaries,
      ¬(start < boundary.ipStart ∧ boundary.ipStart < start + len)) :
    ModulesSound (boundaries.map fun boundary =>
        { boundary with ipStart := moveIp (start + len) len boundary.ipStart })
      (demands.take start ++ demands.drop (start + len)) where
  inside := by
    intro boundary' mem
    rcases mem_map.mp mem with ⟨boundary, boundaryMem, rfl⟩
    have le := sound.inside boundary boundaryMem
    have outside_ := outside boundary boundaryMem
    rw [length_append, length_take, length_drop]
    change moveIp _ _ _ ≤ _
    unfold moveIp
    split <;> omega
  follows := by
    refine sound.follows.reread fun pos demand at_ =>
      ⟨if pos < start then pos else pos + len, getElem?_cut inside ▸ at_, ?_⟩
    exact Sparse.valueAt_map (fun _ _ => rfl) fun boundary mem =>
      moveIp_le_iff (outside boundary mem)

/-- The code is fused. Every module that begins in it begins with a group. -/
theorem fuse {groups : List Group} (tiles : Tiles demands.length 0 groups)
    (kept : ∀ boundary ∈ boundaries, Tiles.Kept demands.length groups boundary.ipStart) :
    ModulesSound (boundaries.map fun boundary =>
        { boundary with
          ipStart :=
            if boundary.ipStart ≤ demands.length then
              (ipMapOf demands.length groups).getD boundary.ipStart 0
            else boundary.ipStart })
      (groups.flatMap fun group =>
        List.replicate group.width (demands.getD group.src fun _ => True)) where
  inside := by
    intro boundary' mem
    rcases mem_map.mp mem with ⟨boundary, boundaryMem, rfl⟩
    have le := sound.inside boundary boundaryMem
    rcases tiles.exists_lookup (kept boundary boundaryMem) 0 with ⟨new, found, -, upTo⟩
    have length_eq : (groups.flatMap fun group =>
        List.replicate group.width (demands.getD group.src fun _ => True)).length =
          newLength groups := by
      rw [length_flatMap, newLength]
      refine congrArg List.sum (map_congr_left fun group _ => length_replicate)
    change (if boundary.ipStart ≤ demands.length then _ else _) ≤ _
    rw [if_pos le, getD_ipMapOf le, found, length_eq]
    simpa using upTo
  follows := by
    refine sound.follows.reread fun pos demand at_ => ?_
    rcases tiles.exists_group at_ with ⟨group, groupMem, rfl, place⟩
    have inside := tiles.inside group groupMem
    refine ⟨group.src, ?_, ?_⟩
    · rw [List.getElem?_eq_getElem inside, getD_eq_getElem _ _ inside]
    · refine Sparse.valueAt_map (fun _ _ => rfl) fun boundary mem => ?_
      have le := sound.inside boundary mem
      change (if boundary.ipStart ≤ demands.length then _ else _) ≤ pos ↔ _
      rw [if_pos le, getD_ipMapOf le, ← place boundary.ipStart (kept boundary mem), zero_add]

end

end ModulesSound

end Gengo.Positions
