import Mathlib.Data.Finset.Card

/-!
# Marking

A worklist that marks what can be reached in a graph. A node is marked when it is pushed,
and only once; nodes that are not live are passed over. With as much fuel as there are
nodes the worklist runs empty, and then the marked nodes are closed under the edges.
-/

namespace Gengo.Dataflow

open List

variable {Node : Type} [DecidableEq Node]

/-- The marked nodes, and those of them whose children have not been pushed. -/
structure Marks (Node : Type) where
  marked : Finset Node
  worklist : List Node

/-- No node is marked. -/
def Marks.none : Marks Node :=
  ⟨∅, []⟩

section Marking

variable (live : Node → Bool) (children : Node → List Node)

/-- Mark a node and put it on the worklist. -/
def Marks.push (marks : Marks Node) (node : Node) : Marks Node :=
  if live node ∧ node ∉ marks.marked then
    ⟨insert node marks.marked, node :: marks.worklist⟩
  else marks

def Marks.pushAll (marks : Marks Node) (nodes : List Node) : Marks Node :=
  nodes.foldl (Marks.push live) marks

/-- Push the children of the nodes on the worklist, the last one first. -/
def Marks.drain : ℕ → Marks Node → Marks Node
  | 0, marks => marks
  | fuel + 1, marks =>
    match marks.worklist with
    | [] => marks
    | node :: rest => Marks.drain fuel (Marks.pushAll live ⟨marks.marked, rest⟩ (children node))

end Marking

section Rules

variable {live : Node → Bool} {children : Node → List Node} {pool : Finset Node}

/-- What marking keeps: the marked nodes are in the pool, and the children of those that have
left the worklist are marked, but for some nodes whose children are being pushed. -/
structure Marks.Sound (live : Node → Bool) (children : Node → List Node) (pool : Finset Node)
    (opened : List Node) (marks : Marks Node) : Prop where
  pool : marks.marked ⊆ pool
  closed : ∀ node ∈ marks.marked, node ∉ marks.worklist → node ∉ opened →
    ∀ child ∈ children node, live child → child ∈ marks.marked

omit [DecidableEq Node] in
theorem Marks.sound_none : Marks.Sound live children pool [] Marks.none := by
  refine ⟨Finset.empty_subset pool, fun _ isMarked => ?_⟩
  exact absurd isMarked (Finset.notMem_empty _)

theorem Marks.marked_push (marks : Marks Node) (node : Node) :
    marks.marked ⊆ (marks.push live node).marked := by
  rw [Marks.push]
  split
  · exact Finset.subset_insert node marks.marked
  · exact Finset.Subset.refl _

variable {marks : Marks Node}

theorem Marks.mem_push {node : Node} (isLive : live node) :
    node ∈ (marks.push live node).marked := by
  rw [Marks.push]
  split
  · exact Finset.mem_insert_self node marks.marked
  · rename_i kept
    by_contra unmarked
    exact kept ⟨isLive, unmarked⟩

theorem Marks.Sound.push {opened : List Node}
    (sound : Marks.Sound live children pool opened marks)
    (pooled : ∀ node, live node → node ∈ pool) (node : Node) :
    Marks.Sound live children pool opened (marks.push live node) := by
  rw [Marks.push]
  split
  · rename_i fresh
    constructor
    · exact Finset.insert_subset (pooled node fresh.1) sound.pool
    · intro other isMarked unlisted notOpened child isChild isLive
      rcases Finset.mem_insert.mp isMarked with rfl | isMarked
      · exact absurd mem_cons_self unlisted
      · have unlisted' : other ∉ marks.worklist := fun listed =>
          unlisted (mem_cons_of_mem _ listed)
        exact Finset.mem_insert_of_mem
          (sound.closed other isMarked unlisted' notOpened child isChild isLive)
  · exact sound

theorem Marks.card_push (live : Node → Bool) (marks : Marks Node) (node : Node) :
    (marks.push live node).worklist.length + marks.marked.card =
      marks.worklist.length + (marks.push live node).marked.card := by
  rw [Marks.push]
  split
  · rename_i fresh
    rw [length_cons, Finset.card_insert_of_notMem fresh.2]
    omega
  · rfl

theorem Marks.marked_pushAll (live : Node → Bool) (nodes : List Node) (marks : Marks Node) :
    marks.marked ⊆ (marks.pushAll live nodes).marked := by
  induction nodes generalizing marks with
  | nil => exact Finset.Subset.refl _
  | cons node nodes ih =>
    exact (marks.marked_push node).trans (ih _)

theorem Marks.card_pushAll (live : Node → Bool) (nodes : List Node) (marks : Marks Node) :
    (marks.pushAll live nodes).worklist.length + marks.marked.card =
      marks.worklist.length + (marks.pushAll live nodes).marked.card := by
  induction nodes generalizing marks with
  | nil => rfl
  | cons node nodes ih =>
    have rest := ih (marks.push live node)
    have card := marks.card_push live node
    rw [Marks.pushAll, foldl_cons]
    rw [Marks.pushAll] at rest
    omega

theorem Marks.Sound.pushAll (pooled : ∀ node, live node → node ∈ pool) (nodes : List Node)
    {opened : List Node} (sound : Marks.Sound live children pool opened marks) :
    Marks.Sound live children pool opened (marks.pushAll live nodes) ∧
      ∀ node ∈ nodes, live node → node ∈ (marks.pushAll live nodes).marked := by
  induction nodes generalizing marks with
  | nil => exact ⟨sound, fun _ listed => absurd listed not_mem_nil⟩
  | cons node nodes ih =>
    obtain ⟨soundRest, marksRest⟩ := ih (sound.push pooled node)
    refine ⟨soundRest, fun other listed isLive => ?_⟩
    rcases mem_cons.mp listed with rfl | listed
    · exact Marks.marked_pushAll live nodes _ (Marks.mem_push isLive)
    · exact marksRest other listed isLive

theorem Marks.Sound.pop {node : Node} {rest : List Node}
    (sound : Marks.Sound live children pool [] marks) (pooled : ∀ node, live node → node ∈ pool)
    (worklistEq : marks.worklist = node :: rest) :
    Marks.Sound live children pool []
      (Marks.pushAll live ⟨marks.marked, rest⟩ (children node)) := by
  have popped : Marks.Sound live children pool [node] ⟨marks.marked, rest⟩ := by
    refine ⟨sound.pool, fun other isMarked unlisted notOpened => ?_⟩
    refine sound.closed other isMarked (fun listed => ?_) not_mem_nil
    rw [worklistEq] at listed
    rcases mem_cons.mp listed with rfl | listed
    · exact notOpened mem_cons_self
    · exact unlisted listed
  obtain ⟨pushed, childrenMarked⟩ := popped.pushAll pooled (children node)
  refine ⟨pushed.pool, fun other isMarked unlisted _ child isChild isLive => ?_⟩
  by_cases same : other = node
  · subst same
    exact childrenMarked child isChild isLive
  · have notOpened : other ∉ [node] := fun listed => same (mem_singleton.mp listed)
    exact pushed.closed other isMarked unlisted notOpened child isChild isLive

/-- With as much fuel as there are nodes to push, the worklist runs empty. -/
theorem Marks.Sound.drain (pooled : ∀ node, live node → node ∈ pool) {fuel : ℕ}
    (sound : Marks.Sound live children pool [] marks)
    (enough : marks.worklist.length + pool.card ≤ fuel + marks.marked.card) :
    marks.marked ⊆ (marks.drain live children fuel).marked ∧
      ∀ node ∈ (marks.drain live children fuel).marked, ∀ child ∈ children node, live child →
        child ∈ (marks.drain live children fuel).marked := by
  induction fuel generalizing marks with
  | zero =>
    have bounded := Finset.card_le_card sound.pool
    have empty : marks.worklist = [] := eq_nil_of_length_eq_zero (by omega)
    refine ⟨Finset.Subset.refl _, fun node isMarked => sound.closed node isMarked ?_ ?_⟩
    · rw [empty]
      exact not_mem_nil
    · exact not_mem_nil
  | succ fuel ih =>
    rw [Marks.drain]
    split
    · rename_i empty
      refine ⟨Finset.Subset.refl _, fun node isMarked => sound.closed node isMarked ?_ ?_⟩
      · rw [empty]
        exact not_mem_nil
      · exact not_mem_nil
    · rename_i node rest worklistEq
      have card : (Marks.pushAll live ⟨marks.marked, rest⟩ (children node)).worklist.length +
          marks.marked.card = rest.length +
            (Marks.pushAll live ⟨marks.marked, rest⟩ (children node)).marked.card :=
        Marks.card_pushAll _ _ _
      rw [worklistEq, length_cons] at enough
      obtain ⟨grown, closed⟩ := ih (sound.pop pooled worklistEq) (by omega)
      exact ⟨(Marks.marked_pushAll live (children node) ⟨marks.marked, rest⟩).trans grown, closed⟩

/-- When a graph has been marked from some roots, the live ones are marked, and so is
everything live that a marked node leads to. -/
theorem Marks.closed_of_roots (pooled : ∀ node, live node → node ∈ pool) (roots : List Node) :
    (∀ root ∈ roots, live root →
      root ∈ ((Marks.none.pushAll live roots).drain live children pool.card).marked) ∧
    ∀ node ∈ ((Marks.none.pushAll live roots).drain live children pool.card).marked,
      ∀ child ∈ children node, live child →
        child ∈ ((Marks.none.pushAll live roots).drain live children pool.card).marked := by
  have start : Marks.Sound live children pool [] Marks.none := Marks.sound_none
  obtain ⟨sound, rootsMarked⟩ := start.pushAll pooled roots
  have card := Marks.card_pushAll live roots Marks.none
  have enough : (Marks.none.pushAll live roots).worklist.length + pool.card ≤
      pool.card + (Marks.none.pushAll live roots).marked.card := by
    simp only [Marks.none, Finset.card_empty, length_nil] at card ⊢
    omega
  obtain ⟨grown, closed⟩ := sound.drain pooled enough
  exact ⟨fun root isRoot isLive => grown (rootsMarked root isRoot isLive), closed⟩

/-- The live nodes that some roots lead to through live nodes. -/
inductive Leads (live : Node → Bool) (children : Node → List Node) (roots : List Node) :
    Node → Prop
  | root {node : Node} (isRoot : node ∈ roots) (isLive : live node) : Leads live children roots node
  | child {node child : Node} (leads : Leads live children roots node)
      (isChild : child ∈ children node) (isLive : live child) : Leads live children roots child

/-- What is marked or waits has a property. -/
structure Marks.Within (holds : Node → Prop) (marks : Marks Node) : Prop where
  marked : ∀ node ∈ marks.marked, holds node
  worklist : ∀ node ∈ marks.worklist, holds node

variable {holds : Node → Prop}

theorem Marks.Within.push (within : marks.Within holds) {node : Node}
    (fits : live node → holds node) : (marks.push live node).Within holds := by
  rw [Marks.push]
  split
  next fresh =>
    have isHeld := fits fresh.1
    exact ⟨Finset.forall_mem_insert .. |>.mpr ⟨isHeld, within.marked⟩,
      forall_mem_cons.mpr ⟨isHeld, within.worklist⟩⟩
  · exact within

theorem Marks.Within.pushAll (within : marks.Within holds) (nodes : List Node)
    (fits : ∀ node ∈ nodes, live node → holds node) : (marks.pushAll live nodes).Within holds := by
  induction nodes generalizing marks with
  | nil => exact within
  | cons node nodes ih =>
    rw [forall_mem_cons] at fits
    exact ih (within.push fits.1) fits.2

theorem Marks.Within.drain (within : marks.Within holds) (fuel : ℕ)
    (closed : ∀ node, holds node → ∀ child ∈ children node, live child → holds child) :
    (marks.drain live children fuel).Within holds := by
  induction fuel generalizing marks with
  | zero => exact within
  | succ fuel ih =>
    rw [Marks.drain]
    split
    · exact within
    next node rest worklistEq =>
      have waits := within.worklist
      rw [worklistEq, forall_mem_cons] at waits
      have popped : Marks.Within holds ⟨marks.marked, rest⟩ := ⟨within.marked, waits.2⟩
      exact ih (popped.pushAll _ (closed node waits.1))

/-- What is marked from some roots is what they lead to. -/
theorem Marks.mem_marked_iff (pooled : ∀ node, live node → node ∈ pool) {roots : List Node}
    {node : Node} :
    node ∈ ((Marks.none.pushAll live roots).drain live children pool.card).marked ↔
      Leads live children roots node := by
  constructor
  · have start : Marks.none.Within (Leads live children roots) :=
      ⟨fun _ isMarked => absurd isMarked (Finset.notMem_empty _), forall_mem_nil _⟩
    have drained := (start.pushAll roots fun _ => .root).drain pool.card fun _ leads _ =>
      leads.child
    exact drained.marked node
  · intro leads
    induction leads with
    | root isRoot isLive => exact (Marks.closed_of_roots pooled roots).1 _ isRoot isLive
    | child _ isChild isLive ih =>
      exact (Marks.closed_of_roots pooled roots).2 _ ih _ isChild isLive

end Rules

end Gengo.Dataflow
