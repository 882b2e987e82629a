import Mathlib.Data.Finset.Card

/-!
# One-visit worklists

A worklist explores a graph from a queue of labelled nodes. A node is visited
once, with the label it is first taken from the queue with; later labels are
dropped. A visit may fail, it adds to an accumulator, and it names the nodes
where the exploration goes on.

`explore_rule` is the invariant rule for explorations that succeed. `Explored` is the
invariant every exploration has: what a visited node leads to is visited, or still queued.
-/

namespace Gengo.Dataflow

variable {Node Label Acc ε : Type} [DecidableEq Node]

/-- Visit the nodes of the queue and what they lead to, as far as the fuel goes. -/
def explore (accepts : Node → Bool)
    (visit : Acc → Node → Label → Except ε (Acc × List (Node × Label))) :
    ℕ → Acc → List (Node × Label) → (Node → Option Label) → Option (Except ε Acc)
  | _, acc, [], _ => some (.ok acc)
  | 0, _, _ :: _, _ => none
  | fuel + 1, acc, (node, label) :: queue, labels =>
    if accepts node = false ∨ (labels node).isSome then
      explore accepts visit fuel acc queue labels
    else
      match visit acc node label with
      | .error err => some (.error err)
      | .ok (acc, next) =>
        explore accepts visit fuel acc (queue ++ next) (Function.update labels node (some label))

section Rules

variable {accepts : Node → Bool}
  {visit : Acc → Node → Label → Except ε (Acc × List (Node × Label))}
  {I : Acc → List (Node × Label) → (Node → Option Label) → Prop}

/-- An invariant that skipping and visiting keep holds when the queue is empty. -/
theorem explore_rule
    (skip : ∀ {acc node label queue labels},
      accepts node = false ∨ (labels node).isSome → I acc ((node, label) :: queue) labels →
        I acc queue labels)
    (step : ∀ {acc acc' node label queue next labels}, accepts node → labels node = none →
      visit acc node label = .ok (acc', next) → I acc ((node, label) :: queue) labels →
        I acc' (queue ++ next) (Function.update labels node (some label)))
    {fuel : ℕ} {acc result : Acc} {queue : List (Node × Label)} {labels : Node → Option Label}
    (start : I acc queue labels)
    (done : explore accepts visit fuel acc queue labels = some (.ok result)) :
    ∃ final, I result [] final := by
  induction fuel generalizing acc queue labels with
  | zero =>
    cases queue with
    | nil =>
      obtain rfl : acc = result := by simpa [explore] using done
      exact ⟨labels, start⟩
    | cons item queue => simp [explore] at done
  | succ fuel ih =>
    cases queue with
    | nil =>
      obtain rfl : acc = result := by simpa [explore] using done
      exact ⟨labels, start⟩
    | cons item queue =>
      obtain ⟨node, label⟩ := item
      rw [explore] at done
      split at done
      · rename_i skipped
        exact ih (skip skipped start) done
      · rename_i fresh
        push Not at fresh
        have accepted : accepts node := by simpa using fresh.1
        have unlabelled : labels node = none := by simpa using fresh.2
        cases visited : visit acc node label with
        | error err => simp [visited] at done
        | ok found =>
          obtain ⟨acc', next⟩ := found
          simp only [visited] at done
          exact ih (step accepted unlabelled visited start) done

end Rules

/-- Every labelled node was visited with its label, the accumulator holds what the
visit added, and the nodes it leads to are labelled or queued. -/
def Explored [LE Acc] (accepts : Node → Bool)
    (visit : Acc → Node → Label → Except ε (Acc × List (Node × Label))) (acc : Acc)
    (queue : List (Node × Label)) (labels : Node → Option Label) : Prop :=
  ∀ node label, labels node = some label → accepts node ∧
    ∃ before after next, visit before node label = .ok (after, next) ∧ after ≤ acc ∧
      ∀ item ∈ next, accepts item.1 → (labels item.1).isSome ∨ ∃ other, (item.1, other) ∈ queue

section Explored

variable [Preorder Acc] {accepts : Node → Bool}
  {visit : Acc → Node → Label → Except ε (Acc × List (Node × Label))}

omit [DecidableEq Node] in
theorem Explored.skip {acc : Acc} {node : Node} {label : Label} {queue : List (Node × Label)}
    {labels : Node → Option Label} (skipped : accepts node = false ∨ (labels node).isSome)
    (explored : Explored accepts visit acc ((node, label) :: queue) labels) :
    Explored accepts visit acc queue labels := by
  intro visited visitedLabel labelled
  obtain ⟨accepted, before, after, next, ok, below, leads⟩ := explored visited visitedLabel labelled
  refine ⟨accepted, before, after, next, ok, below, fun item itemMem acceptedItem => ?_⟩
  rcases leads item itemMem acceptedItem with done | ⟨other, queued⟩
  · exact .inl done
  · rcases List.mem_cons.mp queued with same | later
    · obtain ⟨rfl, -⟩ := Prod.mk.inj same
      rcases skipped with rejected | done
      · rw [rejected] at acceptedItem
        cases acceptedItem
      · exact .inl done
    · exact .inr ⟨other, later⟩

theorem Explored.step
    (grows : ∀ {acc node label acc' next}, visit acc node label = .ok (acc', next) → acc ≤ acc')
    {acc acc' : Acc} {node : Node} {label : Label} {queue next : List (Node × Label)}
    {labels : Node → Option Label} (accepted : accepts node)
    (visited : visit acc node label = .ok (acc', next))
    (explored : Explored accepts visit acc ((node, label) :: queue) labels) :
    Explored accepts visit acc' (queue ++ next) (Function.update labels node (some label)) := by
  intro other otherLabel labelled
  by_cases same : other = node
  · subst same
    obtain rfl : label = otherLabel := by simpa using labelled
    refine ⟨accepted, acc, acc', next, visited, le_rfl, fun item itemMem _ => .inr ?_⟩
    exact ⟨item.2, List.mem_append_right _ itemMem⟩
  · rw [Function.update_of_ne same] at labelled
    obtain ⟨acceptedOther, before, after, found, ok, below, leads⟩ :=
      explored other otherLabel labelled
    refine ⟨acceptedOther, before, after, found, ok, below.trans (grows visited),
      fun item itemMem acceptedItem => ?_⟩
    by_cases sameItem : item.1 = node
    · exact .inl (by simp [sameItem])
    · rw [Function.update_of_ne sameItem]
      rcases leads item itemMem acceptedItem with done | ⟨held, queued⟩
      · exact .inl done
      · rcases List.mem_cons.mp queued with isHead | later
        · exact absurd (Prod.mk.inj isHead).1 sameItem
        · exact .inr ⟨held, List.mem_append_left _ later⟩

end Explored

end Gengo.Dataflow
