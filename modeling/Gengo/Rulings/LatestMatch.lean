import Mathlib.Data.Set.Insert
import Mathlib.Tactic.Common

/-!
# Rules of which the latest match decides

A stack of rules allows what the latest matching rule allows, and nothing when no rule matches. Two
ways to match give the same rulings for all stacks of rules over some patterns when they agree on
each of these patterns, and one catch-all pattern is enough to tell them apart where they differ.
-/

namespace Gengo.Rulings

inductive Action
  | deny
  | allow
  deriving DecidableEq, Repr

structure Rule (π : Type) where
  action : Action
  pattern : π
  deriving DecidableEq, Repr

variable {π : Type} {reads denotes : π → Prop} {rules : List (Rule π)} {rule : Rule π}

/-- Of the rules that match, the latest one allows. The latest rule stands first. -/
def Allows (reads : π → Prop) : List (Rule π) → Prop
  | [] => False
  | rule :: rules =>
    (reads rule.pattern ∧ rule.action = .allow) ∨ (¬reads rule.pattern ∧ Allows reads rules)

@[simp]
theorem not_allows_nil : ¬Allows reads [] :=
  id

theorem allows_cons_iff :
    Allows reads (rule :: rules) ↔
      (reads rule.pattern ∧ rule.action = .allow) ∨ (¬reads rule.pattern ∧ Allows reads rules) :=
  .rfl

theorem allows_singleton_iff : Allows reads [rule] ↔ reads rule.pattern ∧ rule.action = .allow := by
  simp [allows_cons_iff]

theorem allows_congr (agree : ∀ rule ∈ rules, reads rule.pattern ↔ denotes rule.pattern) :
    Allows reads rules ↔ Allows denotes rules := by
  induction rules with
  | nil => exact .rfl
  | cons rule rules ih =>
    have rest := ih fun earlier mem => agree earlier (List.mem_cons_of_mem _ mem)
    rw [allows_cons_iff, allows_cons_iff, agree rule List.mem_cons_self, rest]

/-- A pattern that is read but not denoted is told by its own allowing rule, and one that is
denoted but not read by a denying rule over a rule that allows everything. -/
theorem agree_of_allows {all pattern : π} (allRead : reads all)
    (alone : Allows reads [⟨.allow, pattern⟩] → Allows denotes [⟨.allow, pattern⟩])
    (denied : Allows reads [⟨.deny, pattern⟩, ⟨.allow, all⟩] →
      Allows denotes [⟨.deny, pattern⟩, ⟨.allow, all⟩]) :
    reads pattern ↔ denotes pattern := by
  constructor
  · intro hit
    exact (allows_singleton_iff.mp (alone (allows_singleton_iff.mpr ⟨hit, rfl⟩))).1
  · intro hit
    by_contra miss
    have allowed := denied (.inr ⟨miss, allows_singleton_iff.mpr ⟨allRead, rfl⟩⟩)
    rcases allows_cons_iff.mp allowed with ⟨_, allow⟩ | ⟨missed, _⟩
    · cases allow
    · exact missed hit

end Gengo.Rulings
