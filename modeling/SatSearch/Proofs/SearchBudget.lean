import SatSearch.Proofs.AcceptedInput
import SatSearch.Proofs.SearchRecursion

/-!
# Searches under a budget

A budget is looked at only when a step is due, and then it either stops the search or does nothing.
A search that is not stopped is therefore the search without the budget, advance by advance.
-/

namespace SatSearch

def Settings.withoutBudget (c : Settings) : Settings :=
  { c with stepLimit := none, deadline := none }

theorem Settings.unlimited_withoutBudget (c : Settings) : c.withoutBudget.Unlimited := ⟨rfl, rfl⟩

variable {c : Settings}

theorem Node.view_withoutBudget (c : Settings) (n : Node) : n.view c.withoutBudget = n.view c := rfl

namespace State

/-- An advance under a budget is the advance without it, unless the budget stops the step that is
due. -/
theorem advance_eq_or_stopped (c : Settings) (now : Nat) (s : State) :
    s.advance c now = s.advance c.withoutBudget now ∨
      ∃ l reason, s.current.view c = .branch l ∧ c.stop? s.steps now = some reason ∧
        s.advance c now = .finished ⟨.stopped reason, s.steps, s.events.reverse⟩ := by
  have hnone : c.withoutBudget.stop? s.steps now = none :=
    Settings.stop?_of_unlimited c.unlimited_withoutBudget s.steps now
  simp only [advance, Node.view_withoutBudget, hnone]
  cases hv : s.current.view c with
  | satisfied => exact .inl rfl
  | unsatisfiable => exact .inl rfl
  | branch l =>
    cases hstop : c.stop? s.steps now with
    | none => exact .inl rfl
    | some reason => exact .inr ⟨l, reason, rfl, rfl, rfl⟩

end State

/-- A run under a budget is the run without it, unless the budget stops it. -/
theorem run_eq_or_stopped (c : Settings) (clock : Nat → Nat) (s : State) :
    run c clock s = run c.withoutBudget clock s ∨
      ∃ reason, (run c clock s).verdict = .stopped reason := by
  induction hw : s.weight using Nat.strongRecOn generalizing s with
  | ind w ih =>
    rw [run_eq_ending c, run_eq_ending c.withoutBudget]
    rcases s.advance_eq_or_stopped c (clock s.steps) with hadv | ⟨l, reason, -, -, hadv⟩
    · rw [← hadv]
      cases hnext : s.advance c (clock s.steps) with
      | running next =>
        have hlt : next.weight < w := hw ▸ State.weight_lt_of_advance hnext
        exact ih next.weight hlt next rfl
      | finished ending => exact .inl rfl
    · rw [hadv]
      exact .inr ⟨reason, rfl⟩

theorem solve_withoutBudget {clock : Nat → Nat} {f : Formula} {vars : List Nat} {a : Solution}
    (h : solve c clock f vars = .ok a) : solve c.withoutBudget clock f vars = .ok a := by
  obtain ⟨-, root, hroot⟩ := exists_root_of_solve h
  simp only [solve, observe, hroot] at h ⊢
  rcases run_eq_or_stopped c clock (.start root) with heq | ⟨reason, hstop⟩
  · rw [← heq]
    exact h
  · rw [Ending.solution, hstop] at h
    cases h

end SatSearch
