import SatSearch.Proofs.BudgetTruncation

/-!
# Searches from two roots

Two nodes match if they are classified alike, branch on the same literal, and match again on both
sides, where a side is the node itself for both or for neither. The searches from them cannot be
told apart, and neither can they under a step limit, since what the limit leaves of a search depends
on nothing else.
-/

namespace SatSearch

/-- Related nodes are classified alike and have related sides, and the false side of a branch is cut
for both or for neither. -/
structure Node.Matching (c : Settings) (R : Node → Node → Prop) : Prop where
  view_eq {n m : Node} (h : R n m) : n.view c = m.view c
  side {n m : Node} {l k : Literal} (h : R n m) (hv : n.view c = .branch l)
    (hk : k = l ∨ k = l.negated) : R (n.assume c.reduction k) (m.assume c.reduction k)
  cut_iff {n m : Node} {l : Literal} (h : R n m) (hv : n.view c = .branch l) :
    n.assume c.reduction l.negated = n ↔ m.assume c.reduction l.negated = m

namespace Node.Matching

variable {c : Settings} {R : Node → Node → Prop} {n m : Node}

theorem explore_eq (hR : Matching c R) (h : R n m) (depth : Nat) :
    explore c n depth = explore c m depth := by
  induction hw : n.weight using Nat.strongRecOn generalizing n m depth with
  | ind w ih =>
    have hview := hR.view_eq h
    cases hv : n.view c with
    | satisfied => rw [explore_of_satisfied hv, explore_of_satisfied (hview ▸ hv)]
    | unsatisfiable => rw [explore_of_unsatisfiable hv, explore_of_unsatisfiable (hview ▸ hv)]
    | branch l =>
      have hm : m.view c = .branch l := hview ▸ hv
      have hne := assume_ne_of_mem (r := c.reduction) (mem_of_view_branch hv)
      have htrue := ih _ (hw ▸ weight_assume_lt hne) (hR.side h hv (.inl rfl)) (depth + 1) rfl
      have hcut := hR.cut_iff h hv
      have hfalse : exploreFalse c n l depth = exploreFalse c m l depth := by
        by_cases hn : n.assume c.reduction l.negated = n
        · rw [exploreFalse, exploreFalse, if_pos hn, if_pos (hcut.1 hn)]
        · rw [exploreFalse, exploreFalse, if_neg hn, if_neg (mt hcut.2 hn)]
          exact congrArg some
            (ih _ (hw ▸ weight_assume_lt hn) (hR.side h hv (.inr rfl)) (depth + 1) rfl)
      rw [explore_of_branch hv, explore_of_branch hm, htrue, hfalse]

theorem withoutBudget (hR : Matching c R) : Matching c.withoutBudget R :=
  ⟨hR.view_eq, hR.side, hR.cut_iff⟩

theorem run_start_eq_of_unlimited (hR : Matching c R) (h : R n m) (hc : c.Unlimited)
    (clock : Nat → Nat) : run c clock (.start n) = run c clock (.start m) := by
  simp only [State.start, run_eq_resume hc, List.length_nil, hR.explore_eq h]

/-- Without a deadline, the runs from related nodes are the same. -/
theorem run_start_eq (hR : Matching c R) (h : R n m) (hd : c.deadline = none)
    (clock clock' : Nat → Nat) : run c clock (.start n) = run c clock' (.start m) := by
  rw [run_congr_clock hd clock' clock]
  cases hk : c.stepLimit with
  | none => exact hR.run_start_eq_of_unlimited h ⟨hk, hd⟩ clock
  | some k =>
    have hfree := hR.withoutBudget.run_start_eq_of_unlimited h c.unlimited_withoutBudget clock
    rw [run_eq_within hk hd clock (Nat.zero_le k) rfl, hfree,
      ← run_eq_within hk hd clock (Nat.zero_le k) rfl]

end Node.Matching

end SatSearch
