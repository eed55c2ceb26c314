import SatSearch.Proofs.SearchRecursion
import SatSearch.Search.Graph

/-!
# The cut of repeated nodes

In the graph of a search each branch leads to both of its sides, so a branch whose false side is its
own node is a loop. The search gives such a side up. It accepts all the same exactly if a node
without clauses can be reached in the graph, since no shortest way to such a node takes a loop.
-/

namespace SatSearch

namespace Node

variable {c : Settings} {n m : Node}

theorem leads_iff : Leads c n m ↔
    ∃ l k, n.view c = .branch l ∧ (k = l ∨ k = l.negated) ∧ m = n.assume c.reduction k := by
  constructor
  · intro h
    cases h with
    | @whenTrue l h => exact ⟨l, l, h, .inl rfl, rfl⟩
    | @whenFalse l h => exact ⟨l, l.negated, h, .inr rfl, rfl⟩
  · rintro ⟨l, k, h, rfl | rfl, rfl⟩
    · exact .whenTrue h
    · exact .whenFalse h

theorem Accepts.exists_reaches {path : List Literal} (h : n.Accepts c path) :
    ∃ m, Reaches c n m ∧ m.clauses = [] := by
  induction h with
  | @satisfied n h => exact ⟨n, .refl n, view_eq_satisfied_iff.1 h⟩
  | @descend n l k path h side rest ih =>
    obtain ⟨m, hm, hc⟩ := ih
    exact ⟨m, .step (leads_iff.2 ⟨l, k, h, side, rfl⟩) hm, hc⟩

/-- The literals assumed on the way to a node without clauses are an accepting path. -/
theorem Reaches.exists_accepts (h : Reaches c n m) (hc : m.clauses = []) :
    ∃ path, n.Accepts c path := by
  induction h with
  | refl n => exact ⟨[], .satisfied (view_eq_satisfied_iff.2 hc)⟩
  | step h rest ih =>
    obtain ⟨l, k, hl, side, rfl⟩ := leads_iff.1 h
    obtain ⟨path, hpath⟩ := ih hc
    exact ⟨k :: path, .descend hl side hpath⟩

theorem exists_accepts_iff_reaches :
    (∃ path, n.Accepts c path) ↔ ∃ m, Reaches c n m ∧ m.clauses = [] := by
  constructor
  · rintro ⟨path, hpath⟩
    exact hpath.exists_reaches
  · rintro ⟨m, hm, hc⟩
    exact hm.exists_accepts hc

end Node

/-- Without a budget, the search of accepted input answers whether a node without clauses can be
reached from the root when no side is cut. -/
theorem solve_satisfiable_iff_reaches (r : Reduction) (s : Selection) (clock : Nat → Nat)
    {f : Formula} {vars : List Nat} {root : Node} (h : f.root vars = .ok root) :
    let c : Settings := { reduction := r, selection := s }
    ∃ a, solve c clock f vars = .ok a ∧
      (a.satisfiable = true ↔ ∃ n, root.Reaches c n ∧ n.clauses = []) := by
  intro c
  obtain ⟨a, ha, hiff, -⟩ := solve_of_unlimited (c := c) ⟨rfl, rfl⟩ clock h
  exact ⟨a, ha, hiff.trans Node.exists_accepts_iff_reaches⟩

/-- The formula has units of both signs, and one that is there twice. After both literals of variable
1 and the unit of variable 2, the false side of the branch on the latter is its own node. -/
theorem not_reaches_satisfied_repeated_unit :
    let f : Formula := .ofClauses [[.of 1], [.of (-1)], [.of 2], [.of 2]]
    let c : Settings := { reduction := .faithful }
    ∃ root, f.root [1, 2] = .ok root ∧ ¬∃ n, root.Reaches c n ∧ n.clauses = [] := by
  intro f c
  have hroot : f.root [1, 2] = .ok ⟨f.clauses, ⟨3, [1, 2]⟩, [], 2⟩ := rfl
  have hsolve : solve c (fun _ => 0) f [1, 2] = .ok ⟨false, 4, []⟩ := by decide +kernel
  obtain ⟨a, ha, hiff⟩ :=
    solve_satisfiable_iff_reaches .faithful .maxFrequency (fun _ => 0) hroot
  cases ha.symm.trans hsolve
  exact ⟨_, hroot, fun hreach => Bool.noConfusion (hiff.2 hreach)⟩

end SatSearch
