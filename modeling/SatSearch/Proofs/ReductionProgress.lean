import SatSearch.Proofs.FiniteCandidates
import SatSearch.Proofs.PathResidue

/-!
# Assuming a literal changes nothing or makes progress

A node has no child under a literal exactly if assuming it leaves all clauses and all candidates as
they are. So a search never goes around in circles, and gives up no branch that could still lead
somewhere: every child has fewer clauses, literals and candidates, and the true side of a branch is
always a child.
-/

namespace SatSearch

namespace Reduction

/-- Assuming a literal drops the clauses that hold it and, with strike, takes its negation out of the
others. -/
theorem filterMap_clause?_eq_residue (r : Reduction) (l : Literal) (clauses : List Clause) :
    clauses.filterMap (r.clause? l) = r.residue [l] clauses := by
  have hstep := @filterMap_residue r l [] (fun _ _ h => nomatch h) clauses
  rwa [residue_nil] at hstep

end Reduction

namespace Node

variable {r : Reduction} {l : Literal} {n child : Node} {vs : Finset Nat}

def extent (n : Node) : Nat :=
  n.clauses.length + (Formula.literalsOf n.clauses).length + n.candidates.size

theorem extent_eq_weight (h : n.candidates.WellFormed) : n.extent = n.weight := by
  rw [extent, weight, h.size_eq]

theorem assume_eq_residue (r : Reduction) (l : Literal) (n : Node) :
    n.assume r l = ⟨r.residue [l] n.clauses, (n.candidates.remove l.var).2⟩ := by
  rw [assume, Reduction.filterMap_clause?_eq_residue]
  rfl

theorem eq_assume_of_reduce (h : n.reduce r l = some child) : child = n.assume r l := by
  obtain ⟨-, hchild⟩ := Option.ite_none_right_eq_some.1 h
  exact (Option.some.inj hchild).symm

theorem extent_lt_of_reduce (hn : n.candidates.WellFormed) (h : n.reduce r l = some child) :
    child.extent < n.extent := by
  have hchild : child.candidates.WellFormed := by
    rw [eq_assume_of_reduce h]
    exact CandidateSet.wellFormed_erase hn l.var
  rw [extent_eq_weight hchild, extent_eq_weight hn]
  exact weight_lt_of_reduce h

/-- The variable of the assumed literal is taken out of the candidates, if it is among them. -/
theorem behavesAs_assume (hn : n.candidates.WellFormed)
    (hvs : ∀ v, n.candidates.contains v = true ↔ v ∈ vs) (r : Reduction) (l : Literal) :
    (n.assume r l).candidates.BehavesAs (vs.erase l.var) := by
  refine (CandidateSet.wellFormed_erase hn l.var).behavesAs fun v => ?_
  rw [CandidateSet.contains_erase hn, Finset.mem_erase, hvs]

/-- Both ways to choose a branching literal choose one that assuming does something to. -/
theorem exists_reduce_of_pick {s : Selection} (h : s.pick n.clauses = some l) (r : Reduction) :
    ∃ child, n.reduce r l = some child :=
  ⟨_, reduce_of_assume_ne (assume_ne_of_mem (Selection.mem_of_pick h))⟩

/-- Whatever the clauses are, and whichever of the listed candidates are left, a node has no child
under a literal exactly if neither its clauses nor its candidates change. A child is smaller than the
node, it has the candidates of the node without the variable of the literal, and under a branching
literal there always is one. -/
theorem reduce_changes_or_fails {vars : List Nat} {bound : Nat} {start : CandidateSet}
    (h : CandidateSet.ofListBounded vars bound = .ok start) (removed : List Nat)
    (clauses : List Clause) (r : Reduction) (l : Literal) :
    let vs := vars.toFinset \ removed.toFinset
    let n : Node := ⟨clauses, start.removeAll removed⟩
    n.candidates.BehavesAs vs ∧
      (n.reduce r l = none ↔
        r.residue [l] clauses = clauses ∧ (n.candidates.remove l.var).2 = n.candidates) ∧
      (∀ child, n.reduce r l = some child →
        child = ⟨r.residue [l] clauses, (n.candidates.remove l.var).2⟩ ∧
          child.candidates.BehavesAs (vs.erase l.var) ∧ child.extent < n.extent) ∧
      ∀ s : Selection, s.pick clauses = some l → ∃ child, n.reduce r l = some child := by
  intro vs n
  have hstart := CandidateSet.wellFormed_of_ofListBounded h
  have hwell : n.candidates.WellFormed := CandidateSet.wellFormed_removeAll hstart removed
  have hvs (v : Nat) : n.candidates.contains v = true ↔ v ∈ vs := by
    rw [CandidateSet.contains_removeAll hstart, CandidateSet.contains_of_ofListBounded h,
      Finset.mem_sdiff, List.mem_toFinset, List.mem_toFinset]
  refine ⟨hwell.behavesAs hvs, ?_, fun child hchild => ⟨?_, ?_, ?_⟩, fun s hs =>
    exists_reduce_of_pick hs r⟩
  · rw [reduce_eq_none_iff, assume_eq_residue, Node.mk.injEq]
  · rw [eq_assume_of_reduce hchild, assume_eq_residue]
  · rw [eq_assume_of_reduce hchild]
    exact behavesAs_assume hwell hvs r l
  · exact extent_lt_of_reduce hwell hchild

/-- The variable 3 is no candidate any more. With the faithful reduction the literal -3 does nothing to
the clause, and with strike it takes out both occurrences of 3. -/
theorem reduce_changes_or_fails_repeated :
    let start : CandidateSet := ⟨⟨2, [1]⟩, [3], 2⟩
    let clauses : List Clause := [[.of 3, .of 1, .of 3]]
    let n : Node := ⟨clauses, start.removeAll [3]⟩
    CandidateSet.ofListBounded [3, 1, 3] 1 = .ok start ∧ n.candidates.BehavesAs {1} ∧
      n.reduce .faithful (.of (-3)) = none ∧
      (∃ child, n.reduce .strike (.of (-3)) = some child ∧ child.clauses = [[.of 1]] ∧
        child.candidates.BehavesAs {1} ∧ child.extent < 5) ∧
      Selection.maxFrequency.pick clauses = some (.of 3) ∧
      ∃ child, n.reduce .faithful (.of 3) = some child := by
  intro start clauses n
  have hof : CandidateSet.ofListBounded [3, 1, 3] 1 = .ok start := by decide
  have hpick : Selection.maxFrequency.pick clauses = some (.of 3) := by decide
  obtain ⟨hcandidates, hnone, -⟩ := reduce_changes_or_fails hof [3] clauses .faithful (.of (-3))
  obtain ⟨-, -, hchild, -⟩ := reduce_changes_or_fails hof [3] clauses .strike (.of (-3))
  obtain ⟨-, -, -, hside⟩ := reduce_changes_or_fails hof [3] clauses .faithful (.of 3)
  have hleft : [3, 1, 3].toFinset \ [3].toFinset = {1} := by decide
  rw [hleft] at hcandidates hchild
  have hstruck : n.reduce .strike (.of (-3)) = some ⟨[[.of 1]], ⟨⟨2, [1]⟩, [], 1⟩⟩ := by decide
  obtain ⟨-, hbehaves, hsmaller⟩ := hchild _ hstruck
  exact ⟨hof, hcandidates, hnone.2 ⟨by decide, by decide⟩, ⟨_, hstruck, rfl, hbehaves, hsmaller⟩,
    hpick, hside .maxFrequency hpick⟩

end Node

end SatSearch
