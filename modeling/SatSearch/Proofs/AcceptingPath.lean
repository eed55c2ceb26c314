import SatSearch.Proofs.NodeReduction

/-!
# Accepting paths

An accepting path of a node is a list of literals that leads from it to a node without clauses, one
branch after the other, when each branch may be left on either side. Paths are defined without
regard to the order in which a search tries them, and without the cut of repeated nodes.

The literals of a path hit every clause. With strike they are over different variables. A node that
promises a model, in the sense that each clause has a true literal over a candidate, has a path with
either reduction: some side of each branch keeps the promise.
-/

namespace SatSearch

namespace Node

/-- The literals lead from the node to a satisfied one, each being a side of a branch. -/
inductive Accepts (c : Settings) : Node → List Literal → Prop where
  | satisfied {n : Node} (h : n.view c = .satisfied) : Accepts c n []
  | descend {n : Node} {l k : Literal} {path : List Literal} (h : n.view c = .branch l)
      (side : k = l ∨ k = l.negated) (rest : Accepts c (n.assume c.reduction k) path) :
      Accepts c n (k :: path)

variable {c : Settings} {n : Node} {l k : Literal} {path : List Literal} {σ : Valuation}

theorem Accepts.hits (h : n.Accepts c path) : ∀ cl ∈ n.clauses, ∃ l ∈ path, l ∈ cl := by
  induction h with
  | satisfied h =>
    rw [view_eq_satisfied_iff.1 h]
    simp
  | @descend n l k path h side rest ih =>
    intro cl hcl
    by_cases hk : k ∈ cl
    · exact ⟨k, List.mem_cons_self, hk⟩
    · obtain ⟨left, hleft⟩ := Option.ne_none_iff_exists'.1
        (mt (Reduction.clause?_eq_none_iff (r := c.reduction)).1 hk)
      obtain ⟨j, hj, hjl⟩ := ih left (mem_assume.2 ⟨cl, hcl, hleft⟩)
      exact ⟨j, List.mem_cons_of_mem _ hj, (Reduction.mem_of_mem_clause? hleft hjl).1⟩

theorem Accepts.exists_var_eq (h : n.Accepts c path) :
    ∀ k ∈ path, ∃ j ∈ Formula.literalsOf n.clauses, k.var = j.var := by
  induction h with
  | satisfied h => simp
  | @descend n l k path h side rest ih =>
    intro j hj
    rcases List.mem_cons.1 hj with rfl | hj
    · refine ⟨l, mem_of_view_branch h, ?_⟩
      rcases side with rfl | rfl
      · rfl
      · exact Literal.var_negated l
    · obtain ⟨i, hi, hji⟩ := ih j hj
      exact ⟨i, mem_literals_of_assume hi, hji⟩

/-- With strike, no variable is branched on twice on a path. -/
theorem Accepts.nodup_vars (hr : c.reduction = .strike) (h : n.Accepts c path) :
    (path.map Literal.var).Nodup := by
  induction h with
  | satisfied h => exact .nil
  | @descend n l k path h side rest ih =>
    refine List.nodup_cons.2 ⟨?_, ih⟩
    intro hk
    obtain ⟨j, hj, hjk⟩ := List.mem_map.1 hk
    obtain ⟨i, hi, hji⟩ := rest.exists_var_eq j hj
    rw [hr] at hi
    exact var_ne_of_strike hi (hji.symm.trans hjk)

/-- Literals of both signs name every candidate, and the set of candidates is well-formed. -/
structure Sound (n : Node) : Prop where
  wellFormed : n.candidates.WellFormed
  le_maxVar : ∀ v, n.candidates.contains v = true → v ≤ maxVar

theorem Sound.assume (h : n.Sound) (r : Reduction) (l : Literal) : (n.assume r l).Sound where
  wellFormed := CandidateSet.wellFormed_erase h.wellFormed l.var
  le_maxVar v hv := h.le_maxVar v ((CandidateSet.contains_erase h.wellFormed).1 hv).2

/-- Every clause has a literal over a candidate that is true under the valuation. -/
def Promises (σ : Valuation) (n : Node) : Prop :=
  ∀ cl ∈ n.clauses, ∃ k ∈ cl, k.Holds σ ∧ n.candidates.contains k.var = true

/-- The promise is kept by a true literal, and by any literal over a variable that is no candidate. -/
theorem Promises.assume (h : n.Promises σ) (hs : n.Sound)
    (hl : l.Holds σ ∨ n.candidates.contains l.var = false) (r : Reduction) :
    (n.assume r l).Promises σ := by
  intro rest hrest
  obtain ⟨cl, hcl, hsome⟩ := mem_assume.1 hrest
  obtain ⟨k, hk, hσ, hcand⟩ := h cl hcl
  have hv : k.var ≠ l.var := by
    rcases hl with hl | hl
    · exact Reduction.var_ne_of_holds hsome hl hk hσ
    · intro hv
      rw [hv, hl] at hcand
      cases hcand
  refine ⟨k, Reduction.mem_clause?_of_var_ne hsome hk hv, hσ, ?_⟩
  exact (CandidateSet.contains_erase hs.wellFormed).2 ⟨hv, hcand⟩

/-- A node with clauses that promises a model branches, and a side that changes the node keeps the
promise. -/
theorem Promises.exists_side (h : n.Promises σ) (hs : n.Sound) (hc : n.clauses ≠ []) :
    ∃ l k, n.view c = .branch l ∧ (k = l ∨ k = l.negated) ∧
      n.assume c.reduction k ≠ n ∧ (n.assume c.reduction k).Promises σ := by
  have hne : [] ∉ n.clauses := by
    intro hcl
    obtain ⟨k, hk, -⟩ := h [] hcl
    cases hk
  have hcand : n.candidates.isEmpty = false := by
    obtain ⟨cl, hcl⟩ := List.exists_mem_of_ne_nil _ hc
    obtain ⟨k, -, -, hk⟩ := h cl hcl
    exact CandidateSet.isEmpty_of_contains hs.wellFormed hk
  obtain ⟨l, hl⟩ := exists_view_branch (c := c) hc hne hcand
  have hocc := mem_of_view_branch hl
  by_cases hkeep : l.Holds σ ∨ n.candidates.contains l.var = false
  · exact ⟨l, l, hl, .inl rfl, assume_ne_of_mem hocc, h.assume hs hkeep c.reduction⟩
  · obtain ⟨hfalse, hmem⟩ := not_or.1 hkeep
    have hmem' : n.candidates.contains l.var = true := by simpa using hmem
    have hneg := (Literal.holds_negated (hs.le_maxVar l.var hmem')).2 hfalse
    refine ⟨l, l.negated, hl, .inr rfl, assume_ne_of_contains (by simpa using hmem'), ?_⟩
    exact h.assume hs (.inl hneg) c.reduction

/-- A node that promises a model has an accepting path. -/
theorem Promises.exists_accepts (h : n.Promises σ) (hs : n.Sound) : ∃ path, n.Accepts c path := by
  induction hw : n.weight using Nat.strongRecOn generalizing n with
  | ind w ih =>
    by_cases hc : n.clauses = []
    · exact ⟨[], .satisfied (view_eq_satisfied_iff.2 hc)⟩
    · obtain ⟨l, k, hl, side, hne, hkeep⟩ := h.exists_side (c := c) hs hc
      have hlt : (n.assume c.reduction k).weight < w := hw ▸ weight_assume_lt hne
      obtain ⟨path, hpath⟩ := ih _ hlt hkeep (hs.assume _ k) rfl
      exact ⟨k :: path, .descend hl side hpath⟩

end Node

end SatSearch
