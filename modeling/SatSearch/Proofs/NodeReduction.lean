import SatSearch.Proofs.BranchingLiteral
import SatSearch.Proofs.CandidateMembership
import SatSearch.Proofs.LiteralTruth
import SatSearch.Search.Node

/-!
# What assuming a literal leaves of a node

Which literals survive in the clauses, which candidates survive, and when nothing changes at all.
Literals over other variables always survive; with strike, none over the assumed variable does.
-/

namespace SatSearch

namespace Reduction

variable {r : Reduction} {l k : Literal} {c rest : Clause}

theorem clause?_eq_none_iff : r.clause? l c = none ↔ l ∈ c := by
  unfold clause?
  cases r <;> by_cases h : l ∈ c <;> simp [h]

theorem clause?_eq_some_iff : r.clause? l c = some rest ↔
    l ∉ c ∧ rest = match r with
      | faithful => c
      | strike => c.without l.negated := by
  unfold clause?
  cases r <;> by_cases h : l ∈ c <;> simp [h, eq_comm]

/-- What is left of a clause consists of its own literals, and the assumed one is not among them. -/
theorem mem_of_mem_clause? (h : r.clause? l c = some rest) (hk : k ∈ rest) : k ∈ c ∧ k ≠ l := by
  obtain ⟨hl, rfl⟩ := clause?_eq_some_iff.1 h
  have hkc : k ∈ c := by
    cases r with
    | faithful => exact hk
    | strike => exact (Clause.mem_without.1 hk).1
  exact ⟨hkc, fun he => hl (he ▸ hkc)⟩

theorem mem_clause?_of_var_ne (h : r.clause? l c = some rest) (hk : k ∈ c)
    (hv : k.var ≠ l.var) : k ∈ rest := by
  obtain ⟨-, rfl⟩ := clause?_eq_some_iff.1 h
  cases r with
  | faithful => exact hk
  | strike =>
    refine Clause.mem_without.2 ⟨hk, ?_⟩
    rintro rfl
    exact hv (Literal.var_negated l)

/-- Where the assumed literal is true, a true literal of a clause that is left is over another
variable. -/
theorem var_ne_of_holds {σ : Valuation} (h : r.clause? l c = some rest) (hl : l.Holds σ)
    (hk : k ∈ c) (hσ : k.Holds σ) : k.var ≠ l.var := by
  intro hv
  have hkl := hσ.eq_of_var_eq hl hv
  exact (clause?_eq_some_iff.1 h).1 (hkl ▸ hk)

/-- Striking leaves no literal over the assumed variable. -/
theorem var_ne_of_mem_strike (h : strike.clause? l c = some rest) (hk : k ∈ rest) :
    k.var ≠ l.var := by
  obtain ⟨-, rfl⟩ := clause?_eq_some_iff.1 h
  intro hv
  rcases Literal.eq_or_eq_negated hv with he | he
  · exact (mem_of_mem_clause? h hk).2 he
  · exact (Clause.mem_without.1 hk).2 he

theorem clause?_of_not_touches (h : r.touches l c = false) : r.clause? l c = some c := by
  simp only [touches, List.contains_eq_mem, Bool.or_eq_false_iff, decide_eq_false_iff_not] at h
  refine clause?_eq_some_iff.2 ⟨h.1, ?_⟩
  cases r with
  | faithful => rfl
  | strike =>
    have hn : l.negated ∉ c := by simpa using h.2
    refine (List.filter_eq_self.2 ?_).symm
    intro k hk
    have hkn : k ≠ l.negated := fun he => hn (he ▸ hk)
    simpa using hkn

end Reduction

namespace Node

variable {r : Reduction} {c : Settings} {l k : Literal} {n : Node} {rest : Clause}

theorem mem_assume : rest ∈ (n.assume r l).clauses ↔
    ∃ cl ∈ n.clauses, r.clause? l cl = some rest := List.mem_filterMap

theorem mem_literals_of_assume (h : k ∈ Formula.literalsOf (n.assume r l).clauses) :
    k ∈ Formula.literalsOf n.clauses := by
  obtain ⟨rest, hrest, hk⟩ := List.mem_flatten.1 h
  obtain ⟨cl, hcl, hsome⟩ := mem_assume.1 hrest
  exact List.mem_flatten.2 ⟨cl, hcl, (Reduction.mem_of_mem_clause? hsome hk).1⟩

theorem var_ne_of_strike (h : k ∈ Formula.literalsOf (n.assume .strike l).clauses) :
    k.var ≠ l.var := by
  obtain ⟨rest, hrest, hk⟩ := List.mem_flatten.1 h
  obtain ⟨cl, -, hsome⟩ := mem_assume.1 hrest
  exact Reduction.var_ne_of_mem_strike hsome hk

theorem assume_of_not_changes (h : n.changes r l = false) : n.assume r l = n := by
  simp only [changes, Bool.or_eq_false_iff, List.any_eq_false, Bool.not_eq_true] at h
  have hclauses : n.clauses.filterMap (r.clause? l) = n.clauses.filterMap some :=
    List.filterMap_congr fun cl hcl => Reduction.clause?_of_not_touches (h.1 cl hcl)
  simp only [assume, hclauses, List.filterMap_some, CandidateSet.erase_of_not_contains h.2]

/-- A node is its own child exactly if no clause is touched and no candidate is removed. -/
theorem assume_eq_self_iff : n.assume r l = n ↔ n.changes r l = false := by
  refine ⟨?_, assume_of_not_changes⟩
  intro he
  by_contra hch
  have hred : n.reduce r l = some (n.assume r l) := by simp [reduce, hch]
  have hlt := weight_lt_of_reduce hred
  rw [he] at hlt
  exact Nat.lt_irrefl _ hlt

theorem reduce_eq_none_iff : n.reduce r l = none ↔ n.assume r l = n := by
  rw [assume_eq_self_iff]
  simp [reduce]

theorem reduce_of_assume_ne (h : n.assume r l ≠ n) : n.reduce r l = some (n.assume r l) := by
  have hch : n.changes r l = true := by
    rwa [Ne, assume_eq_self_iff, Bool.not_eq_false] at h
  simp [reduce, hch]

theorem weight_assume_lt (h : n.assume r l ≠ n) : (n.assume r l).weight < n.weight :=
  weight_lt_of_reduce (reduce_of_assume_ne h)

theorem assume_ne_of_mem (h : l ∈ Formula.literalsOf n.clauses) : n.assume r l ≠ n := by
  obtain ⟨cl, hcl, hl⟩ := List.mem_flatten.1 h
  have hch : n.changes r l = true := by
    simp only [changes, Bool.or_eq_true, List.any_eq_true]
    exact .inl ⟨cl, hcl, by simp [Reduction.touches, hl]⟩
  rw [Ne, assume_eq_self_iff, hch]
  simp

/-- With the faithful reduction, nothing comes of a literal that does not occur and whose variable is
no candidate. -/
theorem assume_faithful_eq_self (h : l ∉ Formula.literalsOf n.clauses)
    (hc : n.candidates.contains l.var = false) : n.assume .faithful l = n := by
  rw [assume_eq_self_iff, changes, hc, Bool.or_false, List.any_eq_false]
  intro cl hcl
  have hl : l ∉ cl := fun hl => h (List.mem_flatten.2 ⟨cl, hcl, hl⟩)
  simp [Reduction.touches, hl]

theorem assume_ne_of_contains (h : n.candidates.contains l.var = true) : n.assume r l ≠ n := by
  rw [Ne, assume_eq_self_iff]
  simp only [changes, h, Bool.or_true, reduceCtorEq, not_false_eq_true]

/-- A node is satisfied without clauses; it is unsatisfiable without candidates, and with strike if
a clause is empty; otherwise it branches on the chosen literal, if there is one. -/
theorem view_eq (c : Settings) (n : Node) : n.view c =
    if n.clauses = [] then .satisfied
    else if n.candidates.isEmpty ∨ c.reduction = .strike ∧ [] ∈ n.clauses then .unsatisfiable
    else (c.selection.pick n.clauses).elim .unsatisfiable .branch := by
  have hempty : n.clauses.any (·.isEmpty) = true ↔ [] ∈ n.clauses := by simp [List.any_eq_true]
  simp only [view, List.isEmpty_iff, hempty]
  split
  · rfl
  · cases n.candidates.isEmpty with
    | true => simp
    | false =>
      simp only [Bool.false_eq_true, if_false, false_or]
      split
      · rfl
      · cases c.selection.pick n.clauses <;> rfl

theorem view_eq_satisfied_iff : n.view c = .satisfied ↔ n.clauses = [] := by
  rw [view_eq]
  split
  · simp [*]
  · split
    · simp [*]
    · cases c.selection.pick n.clauses <;> simp [*]

theorem mem_of_view_branch (h : n.view c = .branch l) : l ∈ Formula.literalsOf n.clauses := by
  rw [view_eq] at h
  split at h
  · cases h
  · split at h
    · cases h
    · cases hp : c.selection.pick n.clauses with
      | none =>
        rw [hp] at h
        cases h
      | some k =>
        rw [hp] at h
        cases h
        exact Selection.mem_of_pick hp

theorem isEmpty_of_view_branch (h : n.view c = .branch l) : n.candidates.isEmpty = false := by
  cases he : n.candidates.isEmpty with
  | false => rfl
  | true =>
    rw [view_eq] at h
    split at h <;> simp [he] at h

theorem exists_view_branch (hc : n.clauses ≠ []) (hne : [] ∉ n.clauses)
    (hcand : n.candidates.isEmpty = false) : ∃ l, n.view c = .branch l := by
  simp only [view_eq, hc, hcand, hne, if_false, Bool.false_eq_true, false_or, and_false]
  cases hp : c.selection.pick n.clauses with
  | some l => exact ⟨l, rfl⟩
  | none =>
    have hlits := List.flatten_eq_nil_iff.1 (Selection.pick_eq_none_iff.1 hp)
    obtain ⟨cl, hcl⟩ := List.exists_mem_of_ne_nil _ hc
    exact absurd (hlits cl hcl ▸ hcl) hne

end Node

end SatSearch
