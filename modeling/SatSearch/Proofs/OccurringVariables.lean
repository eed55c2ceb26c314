import SatSearch.Proofs.RandomFormulas
import Mathlib.Data.List.Sort

/-!
# The variables of a formula

The list of the variables of a formula is the ascending list of those that occur in it. It covers the
formula unless the literal -2147483648 occurs, whose variable is not one that can be listed.
-/

namespace SatSearch

namespace Formula

theorem mem_dropRepeats {v : Nat} {vs : List Nat} : v ∈ dropRepeats vs ↔ v ∈ vs := by
  fun_induction dropRepeats vs with
  | case1 => rfl
  | case2 w => rfl
  | case3 w rest ih => simp [ih]
  | case4 w x rest _ ih => rw [List.mem_cons, ih, ← List.mem_cons]

/-- Without repetitions, a list that does not descend ascends. -/
theorem pairwise_dropRepeats {vs : List Nat} (h : vs.Pairwise (· ≤ ·)) :
    (dropRepeats vs).Pairwise (· < ·) := by
  fun_induction dropRepeats vs with
  | case1 => exact .nil
  | case2 v => exact List.pairwise_singleton _ v
  | case3 v rest ih => exact ih h.of_cons
  | case4 v w rest hne ih =>
    refine List.pairwise_cons.2 ⟨fun x hx => ?_, ih h.of_cons⟩
    have hvw : v ≤ w := List.rel_of_pairwise_cons h List.mem_cons_self
    have hlt : v < w := Nat.lt_of_le_of_ne hvw hne
    rcases List.mem_cons.1 (mem_dropRepeats.1 hx) with rfl | hrest
    · exact hlt
    · exact Nat.lt_of_lt_of_le hlt (List.rel_of_pairwise_cons h.of_cons hrest)

variable {f : Formula} {v n : Nat}

theorem mem_vars : v ∈ f.vars ↔ ∃ l ∈ f.literals, l.var = v := by
  rw [vars, mem_dropRepeats, List.mem_mergeSort, List.mem_map]

theorem pairwise_vars (f : Formula) : f.vars.Pairwise (· < ·) := by
  apply pairwise_dropRepeats
  have hsorted : ((f.literals.map Literal.var).mergeSort (· ≤ ·)).Pairwise
      fun a b => decide (a ≤ b) = true := by
    apply List.pairwise_mergeSort
    · intro a b c hab hbc
      simp only [decide_eq_true_eq] at hab hbc ⊢
      exact Nat.le_trans hab hbc
    · intro a b
      simpa using Nat.le_total a b
  exact hsorted.imp fun h => of_decide_eq_true h

theorem coveredBy_vars (h : ∀ l ∈ f.literals, l.var ≤ maxVar) : f.CoveredBy f.vars where
  isVariable v hv := by
    obtain ⟨l, hl, rfl⟩ := mem_vars.1 hv
    exact ⟨l.var_pos, h l hl⟩
  mem l hl := mem_vars.2 ⟨l, hl, rfl⟩

/-- All numbers up to a bound are candidates, and all of them are variables of the formula exactly if
they are its list of variables. -/
theorem vars_eq_range'_iff (h : ∀ l ∈ f.literals, l.var ≤ n) :
    f.vars = List.range' 1 n ↔ ∀ v, 0 < v → v ≤ n → ∃ l ∈ f.literals, l.var = v := by
  constructor
  · intro heq v hpos hle
    rw [← mem_vars, heq, List.mem_range'_1]
    omega
  · intro hall
    apply f.pairwise_vars.eq_of_mem_iff List.pairwise_lt_range'
    intro v
    rw [mem_vars, List.mem_range'_1]
    constructor
    · rintro ⟨l, hl, rfl⟩
      have := l.var_pos
      have := h l hl
      omega
    · intro hv
      exact hall v (by omega) (by omega)

/-- The number of variables of a formula that was built from its clauses leaves room for
candidates. -/
theorem numVars_lt_of_var_le (hvars : f.numVars = largestVar f.clauses)
    (h : ∀ l ∈ f.literals, l.var ≤ maxVar) : f.numVars < maxCount := by
  rw [hvars]
  exact Nat.lt_of_le_of_lt (largestVar_le h) (by decide)

/-! ### Random formulas -/

namespace IsDrawn

variable {m : Nat} (h : f.IsDrawn m n)
include h

theorem nil_not_mem : [] ∉ f.clauses := by
  intro hnil
  cases (h.clauses [] hnil).length_eq

theorem coveredBy_vars (hn : n ≤ maxVar) : f.CoveredBy f.vars :=
  Formula.coveredBy_vars fun l hl => Nat.le_trans (h.var_le l hl) hn

theorem numVars_lt (hn : n ≤ maxVar) : f.numVars < maxCount :=
  numVars_lt_of_var_le h.numVars_eq fun l hl => Nat.le_trans (h.var_le l hl) hn

theorem length_literals : f.literals.length = m * 3 := by
  have hlengths : f.clauses.map List.length = List.replicate m 3 := by
    rw [List.eq_replicate_iff, List.length_map, h.length_eq]
    refine ⟨rfl, fun k hk => ?_⟩
    obtain ⟨c, hc, rfl⟩ := List.mem_map.1 hk
    exact (h.clauses c hc).length_eq
  rw [literals, literalsOf, List.length_flatten, hlengths, List.sum_replicate_nat]

/-- Each clause names three variables, so few clauses leave some out. -/
theorem vars_ne_of_few (hfew : m * 3 < n) : f.vars ≠ List.range' 1 n := by
  intro heq
  have hnodup : f.vars.Nodup := f.pairwise_vars.imp Nat.ne_of_lt
  have hsub : f.vars ⊆ f.literals.map Literal.var := by
    intro v hv
    obtain ⟨l, hl, rfl⟩ := mem_vars.1 hv
    exact List.mem_map_of_mem hl
  have hle := (hnodup.subperm hsub).length_le
  rw [heq, List.length_range', List.length_map, h.length_literals] at hle
  omega

theorem exists_missing (hne : f.vars ≠ List.range' 1 n) :
    ∃ v ∈ List.range' 1 n, ∀ l ∈ f.literals, l.var ≠ v := by
  by_contra hnone
  refine hne ((vars_eq_range'_iff h.var_le).2 fun v hpos hle => ?_)
  by_contra hv
  have hrange : v ∈ List.range' 1 n := by
    rw [List.mem_range'_1]
    omega
  exact hnone ⟨v, hrange, fun l hl heq => hv ⟨l, hl, heq⟩⟩

end IsDrawn

end Formula

end SatSearch
