import SatSearch.Proofs.AcceptedInput
import SatSearch.Proofs.SearchRecursion

/-!
# What a verdict says about satisfiability

For a formula covered by its candidates, the search with strike decides satisfiability, and its
decisions give an assignment that satisfies the formula. With the faithful reduction only the
verdict of unsatisfiability can be relied on: a path may assume both literals of a variable.

The room of the formula has to leave a count for one more variable. Otherwise the candidates cannot
be set up.
-/

namespace SatSearch

variable {f : Formula} {vars : List Nat} {a : Solution}

def Formula.HitBy (f : Formula) (ls : List Literal) : Prop := ∀ cl ∈ f.clauses, ∃ l ∈ ls, l ∈ cl

theorem Node.Accepts.hitBy {c : Settings} {root : Node} (h : f.root vars = .ok root)
    {path : List Literal} (hpath : root.Accepts c path) : f.HitBy path := by
  intro cl hcl
  rw [← Formula.clauses_of_root h] at hcl
  exact hpath.hits cl hcl

theorem Formula.satisfiable_of_hitBy {ls : List Literal} (h : f.HitBy ls)
    (hls : ¬Contradictory ls) : f.Satisfiable := by
  obtain ⟨σ, hσ⟩ := exists_valuation_of_not_contradictory hls
  refine ⟨σ, ?_⟩
  intro cl hcl
  obtain ⟨l, hl, hlcl⟩ := h cl hcl
  exact ⟨l, hlcl, hσ l hl⟩

/-- Decisions that hit every clause give no assignment if they contradict each other, and otherwise
one that satisfies the formula. -/
theorem Solution.assignment_of_hitBy (ha : a.satisfiable = true) (h : f.HitBy a.decisions)
    {n : Nat} (hn : n < maxCount) :
    (Contradictory a.decisions ∧ a.assignment n = .ok none) ∨
      (¬Contradictory a.decisions ∧ ∃ m, a.assignment n = .ok (some m) ∧ f.verify m = true) := by
  simp only [assignment, ha, if_true]
  rcases Assignment.ofDecisions_eq n hn a.decisions with ⟨hcon, hnone⟩ | ⟨hcon, m, hm, htrue⟩
  · exact .inl ⟨hcon, hnone⟩
  · refine .inr ⟨hcon, m, hm, Formula.verify_of_hits ?_⟩
    intro cl hcl
    obtain ⟨l, hl, hlcl⟩ := h cl hcl
    exact ⟨l, hlcl, htrue l hl⟩

/-- The answer says whether the formula is satisfiable, and if so, its assignments of every size
satisfy the formula. -/
structure Solution.Decides (a : Solution) (f : Formula) : Prop where
  satisfiable_iff : a.satisfiable = true ↔ f.Satisfiable
  verified : a.satisfiable = true →
    ∀ n < maxCount, ∃ m, a.assignment n = .ok (some m) ∧ f.verify m = true

/-- The search with strike decides satisfiability. -/
theorem solve_strike_decides (s : Selection) (clock : Nat → Nat) (h : f.CoveredBy vars)
    (hn : f.numVars < maxCount) :
    ∃ a, solve { reduction := .strike, selection := s } clock f vars = .ok a ∧ a.Decides f := by
  obtain ⟨root, hroot⟩ := h.exists_root hn
  obtain ⟨a, ha, hiff, hdec⟩ := solve_of_unlimited
    (c := { reduction := .strike, selection := s }) ⟨rfl, rfl⟩ clock hroot
  have hhit (hsat : a.satisfiable = true) : f.HitBy a.decisions := (hdec hsat).hitBy hroot
  have hcon (hsat : a.satisfiable = true) : ¬Contradictory a.decisions :=
    not_contradictory_of_nodup ((hdec hsat).nodup_vars rfl)
  refine ⟨a, ha, ⟨?_, ?_⟩, ?_⟩
  · intro hsat
    exact Formula.satisfiable_of_hitBy (hhit hsat) (hcon hsat)
  · intro hf
    exact hiff.2 (h.exists_accepts hroot hf)
  · intro hsat n hn
    rcases Solution.assignment_of_hitBy hsat (hhit hsat) hn with ⟨hbad, -⟩ | ⟨-, hm⟩
    · exact absurd hbad (hcon hsat)
    · exact hm

theorem solve_strike_decides_two_clauses :
    let f : Formula := .ofClauses [[.of 1, .of (-2)], [.of 2]]
    f.CoveredBy [2, 3, 1] ∧ f.numVars < maxCount ∧
      ∃ a, solve { reduction := .strike } (fun _ => 0) f [2, 3, 1] = .ok a ∧ a.Decides f :=
  ⟨by decide, by decide, solve_strike_decides .maxFrequency _ (by decide) (by decide)⟩

/-- A formula whose number of variables is the largest count is not decided, although its candidates
cover it: there is no room for them. -/
theorem not_solve_strike_decides_of_le_maxCount :
    ¬∀ (s : Selection) (clock : Nat → Nat) (f : Formula) (vars : List Nat),
      f.numVars ≤ maxCount → f.CoveredBy vars →
      ∃ a, solve { reduction := .strike, selection := s } clock f vars = .ok a ∧ a.Decides f := by
  intro h
  obtain ⟨a, ha, -⟩ := h .maxFrequency (fun _ => 0)
    ⟨[[.of 1]], maxCount⟩ [1] (Nat.le_refl _) (by decide)
  exact Nat.lt_irrefl _ (exists_root_of_solve ha).1

/-- A formula that no valuation satisfies, by its first two clauses. The variable of the third one
is still a candidate after both literals of the first variable were assumed. -/
def Formula.clash : Formula := .ofClauses [[.of 1], [.of (-1)], [.of 2]]

theorem Formula.not_satisfiable_clash : ¬clash.Satisfiable := by
  rintro ⟨σ, hσ⟩
  obtain ⟨l, hl, hpos⟩ := hσ _ List.mem_cons_self
  obtain ⟨k, hk, hneg⟩ := hσ _ (List.mem_cons_of_mem _ List.mem_cons_self)
  cases List.mem_singleton.1 hl
  cases List.mem_singleton.1 hk
  exact Bool.noConfusion (hpos.symm.trans hneg)

theorem Formula.exists_accepts_clash (s : Selection) :
    ∃ root, clash.root [1, 2] = .ok root ∧
      ∃ path, root.Accepts { reduction := .faithful, selection := s } path := by
  refine ⟨⟨clash.clauses, ⟨3, [1, 2]⟩, [], 2⟩, rfl, clash.literals, ?_⟩
  apply Node.Accepts.descend (by cases s <;> rfl) (.inl rfl)
  apply Node.Accepts.descend (by cases s <;> rfl) (.inl rfl)
  apply Node.Accepts.descend (by cases s <;> rfl) (.inl rfl)
  exact .satisfied rfl

/-- With the faithful reduction, the search accepts every satisfiable formula, so it is right to call
a formula unsatisfiable. It also accepts some formula that is not satisfiable. -/
theorem solve_faithful_refutes (s : Selection) (clock : Nat → Nat) :
    let c : Settings := { reduction := .faithful, selection := s }
    (∀ (f : Formula) (vars : List Nat), f.CoveredBy vars → f.numVars < maxCount →
      ∃ a, solve c clock f vars = .ok a ∧ (f.Satisfiable → a.satisfiable = true) ∧
        (a.satisfiable = false → ¬f.Satisfiable)) ∧
    ∃ f vars a, Formula.CoveredBy f vars ∧ f.numVars < maxCount ∧ solve c clock f vars = .ok a ∧
      a.satisfiable = true ∧ ¬f.Satisfiable := by
  intro c
  constructor
  · intro f vars h hn
    obtain ⟨root, hroot⟩ := h.exists_root hn
    obtain ⟨a, ha, hiff, -⟩ := solve_of_unlimited (c := c) ⟨rfl, rfl⟩ clock hroot
    have hsat : f.Satisfiable → a.satisfiable = true := fun hf =>
      hiff.2 (h.exists_accepts hroot hf)
    refine ⟨a, ha, hsat, ?_⟩
    intro hunsat hf
    cases (hsat hf).symm.trans hunsat
  · obtain ⟨root, hroot, hpath⟩ := Formula.exists_accepts_clash s
    obtain ⟨a, ha, hiff, -⟩ := solve_of_unlimited (c := c) ⟨rfl, rfl⟩ clock hroot
    exact ⟨Formula.clash, [1, 2], a, by decide, by decide, ha, hiff.2 hpath,
      Formula.not_satisfiable_clash⟩

theorem solve_faithful_refutes_two_clauses :
    let f : Formula := .ofClauses [[.of 1], [.of (-1)]]
    f.CoveredBy [1] ∧ f.numVars < maxCount ∧
      ∃ a, solve { reduction := .faithful } (fun _ => 0) f [1] = .ok a ∧
        (f.Satisfiable → a.satisfiable = true) ∧ (a.satisfiable = false → ¬f.Satisfiable) :=
  ⟨by decide, by decide,
    (solve_faithful_refutes .maxFrequency (fun _ => 0)).1 _ [1] (by decide) (by decide)⟩

/-- There is no room for the candidates of a formula whose number of variables is the largest count,
so it has no answer even if it is satisfiable. -/
theorem not_solve_faithful_refutes_of_le_maxCount :
    ¬∀ (s : Selection) (clock : Nat → Nat) (f : Formula) (vars : List Nat),
      f.numVars ≤ maxCount → f.CoveredBy vars → f.Satisfiable →
      ∃ a, solve { reduction := .faithful, selection := s } clock f vars = .ok a ∧
        a.satisfiable = true := by
  intro h
  let f : Formula := ⟨[[.of 1]], maxCount⟩
  have hf : f.Satisfiable := by
    refine ⟨fun _ => true, ?_⟩
    simp [f, Satisfies, Clause.Holds, Literal.Holds, Literal.isPositive, Literal.of]
  obtain ⟨a, ha, -⟩ := h .maxFrequency (fun _ => 0) f [1] (Nat.le_refl _) (by decide) hf
  exact Nat.lt_irrefl _ (exists_root_of_solve ha).1

end SatSearch
