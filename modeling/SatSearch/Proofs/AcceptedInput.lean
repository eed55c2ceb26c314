import SatSearch.Proofs.AcceptingPath
import SatSearch.Search.Solve

/-!
# Formulas covered by their candidates

A list of variables covers a formula if it names all variables of the formula. Such a list is
accepted, and the search starts at the clauses as they are with the listed variables as candidates.
Every model of the formula is promised by this node.
-/

namespace SatSearch

/-- The list consists of variables, and it names all variables of the formula. -/
structure Formula.CoveredBy (f : Formula) (vars : List Nat) : Prop where
  isVariable : ∀ v ∈ vars, 0 < v ∧ v ≤ maxVar
  mem : ∀ l ∈ f.literals, l.var ∈ vars

instance (f : Formula) (vars : List Nat) : Decidable (f.CoveredBy vars) :=
  decidable_of_iff ((∀ v ∈ vars, 0 < v ∧ v ≤ maxVar) ∧ ∀ l ∈ f.literals, l.var ∈ vars)
    ⟨fun h => ⟨h.1, h.2⟩, fun h => ⟨h.isVariable, h.mem⟩⟩

def Node.Covered (n : Node) : Prop :=
  ∀ l ∈ Formula.literalsOf n.clauses, n.candidates.contains l.var = true

namespace Formula

variable {f : Formula} {vars : List Nat} {root : Node} {σ : Valuation}

theorem root_eq_ok_iff : f.root vars = .ok root ↔
    CandidateSet.ofListBounded vars f.numVars = .ok root.candidates ∧
      f.missingCandidate? root.candidates = none ∧ root.clauses = f.clauses := by
  obtain ⟨clauses, candidates⟩ := root
  unfold Formula.root
  cases hs : CandidateSet.ofListBounded vars f.numVars with
  | error failure => simp [bind, Except.bind]
  | ok s =>
    simp only [bind, Except.bind, Except.ok.injEq]
    cases hm : f.missingCandidate? s with
    | some v =>
      simp only [reduceCtorEq, false_iff, not_and]
      rintro rfl hnone
      cases hm.symm.trans hnone
    | none =>
      simp only [pure, Except.pure, Except.ok.injEq, Node.mk.injEq]
      constructor
      · rintro ⟨rfl, rfl⟩
        exact ⟨rfl, hm, rfl⟩
      · rintro ⟨rfl, -, rfl⟩
        exact ⟨rfl, rfl⟩

theorem clauses_of_root (h : f.root vars = .ok root) : root.clauses = f.clauses :=
  (root_eq_ok_iff.1 h).2.2

theorem contains_of_root (h : f.root vars = .ok root) (v : Nat) :
    root.candidates.contains v = true ↔ v ∈ vars :=
  CandidateSet.contains_of_ofListBounded (root_eq_ok_iff.1 h).1 v

theorem sound_of_root (h : f.root vars = .ok root) : root.Sound where
  wellFormed := CandidateSet.wellFormed_of_ofListBounded (root_eq_ok_iff.1 h).1
  le_maxVar v hv := by
    have hvar := (CandidateSet.ofListBounded_eq_ok_iff.1 (root_eq_ok_iff.1 h).1).1 v
      ((contains_of_root h v).1 hv)
    exact (CandidateSet.isVariable_iff.1 hvar).2

/-- Accepted candidates are none at all, or they cover the formula. -/
theorem covered_of_root (h : f.root vars = .ok root) (hne : root.candidates.isEmpty = false) :
    root.Covered := by
  have hmissing := (root_eq_ok_iff.1 h).2.1
  simp only [missingCandidate?, hne, Bool.false_eq_true, if_false, List.find?_eq_none] at hmissing
  intro l hl
  rw [clauses_of_root h] at hl
  simpa using hmissing l.var (List.mem_map_of_mem hl)

/-- Covering candidates are accepted if the number of variables leaves room for one more. -/
theorem CoveredBy.exists_root (h : f.CoveredBy vars) (hn : f.numVars < maxCount) :
    ∃ root, f.root vars = .ok root := by
  obtain ⟨s, hs⟩ := CandidateSet.exists_ofListBounded h.isVariable hn
  refine ⟨⟨f.clauses, s⟩, root_eq_ok_iff.2 ⟨hs, ?_, rfl⟩⟩
  rw [missingCandidate?]
  split
  · rfl
  · rw [List.find?_eq_none]
    intro v hv
    obtain ⟨l, hl, rfl⟩ := List.mem_map.1 hv
    simpa using (CandidateSet.contains_of_ofListBounded hs l.var).2 (h.mem l hl)

/-- Without that room, they cannot be set up. -/
theorem CoveredBy.root_of_maxCount_le (h : f.CoveredBy vars) (hn : maxCount ≤ f.numVars) :
    f.root vars = .error (.fault .addOverflow) := by
  have hvars : vars.find? (!CandidateSet.isVariable ·) = none := by
    rw [List.find?_eq_none]
    intro v hv
    simp [CandidateSet.isVariable_iff.2 (h.isVariable v hv)]
  have hadd : addCounts f.numVars 1 = .error .addOverflow := by
    have hfull : ¬f.numVars + 1 ≤ maxCount := by omega
    simp [addCounts, hfull]
  simp [Formula.root, CandidateSet.ofListBounded, hvars, hadd, bind, Except.bind]

theorem CoveredBy.covered_root (h : f.CoveredBy vars) (hroot : f.root vars = .ok root) :
    root.Covered := by
  intro l hl
  rw [clauses_of_root hroot] at hl
  exact (contains_of_root hroot l.var).2 (h.mem l hl)

theorem CoveredBy.promises (h : f.CoveredBy vars) (hroot : f.root vars = .ok root)
    (hσ : Satisfies σ f.clauses) : root.Promises σ := by
  intro cl hcl
  obtain ⟨k, hk, htrue⟩ := hσ cl (clauses_of_root hroot ▸ hcl)
  exact ⟨k, hk, htrue, h.covered_root hroot k (List.mem_flatten.2 ⟨cl, hcl, hk⟩)⟩

theorem CoveredBy.exists_accepts {c : Settings} (h : f.CoveredBy vars)
    (hroot : f.root vars = .ok root) (hf : f.Satisfiable) : ∃ path, root.Accepts c path := by
  obtain ⟨σ, hσ⟩ := hf
  exact (h.promises hroot hσ).exists_accepts (sound_of_root hroot)

end Formula

/-- A search that answers had accepted its input, so there was room for the candidates. -/
theorem exists_root_of_solve {c : Settings} {clock : Nat → Nat} {f : Formula} {vars : List Nat}
    {a : Solution} (h : solve c clock f vars = .ok a) :
    f.numVars < maxCount ∧ ∃ root, f.root vars = .ok root := by
  cases hroot : f.root vars with
  | error failure =>
    simp only [solve, observe, hroot] at h
    cases h
  | ok root =>
    have hs := (Formula.root_eq_ok_iff.1 hroot).1
    exact ⟨(CandidateSet.ofListBounded_eq_ok_iff.1 hs).2.1, root, rfl⟩

theorem Ending.steps_of_solution {e : Ending} {a : Solution} (h : e.solution = .ok a) :
    a.steps = e.steps := by
  unfold solution at h
  cases hv : e.verdict with
  | satisfiable decisions =>
    rw [hv] at h
    cases h
    rfl
  | unsatisfiable =>
    rw [hv] at h
    cases h
    rfl
  | stopped reason =>
    rw [hv] at h
    cases h

theorem solution_of_solve {c : Settings} {clock : Nat → Nat} {f : Formula} {vars : List Nat}
    {root : Node} {a : Solution} (h : f.root vars = .ok root)
    (ha : solve c clock f vars = .ok a) : (run c clock (.start root)).solution = .ok a := by
  simp only [solve, observe, h] at ha
  cases hs : (run c clock (.start root)).solution with
  | error reason =>
    rw [hs] at ha
    cases ha
  | ok b =>
    rw [hs] at ha
    cases ha
    rfl

end SatSearch
