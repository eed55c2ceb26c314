import SatSearch.Proofs.OccurringVariables
import SatSearch.Proofs.TruthfulText

/-!
# The truth of printed verdicts

With strike and without a budget, the command that reads a formula from text prints whether the
formula is satisfiable. Its answers always pass their verification.
-/

namespace SatSearch

theorem Dimacs.numVars_eq_of_read {bytes : List UInt8} {f : Formula} (h : read bytes = .ok f) :
    f.numVars = Formula.largestVar f.clauses :=
  (Formula.ofClauses_filter_eq_iff.1 (ofClauses_filter_of_read h)).2

namespace CommandLine

variable {f : Formula}

def verdictText (a : Solution) : String :=
  if a.satisfiable then "Verified: true\n" else "UNSAT\n"

theorem prints_unsatisfiable {a : Solution} (h : a.satisfiable = false) :
    Prints (verifySolution f a) "UNSAT\n" := by
  rw [verifySolution, h]
  exact .print _

/-- The answer tells whether the formula is satisfiable, and passes its verification. -/
theorem exists_verified_answer {c : Settings} (hr : c.reduction = .strike) (hc : c.Unlimited)
    (clock : Nat → Nat) {vars : List Nat} (h : f.CoveredBy vars) (hn : f.numVars < maxCount) :
    ∃ a, (observe c clock f vars).result = .ok a ∧ (a.satisfiable = true ↔ f.Satisfiable) ∧
      Prints (verifySolution f a) (verdictText a) := by
  obtain ⟨root, hroot⟩ := h.exists_root hn
  obtain ⟨a, ha, hiff, hdec⟩ := solve_of_unlimited hc clock hroot
  refine ⟨a, ha, ⟨fun hsat => ?_, fun hf => hiff.2 (h.exists_accepts hroot hf)⟩, ?_⟩
  · exact Formula.satisfiable_of_hitBy ((hdec hsat).hitBy hroot)
      (not_contradictory_of_nodup ((hdec hsat).nodup_vars hr))
  · cases hsat : a.satisfiable with
    | false =>
      rw [verdictText, hsat]
      exact prints_unsatisfiable hsat
    | true =>
      have hcon : ¬Contradictory a.decisions :=
        not_contradictory_of_nodup ((hdec hsat).nodup_vars hr)
      intro session
      rw [verifySolution_of_hitBy hsat ((hdec hsat).hitBy hroot) hn, if_neg hcon, verdictText, hsat]
      rfl

theorem truthful_verdictText (a : Solution) : Truthful (verdictText a) :=
  .ite (.ofList (by decide)) (.ofList (by decide))

/-- Whatever else is printed, the text command tells whether the formula is satisfiable, both where
it verifies its answer and at the end, and it never finds its answer to be wrong. -/
theorem solveText_tells_truth {o : CommonOptions} (hr : o.reduction = .strike)
    (hverify : o.verify = true) (hlimit : o.stepLimit = none) (htimeout : o.timeout = none)
    {input : String} (hread : Dimacs.readText input = .ok f)
    (hleast : ∀ l ∈ f.literals, l.value ≠ -2147483648) (session : Session) :
    ∃ later printed, (solveText o input none).run.run session = (.ok (), later) ∧
      later.out = session.out ++ printed ∧
      (f.Satisfiable → ∃ before after,
        printed = before ++ "Verified: true\n" ++ after ++ "\nSATISFIABLE\n") ∧
      (¬f.Satisfiable → ∃ before after,
        printed = before ++ "UNSAT\n" ++ after ++ "\nUNSATISFIABLE\n") ∧
      ∀ before after, printed ≠ before ++ "Verified: false" ++ after := by
  have hvar : ∀ l ∈ f.literals, l.var ≤ maxVar := fun l hl =>
    (Literal.value_ne_least_iff l).1 (hleast l hl)
  have hc : o.settings.Unlimited := ⟨hlimit, by simp [CommonOptions.settings, htimeout]⟩
  obtain ⟨a, ha, hsat, hverdict⟩ := exists_verified_answer (c := o.settings) hr hc
    (session.gauges.timing session.searches).due (Formula.coveredBy_vars hvar)
    (Formula.numVars_lt_of_var_le (Dimacs.numVars_eq_of_read hread) hvar)
  obtain ⟨later, time, n, m, hrun, hout⟩ := solveAndReport_run hverify ha hverdict
  refine ⟨later, _, ?_, hout, fun hf => ?_, fun hf => ?_, ?_⟩
  · rw [solveText_of_read o hread]
    exact hrun
  · refine ⟨formulaText o f ++ answerText o a time, detailsText o f f.vars.length a n m, ?_⟩
    simp [verdictText, endingText, hsat.2 hf, String.append_assoc]
  · refine ⟨formulaText o f ++ answerText o a time, detailsText o f f.vars.length a n m, ?_⟩
    simp [verdictText, endingText, mt hsat.1 hf, String.append_assoc]
  · exact ((truthful_formulaText o f).append ((truthful_answerText o a time).append
      ((truthful_verdictText a).append ((truthful_detailsText o f a f.vars.length n m).append
        (truthful_endingText a))))).ne_append

/-- A literal is written twice, and the last clause is not ended. -/
theorem solveText_tells_truth_unended :
    let o : CommonOptions := { reduction := .strike }
    let f : Formula := ⟨[[.of 2, .of 2], [.of (-2), .of 1]], 2⟩
    let input := "2 2 0\\n-2 1"
    let session : Session := ⟨⟨["home"], [], []⟩, .warn, .still, 0, "", ""⟩
    o.reduction = .strike ∧ o.verify = true ∧ o.stepLimit = none ∧ o.timeout = none ∧
      Dimacs.readText input = .ok f ∧ (∀ l ∈ f.literals, l.value ≠ -2147483648) ∧
      ∃ later before after, (solveText o input none).run.run session = (.ok (), later) ∧
        later.out = before ++ "Verified: true\n" ++ after ++ "\nSATISFIABLE\n" ∧
        ∀ before after, later.out ≠ before ++ "Verified: false" ++ after := by
  intro o f input session
  have hread : Dimacs.readText input = .ok f := by decide +kernel
  have hleast : ∀ l ∈ f.literals, l.value ≠ -2147483648 := by decide
  have hsat : f.Satisfiable := by
    refine ⟨fun _ => true, ?_⟩
    simp [f, Satisfies, Clause.Holds, Literal.Holds, Literal.isPositive, Literal.of]
  obtain ⟨later, printed, hrun, hout, htrue, -, hfalse⟩ :=
    solveText_tells_truth (o := o) rfl rfl rfl rfl hread hleast session
  obtain ⟨before, after, rfl⟩ := htrue hsat
  rw [String.empty_append] at hout
  rw [← hout] at hfalse
  exact ⟨rfl, rfl, rfl, rfl, hread, hleast, later, before, after, hrun, hout, hfalse⟩

end CommandLine

end SatSearch
