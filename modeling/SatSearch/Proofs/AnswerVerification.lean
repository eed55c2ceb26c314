import SatSearch.CommandLine.Run
import SatSearch.Proofs.Satisfiability
import SatSearch.Proofs.SearchBudget

/-!
# Verifying answers

Whatever the settings are, the decisions of a satisfiable answer hit every clause. All that can be
wrong with such an answer is that its decisions contradict each other, and this is all that its
verification ever finds.
-/

namespace SatSearch

theorem hitBy_of_solve {c : Settings} {clock : Nat → Nat} {f : Formula} {vars : List Nat}
    {a : Solution} (h : solve c clock f vars = .ok a) (hsat : a.satisfiable = true) :
    f.HitBy a.decisions := by
  obtain ⟨-, root, hroot⟩ := exists_root_of_solve h
  obtain ⟨b, hb, -, hdec⟩ := solve_of_unlimited c.unlimited_withoutBudget clock hroot
  cases (solve_withoutBudget h).symm.trans hb
  exact (hdec hsat).hitBy hroot

namespace CommandLine

theorem run_print (text : String) (session : Session) :
    (Action.print text).run.run session = (.ok (), session.print text) := rfl

theorem run_log (lines : List LogLine) (session : Session) :
    (Action.log lines).run.run session = (.ok (), session.log lines) := rfl

/-- After an action that succeeds, the next one goes on in the session that it leaves. -/
theorem run_bind_of_ok {α β : Type} {x : Action α} {next : α → Action β} {session later : Session}
    {value : α} (h : x.run.run session = (.ok value, later)) :
    (x >>= next).run.run session = (next value).run.run later := by
  rw [ExceptT.run_bind, StateT.run_bind, h]
  rfl

/-- Verifying a satisfiable answer whose decisions hit every clause prints whether they contradict
each other, with a warning if they do. -/
theorem verifySolution_of_hitBy {f : Formula} {a : Solution} (hsat : a.satisfiable = true)
    (h : f.HitBy a.decisions) (hn : f.numVars < maxCount) (session : Session) :
    (verifySolution f a).run.run session =
      (.ok (), if Contradictory a.decisions then
          (session.print "Verified: false\n").log
            [.warning "decisions assign both polarities of a variable"]
        else session.print "Verified: true\n") := by
  rcases Solution.assignment_of_hitBy hsat h hn with ⟨hcon, hnone⟩ | ⟨hcon, m, hm, hgood⟩
  · have hlift : Action.liftFault (a.assignment f.numVars) = pure none := by
      simp [Action.liftFault, hnone]
    simp only [verifySolution, hsat, Bool.not_true, Bool.false_eq_true, if_false, hlift, pure_bind,
      if_pos hcon]
    rw [run_bind_of_ok (run_print _ _), run_log]
  · have hlift : Action.liftFault (a.assignment f.numVars) = pure (some m) := by
      simp [Action.liftFault, hm]
    simp only [verifySolution, hsat, Bool.not_true, Bool.false_eq_true, if_false, hlift, pure_bind,
      hgood, if_neg hcon]
    rw [run_bind_of_ok (run_print _ _)]
    rfl

end CommandLine

/-- The decisions of a satisfiable answer hit every clause, so an assignment that they give satisfies
the formula. Verifying the answer fails exactly if they contradict each other, and says so. -/
theorem decisions_hit_every_clause {c : Settings} {clock : Nat → Nat} {f : Formula}
    {vars : List Nat} {a : Solution} (h : solve c clock f vars = .ok a)
    (hsat : a.satisfiable = true) :
    (∀ cl ∈ f.clauses, ∃ l ∈ a.decisions, l ∈ cl) ∧
      (∀ n < maxCount, ∀ m, a.assignment n = .ok (some m) → f.verify m = true) ∧
      ∀ session : Session, (CommandLine.verifySolution f a).run.run session =
        (.ok (), if Contradictory a.decisions then
            (session.print "Verified: false\n").log
              [.warning "decisions assign both polarities of a variable"]
          else session.print "Verified: true\n") := by
  have hhit := hitBy_of_solve h hsat
  refine ⟨hhit, ?_, CommandLine.verifySolution_of_hitBy hsat hhit (exists_root_of_solve h).1⟩
  intro n hn m hm
  rcases Solution.assignment_of_hitBy hsat hhit hn with ⟨-, hnone⟩ | ⟨-, m', hm', hgood⟩
  · cases hm.symm.trans hnone
  · cases hm.symm.trans hm'
    exact hgood

theorem decisions_hit_every_clause_clash :
    let a : Solution := ⟨true, 3, Formula.clash.literals⟩
    solve { stepLimit := some 3 } (fun _ => 0) Formula.clash [1, 2] = .ok a ∧
      a.satisfiable = true ∧ Contradictory a.decisions ∧
      ∀ session : Session, (CommandLine.verifySolution Formula.clash a).run.run session =
        (.ok (), (session.print "Verified: false\n").log
          [.warning "decisions assign both polarities of a variable"]) := by
  intro a
  have h : solve { stepLimit := some 3 } (fun _ => 0) Formula.clash [1, 2] = .ok a := by
    decide +kernel
  have hcon : Contradictory a.decisions := by decide
  refine ⟨h, rfl, hcon, ?_⟩
  intro session
  rw [(decisions_hit_every_clause h rfl).2.2 session, if_pos hcon]

end SatSearch
