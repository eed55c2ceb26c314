import SatSearch.Proofs.SolvingCommands

/-!
# The text of a report

A report that succeeds only prints, apart from its search. What it prints is composed of the texts
of its parts, in their order.
-/

namespace SatSearch.CommandLine

/-- The action succeeds, and all that it does is to print the text. -/
def Prints (x : Action Unit) (text : String) : Prop :=
  ∀ session, x.run.run session = (.ok (), session.print text)

namespace Prints

variable {x y : Action Unit} {text more : String}

theorem print (text : String) : Prints (.print text) text := fun _ => rfl

theorem bind (hx : Prints x text) (hy : Prints y more) :
    Prints (x >>= fun _ => y) (text ++ more) := fun session => by
  rw [run_bind_of_ok (hx session), hy, Session.print_print]

/-- A part that is printed only if it was asked for. -/
theorem part {asked : Bool} (hx : Prints x text) (hy : Prints y more) :
    Prints (if asked then x >>= fun _ => y else y) ((if asked then text else "") ++ more) := by
  cases asked with
  | false => simpa using hy
  | true => exact hx.bind hy

end Prints

def formulaText (o : CommonOptions) (f : Formula) : String :=
  if o.debug then
    "CNF: " ++ f.text ++ "\n" ++ ("Variables: " ++ Decimal.text f.numVars ++ "\n" ++
      ("Clauses: " ++ Decimal.text f.clauses.length ++ "\n" ++
        ("Literals: " ++ Decimal.text f.numLiterals ++ "\n")))
  else ""

def detailsText (o : CommonOptions) (f : Formula) (candidates : Nat) (a : Solution)
    (n : CallCounts) (m : Measures) : String :=
  (if o.stats then Statistics.block f candidates a n m else "") ++
    (if o.printSolution && a.satisfiable then
      "Decisions: " ++ " ".intercalate (a.decisions.map Literal.text) ++ "\n" else "")

def endingText (a : Solution) : String :=
  if a.satisfiable then "\nSATISFIABLE\n" else "\nUNSATISFIABLE\n"

def reportAnswer (o : CommonOptions) (f : Formula) (candidates : Nat) (a : Solution)
    (n : CallCounts) (m : Measures) : Action Unit := do
  if o.verify then verifySolution f a
  if o.stats then .print (Statistics.block f candidates a n m)
  if o.printSolution && a.satisfiable then
    .print ("Decisions: " ++ " ".intercalate (a.decisions.map Literal.text) ++ "\n")
  .print (endingText a)

theorem prints_reportAnswer {o : CommonOptions} (hverify : o.verify = true) {f : Formula}
    {a : Solution} {verdict : String} (h : Prints (verifySolution f a) verdict) (candidates : Nat)
    (n : CallCounts) (m : Measures) : Prints (reportAnswer o f candidates a n m)
      (verdict ++ (detailsText o f candidates a n m ++ endingText a)) := by
  rw [reportAnswer, hverify]
  simp only [detailsText, String.append_assoc]
  exact h.bind (.part (.print _) (.part (.print _) (.print _)))

/-- A search that finds an answer prints it, if debugging was asked for. -/
theorem search_run_of_ok {o : CommonOptions} {f : Formula} {vars : List Nat} {session : Session}
    {a : Solution}
    (h : (observe o.settings (session.gauges.timing session.searches).due f vars).result = .ok a) :
    ∃ (later : Session) (time : Nat) (n : CallCounts) (m : Measures),
      (search o f vars).run.run session = (.ok (a, n, m), later) ∧
        later.out = session.out ++ answerText o a time := by
  have hrun := search_run o f vars session
  simp only [h] at hrun
  exact ⟨_, _, _, _, hrun, rfl⟩

/-- A report with a search that finds an answer. -/
theorem solveAndReport_run {o : CommonOptions} (hverify : o.verify = true) {f : Formula}
    {vars : List Nat} {session : Session} {a : Solution} {verdict : String}
    (h : (observe o.settings (session.gauges.timing session.searches).due f vars).result = .ok a)
    (hverdict : Prints (verifySolution f a) verdict) :
    ∃ (later : Session) (time : Nat) (n : CallCounts) (m : Measures),
      (solveAndReport o none f vars).run.run session = (.ok (), later) ∧
        later.out = session.out ++ (formulaText o f ++ (answerText o a time ++
          (verdict ++ (detailsText o f vars.length a n m ++ endingText a)))) := by
  let rest : Action Unit := search o f vars >>= fun found =>
    reportAnswer o f vars.length found.1 found.2.1 found.2.2
  have hfront : (solveAndReport o none f vars).run.run session =
      rest.run.run (session.print (formulaText o f)) := by
    cases hdebug : o.debug with
    | false =>
      simp only [solveAndReport, formulaText, hdebug, Bool.false_eq_true, if_false,
        session.print_empty]
      rfl
    | true =>
      simp only [solveAndReport, formulaText, hdebug, if_true]
      rw [← Session.print_print, ← Session.print_print, ← Session.print_print]
      rfl
  have hfound : (observe o.settings ((session.print (formulaText o f)).gauges.timing
      (session.print (formulaText o f)).searches).due f vars).result = .ok a := h
  obtain ⟨later, time, n, m, hsearch, hout⟩ := search_run_of_ok hfound
  have hbehind := prints_reportAnswer hverify hverdict vars.length n m later
  refine ⟨_, time, n, m, (hfront.trans (run_bind_of_ok hsearch)).trans hbehind, ?_⟩
  simp only [Session.print, hout, String.append_assoc]

end SatSearch.CommandLine
