import SatSearch.Proofs.AnswerVerification

/-!
# What the solving commands do

All commands that solve a formula come to the same report: they get hold of the formula, by reading
or drawing it, and choose its candidates. The search in the report is the one that callers of the
library see, and a session only adds to it the readings of its clock and its log.
-/

namespace SatSearch

namespace Session

def searched (session : Session) (c : Settings) (seen : Observation) : Session :=
  ({ session with searches := session.searches + 1 }).log (LogLine.ofSearch c seen)

theorem print_print (session : Session) (first second : String) :
    (session.print first).print second = session.print (first ++ second) := by
  simp [print, String.append_assoc]

theorem print_empty (session : Session) : session.print "" = session := by
  simp [print]

end Session

namespace CommandLine

def answerText (o : CommonOptions) (a : Solution) (nanoseconds : Nat) : String :=
  if o.debug then "Solution: " ++ a.text ++ "\n" ++
    ("Time: " ++ Statistics.elapsed nanoseconds ++ "\n") else ""

theorem search_run (o : CommonOptions) (f : Formula) (vars : List Nat) (session : Session) :
    let timing := session.gauges.timing session.searches
    let seen := observe o.settings timing.due f vars
    let later := session.searched o.settings seen
    (search o f vars).run.run session = match seen.result with
      | .error e => (.error (.ofFailure e), later)
      | .ok a => (.ok (a, .ofEvents seen.events, ⟨session.gauges.reading session.searches,
          timing.total, session.gauges.memory⟩), later.print (answerText o a timing.total)) := by
  intro timing seen later
  have hlift : (search o f vars).run.run session = ((Action.liftFailure seen.result >>= fun a => do
      if o.debug then
        .print ("Solution: " ++ a.text ++ "\n")
        .print ("Time: " ++ Statistics.elapsed timing.total ++ "\n")
      return (a, CallCounts.ofEvents seen.events, (⟨session.gauges.reading session.searches,
        timing.total, session.gauges.memory⟩ : Measures)) :
      Action (Solution × CallCounts × Measures))).run.run later := rfl
  rw [hlift]
  cases seen.result with
  | error e => rfl
  | ok a =>
    cases hdebug : o.debug with
    | false =>
      simp only [answerText, hdebug, Bool.false_eq_true, if_false, later.print_empty]
      rfl
    | true =>
      simp only [answerText, hdebug, if_true]
      rw [← later.print_print ("Solution: " ++ a.text ++ "\n")]
      rfl

section Commands

variable (o : CommonOptions) {f : Formula} {session : Session}

theorem solveText_of_read {input : String} (h : Dimacs.readText input = .ok f)
    (vars : Option (List Nat)) :
    solveText o input vars = solveAndReport o none f (vars.getD f.vars) := by
  rw [solveText, h]
  rfl

theorem solveFile_of_read {path : String} {bytes : List UInt8}
    (hfile : session.files.read path = .ok bytes) (h : Dimacs.read bytes = .ok f) :
    (solveFile o path).run.run session =
      (solveAndReport o (some path) f f.vars).run.run session := by
  have hcontent : (session.files.read path).mapError Error.stream >>= Dimacs.read = .ok f := by
    rw [hfile]
    exact h
  have hlift : (solveFile o path).run.run session =
      (Action.liftWithin ("Failed to parse file: " ++ path)
        ((session.files.read path).mapError Error.stream >>= Dimacs.read) >>= fun f =>
          solveAndReport o (some path) f f.vars).run.run session := rfl
  rw [hlift, hcontent]
  rfl

theorem writeFile_run {context path : String} {bytes : List UInt8} {files : FileTree}
    (h : session.files.write path bytes = .ok files) :
    (Action.writeFile context path bytes).run.run session = (.ok (), { session with files }) := by
  have hget : (get : Action Session).run.run session = (.ok session, session) := rfl
  rw [Action.writeFile, run_bind_of_ok hget, h]
  rfl

variable {m n seed : Nat} {rest : Source}

/-- The candidates of a drawn formula are all variables up to the bound. -/
theorem solveRandom_of_drawn (h : Source.formula m n ⟨seed.toUInt64⟩ = .ok (f, rest)) :
    solveRandom o m n seed none = solveAndReport o none f (List.range' 1 n) := by
  rw [solveRandom, h]
  rfl

theorem solveRandom_of_write {path : String} {files : FileTree}
    (h : Source.formula m n ⟨seed.toUInt64⟩ = .ok (f, rest))
    (hwrite : session.files.write path (f.dimacs [randomComment m n seed]).toUTF8.toList =
      .ok files) :
    (solveRandom o m n seed (some path)).run.run session =
      (solveAndReport o none f (List.range' 1 n)).run.run
        ({ session with files }.print ("DIMACS written to: " ++ path ++ "\n")) := by
  rw [solveRandom, h]
  exact run_bind_of_ok (writeFile_run hwrite)

end Commands

end CommandLine

end SatSearch
