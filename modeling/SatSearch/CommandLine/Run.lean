import SatSearch.CommandLine.Arguments
import SatSearch.CommandLine.Session
import SatSearch.Dimacs.Reader
import SatSearch.Dimacs.Writer
import SatSearch.Report.Csv
import SatSearch.Report.Summary

/-!
# Running commands

What each command does, as actions of a session, and the response to a whole command line: its exit
code, its outputs, and the files afterwards.
-/

namespace SatSearch.CommandLine

/-- Says whether the decisions of an answer satisfy the formula. Decisions that contradict each
other are reported, since the faithful reduction allows them. -/
def verifySolution (f : Formula) (s : Solution) : Action Unit := do
  if !s.satisfiable then .print "UNSAT\n"
  else
    match ← Action.liftFault (s.assignment f.numVars) with
    | some a =>
      let good := f.verify a
      .print ("Verified: " ++ LogLine.boolText good ++ "\n")
      if !good then .log [.warning "decisions leave some clause unsatisfied"]
    | none =>
      .print "Verified: false\n"
      .log [.warning "decisions assign both polarities of a variable"]

def search (o : CommonOptions) (f : Formula) (vars : List Nat) :
    Action (Solution × CallCounts × Measures) := do
  let session ← get
  let number := session.searches
  let timing := session.gauges.timing number
  let seen := observe o.settings timing.due f vars
  modify fun s => { s with searches := number + 1 }
  .log (LogLine.ofSearch o.settings seen)
  let solution ← Action.liftFailure seen.result
  let measures : Measures := ⟨session.gauges.reading number, timing.total, session.gauges.memory⟩
  if o.debug then
    .print ("Solution: " ++ solution.text ++ "\n")
    .print ("Time: " ++ Statistics.elapsed timing.total ++ "\n")
  return (solution, .ofEvents seen.events, measures)

/-- Solves a formula and prints what was asked for. -/
def solveAndReport (o : CommonOptions) (name : Option String) (f : Formula)
    (vars : List Nat) : Action Unit := do
  if let some name := name then .print ("Solving: " ++ name ++ "\n")
  if o.debug then
    .print ("CNF: " ++ f.text ++ "\n")
    .print ("Variables: " ++ Decimal.text f.numVars ++ "\n")
    .print ("Clauses: " ++ Decimal.text f.clauses.length ++ "\n")
    .print ("Literals: " ++ Decimal.text f.numLiterals ++ "\n")
  let (solution, counts, measures) ← search o f vars
  if o.verify then verifySolution f solution
  if o.stats then .print (Statistics.block f vars.length solution counts measures)
  if o.printSolution && solution.satisfiable then
    .print ("Decisions: " ++ " ".intercalate (solution.decisions.map Literal.text) ++ "\n")
  .print (if solution.satisfiable then "\nSATISFIABLE\n" else "\nUNSATISFIABLE\n")

def solveFile (o : CommonOptions) (path : String) : Action Unit := do
  let content := ((← get).files.read path).mapError Error.stream
  let f ← .liftWithin ("Failed to parse file: " ++ path) (content >>= Dimacs.read)
  solveAndReport o (some path) f f.vars

/-- Solves the formula files among the given steps below a directory, in order. A file is left out
if its path, which starts with that of the directory, is too long to lead to it. -/
def solveFiles (o : CommonOptions) (path : String) : List (List String) → Action Unit
  | [] => return
  | steps :: rest => do
    let full := steps.foldl FileTree.join path
    if (← get).files.isFile full then
      if steps.getLast?.bind FileTree.extension? = some "cnf" then solveFile o full
      else .log [.warning ("Skipping non-CNF file: " ++ full)]
    solveFiles o path rest

def solvePath (o : CommonOptions) (path : String) : Action Unit := do
  let files := (← get).files
  match files.directory? path with
  | some place => solveFiles o path (files.below place)
  | none => solveFile o path

def solveText (o : CommonOptions) (input : String) (vars : Option (List Nat)) :
    Action Unit := do
  let f ← .liftWithin "Failed to parse text input" (Dimacs.readText input)
  solveAndReport o none f (vars.getD f.vars)

def randomComment (clauses vars seed : Nat) : String :=
  "random 3-SAT, m=" ++ Decimal.text clauses ++ " n=" ++ Decimal.text vars ++
    " seed=" ++ Decimal.text seed

/-- Draws a random formula, writes it to a file if asked to, and solves it with all variables as
candidates. -/
def solveRandom (o : CommonOptions) (clauses vars seed : Nat) (output : Option String) :
    Action Unit := do
  let (f, _) ← .liftFailure (Source.formula clauses vars ⟨seed.toUInt64⟩)
  if let some path := output then
    let text := f.dimacs [randomComment clauses vars seed]
    .writeFile ("Unable to write file " ++ path) path text.toUTF8.toList
    .print ("DIMACS written to: " ++ path ++ "\n")
  solveAndReport o none f (List.range' 1 vars)

structure SweepOutput where
  csv : String
  summary : Summary
  session : Session

/-- Takes a notice of a sweep into its output: the log, and for a record the summary and its
line. -/
def listen (c : Settings) : Listener SweepOutput := fun notice w =>
  let w := { w with session := w.session.log (LogLine.ofNotice c notice) }
  match notice with
  | .recorded record => match w.summary.add record with
    | .ok summary => ({ w with csv := w.csv ++ record.csvRow, summary }, none)
    | .error fault => (w, some (.fault fault))
  | _ => (w, none)

/-- Delivers the lines of a sweep: to its file, or to the standard output. -/
def deliver (output : Option String) (csv : String) : Action Unit :=
  match output with
  | some path => .writeFile ("Unable to create " ++ path) path csv.toUTF8.toList
  | none => .print csv

/-- Runs a sweep. What was recorded is delivered even if the sweep fails. -/
def runSweep (o : CommonOptions) (s : Sweep) (output : Option String) : Action Unit := do
  if output.isSome then deliver output ""
  .log [.ofSweep s]
  let session ← get
  let (w, result) := s.listenTo (fun k => session.gauges.timing (session.searches + k))
    (listen s.settings) ⟨Record.csvHeader, {}, session⟩
  set w.session
  deliver output w.csv
  let recorded ← .liftFailure result
  if let some path := output then
    .print (Decimal.text recorded ++ " records written to: " ++ path ++ "\n")
  if o.stats then .printError w.summary.table

def runCommand : Command → Action Unit
  | .file path o => solveFile o path
  | .text input vars o => solveText o input vars
  | .random clauses vars seed output o => solveRandom o clauses vars seed output
  | .sweep clauses vars repeats seed output o =>
    runSweep o ⟨clauses, vars, repeats, seed.toUInt64, o.settings⟩ output
  | .completions _ => return

structure Response where
  exitCode : Nat
  out : String
  err : String
  files : FileTree

def nothingAsked : String := "No command provided. Use --help for more information.\n"

def versionText : String := "freq-sat 0.1.0\n"

def helpText : String :=
  "Usage: freq-sat [OPTIONS] [PATH]\n" ++
  "       freq-sat file --path PATH [OPTIONS]\n" ++
  "       freq-sat text --input TEXT [--variables LIST] [OPTIONS]\n" ++
  "       freq-sat random --clauses M --variables N [--seed S] [--export-dimacs FILE] " ++
  "[OPTIONS]\n" ++
  "       freq-sat sweep --clauses RANGE --variables RANGE [--repeats R] [--seed S] " ++
  "[--output FILE] [OPTIONS]\n"

def respond (files : FileTree) (gauges : Gauges) (level : Level) (action : Action Unit) :
    Response :=
  match action.run.run { files, level, gauges } with
  | (.ok (), s) => ⟨0, s.out, s.err, s.files⟩
  | (.error trouble, s) => ⟨trouble.exitCode, s.out, s.err ++ trouble.message, s.files⟩

def run (files : FileTree) (gauges : Gauges) (args : List String) : Response :=
  match Request.ofArguments args with
  | .error e => ⟨2, "", e.message, files⟩
  | .ok .version => ⟨0, versionText, "", files⟩
  | .ok .help => ⟨0, helpText, "", files⟩
  | .ok (.run i) =>
    let level := Level.shown i.verbosity i.debugging
    match i.command, i.path with
    | some command, _ => respond files gauges level (runCommand command)
    | none, some path => respond files gauges level (solvePath i.options path)
    | none, none => ⟨2, "", nothingAsked, files⟩

end SatSearch.CommandLine
