import SatSearch.Search.State

/-!
# Deciding a formula

The search as it is offered to callers: a formula and a list of candidate variables are checked, the
search is run, and the way it ended is reported together with everything that happened.

The candidates should be exactly the variables of the formula. A candidate that occurs in no clause
keeps the candidate set from running empty, and with the faithful reduction this can turn an
unsatisfiable formula into a satisfiable answer; a search that starts with such candidates says so.
-/

namespace SatSearch

/-- The answer of a search that no budget has stopped. The decisions are the literals assumed on the
way to a satisfied node, the outermost first. -/
structure Solution where
  satisfiable : Bool
  steps : Nat
  decisions : List Literal
deriving DecidableEq, Repr

/-- The assignment that makes the decisions true. There is none for an unsatisfiable formula, and
none where the decisions contradict each other. -/
def Solution.assignment (s : Solution) (numVars : Nat) : Except Fault (Option Assignment) :=
  if s.satisfiable then Assignment.ofDecisions numVars s.decisions else .ok none

def Ending.solution (e : Ending) : Except Error Solution :=
  match e.verdict with
  | .satisfiable decisions => .ok ⟨true, e.steps, decisions⟩
  | .unsatisfiable => .ok ⟨false, e.steps, []⟩
  | .stopped reason => .error reason

/-- The candidates that occur in no clause: the smallest one and their number. -/
structure Unused where
  first : Nat
  count : Nat
deriving DecidableEq, Repr

/-- The first variable of the formula, in reading order, that is not a candidate. A set without
members is not asked to cover anything. -/
def Formula.missingCandidate? (f : Formula) (candidates : CandidateSet) : Option Nat :=
  if candidates.isEmpty then none
  else (f.literals.map Literal.var).find? (!candidates.contains ·)

/-- The candidates that occur in no clause of a formula with clauses. -/
def Formula.unusedCandidates? (f : Formula) (candidates : CandidateSet) : Option Unused :=
  if f.clauses.isEmpty then none
  else
    let used := f.vars
    match candidates.members.filter (!used.contains ·) with
    | [] => none
    | v :: vs => some ⟨v, vs.length + 1⟩

/-- The node at which the search for a formula starts. The candidates are checked on their own
first, and then against the formula. -/
def Formula.root (f : Formula) (vars : List Nat) : Except Failure Node := do
  let candidates ← CandidateSet.ofListBounded vars f.numVars
  match f.missingCandidate? candidates with
  | some v => .error (.error (.missingCandidate v))
  | none => return ⟨f.clauses, candidates⟩

structure Opening where
  clauses : Nat
  candidates : Nat
  unused : Option Unused
deriving DecidableEq, Repr

/-- A search as seen by an observer. It has an opening if its input was accepted. -/
structure Observation where
  opening : Option Opening
  events : List Event
  result : Except Failure Solution

/-- Decides a formula, branching on the given variables, and tells all that happens. -/
def observe (c : Settings) (clock : Nat → Nat) (f : Formula) (vars : List Nat) :
    Observation :=
  match f.root vars with
  | .error failure => ⟨none, [], .error failure⟩
  | .ok root =>
    let ending := run c clock (.start root)
    { opening := some ⟨f.clauses.length, root.candidates.size, f.unusedCandidates? root.candidates⟩
      events := ending.events
      result := ending.solution.mapError .error }

/-- Decides a formula, branching on the given variables. -/
def solve (c : Settings) (clock : Nat → Nat) (f : Formula) (vars : List Nat) :
    Except Failure Solution := (observe c clock f vars).result

def solveInts (c : Settings) (clock : Nat → Nat) (clauses : List (List Int))
    (vars : List Nat) : Except Failure Solution := do
  let f ← (Formula.ofInts clauses).mapError .error
  solve c clock f vars

structure CallCounts where
  branches : Nat := 0
  trueDescents : Nat := 0
  falseDescents : Nat := 0
  maxDepth : Nat := 0
deriving DecidableEq, Repr

def CallCounts.add (n : CallCounts) : Event → CallCounts
  | .branch _ depth => { n with branches := n.branches + 1, maxDepth := max n.maxDepth depth }
  | .descend .whenTrue _ _ => { n with trueDescents := n.trueDescents + 1 }
  | .descend .whenFalse _ _ => { n with falseDescents := n.falseDescents + 1 }
  | .cut _ _ => n

def CallCounts.ofEvents (events : List Event) : CallCounts := events.foldl CallCounts.add {}

end SatSearch
