import SatSearch.Search.Solve

/-!
# Records of measurements

What is kept of the search on one random formula: the numbers of clauses and variables, their sum as
the size, the steps, the outcome and the time in nanoseconds. A search that a budget stopped is
recorded with the steps that it reached.
-/

namespace SatSearch

inductive Outcome where
  | satisfiable
  | unsatisfiable
  | unknown
deriving DecidableEq, Repr

def Outcome.text : Outcome → String
  | satisfiable => "sat"
  | unsatisfiable => "unsat"
  | unknown => "unknown"

structure Record where
  clauses : Nat
  vars : Nat
  size : Nat
  steps : Nat
  outcome : Outcome
  elapsed : Nat
deriving DecidableEq, Repr

/-- What the readings of a clock were during one search, in nanoseconds from its start: when a step
was due, by the number of steps before it, and at the end. -/
structure Timing where
  due : Nat → Nat
  total : Nat

def Timing.still : Timing := ⟨fun _ => 0, 0⟩

/-- The steps and the outcome that are recorded for the result of a search. Only budgets are
recorded as an outcome; other failures are passed on. -/
def Outcome.ofResult : Except Failure Solution → Except Failure (Nat × Outcome)
  | .ok s => .ok (s.steps, if s.satisfiable then satisfiable else unsatisfiable)
  | .error (.error (.stepLimit limit)) => .ok (limit, unknown)
  | .error (.error (.timeout steps)) => .ok (steps, unknown)
  | .error failure => .error failure

def Record.ofResult (f : Formula) (candidates elapsed : Nat) (result : Except Failure Solution) :
    Except Failure Record := do
  let (steps, outcome) ← Outcome.ofResult result
  let m := f.clauses.length
  return ⟨m, candidates, m + candidates, steps, outcome, elapsed⟩

end SatSearch
