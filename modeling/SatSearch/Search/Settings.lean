import SatSearch.Selection

/-!
# Settings of a search

How a branch simplifies the formula, how the branching literal is chosen, and which budgets stop a
search that takes too long.
-/

namespace SatSearch

/-- How assuming a literal simplifies the clauses. Both rules drop the clauses that hold it; `strike`
also takes the literal that has become false out of the other clauses. -/
inductive Reduction where
  | faithful
  | strike
deriving DecidableEq, Repr

namespace Reduction

def name : Reduction → String
  | faithful => "faithful"
  | strike => "strike"

def all : List Reduction := [faithful, strike]

end Reduction

/-- How a search proceeds, and its budgets: a number of steps, and a deadline in nanoseconds from its
start. -/
structure Settings where
  reduction : Reduction := .faithful
  selection : Selection := .maxFrequency
  stepLimit : Option Nat := none
  deadline : Option Nat := none
deriving DecidableEq, Repr

/-- Why a search may not take its next step, given the steps taken and the time. The step limit is
looked at first. -/
def Settings.stop? (c : Settings) (steps now : Nat) : Option Error :=
  if c.stepLimit.any (· ≤ steps) then c.stepLimit.map .stepLimit
  else if c.deadline.any (· ≤ now) then some (.timeout steps)
  else none

end SatSearch
