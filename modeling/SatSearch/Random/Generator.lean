import SatSearch.Formula
import SatSearch.Random.Source

/-!
# Random formulas

A random clause has three distinct variables, drawn one after the other from those up to a bound;
then each of them becomes a literal of a random sign. A random formula is a list of such clauses.
-/

namespace SatSearch.Source

def clauseWidth : Nat := 3

/-- The largest bound up to which variables are drawn: the largest number of 32 bits. -/
def maxTop : Nat := 4294967295

/-- Draws distinct variables up to `top`, those in `taken` excepted. -/
def distinct (top : Nat) (taken : List Nat) : (count : Nat) → Source →
    Except Fault (List Nat × Source)
  | 0, s => .ok ([], s)
  | count + 1, s => do
    let (v, s) ← s.fresh top taken
    let (vs, s) ← distinct top (taken ++ [v]) count s
    return (v :: vs, s)

/-- Gives each of some variables a random sign. -/
def signed : List Nat → Source → Except Fault (List Literal × Source)
  | [], s => .ok ([], s)
  | v :: vs, s => do
    let (positive, s) := s.bool
    let l ← Literal.ofVar v positive
    let (ls, s) ← signed vs s
    return (l :: ls, s)

def clause (top : Nat) (s : Source) : Except Fault (Clause × Source) := do
  let (vs, s) ← s.distinct top [] clauseWidth
  signed vs s

/-- Draws some clauses over the variables up to `top`. There may be any number of them: memory is
taken to be unbounded, so no formula is too long to hold. -/
def clauses (top : Nat) : (count : Nat) → Source → Except Fault (List Clause × Source)
  | 0, s => .ok ([], s)
  | count + 1, s => do
    let (c, s) ← s.clause top
    let (cs, s) ← clauses top count s
    return (c :: cs, s)

/-- Draws a formula with a number of clauses over the variables up to `numVars`. -/
def formula (numClauses numVars : Nat) (s : Source) : Except Failure (Formula × Source) :=
  if numVars < clauseWidth ∨ maxTop < numVars then .error (.error (.tooFewVariables numVars))
  else do
    let (cs, s) ← (s.clauses numVars numClauses).mapError .fault
    return (.ofClauses cs, s)

end SatSearch.Source
