import SatSearch.Assignment

/-!
# Formulas in conjunctive normal form

A formula is a list of clauses, together with the number of its largest variable. That number only
gives assignments their room: it is derived when a formula is built from clauses, and a caller may
set it to anything.
-/

namespace SatSearch

/-- A conjunction of clauses. -/
structure Formula where
  clauses : List Clause
  numVars : Nat
deriving DecidableEq, Repr

namespace Formula

/-- The literals of all clauses, in reading order. -/
def literalsOf (clauses : List Clause) : List Literal := clauses.flatten

/-- The largest variable of some clauses, 0 where there is none. -/
def largestVar (clauses : List Clause) : Nat :=
  (literalsOf clauses).foldl (fun top l => max top l.var) 0

def ofClauses (clauses : List Clause) : Formula := ⟨clauses, largestVar clauses⟩

/-- Reads a formula off the integers of its clauses. The first clause with a 0 is the one named. -/
def ofInts (values : List (List Int)) : Except Error Formula := do
  let clauses ← values.zipIdx.mapM fun (c, i) => Clause.ofInts i c
  return ofClauses clauses

def toInts (f : Formula) : List (List Int) := f.clauses.map Clause.toInts

def literals (f : Formula) : List Literal := literalsOf f.clauses

def numLiterals (f : Formula) : Nat := f.literals.length

/-- Removes the neighbours of equal value from a list. -/
def dropRepeats : List Nat → List Nat
  | [] => []
  | [v] => [v]
  | v :: w :: rest => if v = w then dropRepeats (w :: rest) else v :: dropRepeats (w :: rest)

/-- The variables that occur, ascending and without repetition. -/
def vars (f : Formula) : List Nat := dropRepeats ((f.literals.map Literal.var).mergeSort)

def verify (f : Formula) (a : Assignment) : Bool := f.clauses.all (·.isSatisfiedBy a)

end Formula

end SatSearch
