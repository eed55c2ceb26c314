import SatSearch.Clause

/-!
# Partial assignments

An assignment gives values to some variables. It has room for the variables below a bound, which
grows when a larger variable is assigned; a value, once given, stays.
-/

namespace SatSearch

structure Assignment where
  room : Nat
  entries : List (Nat × Bool)
deriving DecidableEq, Repr

namespace Assignment

def empty : Assignment := ⟨0, []⟩

/-- No values, but room for the variables up to `numVars`. The room only has to be a count: memory is
taken to be unbounded, so no capacity is too large to allocate. -/
def ofSize (numVars : Nat) : Except Fault Assignment := do
  let room ← addCounts numVars 1
  return ⟨room, []⟩

/-- The value of a variable, if it has one. -/
def value? (a : Assignment) (v : Nat) : Option Bool := a.entries.lookup v

def literalValue? (a : Assignment) (l : Literal) : Option Bool :=
  (a.value? l.var).map (· == l.isPositive)

def stateAt (a : Assignment) (v : Nat) : Except Fault (Option Bool) :=
  if v < a.room then .ok (a.value? v) else .error (.outOfBounds a.room v)

/-- Adds an entry to an ascending list of entries that has none for this variable. -/
def insertEntry (v : Nat) (b : Bool) : List (Nat × Bool) → List (Nat × Bool)
  | [] => [(v, b)]
  | e :: es => if v < e.1 then (v, b) :: e :: es else e :: insertEntry v b es

/-- Makes a literal true. A variable that already has a value keeps it, and the attempt succeeds
only if that value makes the literal true. -/
def assign (a : Assignment) (l : Literal) : Bool × Assignment :=
  match a.value? l.var with
  | some b => (b == l.isPositive, a)
  | none => (true, ⟨max a.room (l.var + 1), insertEntry l.var l.isPositive a.entries⟩)

/-- Makes all literals of a list true, or says that two of them contradict each other. -/
def assignAll (a : Assignment) : List Literal → Option Assignment
  | [] => some a
  | l :: ls => match a.assign l with
    | (true, next) => next.assignAll ls
    | (false, _) => none

/-- The assignment that makes every literal of a list true, if there is one. -/
def ofDecisions (numVars : Nat) (decisions : List Literal) : Except Fault (Option Assignment) := do
  let start ← ofSize numVars
  return start.assignAll decisions

/-- The literals that are true, as integers in the order of their variables. Variables above
2147483647 are left out. -/
def toInts (a : Assignment) : List Int :=
  (a.entries.filter fun e => e.1 ≤ maxVar).map fun e => if e.2 then (e.1 : Int) else -(e.1 : Int)

end Assignment

def Clause.isSatisfiedBy (c : Clause) (a : Assignment) : Bool :=
  c.any fun l => a.literalValue? l == some true

end SatSearch
