import SatSearch.Literal

/-!
# Clauses

A clause is a disjunction of literals, kept as the list in which it was given: literals may repeat,
and their order and number matter to the choice of a branching literal.
-/

namespace SatSearch

/-- A disjunction of literals, in their given order and with repetitions. -/
abbrev Clause := List Literal

namespace Clause

/-- Reads a clause off its integers; `index` is the number of the clause in its formula. -/
def ofInts (index : Nat) (values : List Int) : Except Error Clause :=
  values.mapM fun n => match Literal.ofInt? n with
    | some l => .ok l
    | none => .error (.zeroLiteral index)

def toInts (c : Clause) : List Int := c.map (·.value)

def isUnit (c : Clause) : Bool := c.length = 1

/-- The clause with every occurrence of a literal struck out. -/
def without (c : Clause) (l : Literal) : Clause := c.filter (· ≠ l)

def literalAt (clause : Clause) (i : Nat) : Except Fault Literal :=
  match clause[i]? with
  | some l => .ok l
  | none => .error (.outOfBounds clause.length i)

/-- The clause as text: its literals and a closing 0, separated by blanks. -/
def text (c : Clause) : String := " ".intercalate (c.map Literal.text ++ ["0"])

@[simp] theorem mem_without {c : Clause} {l k : Literal} :
    k ∈ c.without l ↔ k ∈ c ∧ k ≠ l := by
  simp [without]

end Clause

end SatSearch
