import SatSearch.Frequency

/-!
# Choosing the branching literal

Two rules choose the literal that a search branches on: the most frequent literal, or the first one.
-/

namespace SatSearch

inductive Selection where
  | maxFrequency
  | firstLiteral
deriving DecidableEq, Repr

namespace Selection

/-- The literal chosen among those of some clauses, if they have any. -/
def pick : Selection → List Clause → Option Literal
  | maxFrequency, clauses => (mostFrequent? clauses).map (·.1)
  | firstLiteral, clauses => (Formula.literalsOf clauses).head?

def name : Selection → String
  | maxFrequency => "max-frequency"
  | firstLiteral => "first-literal"

def all : List Selection := [maxFrequency, firstLiteral]

end Selection

end SatSearch
