import SatSearch.Formula

/-!
# Writing DIMACS

A formula is written as a header line with the numbers of variables and clauses, followed by one
line for each clause. A file may have comment lines in front.
-/

namespace SatSearch

def Formula.text (f : Formula) : String :=
  "p cnf " ++ Decimal.text f.numVars ++ " " ++ Decimal.text f.clauses.length ++ "\n" ++
    String.join (f.clauses.map fun c => c.text ++ "\n")

/-- The formula in the DIMACS format, below one line for each comment. -/
def Formula.dimacs (f : Formula) (comments : List String) : String :=
  String.join (comments.map fun comment => "c " ++ comment ++ "\n") ++ f.text

end SatSearch
