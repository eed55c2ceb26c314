import SatSearch.Formula

/-!
# Truth

What clauses mean: a total truth assignment gives a value to every variable, and it satisfies
clauses if each of them has a literal that it makes true.
-/

namespace SatSearch

abbrev Valuation := Nat → Bool

/-- The valuation makes the literal true. -/
def Literal.Holds (l : Literal) (σ : Valuation) : Prop := σ l.var = l.isPositive

instance (l : Literal) (σ : Valuation) : Decidable (l.Holds σ) :=
  inferInstanceAs (Decidable (_ = _))

def Clause.Holds (c : Clause) (σ : Valuation) : Prop := ∃ l ∈ c, l.Holds σ

/-- The valuation makes all of the clauses true. -/
def Satisfies (σ : Valuation) (clauses : List Clause) : Prop := ∀ c ∈ clauses, c.Holds σ

def Formula.Satisfiable (f : Formula) : Prop := ∃ σ, Satisfies σ f.clauses

end SatSearch
