import SatSearch.Candidates
import SatSearch.Search.Settings

/-!
# Search nodes

A search node is what is left of a formula, with the variables that may still be branched on. It is
satisfied, unsatisfiable, or branches on a literal; assuming a literal leads to another node.

A node that would be its own child has no child: `Node.reduce` is `none` exactly where neither the
clauses nor the candidates change, and elsewhere the child is smaller.
-/

namespace SatSearch

/-- The clauses and candidates at one point of the search. -/
structure Node where
  clauses : List Clause
  candidates : CandidateSet
deriving DecidableEq, Repr

/-- What a search does at a node. -/
inductive NodeView where
  | satisfied
  | unsatisfiable
  | branch (literal : Literal)
deriving DecidableEq, Repr

namespace Node

/-- Classifies a node. Clauses are unsatisfiable where no candidate is left, where no literal can be
chosen, and, if false literals are struck, where some clause is empty. -/
def view (c : Settings) (n : Node) : NodeView :=
  if n.clauses.isEmpty then .satisfied
  else if n.candidates.isEmpty then .unsatisfiable
  else if c.reduction = .strike ∧ n.clauses.any (·.isEmpty) then .unsatisfiable
  else match c.selection.pick n.clauses with
    | some l => .branch l
    | none => .unsatisfiable

end Node

namespace Reduction

/-- What is left of a clause once a literal is assumed; `none` if the clause is satisfied. -/
def clause? (r : Reduction) (assumed : Literal) (c : Clause) : Option Clause :=
  if c.contains assumed then none
  else match r with
    | faithful => some c
    | strike => some (c.without assumed.negated)

/-- Whether assuming a literal does anything to a clause. -/
def touches (r : Reduction) (assumed : Literal) (c : Clause) : Bool :=
  c.contains assumed || (r = strike && c.contains assumed.negated)

end Reduction

namespace Node

/-- The node after a literal is assumed. -/
def assume (r : Reduction) (assumed : Literal) (n : Node) : Node where
  clauses := n.clauses.filterMap (r.clause? assumed)
  candidates := n.candidates.erase assumed.var

def changes (r : Reduction) (assumed : Literal) (n : Node) : Bool :=
  n.clauses.any (r.touches assumed) || n.candidates.contains assumed.var

/-- The child of a node under an assumed literal, unless it would be the node again. -/
def reduce (r : Reduction) (assumed : Literal) (n : Node) : Option Node :=
  if n.changes r assumed then some (n.assume r assumed) else none

/-- The number of clauses, of occurrences of literals, and of candidates, all together. -/
def weight (n : Node) : Nat :=
  n.clauses.length + (Formula.literalsOf n.clauses).length + n.candidates.members.length

end Node

namespace Reduction

/-- What is left of a clause is no longer than the clause. -/
theorem length_le_of_clause? {r : Reduction} {l : Literal} {c rest : Clause}
    (h : r.clause? l c = some rest) : rest.length ≤ c.length := by
  by_cases hc : l ∈ c
  · simp [clause?, hc] at h
  · cases r with
    | faithful => simp_all [clause?]
    | strike =>
      simp only [clause?, List.contains_eq_mem, hc, decide_false, Bool.false_eq_true, if_false,
        Option.some.injEq] at h
      subst h
      exact List.length_filter_le _ _

/-- What is left of a clause that is touched is shorter than the clause. -/
theorem length_lt_of_clause? {r : Reduction} {l : Literal} {c rest : Clause}
    (ht : r.touches l c = true) (h : r.clause? l c = some rest) : rest.length < c.length := by
  by_cases hc : l ∈ c
  · simp [clause?, hc] at h
  · cases r with
    | faithful => simp [touches, hc] at ht
    | strike =>
      have hn : l.negated ∈ c := by simpa [touches, hc] using ht
      simp only [clause?, List.contains_eq_mem, hc, decide_false, Bool.false_eq_true, if_false,
        Option.some.injEq] at h
      subst h
      rw [Clause.without, List.length_filter_lt_length_iff_exists]
      exact ⟨l.negated, hn, by simp⟩

end Reduction

namespace Node

private theorem length_filterMap_le (r : Reduction) (l : Literal) (cs : List Clause) :
    (cs.filterMap (r.clause? l)).length + (cs.filterMap (r.clause? l)).flatten.length ≤
      cs.length + cs.flatten.length := by
  induction cs with
  | nil => simp
  | cons c cs ih =>
    cases h : r.clause? l c with
    | none => simp only [List.filterMap_cons, h, List.length_cons, List.flatten_cons,
        List.length_append]; omega
    | some rest =>
      have := Reduction.length_le_of_clause? h
      simp only [List.filterMap_cons, h, List.length_cons, List.flatten_cons, List.length_append]
      omega

private theorem length_filterMap_lt {r : Reduction} {l : Literal} {cs : List Clause}
    (h : cs.any (r.touches l) = true) :
    (cs.filterMap (r.clause? l)).length + (cs.filterMap (r.clause? l)).flatten.length <
      cs.length + cs.flatten.length := by
  induction cs with
  | nil => simp at h
  | cons c cs ih =>
    have hle := length_filterMap_le r l cs
    cases hr : r.clause? l c with
    | none => simp only [List.filterMap_cons, hr, List.length_cons, List.flatten_cons,
        List.length_append]; omega
    | some rest =>
      simp only [List.filterMap_cons, hr, List.length_cons, List.flatten_cons, List.length_append]
      by_cases ht : r.touches l c = true
      · have := Reduction.length_lt_of_clause? ht hr
        omega
      · have := ih (by simpa [ht] using h)
        have := Reduction.length_le_of_clause? hr
        omega

private theorem length_erase_le (s : CandidateSet) (v : Nat) :
    (s.erase v).members.length ≤ s.members.length := by
  cases h : s.contains v with
  | false => simp [CandidateSet.erase_of_not_contains h]
  | true => exact Nat.le_of_lt (CandidateSet.length_members_erase_lt h)

theorem weight_lt_of_reduce {r : Reduction} {l : Literal} {n child : Node}
    (h : n.reduce r l = some child) : child.weight < n.weight := by
  unfold reduce at h
  split at h
  · rename_i hch
    cases h
    simp only [weight, assume]
    simp only [changes, Bool.or_eq_true] at hch
    simp only [Formula.literalsOf]
    rcases hch with hcl | hca
    · have := length_filterMap_lt hcl
      have := length_erase_le n.candidates l.var
      omega
    · have := length_filterMap_le r l n.clauses
      have := CandidateSet.length_members_erase_lt hca
      omega
  · cases h

end Node

end SatSearch
