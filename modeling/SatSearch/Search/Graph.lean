import SatSearch.Search.State

/-!
# The search as a graph

The nodes that a search can reach when no side of a branch is cut. A branch leads to the node under
its literal and to the node under the negation, even where that is the node itself, so the graph has
loops.
-/

namespace SatSearch

/-- A branch of one node leads to the other. -/
inductive Node.Leads (c : Settings) : Node → Node → Prop where
  | whenTrue {n : Node} {l : Literal} (h : n.view c = .branch l) :
      Leads c n (n.assume c.reduction l)
  | whenFalse {n : Node} {l : Literal} (h : n.view c = .branch l) :
      Leads c n (n.assume c.reduction l.negated)

/-- Branches lead from one node to the other in any number of turns. -/
inductive Node.Reaches (c : Settings) : Node → Node → Prop where
  | refl (n : Node) : Reaches c n n
  | step {n m k : Node} (h : Leads c n m) (rest : Reaches c m k) : Reaches c n k

/-- The states that a search takes on, at some readings of the clock. -/
inductive State.Occurs (c : Settings) (root : Node) : State → Prop where
  | start : Occurs c root (.start root)
  | advance {s next : State} {now : Nat} (h : Occurs c root s)
      (ha : s.advance c now = .running next) : Occurs c root next

end SatSearch
