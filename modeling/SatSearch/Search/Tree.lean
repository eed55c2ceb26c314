import SatSearch.Search.State

/-!
# The search as a recursion

The search tree below a node, walked by recursion: the true side of a branch first, and the false
side only if the true side fails. There is no budget. The state machine of `SatSearch.run` walks the
same tree with an explicit stack.
-/

namespace SatSearch

/-- What walking the tree below a node gives. -/
structure Exploration where
  accepted : Option (List Literal)
  steps : Nat
  events : List Event
deriving DecidableEq, Repr

namespace Exploration

def leaf (satisfied : Bool) : Exploration := ⟨if satisfied then some [] else none, 0, []⟩

/-- The exploration of a child, as a part of the exploration of its parent. -/
def under (assumed : Literal) (e : Exploration) : Exploration :=
  { e with accepted := e.accepted.map (assumed :: ·) }

/-- One exploration after another one that has failed. -/
def andThen (first second : Exploration) : Exploration :=
  ⟨second.accepted, first.steps + second.steps, first.events ++ second.events⟩

def after (event : Event) (e : Exploration) : Exploration :=
  { e with events := event :: e.events }

end Exploration

/-- Walks the tree below a node that has a number of branches above it. -/
def explore (c : Settings) (n : Node) (depth : Nat) : Exploration :=
  match n.view c with
  | .satisfied => .leaf true
  | .unsatisfiable => .leaf false
  | .branch l =>
    let whenTrue : Exploration := match _h : n.reduce c.reduction l with
      | some child => ((explore c child (depth + 1)).under l).after (.descend .whenTrue l depth)
      | none => .leaf false
    let stepped : Exploration :=
      { whenTrue.after (.branch l depth) with steps := whenTrue.steps + 1 }
    if stepped.accepted.isSome then stepped
    else match _h : n.reduce c.reduction l.negated with
      | some child => stepped.andThen
          (((explore c child (depth + 1)).under l.negated).after (.descend .whenFalse l depth))
      | none => stepped.andThen ((Exploration.leaf false).after (.cut l depth))
termination_by n.weight
decreasing_by all_goals exact Node.weight_lt_of_reduce _h

end SatSearch
