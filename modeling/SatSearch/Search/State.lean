import SatSearch.Search.Node

/-!
# States of a search

A search stands at a node, below the branches that it has taken and not yet given up. One advance
either descends into a side of a branch or ends the search: at a satisfied node, when both sides of
every branch have failed, or when a budget stops the next step.

Each advance lightens the state in the sense of `State.weight`, so a search always ends.
-/

namespace SatSearch

inductive Side where
  | whenTrue
  | whenFalse
deriving DecidableEq, Repr

/-- A branch that was taken at a node, and the side of it that is being explored. -/
structure Frame where
  node : Node
  literal : Literal
  side : Side
deriving DecidableEq, Repr

/-- The literal that a frame assumes. -/
def Frame.assumed (f : Frame) : Literal :=
  match f.side with
  | .whenTrue => f.literal
  | .whenFalse => f.literal.negated

/-- What happens in a search. Depths count the branches above. The false side of a branch is cut
where it is the node of the branch again. -/
inductive Event where
  | branch (literal : Literal) (depth : Nat)
  | descend (side : Side) (literal : Literal) (depth : Nat)
  | cut (literal : Literal) (depth : Nat)
deriving DecidableEq, Repr

/-- How a search ends. -/
inductive Verdict where
  | satisfiable (decisions : List Literal)
  | unsatisfiable
  | stopped (reason : Error)
deriving DecidableEq, Repr

/-- Where a search stands, with the innermost frame and the latest event first. The number of steps
is taken to be unbounded, as no search lives to fill a counter of 64 bits; so is the memory for the
frames. -/
structure State where
  current : Node
  frames : List Frame
  steps : Nat
  events : List Event
deriving DecidableEq, Repr

structure Ending where
  verdict : Verdict
  steps : Nat
  events : List Event
deriving DecidableEq, Repr

inductive Progress where
  | running (state : State)
  | finished (ending : Ending)
deriving DecidableEq, Repr

namespace State

def start (root : Node) : State := ⟨root, [], 0, []⟩

/-- The literals assumed by some frames, the outermost first. -/
def path (frames : List Frame) : List Literal := (frames.map Frame.assumed).reverse

/-- Gives up the current node and descends into the false side of the innermost branch that still
has one. The state is the one before: its frames, steps and events. -/
def backtrack (r : Reduction) (steps : Nat) (events : List Event) : List Frame → Progress
  | [] => .finished ⟨.unsatisfiable, steps, events.reverse⟩
  | f :: rest => match f.side with
    | .whenFalse => backtrack r steps events rest
    | .whenTrue => match f.node.reduce r f.literal.negated with
      | some child => .running
          { current := child
            frames := { f with side := .whenFalse } :: rest
            steps := steps
            events := .descend .whenFalse f.literal rest.length :: events }
      | none => backtrack r steps (.cut f.literal rest.length :: events) rest

/-- Takes a step: branches on a literal at the current node. -/
def branch (r : Reduction) (l : Literal) (s : State) : Progress :=
  let frames := ⟨s.current, l, .whenTrue⟩ :: s.frames
  let depth := s.frames.length
  let events := .branch l depth :: s.events
  match s.current.reduce r l with
  | some child => .running ⟨child, frames, s.steps + 1, .descend .whenTrue l depth :: events⟩
  | none => backtrack r (s.steps + 1) events frames

/-- Looks at the current node and moves on. `now` is the time, in case a step is due. -/
def advance (c : Settings) (now : Nat) (s : State) : Progress :=
  match s.current.view c with
  | .satisfied => .finished ⟨.satisfiable (path s.frames), s.steps, s.events.reverse⟩
  | .unsatisfiable => backtrack c.reduction s.steps s.events s.frames
  | .branch l => match c.stop? s.steps now with
    | some reason => .finished ⟨.stopped reason, s.steps, s.events.reverse⟩
    | none => s.branch c.reduction l

/-- The number of nodes of a binary tree whose branches all have this length. -/
def treeSize : Nat → Nat
  | 0 => 1
  | depth + 1 => 2 * treeSize depth + 1

/-- The part of the tree below a node that belongs to one of its children. -/
def share (n : Node) : Nat := treeSize n.weight / 2

/-- The part of the weight that stands for the false sides that are still to be explored. -/
def pending : List Frame → Nat
  | [] => 0
  | f :: rest => (if f.side = .whenTrue then share f.node else 0) + pending rest

/-- A bound on the number of advances that are left. -/
def weight (s : State) : Nat := treeSize s.current.weight + pending s.frames

theorem treeSize_le_treeSize {a b : Nat} (h : a ≤ b) : treeSize a ≤ treeSize b := by
  induction b with
  | zero => exact Nat.le_of_eq (congrArg treeSize (Nat.le_zero.1 h))
  | succ b ih =>
    rcases Nat.lt_or_ge b a with hb | hb
    · exact Nat.le_of_eq (congrArg treeSize (Nat.le_antisymm h hb))
    · have := ih hb
      simp only [treeSize]
      omega

theorem treeSize_le_share {r : Reduction} {l : Literal} {n child : Node}
    (h : n.reduce r l = some child) : treeSize child.weight ≤ share n := by
  have := treeSize_le_treeSize (Node.weight_lt_of_reduce h)
  simp only [treeSize] at this
  simp only [share]
  omega

theorem share_lt_treeSize (n : Node) : 2 * share n < treeSize n.weight := by
  simp only [share]
  cases n.weight with
  | zero => decide
  | succ w => simp only [treeSize]; omega

theorem weight_le_of_backtrack {r : Reduction} {steps : Nat} {events : List Event}
    {frames : List Frame} {next : State} (h : backtrack r steps events frames = .running next) :
    next.weight ≤ pending frames := by
  induction frames generalizing events with
  | nil => simp [backtrack] at h
  | cons f rest ih =>
    cases hs : f.side with
    | whenFalse =>
      simp only [backtrack, hs] at h
      simpa [pending, hs] using ih h
    | whenTrue =>
      simp only [backtrack, hs] at h
      cases hr : f.node.reduce r f.literal.negated with
      | none =>
        rw [hr] at h
        have := ih h
        simp only [pending]
        omega
      | some child =>
        rw [hr] at h
        cases h
        have := treeSize_le_share hr
        simp only [weight, pending, hs]
        simp
        omega

theorem weight_lt_of_advance {c : Settings} {now : Nat} {s next : State}
    (h : s.advance c now = .running next) : next.weight < s.weight := by
  have hshare := share_lt_treeSize s.current
  unfold advance at h
  split at h
  · cases h
  · have := weight_le_of_backtrack h
    simp only [weight] at this ⊢
    omega
  · split at h
    · cases h
    · unfold branch at h
      split at h
      · rename_i hr
        cases h
        have := treeSize_le_share hr
        simp only [weight, pending]
        simp
        omega
      · have := weight_le_of_backtrack h
        simp only [pending] at this
        simp at this
        simp only [weight] at this ⊢
        omega

end State

/-- Runs a search to its end. `clock` gives the time at which each step is due, by the number of
steps taken before it. -/
def run (c : Settings) (clock : Nat → Nat) (s : State) : Ending :=
  match _h : s.advance c (clock s.steps) with
  | .running next => run c clock next
  | .finished ending => ending
termination_by s.weight
decreasing_by exact State.weight_lt_of_advance _h

end SatSearch
