import SatSearch.Proofs.NodeReduction
import SatSearch.Search.Graph

/-!
# Frames as a chain

An advance that does not end the search takes a step at the current node, or it goes back to the
innermost frame whose false side is still open and not the node of the frame again. One that ends it
does so at a satisfied node, for want of such a frame, or because a budget stops the step. So the
frames of every state form a chain that starts at the root: each frame branches at its own node, and
the side that it explores leads to the node of the frame above it.
-/

namespace SatSearch

theorem Frame.assumed_eq (f : Frame) :
    f.assumed = f.literal ∨ f.assumed = f.literal.negated := by
  cases hside : f.side with
  | whenTrue => exact .inl (by simp [assumed, hside])
  | whenFalse => exact .inr (by simp [assumed, hside])

@[simp] theorem Frame.var_assumed (f : Frame) : f.assumed.var = f.literal.var := by
  rcases f.assumed_eq with he | he
  · rw [he]
  · rw [he, Literal.var_negated]

namespace State

/-- The next state explores the false side of one of the frames, which was open until then. -/
inductive Returns (r : Reduction) (frames : List Frame) (next : State) : Prop where
  | intro {f : Frame} {rest : List Frame} (suffix : f :: rest <:+ frames)
      (side : f.side = .whenTrue)
      (changed : f.node.assume r f.literal.negated ≠ f.node)
      (current : next.current = f.node.assume r f.literal.negated)
      (above : next.frames = { f with side := .whenFalse } :: rest)

inductive Turn (c : Settings) (s next : State) : Prop where
  | branches {l : Literal} (view : s.current.view c = .branch l)
      (current : next.current = s.current.assume c.reduction l)
      (above : next.frames = ⟨s.current, l, .whenTrue⟩ :: s.frames)
      (steps : next.steps = s.steps + 1)
  | returns (back : Returns c.reduction s.frames next) (steps : next.steps = s.steps)

variable {r : Reduction} {c : Settings} {s next : State} {frames rest : List Frame}

theorem Returns.of_suffix (h : Returns r rest next) (hs : rest <:+ frames) :
    Returns r frames next := by
  obtain ⟨suffix, side, changed, current, above⟩ := h
  exact ⟨suffix.trans hs, side, changed, current, above⟩

theorem returns_of_backtrack {steps : Nat} {events : List Event}
    (h : backtrack r steps events frames = .running next) :
    Returns r frames next ∧ next.steps = steps := by
  induction frames generalizing events with
  | nil => cases h
  | cons f rest ih =>
    have later {events : List Event} (h : backtrack r steps events rest = .running next) :
        Returns r (f :: rest) next ∧ next.steps = steps :=
      ⟨(ih h).1.of_suffix (List.suffix_cons f rest), (ih h).2⟩
    simp only [backtrack] at h
    cases hside : f.side with
    | whenFalse =>
      rw [hside] at h
      exact later h
    | whenTrue =>
      rw [hside] at h
      by_cases hcut : f.node.assume r f.literal.negated = f.node
      · simp only [Node.reduce_eq_none_iff.2 hcut] at h
        exact later h
      · simp only [Node.reduce_of_assume_ne hcut] at h
        cases h
        exact ⟨⟨List.suffix_refl _, hside, hcut, rfl, rfl⟩, rfl⟩

theorem turn_of_advance {now : Nat} (h : s.advance c now = .running next) : Turn c s next := by
  unfold advance at h
  cases hv : s.current.view c with
  | satisfied => simp [hv] at h
  | unsatisfiable =>
    rw [hv] at h
    obtain ⟨hback, hsteps⟩ := returns_of_backtrack h
    exact .returns hback hsteps
  | branch l =>
    rw [hv] at h
    have hne := Node.assume_ne_of_mem (r := c.reduction) (Node.mem_of_view_branch hv)
    cases hstop : c.stop? s.steps now with
    | some reason => simp [hstop] at h
    | none =>
      simp only [hstop, branch, Node.reduce_of_assume_ne hne] at h
      cases h
      exact .branches hv rfl rfl rfl

inductive Halt (c : Settings) (now : Nat) (s : State) (e : Ending) : Prop where
  | satisfied (verdict : e.verdict = .satisfiable (path s.frames)) (steps : e.steps = s.steps)
  | exhausted (verdict : e.verdict = .unsatisfiable) (steps : e.steps = s.steps)
  | stopped {reason : Error} (stop : c.stop? s.steps now = some reason)
      (verdict : e.verdict = .stopped reason) (steps : e.steps = s.steps)

theorem ending_of_backtrack {steps : Nat} {events : List Event} {e : Ending}
    (h : backtrack r steps events frames = .finished e) :
    e.verdict = .unsatisfiable ∧ e.steps = steps := by
  induction frames generalizing events with
  | nil =>
    cases h
    exact ⟨rfl, rfl⟩
  | cons f rest ih =>
    simp only [backtrack] at h
    split at h
    · exact ih h
    · split at h
      · cases h
      · exact ih h

theorem halt_of_advance {now : Nat} {e : Ending} (h : s.advance c now = .finished e) :
    Halt c now s e := by
  unfold advance at h
  cases hv : s.current.view c with
  | satisfied =>
    rw [hv] at h
    cases h
    exact .satisfied rfl rfl
  | unsatisfiable =>
    rw [hv] at h
    obtain ⟨hverdict, hsteps⟩ := ending_of_backtrack h
    exact .exhausted hverdict hsteps
  | branch l =>
    rw [hv] at h
    have hne := Node.assume_ne_of_mem (r := c.reduction) (Node.mem_of_view_branch hv)
    cases hstop : c.stop? s.steps now with
    | some reason =>
      simp only [hstop] at h
      cases h
      exact .stopped hstop rfl rfl
    | none => simp [hstop, branch, Node.reduce_of_assume_ne hne] at h

theorem steps_of_advance_finished {now : Nat} {e : Ending}
    (h : s.advance c now = .finished e) : e.steps = s.steps := by
  cases halt_of_advance h <;> assumption

end State

namespace Node

/-- The node stands below the root under some frames: the frames are a chain from the root down to
it, the innermost first, and none of them explores a side that is its own node. -/
inductive Below (c : Settings) (root : Node) : List Frame → Node → Prop where
  | root : Below c root [] root
  | side {f : Frame} {rest : List Frame} (below : Below c root rest f.node)
      (view : f.node.view c = .branch f.literal)
      (changed : f.node.assume c.reduction f.assumed ≠ f.node) :
      Below c root (f :: rest) (f.node.assume c.reduction f.assumed)

variable {c : Settings} {root n : Node} {f : Frame} {l : Literal} {frames rest : List Frame}

theorem Below.of_suffix (h : Below c root frames n) (hs : f :: rest <:+ frames) :
    Below c root rest f.node ∧ f.node.view c = .branch f.literal := by
  induction h with
  | root => simp at hs
  | side below view changed ih =>
    rcases List.suffix_cons_iff.1 hs with he | hs
    · cases he
      exact ⟨below, view⟩
    · exact ih hs

theorem Below.branch (h : Below c root frames n) (hl : n.view c = .branch l) :
    Below c root (⟨n, l, .whenTrue⟩ :: frames) (n.assume c.reduction l) :=
  .side (f := ⟨n, l, .whenTrue⟩) h hl (assume_ne_of_mem (mem_of_view_branch hl))

end Node

namespace State

variable {c : Settings} {root : Node} {s next : State}

theorem Turn.current_below (h : Turn c s next) (hs : root.Below c s.frames s.current) :
    root.Below c next.frames next.current := by
  cases h with
  | branches view current above steps =>
    rw [current, above]
    exact hs.branch view
  | returns back steps =>
    obtain ⟨suffix, side, changed, current, above⟩ := back
    obtain ⟨below, view⟩ := hs.of_suffix suffix
    rw [current, above]
    exact .side (f := { node := _, literal := _, side := .whenFalse }) below view changed

/-- At every state of a search, the frames are a chain from the root down to the current node. -/
theorem Occurs.current_below (h : Occurs c root s) : root.Below c s.frames s.current := by
  induction h with
  | start => exact .root
  | advance h ha ih => exact (turn_of_advance ha).current_below ih

end State

end SatSearch
