import SatSearch.Proofs.AcceptingPath
import SatSearch.Search.Solve
import SatSearch.Search.Tree

/-!
# The search with frames refines the recursion

Without a budget, the state machine that keeps frames gives the verdict, the steps, the decisions and
the events of the recursion on nodes. The invariant of the simulation says what remains to be done at
a state: explore the current node, then go on with the frames as they stand.

`searchBelow` is the recursion as it is specified, over nodes alone and without `Node.reduce`: it
asks whether the false side is the node itself.
-/

namespace SatSearch

def Settings.Unlimited (c : Settings) : Prop := c.stepLimit = none ∧ c.deadline = none

theorem Settings.stop?_of_unlimited {c : Settings} (h : c.Unlimited) (steps now : Nat) :
    c.stop? steps now = none := by
  simp [stop?, h.1, h.2]

variable {c : Settings} {n : Node} {l : Literal}

theorem explore_of_satisfied (h : n.view c = .satisfied) (depth : Nat) :
    explore c n depth = .leaf true := by
  rw [explore]
  split <;> simp_all

theorem explore_of_unsatisfiable (h : n.view c = .unsatisfiable) (depth : Nat) :
    explore c n depth = .leaf false := by
  rw [explore]
  split <;> simp_all

/-- A branch on a literal, given the explorations of its true side and, unless it is cut, of its
false side. -/
def Exploration.branched (l : Literal) (depth : Nat) (first : Exploration)
    (second : Option Exploration) : Exploration :=
  let events := .branch l depth :: .descend .whenTrue l depth :: first.events
  match first.accepted, second with
  | some path, _ => ⟨some (l :: path), first.steps + 1, events⟩
  | none, none => ⟨none, first.steps + 1, events ++ [.cut l depth]⟩
  | none, some second => ⟨second.accepted.map (l.negated :: ·), first.steps + 1 + second.steps,
      events ++ .descend .whenFalse l depth :: second.events⟩

def exploreFalse (c : Settings) (n : Node) (l : Literal) (depth : Nat) : Option Exploration :=
  if n.assume c.reduction l.negated = n then none
  else some (explore c (n.assume c.reduction l.negated) (depth + 1))

theorem explore_of_branch (h : n.view c = .branch l) (depth : Nat) :
    explore c n depth = .branched l depth (explore c (n.assume c.reduction l) (depth + 1))
      (exploreFalse c n l depth) := by
  have htrue := Node.reduce_of_assume_ne (r := c.reduction)
    (Node.assume_ne_of_mem (Node.mem_of_view_branch h))
  rw [explore]
  split
  · cases h.symm.trans ‹_›
  · cases h.symm.trans ‹_›
  · rename_i k hk
    cases h.symm.trans hk
    split
    · rename_i child hchild
      cases htrue.symm.trans hchild
      simp only [Exploration.after, Exploration.under, Exploration.branched, exploreFalse]
      rcases Option.eq_none_or_eq_some
        (explore c (n.assume c.reduction l) (depth + 1)).accepted with ha | ⟨path, ha⟩
      · simp only [ha, Option.map_none, Option.isSome_none, Bool.false_eq_true, if_false]
        split
        · rename_i other hother
          have hn : n.assume c.reduction l.negated ≠ n := fun hn => by
            cases (Node.reduce_eq_none_iff.2 hn).symm.trans hother
          cases (Node.reduce_of_assume_ne hn).symm.trans hother
          rw [if_neg hn]
          rfl
        · rename_i hnone
          rw [if_pos (Node.reduce_eq_none_iff.1 hnone)]
          rfl
      · simp [ha]
    · rename_i hnone
      cases htrue.symm.trans hnone

def Progress.ending (c : Settings) (clock : Nat → Nat) : Progress → Ending
  | .running s => run c clock s
  | .finished e => e

@[simp] theorem Progress.ending_running (c : Settings) (clock : Nat → Nat) (s : State) :
    (running s).ending c clock = run c clock s := rfl

@[simp] theorem Progress.ending_finished (c : Settings) (clock : Nat → Nat) (e : Ending) :
    (finished e).ending c clock = e := rfl

theorem run_eq_ending (c : Settings) (clock : Nat → Nat) (s : State) :
    run c clock s = (s.advance c (clock s.steps)).ending c clock := by
  rw [run]
  split
  · rename_i next h
    rw [h, Progress.ending_running]
  · rename_i ending h
    rw [h, Progress.ending_finished]

/-- The ending of a search whose current node, below some frames, has this exploration: the
accepting path is the answer, and after a failure the frames decide how to go on. -/
def Exploration.resume (c : Settings) (clock : Nat → Nat) (frames : List Frame) (steps : Nat)
    (events : List Event) (e : Exploration) : Ending :=
  match e.accepted with
  | some path => ⟨.satisfiable (State.path frames ++ path), steps + e.steps,
      events.reverse ++ e.events⟩
  | none => (State.backtrack c.reduction (steps + e.steps) (e.events.reverse ++ events)
      frames).ending c clock

theorem State.path_cons (f : Frame) (frames : List Frame) :
    State.path (f :: frames) = State.path frames ++ [f.assumed] := by
  simp [State.path]

/-- What a search does about the false side of a branch, given the exploration of that side. -/
def resumeFalse (c : Settings) (clock : Nat → Nat) (n : Node) (l : Literal) (frames : List Frame)
    (steps : Nat) (events : List Event) : Option Exploration → Ending
  | none => (State.backtrack c.reduction steps (.cut l frames.length :: events)
      frames).ending c clock
  | some e => e.resume c clock (⟨n, l, .whenFalse⟩ :: frames) steps
      (.descend .whenFalse l frames.length :: events)

/-- Below the frame of a branch, its true side and then its false side are what is left to do; above
the frame, the whole branch is. -/
theorem Exploration.resume_branched (clock : Nat → Nat) (frames : List Frame) (steps : Nat)
    (events : List Event) (first : Exploration) (second : Option Exploration)
    (hfalse : ∀ steps events, (State.backtrack c.reduction steps events
      (⟨n, l, .whenTrue⟩ :: frames)).ending c clock =
        resumeFalse c clock n l frames steps events second) :
    first.resume c clock (⟨n, l, .whenTrue⟩ :: frames) (steps + 1)
        (.descend .whenTrue l frames.length :: .branch l frames.length :: events) =
      (branched l frames.length first second).resume c clock frames steps events := by
  rcases first with ⟨_ | path, firstSteps, firstEvents⟩
  · simp only [resume, hfalse]
    cases second with
    | none => simp [resumeFalse, branched, Nat.add_assoc, Nat.add_comm 1]
    | some second =>
      rcases second with ⟨_ | path, secondSteps, secondEvents⟩
      · simp [resumeFalse, branched, resume, State.backtrack, Nat.add_assoc, Nat.add_comm 1]
      · simp [resumeFalse, branched, resume, State.path_cons, Frame.assumed, Nat.add_assoc,
          Nat.add_comm 1]
  · simp [resume, branched, State.path_cons, Frame.assumed, Nat.add_assoc, Nat.add_comm 1]

/-- The search explores the current node and goes on with the frames. -/
theorem run_eq_resume (hc : c.Unlimited) (clock : Nat → Nat) (n : Node) (frames : List Frame)
    (steps : Nat) (events : List Event) :
    run c clock ⟨n, frames, steps, events⟩ =
      (explore c n frames.length).resume c clock frames steps events := by
  -- For all frames, since each side of a branch is searched below one more frame.
  induction hw : n.weight using Nat.strongRecOn generalizing n frames steps events with
  | ind w ih =>
    rw [run_eq_ending]
    cases hv : n.view c with
    | satisfied =>
      rw [explore_of_satisfied hv]
      simp [State.advance, hv, Exploration.resume, Exploration.leaf]
    | unsatisfiable =>
      rw [explore_of_unsatisfiable hv]
      simp [State.advance, hv, Exploration.resume, Exploration.leaf]
    | branch l =>
      have hne := Node.assume_ne_of_mem (r := c.reduction) (Node.mem_of_view_branch hv)
      have hlt : (n.assume c.reduction l).weight < w := hw ▸ Node.weight_assume_lt hne
      rw [explore_of_branch hv]
      simp only [State.advance, hv, Settings.stop?_of_unlimited hc, State.branch,
        Node.reduce_of_assume_ne hne, Progress.ending_running]
      rw [ih _ hlt _ _ _ _ rfl]
      apply Exploration.resume_branched
      intro steps events
      simp only [State.backtrack, exploreFalse]
      by_cases hn : n.assume c.reduction l.negated = n
      · rw [Node.reduce_eq_none_iff.2 hn, if_pos hn]
        rfl
      · have hlt' : (n.assume c.reduction l.negated).weight < w := hw ▸ Node.weight_assume_lt hn
        rw [Node.reduce_of_assume_ne hn, if_neg hn]
        exact ih _ hlt' _ _ _ _ rfl

/-- Without a budget, a search ends with the answer and the events of the exploration of its root. -/
theorem run_start_of_unlimited (hc : c.Unlimited) (clock : Nat → Nat) (n : Node) :
    (run c clock (.start n)).solution = .ok ⟨(explore c n 0).accepted.isSome,
        (explore c n 0).steps, (explore c n 0).accepted.getD []⟩ ∧
      (run c clock (.start n)).events = (explore c n 0).events := by
  simp only [State.start, run_eq_resume hc, List.length_nil]
  rcases explore c n 0 with ⟨_ | path, steps, events⟩
  · simp [Exploration.resume, State.backtrack, Ending.solution]
  · simp [Exploration.resume, State.path, Ending.solution]

theorem observe_eq_explore (hc : c.Unlimited) (clock : Nat → Nat) {f : Formula} {vars : List Nat}
    {root : Node} (h : f.root vars = .ok root) :
    (observe c clock f vars).result = .ok ⟨(explore c root 0).accepted.isSome,
        (explore c root 0).steps, (explore c root 0).accepted.getD []⟩ ∧
      (observe c clock f vars).events = (explore c root 0).events := by
  obtain ⟨hsolution, hevents⟩ := run_start_of_unlimited hc clock root
  simp only [observe, h, hsolution, hevents, Except.mapError, and_self]

theorem accepts_of_explore {path : List Literal} {depth : Nat}
    (h : (explore c n depth).accepted = some path) : n.Accepts c path := by
  induction hw : n.weight using Nat.strongRecOn generalizing n depth path with
  | ind w ih =>
    cases hv : n.view c with
    | satisfied =>
      rw [explore_of_satisfied hv] at h
      cases h
      exact .satisfied hv
    | unsatisfiable =>
      rw [explore_of_unsatisfiable hv] at h
      cases h
    | branch l =>
      have hne := Node.assume_ne_of_mem (r := c.reduction) (Node.mem_of_view_branch hv)
      rw [explore_of_branch hv] at h
      rcases Option.eq_none_or_eq_some
        (explore c (n.assume c.reduction l) (depth + 1)).accepted with ha | ⟨below, ha⟩
      · by_cases hn : n.assume c.reduction l.negated = n
        · simp [Exploration.branched, exploreFalse, ha, hn] at h
        · simp only [Exploration.branched, exploreFalse, ha, hn, if_false,
            Option.map_eq_some_iff] at h
          obtain ⟨below, hb, rfl⟩ := h
          exact .descend hv (.inr rfl) (ih _ (hw ▸ Node.weight_assume_lt hn) hb rfl)
      · simp only [Exploration.branched, ha, Option.some.injEq] at h
        subst h
        exact .descend hv (.inl rfl) (ih _ (hw ▸ Node.weight_assume_lt hne) ha rfl)

/-- The exploration of a node with an accepting path accepts. -/
theorem Node.Accepts.explore_isSome {path : List Literal} (h : n.Accepts c path) (depth : Nat) :
    (explore c n depth).accepted.isSome = true := by
  induction h generalizing depth with
  | satisfied h =>
    rw [explore_of_satisfied h]
    rfl
  | @descend n l k path h side rest ih =>
    by_cases hcut : n.assume c.reduction k = n
    · rw [hcut] at ih
      exact ih depth
    · have hk := ih (depth + 1)
      rw [explore_of_branch h]
      rcases Option.eq_none_or_eq_some
        (explore c (n.assume c.reduction l) (depth + 1)).accepted with ha | ⟨below, ha⟩
      · rcases side with rfl | rfl
        · simp [ha] at hk
        · simp [Exploration.branched, exploreFalse, ha, hcut, hk]
      · simp [Exploration.branched, ha]

/-- Without a budget, the search of accepted input answers whether the root has an accepting path,
and it decides on one. -/
theorem solve_of_unlimited (hc : c.Unlimited) (clock : Nat → Nat) {f : Formula} {vars : List Nat}
    {root : Node} (h : f.root vars = .ok root) :
    ∃ a, solve c clock f vars = .ok a ∧ (a.satisfiable = true ↔ ∃ path, root.Accepts c path) ∧
      (a.satisfiable = true → root.Accepts c a.decisions) := by
  refine ⟨_, (observe_eq_explore hc clock h).1, ?_⟩
  constructor
  · constructor
    · intro hsome
      obtain ⟨path, ha⟩ := Option.isSome_iff_exists.1 hsome
      exact ⟨path, accepts_of_explore ha⟩
    · rintro ⟨path, hpath⟩
      exact hpath.explore_isSome 0
  · intro hsome
    obtain ⟨path, ha⟩ := Option.isSome_iff_exists.1 hsome
    simpa [ha] using accepts_of_explore ha

/-- Observers hear of branches and descents. A cut is only logged. -/
def Event.isTold : Event → Bool
  | .branch _ _ => true
  | .descend _ _ _ => true
  | .cut _ _ => false

/-- What an observer of the search hears, in order. -/
def Observation.told (o : Observation) : List Event := o.events.filter Event.isTold

/-- The search below a node, as it is specified: the literals assumed on the way to a node without
clauses, if one is found, the number of steps, and what an observer hears. -/
def searchBelow (c : Settings) (n : Node) (depth : Nat) : Exploration :=
  if n.clauses = [] then ⟨some [], 0, []⟩
  else if n.candidates.isEmpty ∨ c.reduction = .strike ∧ [] ∈ n.clauses then ⟨none, 0, []⟩
  else match _hp : c.selection.pick n.clauses with
    | none => ⟨none, 0, []⟩
    | some l =>
      let first := searchBelow c (n.assume c.reduction l) (depth + 1)
      let told := .branch l depth :: .descend .whenTrue l depth :: first.events
      match first.accepted with
      | some path => ⟨some (l :: path), 1 + first.steps, told⟩
      | none =>
        if _hn : n.assume c.reduction l.negated = n then ⟨none, 1 + first.steps, told⟩
        else
          let second := searchBelow c (n.assume c.reduction l.negated) (depth + 1)
          ⟨second.accepted.map (l.negated :: ·), 1 + first.steps + second.steps,
            told ++ .descend .whenFalse l depth :: second.events⟩
termination_by n.weight
decreasing_by
  · exact Node.weight_assume_lt (Node.assume_ne_of_mem (Selection.mem_of_pick _hp))
  · exact Node.weight_assume_lt _hn

/-- The specified search is the exploration without the cuts. -/
theorem searchBelow_eq_explore (c : Settings) (n : Node) (depth : Nat) :
    searchBelow c n depth =
      { explore c n depth with events := (explore c n depth).events.filter Event.isTold } := by
  induction hw : n.weight using Nat.strongRecOn generalizing n depth with
  | ind w ih =>
    have hview := Node.view_eq c n
    rw [searchBelow]
    split
    · rename_i hc
      rw [if_pos hc] at hview
      rw [explore_of_satisfied hview]
      rfl
    · rename_i hc
      rw [if_neg hc] at hview
      split
      · rename_i hdead
        rw [if_pos hdead] at hview
        rw [explore_of_unsatisfiable hview]
        rfl
      · rename_i hlive
        rw [if_neg hlive] at hview
        split
        · rename_i hp
          rw [hp] at hview
          rw [explore_of_unsatisfiable hview]
          rfl
        · rename_i l hp
          rw [hp] at hview
          have hne := Node.assume_ne_of_mem (r := c.reduction) (Node.mem_of_view_branch hview)
          have hfirst := ih _ (hw ▸ Node.weight_assume_lt hne) _ (depth + 1) rfl
          rw [explore_of_branch hview]
          simp only [hfirst]
          rcases explore c (n.assume c.reduction l) (depth + 1) with ⟨_ | path, steps, events⟩
          · by_cases hn : n.assume c.reduction l.negated = n
            · simp [Exploration.branched, exploreFalse, hn, Event.isTold, List.filter_cons,
                Nat.add_comm 1]
            · have hsecond := ih _ (hw ▸ Node.weight_assume_lt hn) _ (depth + 1) rfl
              simp [Exploration.branched, exploreFalse, hn, hsecond, Event.isTold,
                List.filter_cons, Nat.add_comm 1]
          · simp [Exploration.branched, Event.isTold, List.filter_cons, Nat.add_comm 1]

/-- Without a budget, the search of accepted input gives the verdict, the steps, the decisions and
the observer's events of the specified recursion. -/
theorem observe_eq_searchBelow (r : Reduction) (s : Selection) (clock : Nat → Nat) {f : Formula}
    {vars : List Nat} {root : Node} (h : f.root vars = .ok root) :
    let c : Settings := { reduction := r, selection := s }
    let below := searchBelow c root 0
    (observe c clock f vars).result =
        .ok ⟨below.accepted.isSome, below.steps, below.accepted.getD []⟩ ∧
      (observe c clock f vars).told = below.events := by
  intro c below
  obtain ⟨hresult, hevents⟩ := observe_eq_explore (c := c) ⟨rfl, rfl⟩ clock h
  have hbelow : below = { explore c root 0 with
      events := (explore c root 0).events.filter Event.isTold } := searchBelow_eq_explore c root 0
  rw [hbelow, hresult, Observation.told, hevents]
  exact ⟨rfl, rfl⟩

theorem observe_eq_searchBelow_two_clauses :
    let f : Formula := .ofClauses [[.of 1], [.of (-1), .of 2]]
    let c : Settings := { reduction := .faithful, selection := .firstLiteral }
    ∃ root, f.root [1, 2] = .ok root ∧
      (observe c (fun _ => 0) f [1, 2]).result =
        .ok ⟨(searchBelow c root 0).accepted.isSome, (searchBelow c root 0).steps,
          (searchBelow c root 0).accepted.getD []⟩ ∧
      (observe c (fun _ => 0) f [1, 2]).told = (searchBelow c root 0).events :=
  ⟨_, rfl, observe_eq_searchBelow .faithful .firstLiteral _ rfl⟩

end SatSearch
