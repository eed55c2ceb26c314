import SatSearch.Proofs.FrameChain
import SatSearch.Proofs.SearchBudget

/-!
# What a budget leaves of a search

A search under a step limit is the search without it, cut off before the first step over the limit.
Up to there everything happens in the same way, and a search that ends exactly on the limit is not
cut off. A deadline that has passed at the start cuts off the first step.

A search only adds to what has happened, one branch for each step, so the events of the search that
is cut off are those of the other one before a certain branch.
-/

namespace SatSearch

def Event.isBranch : Event → Bool
  | .branch _ _ => true
  | .descend _ _ _ => false
  | .cut _ _ => false

/-- The events before the branch that `k` branches precede; all of them if there are no more than
`k` branches. -/
def Event.beforeBranch (k : Nat) : List Event → List Event
  | [] => []
  | e :: rest =>
    if e.isBranch then
      if k = 0 then [] else e :: beforeBranch (k - 1) rest
    else e :: beforeBranch k rest

theorem Event.beforeBranch_append {k : Nat} {before : List Event} {e : Event} (rest : List Event)
    (hk : before.countP isBranch = k) (he : e.isBranch = true) :
    beforeBranch k (before ++ e :: rest) = before := by
  induction before generalizing k with
  | nil =>
    subst hk
    simp [beforeBranch, he]
  | cons b before ih =>
    by_cases hb : b.isBranch = true
    · rw [List.countP_cons_of_pos hb] at hk
      have hrest : before.countP isBranch = k - 1 := by omega
      have hne : k ≠ 0 := by omega
      simp [beforeBranch, hb, hne, ih hrest]
    · rw [List.countP_cons_of_neg hb] at hk
      simp [beforeBranch, hb, ih hk]

theorem Event.isTold_of_isBranch {e : Event} (h : e.isBranch = true) : e.isTold = true := by
  cases e with
  | branch l depth => rfl
  | descend side l depth => rfl
  | cut l depth => exact h

/-- An observer is told of every branch, so what it hears is cut off at the same place. -/
theorem Event.filter_beforeBranch (k : Nat) (events : List Event) :
    (beforeBranch k events).filter isTold = beforeBranch k (events.filter isTold) := by
  induction events generalizing k with
  | nil => rfl
  | cons e rest ih =>
    by_cases hb : e.isBranch = true
    · have ht := isTold_of_isBranch hb
      by_cases hk : k = 0
      · simp [beforeBranch, hb, ht, hk]
      · simp [beforeBranch, hb, ht, hk, ih]
    · by_cases ht : e.isTold = true
      · simp [beforeBranch, hb, ht, ih]
      · simp [beforeBranch, hb, ht, ih]

theorem Event.countP_filter_isTold (events : List Event) :
    (events.filter isTold).countP isBranch = events.countP isBranch := by
  rw [List.countP_filter]
  apply List.countP_congr
  intro e _
  simpa using isTold_of_isBranch

namespace Progress

def steps : Progress → Nat
  | running s => s.steps
  | finished e => e.steps

def events : Progress → List Event
  | running s => s.events.reverse
  | finished e => e.events

/-- From some steps and events, the latest first, the search has gone on: it has only added events,
and the steps that it has taken are the branches among them. -/
def Continues (steps : Nat) (events : List Event) (p : Progress) : Prop :=
  ∃ new, p.events = events.reverse ++ new ∧ p.steps = steps + new.countP Event.isBranch

theorem Continues.of_cons {steps : Nat} {events : List Event} {p : Progress} {e : Event}
    (h : p.Continues steps (e :: events)) (he : e.isBranch = false) :
    p.Continues steps events := by
  obtain ⟨new, hevents, hsteps⟩ := h
  refine ⟨e :: new, by simp [hevents], ?_⟩
  rw [hsteps, List.countP_cons_of_neg (by simp [he])]

end Progress

variable {c : Settings} {clock : Nat → Nat} {k : Nat}

namespace State

theorem backtrack_continues (r : Reduction) (steps : Nat) (events : List Event)
    (frames : List Frame) : (backtrack r steps events frames).Continues steps events := by
  induction frames generalizing events with
  | nil => exact ⟨[], by simp [backtrack, Progress.events], rfl⟩
  | cons f rest ih =>
    simp only [backtrack]
    split
    · exact ih events
    · split
      · exact ⟨[.descend .whenFalse f.literal rest.length], by simp [Progress.events], rfl⟩
      · exact (ih _).of_cons rfl

theorem advance_continues (c : Settings) (now : Nat) (s : State) :
    (s.advance c now).Continues s.steps s.events := by
  simp only [advance]
  cases hv : s.current.view c with
  | satisfied => exact ⟨[], by simp [Progress.events], rfl⟩
  | unsatisfiable => exact backtrack_continues _ _ _ _
  | branch l =>
    have hne := Node.assume_ne_of_mem (r := c.reduction) (Node.mem_of_view_branch hv)
    cases c.stop? s.steps now with
    | some reason => exact ⟨[], by simp [Progress.events], rfl⟩
    | none =>
      simp only [branch, Node.reduce_of_assume_ne hne]
      refine ⟨[.branch l s.frames.length, .descend .whenTrue l s.frames.length], ?_, rfl⟩
      simp [Progress.events]

theorem run_continues (c : Settings) (clock : Nat → Nat) (s : State) :
    (Progress.finished (run c clock s)).Continues s.steps s.events := by
  induction hw : s.weight using Nat.strongRecOn generalizing s with
  | ind w ih =>
    have hadv := s.advance_continues c (clock s.steps)
    rw [run_eq_ending]
    cases hnext : s.advance c (clock s.steps) with
    | finished e => exact hnext ▸ hadv
    | running next =>
      obtain ⟨new, hevents, hsteps⟩ := hnext ▸ hadv
      obtain ⟨later, hlater, hcount⟩ := ih _ (hw ▸ weight_lt_of_advance hnext) next rfl
      simp only [Progress.events, Progress.steps] at hevents hsteps hlater hcount
      refine ⟨new ++ later, ?_, ?_⟩
      · simp [Progress.events, hlater, hevents]
      · simp only [Progress.steps, Progress.ending_running, hcount, hsteps, List.countP_append]
        omega

end State

theorem countP_events_run (c : Settings) (clock : Nat → Nat) (root : Node) :
    (run c clock (.start root)).events.countP Event.isBranch =
      (run c clock (.start root)).steps := by
  obtain ⟨new, hevents, hsteps⟩ := State.run_continues c clock (.start root)
  simp only [Progress.events, Progress.steps, State.start, List.reverse_nil, List.nil_append,
    Nat.zero_add] at hevents hsteps ⊢
  rw [hevents, hsteps]

/-- A step is the first thing that an unlimited search does at a node that branches. -/
theorem run_of_branch (hc : c.Unlimited) (clock : Nat → Nat) {s : State} {l : Literal}
    (hv : s.current.view c = .branch l) :
    (∃ rest, (run c clock s).events = s.events.reverse ++ .branch l s.frames.length :: rest) ∧
      s.steps < (run c clock s).steps := by
  have hne := Node.assume_ne_of_mem (r := c.reduction) (Node.mem_of_view_branch hv)
  rw [run_eq_ending]
  simp only [State.advance, hv, Settings.stop?_of_unlimited hc, State.branch,
    Node.reduce_of_assume_ne hne, Progress.ending_running]
  obtain ⟨rest, hevents, hsteps⟩ := State.run_continues c clock
    ⟨s.current.assume c.reduction l, ⟨s.current, l, .whenTrue⟩ :: s.frames, s.steps + 1,
      .descend .whenTrue l s.frames.length :: .branch l s.frames.length :: s.events⟩
  simp only [Progress.events, Progress.steps] at hevents hsteps
  refine ⟨⟨.descend .whenTrue l s.frames.length :: rest, by simp [hevents]⟩, ?_⟩
  omega

theorem State.advance_congr_now (hd : c.deadline = none) (now now' : Nat) (s : State) :
    s.advance c now = s.advance c now' := by
  simp [advance, Settings.stop?, hd]

/-- Searches whose advances agree end alike. -/
theorem run_congr {c' : Settings} {clock' : Nat → Nat}
    (h : ∀ s : State, s.advance c (clock s.steps) = s.advance c' (clock' s.steps)) (s : State) :
    run c clock s = run c' clock' s := by
  induction hw : s.weight using Nat.strongRecOn generalizing s with
  | ind w ih =>
    rw [run_eq_ending c, run_eq_ending c', ← h s]
    cases hnext : s.advance c (clock s.steps) with
    | running next => exact ih _ (hw ▸ State.weight_lt_of_advance hnext) next rfl
    | finished e => rfl

theorem run_congr_clock (hd : c.deadline = none) (clock clock' : Nat → Nat) (s : State) :
    run c clock s = run c clock' s := by
  apply run_congr
  intro s
  exact s.advance_congr_now hd (clock s.steps) (clock' s.steps)

theorem observe_congr_clock (hd : c.deadline = none) (clock clock' : Nat → Nat) (f : Formula)
    (vars : List Nat) : observe c clock f vars = observe c clock' f vars := by
  simp only [observe, run_congr_clock hd clock clock']

def Ending.within (k : Nat) (e : Ending) : Ending :=
  if e.steps ≤ k then e else ⟨.stopped (.stepLimit k), k, Event.beforeBranch k e.events⟩

theorem Ending.within_of_le {e : Ending} (h : e.steps ≤ k) : e.within k = e := if_pos h

theorem Ending.within_of_lt {e : Ending} (h : k < e.steps) :
    e.within k = ⟨.stopped (.stepLimit k), k, Event.beforeBranch k e.events⟩ :=
  if_neg (Nat.not_le_of_lt h)

theorem Settings.stop?_of_stepLimit (hk : c.stepLimit = some k) (hd : c.deadline = none)
    (steps now : Nat) : c.stop? steps now = if k ≤ steps then some (.stepLimit k) else none := by
  simp [stop?, hk, hd]

theorem Settings.stop?_of_le {steps : Nat} (hk : c.stepLimit = some k) (h : k ≤ steps)
    (now : Nat) : c.stop? steps now = some (.stepLimit k) := by
  simp [stop?, hk, h]

theorem Settings.stepLimit_of_stop? {steps now : Nat}
    (h : c.stop? steps now = some (.stepLimit k)) : c.stepLimit = some k ∧ k ≤ steps := by
  unfold stop? at h
  cases hl : c.stepLimit with
  | none => simp [hl] at h
  | some limit =>
    by_cases hle : limit ≤ steps
    · simp only [hl, Option.any_some, decide_eq_true hle, if_true, Option.map_some,
        Option.some.injEq, Error.stepLimit.injEq] at h
      exact ⟨congrArg some h, h ▸ hle⟩
    · simp [hl, hle] at h

theorem State.steps_le_of_advance {now : Nat} {s next : State} (hk : c.stepLimit = some k)
    (hs : s.steps ≤ k) (h : s.advance c now = .running next) : next.steps ≤ k := by
  cases turn_of_advance h with
  | returns back steps => omega
  | @branches l view current above steps =>
    by_cases hlt : s.steps < k
    · omega
    · have hstop := Settings.stop?_of_le hk (Nat.le_of_not_lt hlt) now
      simp [advance, view, hstop] at h

/-- A run under a step limit is what the limit leaves of the run without a budget. -/
theorem run_eq_within (hk : c.stepLimit = some k) (hd : c.deadline = none) (clock : Nat → Nat)
    {s : State} (hs : s.steps ≤ k) (hcount : s.events.countP Event.isBranch = s.steps) :
    run c clock s = (run c.withoutBudget clock s).within k := by
  induction hw : s.weight using Nat.strongRecOn generalizing s with
  | ind w ih =>
    rcases s.advance_eq_or_stopped c (clock s.steps) with hadv | ⟨l, reason, hv, hstop, hadv⟩
    · rw [run_eq_ending c, run_eq_ending c.withoutBudget, ← hadv]
      cases hnext : s.advance c (clock s.steps) with
      | finished e =>
        have hle : e.steps ≤ k := State.steps_of_advance_finished hnext ▸ hs
        exact (Ending.within_of_le hle).symm
      | running next =>
        obtain ⟨new, hevents, hnew⟩ := hnext ▸ s.advance_continues c (clock s.steps)
        simp only [Progress.events, Progress.steps] at hevents hnew
        have hcount' : next.events.countP Event.isBranch = next.steps := by
          rw [← List.countP_reverse, hevents, List.countP_append, List.countP_reverse, hcount, hnew]
        exact ih _ (hw ▸ State.weight_lt_of_advance hnext)
          (State.steps_le_of_advance hk hs hnext) hcount' rfl
    · rw [Settings.stop?_of_stepLimit hk hd] at hstop
      obtain ⟨hle, hreason⟩ := Option.ite_none_right_eq_some.1 hstop
      obtain ⟨⟨rest, hevents⟩, hlt⟩ := run_of_branch c.unlimited_withoutBudget clock hv
      have hsk : s.steps = k := by omega
      have hbefore : Event.beforeBranch k (run c.withoutBudget clock s).events =
          s.events.reverse := by
        rw [hevents]
        exact Event.beforeBranch_append rest (by rw [List.countP_reverse, hcount, hsk]) rfl
      rw [run_eq_ending c, hadv, Progress.ending_finished, Ending.within_of_lt (by omega), hbefore,
        ← Option.some.inj hreason, hsk]

/-- A search without a deadline ends with an answer, or its step limit stops it. -/
theorem solution_or_stepLimit (hd : c.deadline = none) (clock : Nat → Nat) (root : Node) :
    (∃ a, (run c clock (.start root)).solution = .ok a) ∨
      ∃ k, c.stepLimit = some k ∧ (run c clock (.start root)).solution = .error (.stepLimit k) := by
  cases hk : c.stepLimit with
  | none => exact .inl ⟨_, (run_start_of_unlimited ⟨hk, hd⟩ clock root).1⟩
  | some k =>
    rw [run_eq_within hk hd clock (Nat.zero_le k) rfl]
    by_cases hle : (run c.withoutBudget clock (.start root)).steps ≤ k
    · rw [Ending.within_of_le hle]
      exact .inl ⟨_, (run_start_of_unlimited c.unlimited_withoutBudget clock root).1⟩
    · rw [Ending.within_of_lt (Nat.lt_of_not_le hle)]
      exact .inr ⟨k, rfl, rfl⟩

def Settings.InTime (c : Settings) (clock : Nat → Nat) : Prop :=
  ∀ d, c.deadline = some d → ∀ k, clock k < d

theorem Settings.stop?_of_inTime (h : c.InTime clock) (steps k now : Nat) :
    c.stop? steps (clock k) = { c with deadline := none }.stop? steps now := by
  cases hd : c.deadline with
  | none => simp [stop?, hd]
  | some d =>
    have hlate : ¬d ≤ clock k := Nat.not_le_of_lt (h d hd k)
    simp [stop?, hd, hlate]

/-- A deadline that is never reached does nothing. -/
theorem run_of_inTime (h : c.InTime clock) (s : State) :
    run c clock s = run { c with deadline := none } clock s := by
  apply run_congr
  intro s
  have hstop := Settings.stop?_of_inTime h s.steps s.steps (clock s.steps)
  simp only [State.advance, hstop]
  rfl

theorem solve_congr_of_inTime {clock' : Nat → Nat} (h : c.InTime clock) (h' : c.InTime clock')
    (f : Formula) (vars : List Nat) : solve c clock f vars = solve c clock' f vars := by
  have hrun (s : State) : run c clock s = run c clock' s := by
    rw [run_of_inTime h, run_of_inTime h', run_congr_clock rfl clock clock']
  simp only [solve, observe, hrun]

/-- At a root without a branch no step is due, so no budget matters. -/
theorem run_start_of_leaf {root : Node} (hv : ∀ l, root.view c ≠ .branch l)
    (clock : Nat → Nat) : run c clock (.start root) = ⟨match root.view c with
      | .satisfied => .satisfiable []
      | _ => .unsatisfiable, 0, []⟩ := by
  rw [run_eq_ending]
  cases h : root.view c with
  | satisfied => simp [State.start, State.advance, h, State.path]
  | unsatisfiable => simp [State.start, State.advance, h, State.backtrack]
  | branch l => exact absurd h (hv l)

theorem Settings.stop?_of_expired (hk : c.stepLimit ≠ some 0) (hd : c.deadline = some 0)
    (now : Nat) : c.stop? 0 now = some (.timeout 0) := by
  have hopen : c.stepLimit.any (· ≤ 0) = false := by
    cases hl : c.stepLimit with
    | none => rfl
    | some k =>
      have hpos : k ≠ 0 := fun h => hk (by rw [hl, h])
      simpa using hpos
  simp only [stop?, hopen, hd]
  simp

/-- If the deadline has passed at the start, the first step is not taken. -/
theorem run_eq_of_expired (hk : c.stepLimit ≠ some 0) (hd : c.deadline = some 0)
    (clock : Nat → Nat) (root : Node) : run c clock (.start root) =
      if (run c.withoutBudget clock (.start root)).steps = 0
      then run c.withoutBudget clock (.start root) else ⟨.stopped (.timeout 0), 0, []⟩ := by
  by_cases hleaf : ∀ l, root.view c ≠ .branch l
  · rw [run_start_of_leaf hleaf, run_start_of_leaf (c := c.withoutBudget) hleaf]
    rfl
  · obtain ⟨l, hl⟩ := not_forall_not.1 hleaf
    obtain ⟨-, hpos⟩ := run_of_branch (s := .start root) c.unlimited_withoutBudget clock hl
    have hstop := Settings.stop?_of_expired hk hd
    rw [if_neg (Nat.ne_of_gt (Nat.zero_lt_of_lt hpos)), run_eq_ending]
    simp [State.start, State.advance, hl, hstop]

theorem observe_of_root {f : Formula} {vars : List Nat} {root : Node} (h : f.root vars = .ok root)
    (c : Settings) (clock : Nat → Nat) :
    (observe c clock f vars).result =
        (run c clock (.start root)).solution.mapError .error ∧
      (observe c clock f vars).told = (run c clock (.start root)).events.filter Event.isTold := by
  simp [observe, h, Observation.told]

theorem solve_or_stepLimit (h : c.InTime clock) {f : Formula} {vars : List Nat} {root : Node}
    (hroot : f.root vars = .ok root) : (∃ a, solve c clock f vars = .ok a) ∨
      ∃ k, c.stepLimit = some k ∧ solve c clock f vars = .error (.error (.stepLimit k)) := by
  obtain ⟨hresult, -⟩ := observe_of_root hroot c clock
  rw [solve, hresult, run_of_inTime h]
  rcases solution_or_stepLimit (c := { c with deadline := none }) rfl clock root with
    ⟨a, ha⟩ | ⟨k, hk, hstop⟩
  · exact .inl ⟨a, by rw [ha]; rfl⟩
  · exact .inr ⟨k, hk, by rw [hstop]; rfl⟩

/-- Without a budget, the search of accepted input ends with an answer, and what a limited search
gives can be read off that answer and the events on the way to it. -/
theorem budget_truncates (r : Reduction) (s : Selection) (clock clock' : Nat → Nat) {f : Formula}
    {vars : List Nat} {root : Node} (h : f.root vars = .ok root) :
    let c : Settings := { reduction := r, selection := s }
    let free := observe c clock f vars
    ∃ a, free.result = .ok a ∧ free.told.countP Event.isBranch = a.steps ∧
      (∀ k, let limited := observe { c with stepLimit := some k } clock' f vars
        (a.steps ≤ k → limited.result = .ok a ∧ limited.told = free.told) ∧
        (k < a.steps → limited.result = .error (.error (.stepLimit k)) ∧
          limited.told = Event.beforeBranch k free.told)) ∧
      ∀ limit, limit ≠ some 0 →
        let late := observe { c with stepLimit := limit, deadline := some 0 } clock' f vars
        (a.steps = 0 → late.result = .ok a ∧ late.told = free.told) ∧
        (0 < a.steps → late.result = .error (.error (.timeout 0)) ∧ late.told = []) := by
  intro c free
  let e := run c clock (.start root)
  have hsolve := (observe_eq_explore (c := c) ⟨rfl, rfl⟩ clock h).1
  have hsolution : e.solution = .ok _ := solution_of_solve h hsolve
  have hsteps := Ending.steps_of_solution hsolution
  have hsame : run c clock' (.start root) = e := run_congr_clock rfl clock' clock _
  obtain ⟨-, htold⟩ := observe_of_root h c clock
  refine ⟨_, hsolve, ?_, ?_, ?_⟩
  · rw [htold, Event.countP_filter_isTold, countP_events_run, hsteps]
  · intro k limited
    obtain ⟨hresult, hlimited⟩ := observe_of_root h { c with stepLimit := some k } clock'
    have hrun : run { c with stepLimit := some k } clock' (.start root) = e.within k :=
      hsame ▸ run_eq_within rfl rfl clock' (Nat.zero_le k) rfl
    rw [hrun] at hresult hlimited
    constructor
    · intro hle
      rw [Ending.within_of_le (hsteps ▸ hle)] at hresult hlimited
      exact ⟨by rw [hresult, hsolution]; rfl, hlimited.trans htold.symm⟩
    · intro hlt
      rw [Ending.within_of_lt (hsteps ▸ hlt)] at hresult hlimited
      refine ⟨hresult, ?_⟩
      rw [hlimited, Event.filter_beforeBranch, htold]
  · intro limit hlimit late
    let c' : Settings := { c with stepLimit := limit, deadline := some 0 }
    obtain ⟨hresult, hlate⟩ := observe_of_root h c' clock'
    have hrun : run c' clock' (.start root) =
        if e.steps = 0 then e else ⟨.stopped (.timeout 0), 0, []⟩ :=
      hsame ▸ run_eq_of_expired hlimit rfl clock' root
    rw [hrun, ← hsteps] at hresult hlate
    constructor
    · intro hzero
      rw [if_pos hzero] at hresult hlate
      exact ⟨by rw [hresult, hsolution]; rfl, hlate.trans htold.symm⟩
    · intro hpos
      rw [if_neg (Nat.ne_of_gt hpos)] at hresult hlate
      exact ⟨hresult, hlate⟩

/-- The search branches on variables 2 and 1, and on both again after it has gone back to the false
side of the first branch. A limit of 2 stops it there. -/
theorem budget_truncates_after_return :
    let f : Formula := .ofClauses [[.of 1], [.of (-1)], [.of 2], [.of 2]]
    let free := observe {} (fun _ => 0) f [1, 2]
    (∃ root, f.root [1, 2] = .ok root) ∧ free.result = .ok ⟨false, 4, []⟩ ∧
      (observe { stepLimit := some 4 } (fun _ => 7) f [1, 2]).told = free.told ∧
      (observe { stepLimit := some 2 } (fun _ => 7) f [1, 2]).told =
        Event.beforeBranch 2 free.told ∧
      solve { stepLimit := some 2 } (fun _ => 7) f [1, 2] = .error (.error (.stepLimit 2)) ∧
      solve { stepLimit := some 2, deadline := some 0 } (fun _ => 7) f [1, 2] =
        .error (.error (.timeout 0)) := by
  intro f free
  have hroot : f.root [1, 2] = .ok ⟨f.clauses, ⟨3, [1, 2]⟩, [], 2⟩ := rfl
  have hsolve : free.result = .ok ⟨false, 4, []⟩ := by decide +kernel
  obtain ⟨a, ha, -, hlimit, hlate⟩ :=
    budget_truncates .faithful .maxFrequency (fun _ => 0) (fun _ => 7) hroot
  cases ha.symm.trans hsolve
  have htwo := (hlimit 2).2 (by decide)
  exact ⟨⟨_, hroot⟩, hsolve, ((hlimit 4).1 (by decide)).2, htwo.2, htwo.1,
    ((hlate (some 2) (by decide)).2 (by decide)).1⟩

end SatSearch
