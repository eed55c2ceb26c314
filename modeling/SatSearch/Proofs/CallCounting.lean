import SatSearch.Proofs.BranchingDiscipline
import SatSearch.Proofs.BudgetTruncation
import SatSearch.Proofs.SearchBounds

/-!
# The calls of a search account for its steps

Every step of a search opens a branch and descends into its true side. Later the false side of the
branch is descended into, or it is cut, or the search ends while it is still open: so the steps are
the false descents, the cuts and the frames that explore their true side, all together. With strike
nothing is cut.
-/

namespace SatSearch

namespace Event

def descends (side : Side) : Event → Bool
  | .branch _ _ => false
  | .descend s _ _ => s = side
  | .cut _ _ => false

def isCut : Event → Bool
  | .branch _ _ => false
  | .descend _ _ _ => false
  | .cut _ _ => true

end Event

namespace CallCounts

/-- The counts are the numbers of events of their kinds. -/
theorem foldl_add (events : List Event) (n : CallCounts) :
    let m := events.foldl add n
    m.branches = n.branches + events.countP Event.isBranch ∧
      m.trueDescents = n.trueDescents + events.countP (Event.descends .whenTrue) ∧
      m.falseDescents = n.falseDescents + events.countP (Event.descends .whenFalse) := by
  induction events generalizing n with
  | nil => exact ⟨rfl, rfl, rfl⟩
  | cons e events ih =>
    obtain ⟨hbranches, htrue, hfalse⟩ := ih (n.add e)
    simp only [List.foldl_cons, hbranches, htrue, hfalse, List.countP_cons]
    cases e with
    | branch l depth => simp [add, Event.isBranch, Event.descends]; omega
    | descend side l depth =>
      cases side <;> simp [add, Event.isBranch, Event.descends] <;> omega
    | cut l depth => simp [add, Event.isBranch, Event.descends]

/-- The largest depth is that of a branch, or it was given at the start. -/
theorem le_maxDepth_foldl_add (events : List Event) (n : CallCounts) :
    n.maxDepth ≤ (events.foldl add n).maxDepth ∧
      ∀ l depth, .branch l depth ∈ events → depth ≤ (events.foldl add n).maxDepth := by
  induction events generalizing n with
  | nil => simp
  | cons e events ih =>
    obtain ⟨hle, hdepths⟩ := ih (n.add e)
    have hstep : n.maxDepth ≤ (n.add e).maxDepth := by
      cases e with
      | branch l depth => exact Nat.le_max_left _ _
      | descend side l depth => cases side <;> exact Nat.le_refl _
      | cut l depth => exact Nat.le_refl _
    refine ⟨Nat.le_trans hstep hle, ?_⟩
    intro l depth hmem
    rcases List.mem_cons.1 hmem with rfl | hmem
    · exact Nat.le_trans (Nat.le_max_right _ _) hle
    · exact hdepths l depth hmem

/-- Cuts are not counted, so it does not matter that an observer is not told of them. -/
theorem ofEvents_filter_isTold (events : List Event) :
    ofEvents (events.filter Event.isTold) = ofEvents events := by
  have hcut : ∀ (n : CallCounts) (e : Event), e.isTold = false → n.add e = n := by
    intro n e he
    cases e with
    | branch l depth => cases he
    | descend side l depth => cases he
    | cut l depth => rfl
  rw [ofEvents, ofEvents]
  generalize ({} : CallCounts) = n
  induction events generalizing n with
  | nil => rfl
  | cons e events ih =>
    cases he : e.isTold with
    | true => rw [List.filter_cons_of_pos he, List.foldl_cons, List.foldl_cons, ih]
    | false =>
      rw [List.filter_cons_of_neg (by simp [he]), List.foldl_cons, hcut n e he, ih]

end CallCounts

def Ending.framesLeft (e : Ending) (frames : List Frame) : List Frame :=
  match e.verdict with
  | .satisfiable _ => frames
  | .unsatisfiable => []
  | .stopped _ => frames

namespace State

variable {c : Settings} {r : Reduction} {clock : Nat → Nat} {s next : State} {e : Ending}
  {steps k : Nat} {events : List Event} {frames : List Frame} {f : Formula} {vars : List Nat}
  {root : Node}

def last (c : Settings) (clock : Nat → Nat) (s : State) : State :=
  match _h : s.advance c (clock s.steps) with
  | .running next => next.last c clock
  | .finished _ => s
termination_by s.weight
decreasing_by exact weight_lt_of_advance _h

theorem last_of_running (h : s.advance c (clock s.steps) = .running next) :
    s.last c clock = next.last c clock := by
  rw [last]
  split
  · rename_i state hstate
    cases h.symm.trans hstate
    rfl
  · cases h.symm.trans ‹_›

theorem last_of_finished (h : s.advance c (clock s.steps) = .finished e) :
    s.last c clock = s := by
  rw [last]
  split
  · cases h.symm.trans ‹_›
  · rfl

theorem EndsAfter.advance_last (h : s.EndsAfter c clock k e) :
    (s.last c clock).advance c (clock (s.last c clock).steps) = .finished e := by
  induction h with
  | finish h => rwa [last_of_finished h]
  | go h rest ih => rwa [last_of_running h]

/-! ### What the events account for -/

/-- The events account for the steps that have led to some frames: each step has descended into its
true side, and since then that side is being explored, or the false side was descended into or cut.
Every depth at which a frame stands was branched at. -/
structure Accounts (steps : Nat) (events : List Event) (frames : List Frame) : Prop where
  trueDescents : events.countP (Event.descends .whenTrue) = steps
  sides : events.countP (Event.descends .whenFalse) + events.countP Event.isCut +
    openSides frames = steps
  depths : ∀ depth < frames.length, ∃ l, .branch l depth ∈ events

theorem accounts_start (root : Node) :
    Accounts (start root).steps (start root).events (start root).frames where
  trueDescents := rfl
  sides := rfl
  depths := by simp [start]

theorem Accounts.reverse (h : Accounts steps events frames) :
    Accounts steps events.reverse frames where
  trueDescents := by rw [List.countP_reverse, h.trueDescents]
  sides := by rw [List.countP_reverse, List.countP_reverse, h.sides]
  depths depth hlt := by simpa using h.depths depth hlt

variable {g : Frame} {rest : List Frame}

theorem openSides_cons_whenTrue (h : g.side = .whenTrue) :
    openSides (g :: rest) = openSides rest + 1 := List.countP_cons_of_pos (by simp [h])

theorem openSides_cons_whenFalse (h : g.side = .whenFalse) :
    openSides (g :: rest) = openSides rest := List.countP_cons_of_neg (by simp [h])

theorem Accounts.of_whenFalse (h : Accounts steps events (g :: rest))
    (hside : g.side = .whenFalse) : Accounts steps events rest where
  trueDescents := h.trueDescents
  sides := by rw [← openSides_cons_whenFalse hside, h.sides]
  depths depth hlt := h.depths depth (Nat.lt_succ_of_lt hlt)

theorem Accounts.cut (h : Accounts steps events (g :: rest)) (hside : g.side = .whenTrue)
    (l : Literal) (depth : Nat) : Accounts steps (.cut l depth :: events) rest where
  trueDescents := by rw [List.countP_cons_of_neg Bool.false_ne_true, h.trueDescents]
  sides := by
    have hsides := h.sides
    rw [openSides_cons_whenTrue hside] at hsides
    rw [List.countP_cons_of_neg Bool.false_ne_true, List.countP_cons_of_pos rfl]
    omega
  depths depth hlt := by
    obtain ⟨l, hl⟩ := h.depths depth (Nat.lt_succ_of_lt hlt)
    exact ⟨l, List.mem_cons_of_mem _ hl⟩

theorem Accounts.descend (h : Accounts steps events (g :: rest)) (hside : g.side = .whenTrue)
    (l : Literal) (depth : Nat) : Accounts steps (.descend .whenFalse l depth :: events)
      ({ g with side := .whenFalse } :: rest) where
  trueDescents := by rw [List.countP_cons_of_neg Bool.false_ne_true, h.trueDescents]
  sides := by
    have hsides := h.sides
    rw [openSides_cons_whenTrue hside] at hsides
    rw [List.countP_cons_of_pos rfl, List.countP_cons_of_neg Bool.false_ne_true,
      openSides_cons_whenFalse rfl]
    omega
  depths depth hlt := by
    obtain ⟨l, hl⟩ := h.depths depth hlt
    exact ⟨l, List.mem_cons_of_mem _ hl⟩

theorem Accounts.branch (h : Accounts steps events frames) (n : Node) (l : Literal) :
    Accounts (steps + 1)
      (.descend .whenTrue l frames.length :: .branch l frames.length :: events)
      (⟨n, l, .whenTrue⟩ :: frames) where
  trueDescents := by
    rw [List.countP_cons_of_pos rfl, List.countP_cons_of_neg Bool.false_ne_true, h.trueDescents]
  sides := by
    have hsides := h.sides
    iterate 4 rw [List.countP_cons_of_neg Bool.false_ne_true]
    rw [openSides_cons_whenTrue rfl]
    omega
  depths depth hlt := by
    rcases Nat.lt_succ_iff_lt_or_eq.1 hlt with hlt | rfl
    · obtain ⟨k, hk⟩ := h.depths depth hlt
      exact ⟨k, List.mem_cons_of_mem _ (List.mem_cons_of_mem _ hk)⟩
    · exact ⟨l, by simp⟩

end State

def Progress.Accounted (frames : List Frame) : Progress → Prop
  | .running s => State.Accounts s.steps s.events s.frames
  | .finished e => State.Accounts e.steps e.events (e.framesLeft frames)

namespace State

variable {c : Settings} {r : Reduction} {clock : Nat → Nat} {s next : State} {e : Ending}
  {steps k : Nat} {events : List Event} {frames : List Frame} {f : Formula} {vars : List Nat}
  {root : Node}

theorem Accounts.backtrack (h : Accounts steps events frames) (all : List Frame) :
    (backtrack r steps events frames).Accounted all := by
  induction frames generalizing events with
  | nil => exact h.reverse
  | cons g rest ih =>
    simp only [State.backtrack]
    split
    · exact ih (h.of_whenFalse ‹_›)
    · split
      · exact h.descend ‹_› _ _
      · exact ih (h.cut ‹_› _ _)

theorem Accounts.advance (h : Accounts s.steps s.events s.frames) (c : Settings) (now : Nat) :
    (s.advance c now).Accounted s.frames := by
  simp only [State.advance]
  cases hv : s.current.view c with
  | satisfied => exact h.reverse
  | unsatisfiable => exact h.backtrack s.frames
  | branch l =>
    have hne := Node.assume_ne_of_mem (r := c.reduction) (Node.mem_of_view_branch hv)
    cases c.stop? s.steps now with
    | some reason => exact h.reverse
    | none =>
      simp only [State.branch, Node.reduce_of_assume_ne hne]
      exact h.branch s.current l

/-- The events of a whole search account for its steps, down to the frames that it ends with. -/
theorem EndsAfter.accounts (h : s.EndsAfter c clock k e)
    (hs : Accounts s.steps s.events s.frames) :
    Accounts e.steps e.events (e.framesLeft (s.last c clock).frames) := by
  induction h with
  | @finish s e h =>
    have hadv := hs.advance c (clock s.steps)
    rw [h] at hadv
    rwa [last_of_finished h]
  | @go s next k e h rest ih =>
    have hadv := hs.advance c (clock s.steps)
    rw [h] at hadv
    rw [last_of_running h]
    exact ih hadv

/-! ### Strike cuts nothing -/

theorem Occurs.assume_negated_ne_of_strike (h : Occurs c root s) (hr : c.reduction = .strike)
    (hroot : f.root vars = .ok root) {g : Frame} (hg : g ∈ s.frames) :
    g.node.assume c.reduction g.literal.negated ≠ g.node := by
  obtain ⟨above, below, hframes⟩ := List.append_of_mem hg
  have hsuffix : g :: below <:+ s.frames := hframes ▸ List.suffix_append above (g :: below)
  obtain ⟨hbelow, hview⟩ := h.current_below.of_suffix hsuffix
  have hw := (Formula.sound_of_root hroot).wellFormed
  have hres := hbelow.isResidue hw
  rw [hr] at hres
  have hcand := hres.contains_of_strike hw (hbelow.covered_of_view hroot hview)
    (Node.mem_of_view_branch hview)
  exact Node.assume_ne_of_contains (by rwa [Literal.var_negated])

theorem countP_isCut_backtrack (h : ∀ g ∈ frames, g.node.assume r g.literal.negated ≠ g.node) :
    (backtrack r steps events frames).events.countP Event.isCut = events.countP Event.isCut := by
  induction frames with
  | nil => exact List.countP_reverse
  | cons g rest ih =>
    obtain ⟨hg, hrest⟩ := List.forall_mem_cons.1 h
    simp only [backtrack, Node.reduce_of_assume_ne hg]
    split
    · exact ih hrest
    · simp [Progress.events, Event.isCut]

theorem Occurs.countP_isCut_advance (h : Occurs c root s) (hr : c.reduction = .strike)
    (hroot : f.root vars = .ok root) (now : Nat) :
    (s.advance c now).events.countP Event.isCut = s.events.countP Event.isCut := by
  simp only [State.advance]
  cases hv : s.current.view c with
  | satisfied => exact List.countP_reverse
  | unsatisfiable =>
    exact countP_isCut_backtrack fun g hg => h.assume_negated_ne_of_strike hr hroot hg
  | branch l =>
    have hne := Node.assume_ne_of_mem (r := c.reduction) (Node.mem_of_view_branch hv)
    cases c.stop? s.steps now with
    | some reason => exact List.countP_reverse
    | none =>
      simp [State.branch, Node.reduce_of_assume_ne hne, Progress.events, Event.isCut]

theorem EndsAfter.countP_isCut (h : s.EndsAfter c clock k e) (hs : Occurs c root s)
    (hr : c.reduction = .strike) (hroot : f.root vars = .ok root) :
    e.events.countP Event.isCut = s.events.countP Event.isCut := by
  induction h with
  | @finish s e h =>
    have hadv := hs.countP_isCut_advance hr hroot (clock s.steps)
    rwa [h] at hadv
  | @go s next k e h rest ih =>
    have hadv := hs.countP_isCut_advance hr hroot (clock s.steps)
    rw [h, Progress.events, List.countP_reverse] at hadv
    rw [ih (hs.advance h), hadv]

theorem EndsAfter.steps_of_stopped {limit : Nat} (h : s.EndsAfter c clock k e)
    (hs : ∀ limit, c.stepLimit = some limit → s.steps ≤ limit)
    (hv : e.verdict = .stopped (.stepLimit limit)) :
    c.stepLimit = some limit ∧ e.steps = limit := by
  induction h with
  | @finish s e h =>
    cases halt_of_advance h with
    | satisfied verdict steps => cases verdict.symm.trans hv
    | exhausted verdict steps => cases verdict.symm.trans hv
    | stopped stop verdict steps =>
      cases verdict.symm.trans hv
      obtain ⟨hlimit, hle⟩ := Settings.stepLimit_of_stop? stop
      have := hs limit hlimit
      exact ⟨hlimit, by omega⟩
  | @go s next k e h rest ih =>
    refine ih ?_ hv
    intro limit hlimit
    exact steps_le_of_advance hlimit (hs limit hlimit) h

end State

theorem Ending.cases_of_solution {e : Ending} {a : Solution} (h : e.solution = .ok a) :
    (e.verdict = .satisfiable a.decisions ∧ a.satisfiable = true) ∨
      (e.verdict = .unsatisfiable ∧ a.satisfiable = false ∧ a.decisions = []) := by
  unfold solution at h
  cases hv : e.verdict with
  | satisfiable decisions =>
    rw [hv] at h
    cases h
    exact .inl ⟨rfl, rfl⟩
  | unsatisfiable =>
    rw [hv] at h
    cases h
    exact .inr ⟨rfl, rfl, rfl⟩
  | stopped reason =>
    rw [hv] at h
    cases h

/-- The decisions are what the frames assume that are left at the end. -/
theorem State.EndsAfter.decisions_eq {c : Settings} {clock : Nat → Nat} {s : State} {k : Nat}
    {e : Ending} {a : Solution} (h : s.EndsAfter c clock k e) (ha : e.solution = .ok a) :
    a.decisions = State.path (e.framesLeft (s.last c clock).frames) ∧
      e.framesLeft (s.last c clock).frames =
        if a.satisfiable then (s.last c clock).frames else [] := by
  rcases Ending.cases_of_solution ha with ⟨hv, hsat⟩ | ⟨hv, hunsat, hnil⟩
  · have hleft : e.framesLeft (s.last c clock).frames = (s.last c clock).frames := by
      simp only [Ending.framesLeft, hv]
    rw [hleft, hsat]
    refine ⟨?_, rfl⟩
    cases halt_of_advance h.advance_last with
    | satisfied verdict steps => exact Verdict.satisfiable.inj (hv.symm.trans verdict)
    | exhausted verdict steps => cases hv.symm.trans verdict
    | stopped stop verdict steps => cases hv.symm.trans verdict
  · have hleft : e.framesLeft (s.last c clock).frames = [] := by
      simp only [Ending.framesLeft, hv]
    rw [hleft, hunsat, hnil]
    exact ⟨rfl, rfl⟩

theorem Ending.verdict_of_solution_error {e : Ending} {reason : Error}
    (h : e.solution = .error reason) : e.verdict = .stopped reason := by
  unfold solution at h
  cases hv : e.verdict with
  | satisfiable decisions =>
    rw [hv] at h
    cases h
  | unsatisfiable =>
    rw [hv] at h
    cases h
  | stopped other =>
    rw [hv] at h
    cases h
    rfl

theorem error_of_observe {c : Settings} {clock : Nat → Nat} {f : Formula} {vars : List Nat}
    {root : Node} {reason : Error} (h : f.root vars = .ok root)
    (he : (observe c clock f vars).result = .error (.error reason)) :
    (run c clock (.start root)).verdict = .stopped reason := by
  apply Ending.verdict_of_solution_error
  rw [(observe_of_root h c clock).1] at he
  cases hs : (run c clock (.start root)).solution with
  | ok a =>
    rw [hs] at he
    cases he
  | error other =>
    rw [hs] at he
    cases he
    rfl

/-- The observer of a search counts a descent into the true side for each branch. When the search
answers, that is as many as it took steps. Then the descents into a false side and the frames of the
accepting path that explore their true side belong to different branches, and with strike to all of
them. When a step limit stops the search, there were as many branches as the limit. -/
theorem calls_account_for_steps (c : Settings) (clock : Nat → Nat) {f : Formula} {vars : List Nat}
    {root : Node} (h : f.root vars = .ok root) :
    let o := observe c clock f vars
    let calls := CallCounts.ofEvents o.told
    calls.trueDescents = calls.branches ∧
      (∀ a, o.result = .ok a →
        let accepting := if a.satisfiable then ((State.start root).last c clock).frames else []
        a.decisions = State.path accepting ∧ calls.branches = a.steps ∧
          calls.falseDescents + State.openSides accepting ≤ a.steps ∧
          (c.reduction = .strike → calls.falseDescents + State.openSides accepting = a.steps) ∧
          (0 < a.steps → a.decisions.length ≤ calls.maxDepth + 1)) ∧
      ∀ k, o.result = .error (.error (.stepLimit k)) →
        c.stepLimit = some k ∧ calls.branches = k := by
  intro o calls
  let e := run c clock (.start root)
  obtain ⟨k, hends, -⟩ := State.exists_endsAfter c clock (.start root)
  have haccounts : State.Accounts e.steps e.events
      (e.framesLeft ((State.start root).last c clock).frames) :=
    hends.accounts (State.accounts_start root)
  obtain ⟨-, htold⟩ := observe_of_root h c clock
  have hcalls : calls = CallCounts.ofEvents e.events := by
    rw [← CallCounts.ofEvents_filter_isTold, ← htold]
  obtain ⟨hbranches, htrue, hfalse⟩ : calls.branches = e.steps ∧ calls.trueDescents = e.steps ∧
      calls.falseDescents = e.events.countP (Event.descends .whenFalse) := by
    obtain ⟨hb, ht, hf⟩ := CallCounts.foldl_add e.events {}
    rw [hcalls, CallCounts.ofEvents, hb, ht, hf, countP_events_run, haccounts.trueDescents]
    simp [e]
  refine ⟨htrue.trans hbranches.symm, ?_, ?_⟩
  · intro a ha accepting
    have hsolution := solution_of_solve h ha
    have hsteps : a.steps = e.steps := Ending.steps_of_solution hsolution
    obtain ⟨hdecisions, hleft⟩ : a.decisions = State.path (e.framesLeft _) ∧
        e.framesLeft _ = accepting := hends.decisions_eq hsolution
    rw [hleft] at hdecisions haccounts
    have hsides := haccounts.sides
    refine ⟨hdecisions, hbranches.trans hsteps.symm, by omega, ?_, ?_⟩
    · intro hr
      have hcut : e.events.countP Event.isCut = 0 := hends.countP_isCut .start hr h
      omega
    · intro _
      have hlength : a.decisions.length = accepting.length := by simp [hdecisions, State.path]
      cases hframes : accepting.length with
      | zero => omega
      | succ depth =>
        obtain ⟨l, hl⟩ := haccounts.depths depth (by omega)
        have hle : depth ≤ calls.maxDepth :=
          hcalls ▸ (CallCounts.le_maxDepth_foldl_add e.events {}).2 l depth hl
        omega
  · intro limit hlimit
    have hstopped := hends.steps_of_stopped (fun _ _ => Nat.zero_le _) (error_of_observe h hlimit)
    exact ⟨hstopped.1, hbranches.trans hstopped.2⟩

/-- The true side of the first branch fails on both sides of the second one. On the accepting path
the first frame explores its false side and the last one its true side. -/
theorem calls_account_for_steps_after_return :
    let f : Formula := .ofClauses [[.of 1, .of 2], [.of (-1), .of 3], [.of (-1), .of (-3)]]
    let root : Node := ⟨f.clauses, ⟨4, [1, 2, 3]⟩, [], 3⟩
    let c : Settings := { reduction := .strike, selection := .firstLiteral }
    let o := observe c (fun _ => 0) f [1, 2, 3]
    let calls := CallCounts.ofEvents o.told
    let limited := observe { c with stepLimit := some 2 } (fun _ => 0) f [1, 2, 3]
    f.root [1, 2, 3] = .ok root ∧ o.result = .ok ⟨true, 3, [.of (-1), .of 2]⟩ ∧
      calls.branches = 3 ∧
      calls.falseDescents +
        State.openSides ((State.start root).last c (fun _ => 0)).frames = 3 ∧
      2 ≤ calls.maxDepth + 1 ∧ (CallCounts.ofEvents limited.told).branches = 2 := by
  intro f root c o calls limited
  have hroot : f.root [1, 2, 3] = .ok root := rfl
  have hresult : o.result = .ok ⟨true, 3, [.of (-1), .of 2]⟩ := by decide +kernel
  have hlimited : limited.result = .error (.error (.stepLimit 2)) := by decide +kernel
  obtain ⟨-, hanswer, -⟩ := calls_account_for_steps c (fun _ => 0) hroot
  obtain ⟨-, hbranches, -, hall, hdepth⟩ := hanswer _ hresult
  obtain ⟨-, -, hstopped⟩ :=
    calls_account_for_steps { c with stepLimit := some 2 } (fun _ => 0) hroot
  exact ⟨hroot, hresult, hbranches, hall rfl, hdepth (by decide), (hstopped 2 hlimited).2⟩

end SatSearch
