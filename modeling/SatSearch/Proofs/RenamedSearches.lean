import SatSearch.Proofs.BudgetTruncation
import SatSearch.Proofs.VariableRenaming
import Mathlib.Data.List.Forall2
import Mathlib.Data.List.Sort

/-!
# Searches for renamed formulas

A search never looks at the number of a variable. Renaming the variables of a formula and of its
candidates renames what the search reports, and changes nothing else: the two searches go on in
step, each state of one being the renamed state of the other.

The candidates of the two are related only as sets. Which of them stand in the row of bits and which
beyond it depends on their numbers and on the bound, so the case in which no variable changes its
number says that neither the bound nor the order of the candidates matters.
-/

namespace SatSearch

variable {ρ : Renaming}

namespace CandidateSet

structure Renamed (ρ : Renaming) (s t : CandidateSet) : Prop where
  wellFormed : s.WellFormed ∧ t.WellFormed
  contains_iff (w : Nat) : t.contains w = true ↔ ∃ v, s.contains v = true ∧ ρ.var v = w

namespace Renamed

variable {s t : CandidateSet}

theorem contains_var (h : s.Renamed ρ t) (v : Nat) : t.contains (ρ.var v) = s.contains v := by
  rw [Bool.eq_iff_iff, h.contains_iff]
  constructor
  · rintro ⟨w, hw, hwv⟩
    rwa [← Renaming.var_injective hwv]
  · exact fun hv => ⟨v, hv, rfl⟩

theorem isEmpty_eq (h : s.Renamed ρ t) : t.isEmpty = s.isEmpty := by
  rw [Bool.eq_iff_iff, CandidateSet.isEmpty_iff h.wellFormed.1,
    CandidateSet.isEmpty_iff h.wellFormed.2]
  constructor
  · intro hall v
    rw [← h.contains_var]
    exact hall _
  · intro hall w
    rw [← Bool.not_eq_true, h.contains_iff]
    rintro ⟨v, hv, -⟩
    simp [hall v] at hv

theorem erase (h : s.Renamed ρ t) (v : Nat) : (s.erase v).Renamed ρ (t.erase (ρ.var v)) where
  wellFormed := ⟨wellFormed_erase h.wellFormed.1 v, wellFormed_erase h.wellFormed.2 _⟩
  contains_iff w := by
    rw [contains_erase h.wellFormed.2, h.contains_iff]
    constructor
    · rintro ⟨hne, u, hu, rfl⟩
      exact ⟨u, (contains_erase h.wellFormed.1).2 ⟨fun he => hne (he ▸ rfl), hu⟩, rfl⟩
    · rintro ⟨u, hu, rfl⟩
      obtain ⟨hne, hu⟩ := (contains_erase h.wellFormed.1).1 hu
      exact ⟨fun he => hne (Renaming.var_injective he), u, hu, rfl⟩

end Renamed

theorem renamed_of_ofListBounded {vars vars' : List Nat} {bound bound' : Nat} {s t : CandidateSet}
    (hs : ofListBounded vars bound = .ok s) (ht : ofListBounded vars' bound' = .ok t)
    (h : ∀ w, w ∈ vars' ↔ ∃ v ∈ vars, ρ.var v = w) : s.Renamed ρ t where
  wellFormed := ⟨wellFormed_of_ofListBounded hs, wellFormed_of_ofListBounded ht⟩
  contains_iff w := by simp only [contains_of_ofListBounded hs, contains_of_ofListBounded ht, h]

end CandidateSet

namespace Reduction

theorem clause?_renamed (r : Reduction) (l : Literal) (c : Clause) :
    r.clause? (ρ.literal l) (ρ.clause c) = (r.clause? l c).map ρ.clause := by
  simp only [clause?, List.contains_eq_mem, Renaming.mem_clause_iff, ← Renaming.literal_negated,
    Renaming.without_clause]
  split
  · rfl
  · cases r <;> rfl

theorem touches_renamed (r : Reduction) (l : Literal) (c : Clause) :
    r.touches (ρ.literal l) (ρ.clause c) = r.touches l c := by
  simp only [touches, List.contains_eq_mem, Renaming.mem_clause_iff, ← Renaming.literal_negated]

end Reduction

namespace Renaming

variable (ρ)

def view : NodeView → NodeView
  | .satisfied => .satisfied
  | .unsatisfiable => .unsatisfiable
  | .branch l => .branch (ρ.literal l)

def event : Event → Event
  | .branch l depth => .branch (ρ.literal l) depth
  | .descend side l depth => .descend side (ρ.literal l) depth
  | .cut l depth => .cut (ρ.literal l) depth

def error : Error → Error
  | .invalidVariable v => .invalidVariable (ρ.var v)
  | .missingCandidate v => .missingCandidate (ρ.var v)
  | e => e

def failure : Failure → Failure
  | .error e => .error (ρ.error e)
  | .fault f => .fault f

def verdict : Verdict → Verdict
  | .satisfiable decisions => .satisfiable (decisions.map ρ.literal)
  | .unsatisfiable => .unsatisfiable
  | .stopped reason => .stopped (ρ.error reason)

def ending (e : Ending) : Ending := ⟨ρ.verdict e.verdict, e.steps, e.events.map ρ.event⟩

/-- The result with its decisions renamed; the verdict and the number of steps stay. -/
def result : Except Failure Solution → Except Failure Solution
  | .ok a => .ok { a with decisions := a.decisions.map ρ.literal }
  | .error e => .error (ρ.failure e)

variable {ρ}

theorem isTold_event (e : Event) : (ρ.event e).isTold = e.isTold := by
  cases e <;> rfl

theorem error_of_stop? {c : Settings} {steps now : Nat} {e : Error}
    (h : c.stop? steps now = some e) : ρ.error e = e := by
  unfold Settings.stop? at h
  split at h
  · obtain ⟨k, -, rfl⟩ := Option.map_eq_some_iff.1 h
    rfl
  · split at h
    · cases h
      rfl
    · cases h

theorem solution_ending (e : Ending) :
    (ρ.ending e).solution.mapError .error = ρ.result (e.solution.mapError .error) := by
  obtain ⟨verdict, steps, events⟩ := e
  cases verdict <;> rfl

end Renaming

namespace Node

structure Renamed (ρ : Renaming) (n m : Node) : Prop where
  clauses_eq : m.clauses = n.clauses.map ρ.clause
  candidates : n.candidates.Renamed ρ m.candidates

namespace Renamed

variable {n m : Node}

theorem view_eq (h : n.Renamed ρ m) (c : Settings) : m.view c = ρ.view (n.view c) := by
  have hnil : [] ∈ n.clauses.map ρ.clause ↔ [] ∈ n.clauses := by simp [Renaming.clause]
  simp only [Node.view_eq, h.clauses_eq, h.candidates.isEmpty_eq, List.map_eq_nil_iff, hnil,
    Selection.pick_map_clause]
  split
  · rfl
  · split
    · rfl
    · cases c.selection.pick n.clauses <;> rfl

theorem assume (h : n.Renamed ρ m) (r : Reduction) (l : Literal) :
    (n.assume r l).Renamed ρ (m.assume r (ρ.literal l)) where
  clauses_eq := by
    simp only [Node.assume, h.clauses_eq, List.filterMap_map, List.map_filterMap,
      Function.comp_def, Reduction.clause?_renamed]
  candidates := by
    rw [Node.assume, Node.assume, Renaming.var_literal]
    exact h.candidates.erase l.var

theorem changes_eq (h : n.Renamed ρ m) (r : Reduction) (l : Literal) :
    m.changes r (ρ.literal l) = n.changes r l := by
  rw [changes, changes, h.clauses_eq, Renaming.var_literal, h.candidates.contains_var,
    List.any_map]
  simp only [Function.comp_def, Reduction.touches_renamed]

/-- A side of a branch is a node of its own for both nodes or for neither. -/
theorem reduce_cases (h : n.Renamed ρ m) (r : Reduction) (l : Literal) :
    (n.reduce r l = none ∧ m.reduce r (ρ.literal l) = none) ∨
      ∃ child child', n.reduce r l = some child ∧ m.reduce r (ρ.literal l) = some child' ∧
        child.Renamed ρ child' := by
  have hchanges := h.changes_eq r l
  cases hn : n.changes r l with
  | false => exact .inl ⟨by simp [reduce, hn], by simp [reduce, hchanges, hn]⟩
  | true =>
    exact .inr ⟨_, _, by simp [reduce, hn], by simp [reduce, hchanges, hn], h.assume r l⟩

end Renamed

end Node

structure Frame.Renamed (ρ : Renaming) (f g : Frame) : Prop where
  node : f.node.Renamed ρ g.node
  literal_eq : g.literal = ρ.literal f.literal
  side_eq : g.side = f.side

theorem Frame.Renamed.assumed_eq {f g : Frame} (h : f.Renamed ρ g) :
    g.assumed = ρ.literal f.assumed := by
  rw [assumed, assumed, h.side_eq, h.literal_eq]
  cases f.side with
  | whenTrue => rfl
  | whenFalse => exact (Renaming.literal_negated f.literal).symm

/-- The second search stands where the first one does, up to the names of the variables. -/
structure State.Renamed (ρ : Renaming) (s t : State) : Prop where
  current : s.current.Renamed ρ t.current
  frames : List.Forall₂ (Frame.Renamed ρ) s.frames t.frames
  steps_eq : t.steps = s.steps
  events_eq : t.events = s.events.map ρ.event

inductive Progress.Renamed (ρ : Renaming) : Progress → Progress → Prop where
  | running {s t : State} (h : s.Renamed ρ t) : Renamed ρ (.running s) (.running t)
  | finished (e : Ending) : Renamed ρ (.finished e) (.finished (ρ.ending e))

namespace State

theorem path_renamed {frames frames' : List Frame}
    (h : List.Forall₂ (Frame.Renamed ρ) frames frames') :
    path frames' = (path frames).map ρ.literal := by
  induction h with
  | nil => rfl
  | cons hf _ ih =>
    rw [path_cons, path_cons, ih, hf.assumed_eq, List.map_append, List.map_singleton]

theorem backtrack_renamed {frames frames' : List Frame}
    (h : List.Forall₂ (Frame.Renamed ρ) frames frames') (r : Reduction) (steps : Nat)
    (events : List Event) : (backtrack r steps events frames).Renamed ρ
      (backtrack r steps (events.map ρ.event) frames') := by
  induction h generalizing events with
  | nil =>
    rw [backtrack, backtrack, ← List.map_reverse]
    exact .finished _
  | @cons f g rest rest' hf hrest ih =>
    have hdepth := hrest.length_eq
    rw [backtrack, backtrack, hf.side_eq]
    cases f.side with
    | whenFalse => exact ih events
    | whenTrue =>
      rw [hf.literal_eq, ← Renaming.literal_negated, ← hdepth]
      rcases hf.node.reduce_cases r f.literal.negated with ⟨hn, hm⟩ | ⟨child, child', hn, hm, hc⟩
      · simp only [hn, hm]
        exact ih (.cut f.literal rest.length :: events)
      · simp only [hn, hm]
        exact .running ⟨hc, .cons ⟨hf.node, rfl, rfl⟩ hrest, rfl, rfl⟩

variable {s t : State}

theorem Renamed.branch (h : s.Renamed ρ t) (r : Reduction) (l : Literal) :
    (s.branch r l).Renamed ρ (t.branch r (ρ.literal l)) := by
  have hframe : Frame.Renamed ρ ⟨s.current, l, .whenTrue⟩ ⟨t.current, ρ.literal l, .whenTrue⟩ :=
    ⟨h.current, rfl, rfl⟩
  have hdepth := h.frames.length_eq
  simp only [State.branch, h.steps_eq, h.events_eq, ← hdepth]
  rcases h.current.reduce_cases r l with ⟨hn, hm⟩ | ⟨child, child', hn, hm, hc⟩
  · simp only [hn, hm]
    exact backtrack_renamed (.cons hframe h.frames) r _ (.branch l s.frames.length :: s.events)
  · simp only [hn, hm]
    exact .running ⟨hc, .cons hframe h.frames, rfl, rfl⟩

/-- One advance keeps the two searches in step. -/
theorem Renamed.advance (h : s.Renamed ρ t) (c : Settings) (now : Nat) :
    (s.advance c now).Renamed ρ (t.advance c now) := by
  simp only [State.advance, h.current.view_eq]
  cases hv : s.current.view c with
  | satisfied =>
    simp only [Renaming.view, path_renamed h.frames, h.steps_eq, h.events_eq, ← List.map_reverse]
    exact .finished _
  | unsatisfiable =>
    simp only [Renaming.view, h.steps_eq, h.events_eq]
    exact backtrack_renamed h.frames c.reduction s.steps s.events
  | branch l =>
    simp only [Renaming.view, h.steps_eq]
    cases hstop : c.stop? s.steps now with
    | none => exact h.branch c.reduction l
    | some reason =>
      simp only [h.events_eq, ← List.map_reverse]
      have hreason : ρ.error reason = reason := Renaming.error_of_stop? hstop
      have hending := Progress.Renamed.finished (ρ := ρ)
        ⟨.stopped reason, s.steps, s.events.reverse⟩
      rwa [Renaming.ending, Renaming.verdict, hreason] at hending

/-- Searches that stand at the same place end in the same way, up to the names of the variables. -/
theorem Renamed.run_eq (h : s.Renamed ρ t) (c : Settings) (clock : Nat → Nat) :
    run c clock t = ρ.ending (run c clock s) := by
  induction hw : s.weight using Nat.strongRecOn generalizing s t with
  | ind w ih =>
    have hadv := h.advance c (clock s.steps)
    rw [run_eq_ending c clock t, run_eq_ending c clock s, h.steps_eq]
    cases hs : s.advance c (clock s.steps) with
    | running next =>
      rw [hs] at hadv
      generalize t.advance c (clock s.steps) = progress at hadv
      cases hadv with
      | running hnext => exact ih _ (hw ▸ weight_lt_of_advance hs) hnext rfl
    | finished e =>
      rw [hs] at hadv
      generalize t.advance c (clock s.steps) = progress at hadv
      cases hadv with
      | finished => rfl

end State

theorem Node.Renamed.start {n m : Node} (h : n.Renamed ρ m) :
    (State.start n).Renamed ρ (.start m) := ⟨h, .nil, rfl, rfl⟩

namespace Formula

variable {f g : Formula} {s t : CandidateSet}

theorem missingCandidate?_renamed (hclauses : g.clauses = f.clauses.map ρ.clause)
    (h : s.Renamed ρ t) : g.missingCandidate? t = (f.missingCandidate? s).map ρ.var := by
  have hvars : g.literals.map Literal.var = (f.literals.map Literal.var).map ρ.var := by
    simp only [literals, hclauses, Renaming.literalsOf_map_clause, List.map_map, Function.comp_def,
      Renaming.var_literal]
  simp only [missingCandidate?, h.isEmpty_eq, hvars, List.find?_map, Function.comp_def,
    h.contains_var]
  split <;> rfl

/-- From renamed candidates, a renamed formula is decided in the same way. -/
theorem observe_of_renamed {vars vars' : List Nat}
    (hs : CandidateSet.ofListBounded vars f.numVars = .ok s)
    (ht : CandidateSet.ofListBounded vars' g.numVars = .ok t) (h : s.Renamed ρ t)
    (hclauses : g.clauses = f.clauses.map ρ.clause) (c : Settings) (clock : Nat → Nat) :
    (observe c clock g vars').result = ρ.result (observe c clock f vars).result ∧
      (observe c clock g vars').events = (observe c clock f vars).events.map ρ.event := by
  have hmissing := missingCandidate?_renamed hclauses h
  cases hf : f.missingCandidate? s with
  | some v =>
    rw [hf] at hmissing
    have hroot : f.root vars = .error (.error (.missingCandidate v)) := by
      simp only [root, hs, hf, bind, Except.bind]
    have hroot' : g.root vars' = .error (.error (.missingCandidate (ρ.var v))) := by
      simp only [root, ht, hmissing, Option.map_some, bind, Except.bind]
    constructor
    · simp only [observe, hroot, hroot']
      rfl
    · simp only [observe, hroot, hroot', List.map_nil]
  | none =>
    rw [hf] at hmissing
    have hroot : f.root vars = .ok ⟨f.clauses, s⟩ := root_eq_ok_iff.2 ⟨hs, hf, rfl⟩
    have hroot' : g.root vars' = .ok ⟨g.clauses, t⟩ := root_eq_ok_iff.2 ⟨ht, hmissing, rfl⟩
    have hrun := (Node.Renamed.start (n := ⟨f.clauses, s⟩) (m := ⟨g.clauses, t⟩)
      ⟨hclauses, h⟩).run_eq c clock
    constructor
    · simp only [observe, hroot, hroot', hrun, Renaming.solution_ending]
    · simp only [observe, hroot, hroot', hrun]
      rfl

end Formula

/-- A list of candidates and its renamed list are refused for the same reason, or accepted both. -/
theorem CandidateSet.ofListBounded_renamed (ρ : Renaming) (vars : List Nat) {bound bound' : Nat}
    (hroom : bound < maxCount ↔ bound' < maxCount) :
    (∃ e, ofListBounded vars bound = .error e ∧
        ofListBounded (vars.map ρ.var) bound' = .error (ρ.failure e)) ∨
      ∃ s t, ofListBounded vars bound = .ok s ∧ ofListBounded (vars.map ρ.var) bound' = .ok t ∧
        s.Renamed ρ t := by
  have hkeep (v : Nat) : isVariable (ρ.var v) = isVariable v := by
    have hiff := Renaming.var_mem_iff (ρ := ρ) (v := v)
    simpa only [isVariable, ← Bool.decide_and, decide_eq_decide] using hiff
  have hfind : (vars.map ρ.var).find? (!isVariable ·) =
      (vars.find? (!isVariable ·)).map ρ.var := by
    simp only [List.find?_map, Function.comp_def, hkeep]
  cases hbad : vars.find? (!isVariable ·) with
  | some v =>
    rw [hbad] at hfind
    refine .inl ⟨.error (.invalidVariable v), ?_, ?_⟩
    · simp only [ofListBounded, hbad]
    · simp only [ofListBounded, hfind]
      rfl
  | none =>
    rw [hbad] at hfind
    by_cases hb : bound < maxCount
    · have hvars : ∀ v ∈ vars, isVariable v = true := by simpa using hbad
      have hvars' : ∀ v ∈ vars.map ρ.var, isVariable v = true := by
        intro w hw
        obtain ⟨v, hv, rfl⟩ := List.mem_map.1 hw
        rw [hkeep]
        exact hvars v hv
      have hs := ofListBounded_eq_ok_iff.2 ⟨hvars, hb, rfl⟩
      have ht := ofListBounded_eq_ok_iff.2 ⟨hvars', hroom.1 hb, rfl⟩
      exact .inr ⟨_, _, hs, ht, renamed_of_ofListBounded hs ht fun w => List.mem_map⟩
    · have hfull : addCounts bound 1 = .error .addOverflow :=
        if_neg fun hle => hb (Nat.lt_of_succ_le hle)
      have hfull' : addCounts bound' 1 = .error .addOverflow :=
        if_neg fun hle => hb (hroom.2 (Nat.lt_of_succ_le hle))
      refine .inl ⟨.fault .addOverflow, ?_, ?_⟩
      · simp only [ofListBounded, hbad, hfull]
      · simp only [ofListBounded, hfind, Option.map_none, hfull']
        rfl

/-- Renaming the variables of a formula and of its candidates renames the decisions, the events and
the variable that an error may name, and changes nothing else about a search without a deadline. The
number of variables of the formula may be any, so long as it has room in both cases or in neither. -/
theorem observe_renamed (ρ : Renaming) (r : Reduction) (s : Selection) (limit : Option Nat)
    (clock clock' : Nat → Nat) {f g : Formula} (vars : List Nat)
    (hclauses : g.clauses = f.clauses.map ρ.clause)
    (hroom : f.numVars < maxCount ↔ g.numVars < maxCount) :
    let c : Settings := { reduction := r, selection := s, stepLimit := limit }
    let o := observe c clock f vars
    let o' := observe c clock' g (vars.map ρ.var)
    o'.result = ρ.result o.result ∧ o'.told = o.told.map ρ.event := by
  intro c o o'
  have hclock : o' = observe c clock g (vars.map ρ.var) := observe_congr_clock rfl clock' clock g _
  rw [hclock]
  rcases CandidateSet.ofListBounded_renamed ρ vars hroom with ⟨e, hs, ht⟩ | ⟨s, t, hs, ht, h⟩
  · have hroot : f.root vars = .error e := by simp only [Formula.root, hs, bind, Except.bind]
    have hroot' : g.root (vars.map ρ.var) = .error (ρ.failure e) := by
      simp only [Formula.root, ht, bind, Except.bind]
    constructor
    · simp only [o, observe, hroot, hroot']
      rfl
    · simp only [o, Observation.told, observe, hroot, hroot', List.filter_nil, List.map_nil]
  · obtain ⟨hresult, hevents⟩ := Formula.observe_of_renamed hs ht h hclauses c clock
    refine ⟨hresult, ?_⟩
    rw [Observation.told, hevents, List.filter_map, Observation.told]
    simp only [Function.comp_def, Renaming.isTold_event]
    rfl

/-- Two variables trade their numbers, one of them beyond any bound, and a third one its sign. The
literals tie in number all the same. -/
theorem observe_renamed_two_clauses :
    let ρ : Renaming :=
      { number := fun v => if v = 1 then maxVar else if v = maxVar then 1 else v
        flips := fun v => v = 2
        number_mem := fun v hv => by simp only [maxVar] at hv ⊢; grind
        number_inj := fun v w hv hw h => by simp only [maxVar] at hv hw h; grind }
    let f : Formula := ⟨[[.of 1, .of 2], [.of (-2)]], 2⟩
    let g : Formula := ⟨[[.of 2147483647, .of (-2)], [.of 2]], 2⟩
    g.clauses = f.clauses.map ρ.clause ∧ (f.numVars < maxCount ↔ g.numVars < maxCount) ∧
      solve {} (fun _ => 0) f [1, 2] = .ok ⟨true, 2, [.of 1, .of (-2)]⟩ ∧
      solve {} (fun _ => 7) g [2147483647, 2] = .ok ⟨true, 2, [.of 2147483647, .of 2]⟩ := by
  intro ρ f g
  have hclauses : g.clauses = f.clauses.map ρ.clause := by decide +kernel
  have hroom : f.numVars < maxCount ↔ g.numVars < maxCount := Iff.rfl
  have hf : solve {} (fun _ => 0) f [1, 2] = .ok ⟨true, 2, [.of 1, .of (-2)]⟩ := by decide +kernel
  obtain ⟨hresult, -⟩ := observe_renamed ρ .faithful .maxFrequency none (fun _ => 0) (fun _ => 7)
    [1, 2] hclauses hroom
  have hg : ρ.result (.ok ⟨true, 2, [.of 1, .of (-2)]⟩) =
      .ok ⟨true, 2, [.of 2147483647, .of 2]⟩ := by decide +kernel
  exact ⟨hclauses, hroom, hf, (hresult.trans (congrArg ρ.result hf)).trans hg⟩

def Renaming.refl : Renaming := ⟨fun v => v, fun _ => false, fun _ h => h, fun _ _ _ _ h => h⟩

namespace Renaming

theorem var_refl : refl.var = id := by
  funext v
  exact ite_self v

theorem literal_refl : refl.literal = id := by
  funext l
  by_cases h : l.var ≤ maxVar
  · apply Literal.eq_of_var_eq
    · rw [var_literal, var_refl]
      rfl
    · rw [isPositive_literal h]
      exact Bool.bne_false _
  · exact dif_neg h

theorem clause_refl : refl.clause = id := by
  funext c
  rw [clause, literal_refl]
  exact List.map_id c

theorem event_refl : refl.event = id := by
  funext e
  cases e <;> simp only [event, literal_refl, id_eq]

theorem result_refl (result : Except Failure Solution) : refl.result result = result := by
  rcases result with (e | f) | ⟨verdict, steps, decisions⟩
  · cases e <;> simp only [Renaming.result, failure, error, var_refl, id_eq]
  · rfl
  · simp only [Renaming.result, literal_refl, List.map_id]

end Renaming

/-- The members of a set are listed in ascending order, so equal sets list them alike. -/
theorem CandidateSet.Renamed.members_eq {s t : CandidateSet} (h : s.Renamed .refl t) :
    t.members = s.members := by
  apply h.wellFormed.2.ascending.eq_of_mem_iff h.wellFormed.1.ascending
  intro v
  have hv := h.contains_var v
  rw [Renaming.var_refl, id_eq] at hv
  rw [← CandidateSet.contains_iff h.wellFormed.2, ← CandidateSet.contains_iff h.wellFormed.1, hv]

theorem CandidateSet.Renamed.size_eq {s t : CandidateSet} (h : s.Renamed .refl t) :
    t.size = s.size := by
  rw [h.wellFormed.1.size_eq, h.wellFormed.2.size_eq, h.members_eq]

theorem Formula.opening_of_ofListBounded {f : Formula} {vars : List Nat} {s : CandidateSet}
    (hs : CandidateSet.ofListBounded vars f.numVars = .ok s) (c : Settings) (clock : Nat → Nat) :
    (observe c clock f vars).opening = match f.missingCandidate? s with
      | some _ => none
      | none => some ⟨f.clauses.length, s.size, f.unusedCandidates? s⟩ := by
  cases hf : f.missingCandidate? s with
  | some v => simp only [observe, root, hs, hf, bind, Except.bind]
  | none => simp only [observe, root, hs, hf, bind, Except.bind, pure, Except.pure]

/-- The candidates matter only as a set, and the number of variables only in that it leaves room: a
search without a deadline reports the same from its first warning to its answer. -/
theorem observe_congr_candidates (r : Reduction) (s : Selection) (limit : Option Nat)
    (clock clock' : Nat → Nat) {f g : Formula} {vars vars' : List Nat}
    (hclauses : g.clauses = f.clauses) (hf : f.numVars < maxCount) (hg : g.numVars < maxCount)
    (hvars : ∀ v ∈ vars, 0 < v ∧ v ≤ maxVar) (hsame : ∀ v, v ∈ vars' ↔ v ∈ vars) :
    let c : Settings := { reduction := r, selection := s, stepLimit := limit }
    observe c clock' g vars' = observe c clock f vars := by
  intro c
  rw [observe_congr_clock rfl clock' clock]
  have hvalid : ∀ v ∈ vars, CandidateSet.isVariable v = true := by
    intro v hv
    simp [CandidateSet.isVariable, hvars v hv]
  have hvalid' : ∀ v ∈ vars', CandidateSet.isVariable v = true :=
    fun v hv => hvalid v ((hsame v).1 hv)
  have hs := CandidateSet.ofListBounded_eq_ok_iff.2 ⟨hvalid, hf, rfl⟩
  have ht := CandidateSet.ofListBounded_eq_ok_iff.2 ⟨hvalid', hg, rfl⟩
  have h := CandidateSet.renamed_of_ofListBounded (ρ := .refl) hs ht fun w => by
    simp only [Renaming.var_refl, id_eq, exists_eq_right, hsame]
  have hrenamed : g.clauses = f.clauses.map Renaming.refl.clause := by
    rw [hclauses, Renaming.clause_refl, List.map_id]
  obtain ⟨hresult, hevents⟩ := Formula.observe_of_renamed hs ht h hrenamed c clock
  rw [Renaming.result_refl] at hresult
  rw [Renaming.event_refl, List.map_id] at hevents
  have hopening : (observe c clock g vars').opening = (observe c clock f vars).opening := by
    have hmissing := Formula.missingCandidate?_renamed hrenamed h
    rw [Renaming.var_refl, Option.map_id, id_eq] at hmissing
    rw [Formula.opening_of_ofListBounded hs, Formula.opening_of_ofListBounded ht, hmissing,
      h.size_eq]
    simp only [Formula.unusedCandidates?, Formula.vars, Formula.literals, hclauses, h.members_eq]
  generalize observe c clock g vars' = o' at hresult hevents hopening
  cases o'
  simp only at hresult hevents hopening
  rw [hresult, hevents, hopening]

/-- A bound below both variables of the formula, and a list in another order with a repetition. -/
theorem observe_congr_candidates_any_bound :
    let f : Formula := ⟨[[.of 2, .of 3], [.of (-3)]], 3⟩
    let g : Formula := { f with numVars := 0 }
    f.numVars < maxCount ∧ g.numVars < maxCount ∧ (∀ v ∈ [2, 3], 0 < v ∧ v ≤ maxVar) ∧
      (∀ v, v ∈ [3, 2, 3] ↔ v ∈ [2, 3]) ∧
      (CandidateSet.ofListBounded [3, 2, 3] g.numVars).toOption ≠
        (CandidateSet.ofListBounded [2, 3] f.numVars).toOption ∧
      observe { stepLimit := some 1 } (fun _ => 7) g [3, 2, 3] =
        observe { stepLimit := some 1 } (fun _ => 0) f [2, 3] := by
  intro f g
  have hf : f.numVars < maxCount := by decide
  have hg : g.numVars < maxCount := by decide
  have hvars : ∀ v ∈ [2, 3], 0 < v ∧ v ≤ maxVar := by decide
  have hsame : ∀ v, v ∈ [3, 2, 3] ↔ v ∈ [2, 3] := by
    intro v
    simp only [List.mem_cons, List.not_mem_nil, or_false]
    omega
  exact ⟨hf, hg, hvars, hsame, by decide +kernel, observe_congr_candidates .faithful .maxFrequency
    (some 1) (fun _ => 0) (fun _ => 7) rfl hf hg hvars hsame⟩

end SatSearch
