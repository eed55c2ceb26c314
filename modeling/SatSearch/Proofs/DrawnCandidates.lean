import SatSearch.Proofs.ListenerIndependence
import SatSearch.Proofs.OccurringVariables
import SatSearch.Proofs.SolvingCommands
import SatSearch.Proofs.UnusedCandidates

/-!
# The candidates of random formulas

A random formula is searched with all variables up to its bound as candidates, be it in a sweep or by
the command for one formula. They cover the formula, but they are its variables only if all of them
were drawn, which is impossible with too few clauses. With the faithful reduction the search then
calls the formula satisfiable whatever its clauses are.
-/

namespace SatSearch

namespace Formula

variable {f : Formula} {vars : List Nat}

theorem members_of_root {root : Node} (h : f.root vars = .ok root) (hvars : vars.Pairwise (· < ·)) :
    root.candidates.members = vars := by
  have hwell := (sound_of_root h).wellFormed
  apply hwell.ascending.eq_of_mem_iff hvars
  intro v
  rw [← CandidateSet.contains_iff hwell, contains_of_root h]

theorem unusedCandidates?_eq_none_iff {s : CandidateSet} :
    f.unusedCandidates? s = none ↔ f.clauses = [] ∨ ∀ v ∈ s.members, v ∈ f.vars := by
  unfold unusedCandidates?
  split
  · rename_i hnone
    exact iff_of_true rfl (.inl (List.isEmpty_iff.1 hnone))
  · rename_i hsome
    have hne : f.clauses ≠ [] := fun h => hsome (List.isEmpty_iff.2 h)
    dsimp only
    cases hfilter : s.members.filter (!f.vars.contains ·) with
    | nil =>
      have hall := List.filter_eq_nil_iff.1 hfilter
      exact iff_of_true rfl (.inr fun v hv => by simpa using hall v hv)
    | cons v vs =>
      have hv : v ∈ s.members.filter (!f.vars.contains ·) := hfilter ▸ List.mem_cons_self
      obtain ⟨hmem, hunused⟩ := List.mem_filter.1 hv
      refine iff_of_false (Option.some_ne_none _) (not_or.2 ⟨hne, fun hall => ?_⟩)
      simp [hall v hmem] at hunused

/-- A search that was given ascending candidates says of them whether they are the variables of the
formula, unless it has no clauses. -/
theorem CoveredBy.exists_opening (h : f.CoveredBy vars) (hn : f.numVars < maxCount)
    (hvars : vars.Pairwise (· < ·)) (c : Settings) (clock : Nat → Nat) :
    ∃ unused, (observe c clock f vars).opening = some ⟨f.clauses.length, vars.length, unused⟩ ∧
      (unused = none ↔ f.clauses = [] ∨ f.vars = vars) := by
  obtain ⟨root, hroot⟩ := h.exists_root hn
  have hmembers := members_of_root hroot hvars
  have hsize : root.candidates.size = vars.length := by
    rw [(sound_of_root hroot).wellFormed.size_eq, hmembers]
  refine ⟨f.unusedCandidates? root.candidates, ?_, ?_⟩
  · simp only [observe, hroot, hsize]
  · rw [unusedCandidates?_eq_none_iff, hmembers]
    refine or_congr_right ⟨fun hall => ?_, fun heq v hv => heq ▸ hv⟩
    apply f.pairwise_vars.eq_of_mem_iff hvars
    intro v
    refine ⟨fun hv => ?_, hall v⟩
    obtain ⟨l, hl, rfl⟩ := mem_vars.1 hv
    exact h.mem l hl

/-- What follows for a random formula from its being searched with all variables up to its bound. -/
structure SearchedUpTo (m n : Nat) (f : Formula) : Prop where
  drawn : f.IsDrawn m n
  coveredBy : f.CoveredBy (List.range' 1 n)
  exact_iff : f.vars = List.range' 1 n ↔ ∀ v, 0 < v → v ≤ n → ∃ l ∈ f.literals, l.var = v
  inexact_of_few : m * 3 < n → f.vars ≠ List.range' 1 n
  opening (c : Settings) (clock : Nat → Nat) : ∃ unused,
    (observe c clock f (List.range' 1 n)).opening = some ⟨m, n, unused⟩ ∧
      (unused = none ↔ m = 0 ∨ f.vars = List.range' 1 n)
  satisfiable_of_inexact (c : Settings) (clock : Nat → Nat) : c.reduction = .faithful →
    c.Unlimited → f.vars ≠ List.range' 1 n →
    ∃ a, solve c clock f (List.range' 1 n) = .ok a ∧ a.satisfiable = true

theorem IsDrawn.satisfiable_of_inexact {m n : Nat} (h : f.IsDrawn m n) (hn : n ≤ maxVar)
    {c : Settings} (hr : c.reduction = .faithful) (hc : c.Unlimited) (clock : Nat → Nat)
    (hne : f.vars ≠ List.range' 1 n) :
    ∃ a, solve c clock f (List.range' 1 n) = .ok a ∧ a.satisfiable = true := by
  obtain ⟨root, hroot⟩ := h.exists_root hn
  have hnil : [] ∉ root.clauses := clauses_of_root hroot ▸ h.nil_not_mem
  obtain ⟨path, hpath, -⟩ := (hasUnused_root hroot (h.exists_missing hne)).explore_faithful
    (sound_of_root hroot) hnil hr 0
  have hsolve := (observe_eq_explore hc clock hroot).1
  rw [hpath] at hsolve
  exact ⟨_, hsolve, rfl⟩

theorem IsDrawn.searchedUpTo {m n : Nat} (h : f.IsDrawn m n) (hn : n ≤ maxVar) :
    f.SearchedUpTo m n where
  drawn := h
  coveredBy := h.coveredBy hn
  exact_iff := vars_eq_range'_iff h.var_le
  inexact_of_few := h.vars_ne_of_few
  opening c clock := by
    obtain ⟨unused, hopening, hiff⟩ :=
      (h.coveredBy hn).exists_opening (h.numVars_lt hn) List.pairwise_lt_range' c clock
    rw [h.length_eq, List.length_range'] at hopening
    rw [← List.length_eq_zero_iff, h.length_eq] at hiff
    exact ⟨unused, hopening, hiff⟩
  satisfiable_of_inexact c clock hr hc := h.satisfiable_of_inexact hn hr hc clock

end Formula

theorem Sweep.exists_searchedUpTo {s : Sweep} {timings : Nat → Timing}
    (hvars : ∀ n ∈ s.vars.toList, n ≤ maxVar) {search : Observation}
    (h : search ∈ s.searches timings) : ∃ m n f turn, (m, n) ∈ s.points ∧ 3 ≤ n ∧
      f.SearchedUpTo m n ∧
      search = observe s.settings (timings turn).due f (List.range' 1 n) := by
  cases s.tells_of_mem_searches timings h with
  | @searched m n source rest f turn point wide drawn =>
    have hmem : n ∈ s.vars.toList := by
      rw [points_eq_product] at point
      exact (List.mem_product.1 point).2
    have hn := hvars n hmem
    obtain ⟨f', rest', hf, hdrawn⟩ := source.exists_formula wide hn m
    cases hf.symm.trans drawn
    exact ⟨m, n, f, turn, point, wide, hdrawn.searchedUpTo hn, rfl⟩

open CommandLine in
/-- Every search of a sweep is of a random formula, with all variables up to its bound as candidates,
and so is the search of the command that draws a formula, whether or not it writes it to a file. The
candidates are the variables of the formula exactly if all of them were drawn. -/
theorem drawn_formulas_searchedUpTo (s : Sweep) (timings : Nat → Timing)
    (hvars : ∀ n ∈ s.vars.toList, n ≤ maxVar) (o : CommonOptions) (m n seed : Nat) (hwide : 3 ≤ n)
    (hn : n ≤ maxVar) :
    (∀ search ∈ s.searches timings, ∃ m n f turn, (m, n) ∈ s.points ∧ 3 ≤ n ∧ f.SearchedUpTo m n ∧
      search = observe s.settings (timings turn).due f (List.range' 1 n)) ∧
    ∃ f rest, Source.formula m n ⟨seed.toUInt64⟩ = .ok (f, rest) ∧ f.SearchedUpTo m n ∧
      solveRandom o m n seed none = solveAndReport o none f (List.range' 1 n) ∧
      ∀ (session : Session) (path : String) (files : FileTree),
        session.files.write path (f.dimacs [randomComment m n seed]).toUTF8.toList = .ok files →
        (solveRandom o m n seed (some path)).run.run session =
          (solveAndReport o none f (List.range' 1 n)).run.run
            ({ session with files }.print ("DIMACS written to: " ++ path ++ "\n")) := by
  refine ⟨fun search => Sweep.exists_searchedUpTo hvars, ?_⟩
  obtain ⟨f, rest, hf, hdrawn⟩ := Source.exists_formula hwide hn m ⟨seed.toUInt64⟩
  exact ⟨f, rest, hf, hdrawn.searchedUpTo hn, solveRandom_of_drawn o hf,
    fun session path files hwrite => solveRandom_of_write o hf hwrite⟩

/-- One clause cannot name four variables. -/
theorem drawn_formulas_searchedUpTo_few :
    let s : Sweep := ⟨⟨1, 1, 1, by decide, by decide⟩, ⟨4, 4, 1, by decide, by decide⟩, 1, 0, {}⟩
    (∀ n ∈ s.vars.toList, n ≤ maxVar) ∧ 3 ≤ 4 ∧ 4 ≤ maxVar ∧
      (s.searches fun _ => .still).length = 1 ∧
      (∀ search ∈ s.searches fun _ => .still, ∃ f : Formula, f.vars ≠ List.range' 1 4 ∧
        search = observe s.settings Timing.still.due f (List.range' 1 4)) ∧
      ∃ f : Formula, f.vars ≠ List.range' 1 4 ∧ CommandLine.solveRandom {} 1 4 0 none =
        CommandLine.solveAndReport {} none f (List.range' 1 4) := by
  intro s
  have hvars : ∀ n ∈ s.vars.toList, n ≤ maxVar := by decide
  have hpoints : s.points = [(1, 4)] := by decide
  obtain ⟨hsweep, f, rest, -, hf, hrun, -⟩ := drawn_formulas_searchedUpTo s (fun _ => .still) hvars
    {} 1 4 0 (by decide) (by decide)
  refine ⟨hvars, by decide, by decide, by decide +kernel, fun search hsearch => ?_, f,
    hf.inexact_of_few (by decide), hrun⟩
  obtain ⟨m, n, g, turn, hpoint, -, hg, rfl⟩ := hsweep search hsearch
  rw [hpoints, List.mem_singleton, Prod.mk.injEq] at hpoint
  obtain ⟨rfl, rfl⟩ := hpoint
  exact ⟨g, hg.inexact_of_few (by decide), rfl⟩

/-- The same search says that it has a candidate that occurs in no clause. -/
theorem not_sweep_candidates_exact :
    ¬∀ (s : Sweep) (timings : Nat → Timing), (∀ n ∈ s.vars.toList, n ≤ maxVar) →
      ∀ search ∈ s.searches timings, ∀ opening, search.opening = some opening →
        opening.unused = none := by
  intro h
  let s : Sweep := ⟨⟨1, 1, 1, by decide, by decide⟩, ⟨4, 4, 1, by decide, by decide⟩, 1, 0, {}⟩
  have hlength : (s.searches fun _ => .still).length = 1 := by decide +kernel
  obtain ⟨search, hsearches⟩ := List.length_eq_one_iff.1 hlength
  have hsearch : search ∈ s.searches fun _ => .still := hsearches ▸ List.mem_singleton_self search
  obtain ⟨m, n, f, turn, hpoint, -, hf, rfl⟩ := Sweep.exists_searchedUpTo (by decide) hsearch
  have hpoints : s.points = [(1, 4)] := by decide
  rw [hpoints, List.mem_singleton, Prod.mk.injEq] at hpoint
  obtain ⟨rfl, rfl⟩ := hpoint
  obtain ⟨unused, hopening, hiff⟩ := hf.opening s.settings Timing.still.due
  rcases hiff.1 (h s (fun _ => .still) (by decide) _ hsearch _ hopening) with hnone | hexact
  · cases hnone
  · exact hf.inexact_of_few (by decide) hexact

end SatSearch
