import SatSearch.Proofs.MatchingSearches
import SatSearch.Proofs.Satisfiability

/-!
# Candidates that occur in no clause

With strike they are harmless. A branch removes its variable from the clauses as well as from the
candidates, so the candidates keep covering the clauses, and where none is left, what is left of the
clauses is empty. The search then sees an empty clause, whichever of its two rules it is that ends
the branch: searches from candidates that cover the formula do not differ at all.

With the faithful reduction one of them decides the answer. It is never branched on, so the
candidates never run empty; the search goes straight down the true sides, each of which drops a
clause, and accepts. Only an empty clause, which no literal drops, keeps it from doing so.
-/

namespace SatSearch

namespace Node

variable {c : Settings} {n m : Node} {l k : Literal}

theorem Covered.assume_strike (h : n.Covered) (hs : n.Sound) (l : Literal) :
    (n.assume .strike l).Covered := by
  intro k hk
  exact (CandidateSet.contains_erase hs.wellFormed).2
    ⟨var_ne_of_strike hk, h k (mem_literals_of_assume hk)⟩

/-- Covered clauses without candidates have no literals. -/
theorem Covered.nil_mem (h : n.Covered) (hs : n.Sound) (hc : n.clauses ≠ [])
    (he : n.candidates.isEmpty = true) : [] ∈ n.clauses := by
  obtain ⟨cl, hcl⟩ := List.exists_mem_of_ne_nil _ hc
  have hnil : cl = [] := by
    rw [List.eq_nil_iff_forall_not_mem]
    intro l hl
    have hcand := h l (List.mem_flatten.2 ⟨cl, hcl, hl⟩)
    simp [CandidateSet.isEmpty_of_contains hs.wellFormed hcand] at he
  exact hnil ▸ hcl

/-- With strike, the candidates of a covered node do not matter to its view. -/
theorem Covered.view_strike (h : n.Covered) (hs : n.Sound) (hr : c.reduction = .strike) :
    n.view c = if n.clauses = [] then .satisfied
      else if [] ∈ n.clauses then .unsatisfiable
      else (c.selection.pick n.clauses).elim .unsatisfiable .branch := by
  rw [view_eq]
  by_cases hc : n.clauses = []
  · simp only [hc, if_true]
  · have hdead : (n.candidates.isEmpty ∨ c.reduction = .strike ∧ [] ∈ n.clauses) ↔
        [] ∈ n.clauses := by
      constructor
      · rintro (he | ⟨-, hnil⟩)
        · exact h.nil_mem hs hc he
        · exact hnil
      · exact fun hnil => .inr ⟨hr, hnil⟩
    simp only [hdead]

theorem Covered.assume_ne (h : n.Covered) (r : Reduction) (hl : l ∈ Formula.literalsOf n.clauses)
    (hv : k.var = l.var) : n.assume r k ≠ n :=
  assume_ne_of_contains (hv ▸ h l hl)

/-- The nodes have the same clauses, and the candidates of both cover them. -/
structure Alike (n m : Node) : Prop where
  clauses_eq : n.clauses = m.clauses
  sound : n.Sound ∧ m.Sound
  covered : n.Covered ∧ m.Covered

theorem matching_of_strike (hr : c.reduction = .strike) : Matching c Alike where
  view_eq h := by
    rw [h.covered.1.view_strike h.sound.1 hr, h.covered.2.view_strike h.sound.2 hr, h.clauses_eq]
  side {n m l k} h _ _ := by
    rw [hr]
    refine ⟨?_, ⟨h.sound.1.assume _ k, h.sound.2.assume _ k⟩,
      h.covered.1.assume_strike h.sound.1 k, h.covered.2.assume_strike h.sound.2 k⟩
    simp only [assume, h.clauses_eq]
  cut_iff {n m l} h hv := by
    have hn := mem_of_view_branch hv
    have hm : l ∈ Formula.literalsOf m.clauses := h.clauses_eq ▸ hn
    have hvar := Literal.var_negated l
    simp only [h.covered.1.assume_ne c.reduction hn hvar, h.covered.2.assume_ne c.reduction hm hvar]

end Node

theorem Formula.CoveredBy.alike {f : Formula} {vars vars' : List Nat} {root root' : Node}
    (h : f.CoveredBy vars) (h' : f.CoveredBy vars') (hroot : f.root vars = .ok root)
    (hroot' : f.root vars' = .ok root') : root.Alike root' where
  clauses_eq := (clauses_of_root hroot).trans (clauses_of_root hroot').symm
  sound := ⟨sound_of_root hroot, sound_of_root hroot'⟩
  covered := ⟨h.covered_root hroot, h'.covered_root hroot'⟩

/-- With strike, two lists of candidates that cover the formula give the same search under any step
limit. If there is room for candidates at all, it answers or reaches the limit. -/
theorem observe_strike_of_covered (s : Selection) (limit : Option Nat) (clock clock' : Nat → Nat)
    {f : Formula} {vars vars' : List Nat} (h : f.CoveredBy vars) (h' : f.CoveredBy vars') :
    let c : Settings := { reduction := .strike, selection := s, stepLimit := limit }
    let o := observe c clock f vars
    let o' := observe c clock' f vars'
    o.result = o'.result ∧ o.told = o'.told ∧
      (f.numVars < maxCount → (∃ a, o.result = .ok a) ∨
        ∃ k, limit = some k ∧ o.result = .error (.error (.stepLimit k))) := by
  intro c o o'
  rcases Nat.lt_or_ge f.numVars maxCount with hn | hn
  · obtain ⟨root, hroot⟩ := h.exists_root hn
    obtain ⟨root', hroot'⟩ := h'.exists_root hn
    have hrun : run c clock (.start root) = run c clock' (.start root') :=
      (Node.matching_of_strike rfl).run_start_eq (h.alike h' hroot hroot') rfl clock clock'
    obtain ⟨hresult, htold⟩ := observe_of_root hroot c clock
    obtain ⟨hresult', htold'⟩ := observe_of_root hroot' c clock'
    refine ⟨?_, ?_, fun _ => ?_⟩
    · rw [hresult, hresult', hrun]
    · rw [htold, htold', hrun]
    · rw [hresult]
      rcases solution_or_stepLimit (c := c) rfl clock root with ⟨a, ha⟩ | ⟨k, hk, hstop⟩
      · exact .inl ⟨a, by rw [ha]; rfl⟩
      · exact .inr ⟨k, hk, by rw [hstop]; rfl⟩
  · refine ⟨?_, ?_, fun hlt => absurd hlt (Nat.not_lt_of_le hn)⟩
    · simp only [o, o', observe, h.root_of_maxCount_le hn, h'.root_of_maxCount_le hn]
    · simp only [o, o', Observation.told, observe, h.root_of_maxCount_le hn,
        h'.root_of_maxCount_le hn]

/-- Below the branch, one list has no candidate left and the other has. -/
theorem observe_strike_of_covered_complementary_units :
    let f : Formula := .ofClauses [[.of 1], [.of (-1)]]
    let c : Settings := { reduction := .strike, stepLimit := some 1 }
    let o := observe c (fun _ => 0) f [1]
    let o' := observe c (fun _ => 7) f [2, 1]
    f.CoveredBy [1] ∧ f.CoveredBy [2, 1] ∧ f.numVars < maxCount ∧
      o.result = .ok ⟨false, 1, []⟩ ∧ o'.result = .ok ⟨false, 1, []⟩ ∧ o'.told = o.told := by
  intro f c o o'
  have h : f.CoveredBy [1] := by decide
  have h' : f.CoveredBy [2, 1] := by decide
  have hresult : o.result = .ok ⟨false, 1, []⟩ := by decide +kernel
  obtain ⟨hsame, htold, -⟩ :=
    observe_strike_of_covered .maxFrequency (some 1) (fun _ => 0) (fun _ => 7) h h'
  exact ⟨h, h', by decide, hresult, hsame.symm.trans hresult, htold.symm⟩

/-- The events of a search that takes the true side of every branch and never goes back. -/
def Event.straightDown (depth : Nat) : List Literal → List Event
  | [] => []
  | l :: ls => .branch l depth :: .descend .whenTrue l depth :: straightDown (depth + 1) ls

theorem Event.falseDescents_straightDown (depth : Nat) (ls : List Literal) (n : CallCounts) :
    ((straightDown depth ls).foldl CallCounts.add n).falseDescents = n.falseDescents := by
  induction ls generalizing depth n with
  | nil => rfl
  | cons l ls ih => simp only [straightDown, List.foldl_cons, ih, CallCounts.add]

namespace Node

variable {c : Settings} {n : Node} {l : Literal}

def HasUnused (n : Node) : Prop :=
  ∃ v, n.candidates.contains v = true ∧ ∀ l ∈ Formula.literalsOf n.clauses, l.var ≠ v

theorem HasUnused.assume (h : n.HasUnused) (hs : n.Sound) (r : Reduction)
    (hl : l ∈ Formula.literalsOf n.clauses) : (n.assume r l).HasUnused := by
  obtain ⟨v, hv, hunused⟩ := h
  refine ⟨v, ?_, fun k hk => hunused k (mem_literals_of_assume hk)⟩
  exact (CandidateSet.contains_erase hs.wellFormed).2 ⟨(hunused l hl).symm, hv⟩

theorem HasUnused.isEmpty (h : n.HasUnused) (hs : n.Sound) : n.candidates.isEmpty = false := by
  obtain ⟨v, hv, -⟩ := h
  exact CandidateSet.isEmpty_of_contains hs.wellFormed hv

theorem nil_not_mem_assume_faithful (h : [] ∉ n.clauses) (l : Literal) :
    [] ∉ (n.assume .faithful l).clauses := by
  intro hnil
  obtain ⟨cl, hcl, hrest⟩ := mem_assume.1 hnil
  obtain ⟨-, rfl⟩ := Reduction.clause?_eq_some_iff.1 hrest
  exact h hcl

theorem length_clauses_assume_lt (r : Reduction) (hl : l ∈ Formula.literalsOf n.clauses) :
    (n.assume r l).clauses.length < n.clauses.length := by
  obtain ⟨cl, hcl, hlcl⟩ := List.mem_flatten.1 hl
  exact List.length_filterMap_lt_length_iff_exists.2
    ⟨cl, hcl, Reduction.clause?_eq_none_iff.2 hlcl⟩

/-- With an unused candidate and without an empty clause, the faithful reduction leads straight down
to a satisfied node. -/
theorem HasUnused.explore_faithful (h : n.HasUnused) (hs : n.Sound) (hne : [] ∉ n.clauses)
    (hr : c.reduction = .faithful) (depth : Nat) : ∃ path,
      explore c n depth = ⟨some path, path.length, Event.straightDown depth path⟩ ∧
        path.length ≤ n.clauses.length := by
  induction hlen : n.clauses.length using Nat.strongRecOn generalizing n depth with
  | ind k ih =>
    by_cases hc : n.clauses = []
    · exact ⟨[], explore_of_satisfied (view_eq_satisfied_iff.2 hc) depth, Nat.zero_le k⟩
    · obtain ⟨l, hl⟩ := exists_view_branch (c := c) hc hne (h.isEmpty hs)
      have hocc := mem_of_view_branch hl
      have hlt : (n.assume .faithful l).clauses.length < k :=
        hlen ▸ length_clauses_assume_lt .faithful hocc
      obtain ⟨path, hpath, hle⟩ := ih _ hlt (h.assume hs .faithful hocc) (hs.assume .faithful l)
        (nil_not_mem_assume_faithful hne l) (depth + 1) rfl
      refine ⟨l :: path, ?_, ?_⟩
      · rw [explore_of_branch hl, hr, hpath]
        rfl
      · rw [List.length_cons]
        omega

end Node

theorem Formula.hasUnused_root {f : Formula} {vars : List Nat} {root : Node}
    (hroot : f.root vars = .ok root) (hv : ∃ v ∈ vars, ∀ l ∈ f.literals, l.var ≠ v) :
    root.HasUnused := by
  obtain ⟨v, hv, hunused⟩ := hv
  refine ⟨v, (contains_of_root hroot v).2 hv, ?_⟩
  rwa [clauses_of_root hroot]

/-- With the faithful reduction and a candidate that occurs in no clause, the search of a covered
formula answers whether no clause is empty. It finds a satisfiable answer without going back: it takes
the true side of every branch, and at most as many steps as there are clauses. -/
theorem solve_faithful_of_unused (s : Selection) (clock : Nat → Nat) {f : Formula}
    {vars : List Nat} (h : f.CoveredBy vars) (hn : f.numVars < maxCount)
    (hv : ∃ v ∈ vars, ∀ l ∈ f.literals, l.var ≠ v) :
    let o := observe { reduction := .faithful, selection := s } clock f vars
    ∃ a, o.result = .ok a ∧ (a.satisfiable = true ↔ [] ∉ f.clauses) ∧
      (a.satisfiable = true → o.events = Event.straightDown 0 a.decisions ∧
        (CallCounts.ofEvents o.events).falseDescents = 0 ∧
        a.steps = a.decisions.length ∧ a.decisions.length ≤ f.clauses.length) := by
  intro o
  let c : Settings := { reduction := .faithful, selection := s }
  obtain ⟨root, hroot⟩ := h.exists_root hn
  have hclauses := Formula.clauses_of_root hroot
  obtain ⟨hresult, hevents⟩ := observe_eq_explore (c := c) ⟨rfl, rfl⟩ clock hroot
  by_cases hnil : [] ∈ f.clauses
  · have hreject : (explore c root 0).accepted.isSome = false := by
      by_contra hsome
      obtain ⟨path, hpath⟩ := Option.isSome_iff_exists.1 (Bool.not_eq_false _ ▸ hsome)
      obtain ⟨l, -, hl⟩ := (accepts_of_explore hpath).hits [] (hclauses ▸ hnil)
      cases hl
    refine ⟨_, hresult, ?_, ?_⟩
    · simp [hreject, hnil]
    · simp [hreject]
  · obtain ⟨path, hpath, hle⟩ := (Formula.hasUnused_root hroot hv).explore_faithful
      (Formula.sound_of_root hroot) (hclauses ▸ hnil) (c := c) rfl 0
    rw [hclauses] at hle
    rw [hpath] at hresult hevents
    have hcalls : (CallCounts.ofEvents o.events).falseDescents = 0 := by
      rw [hevents]
      exact Event.falseDescents_straightDown 0 path {}
    exact ⟨_, hresult, iff_of_true rfl hnil, fun _ => ⟨hevents, hcalls, rfl, hle⟩⟩

/-- The two unit clauses contradict each other, and the search accepts them all the same, because
variable 2 stays a candidate. -/
theorem solve_faithful_of_unused_complementary_units :
    let f : Formula := .ofClauses [[.of 1], [.of (-1)]]
    let o := observe { reduction := .faithful } (fun _ => 0) f [2, 1]
    f.CoveredBy [2, 1] ∧ f.numVars < maxCount ∧ (∃ v ∈ [2, 1], ∀ l ∈ f.literals, l.var ≠ v) ∧
      ∃ a, o.result = .ok a ∧ a.satisfiable = true ∧
        o.events = Event.straightDown 0 a.decisions ∧ a.steps = a.decisions.length := by
  intro f o
  have h : f.CoveredBy [2, 1] := by decide
  have hn : f.numVars < maxCount := by decide
  have hv : ∃ v ∈ [2, 1], ∀ l ∈ f.literals, l.var ≠ v := by decide
  obtain ⟨a, ha, hiff, hdown⟩ := solve_faithful_of_unused .maxFrequency (fun _ => 0) h hn hv
  have hsat : a.satisfiable = true := hiff.2 (by decide)
  exact ⟨h, hn, hv, a, ha, hsat, (hdown hsat).1, (hdown hsat).2.2.1⟩

/-- Where there is no room for the candidates, there is no answer, not even with an unused one. -/
theorem not_solve_faithful_of_unused_of_le_maxCount :
    ¬∀ (s : Selection) (clock : Nat → Nat) (f : Formula) (vars : List Nat),
      f.numVars ≤ maxCount → f.clauses ≠ [] → f.CoveredBy vars →
      (∃ v ∈ vars, ∀ l ∈ f.literals, l.var ≠ v) →
      ∃ a, solve { reduction := .faithful, selection := s } clock f vars = .ok a ∧
        (a.satisfiable = true ↔ [] ∉ f.clauses) := by
  intro h
  obtain ⟨a, ha, -⟩ := h .maxFrequency (fun _ => 0) ⟨[[.of 1]], maxCount⟩ [1, 2] (Nat.le_refl _)
    (by decide) (by decide) (by decide)
  exact Nat.lt_irrefl _ (exists_root_of_solve ha).1

end SatSearch
