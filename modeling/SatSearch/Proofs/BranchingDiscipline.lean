import SatSearch.Proofs.PathResidue
import Mathlib.Data.List.Perm.Subperm

/-!
# What is branched on along a path

The search of accepted input never assumes a literal twice on a path. With strike it never branches
on a variable twice, every descent takes one candidate away, and no side is cut. With the faithful
reduction a variable may be branched on once more, for the complement of the literal assumed first;
by then it is no candidate any more, and just such branches have their false side cut.
-/

namespace SatSearch

/-- Distinct literals have each variable at most twice, once for each sign. -/
theorem Literal.count_vars_le_two {ls : List Literal} (h : ls.Nodup) (v : Nat) :
    (ls.map Literal.var).count v ≤ 2 := by
  have hcount : (ls.map Literal.var).count v = (ls.filter (·.var = v)).length := by
    rw [List.count, List.countP_map, ← List.countP_eq_length_filter]
    rfl
  rw [hcount]
  cases hls : ls.filter (·.var = v) with
  | nil => simp
  | cons l rest =>
    have hmem : ∀ k ∈ l :: rest, k.var = v := by
      intro k hk
      rw [← hls] at hk
      simpa using (List.mem_filter.1 hk).2
    have hsub : l :: rest ⊆ [l, l.negated] := by
      intro k hk
      have hv : k.var = l.var := (hmem k hk).trans (hmem l List.mem_cons_self).symm
      rcases Literal.eq_or_eq_negated hv with rfl | rfl
      · simp
      · simp
    have hnd : (l :: rest).Nodup := hls ▸ h.filter _
    exact (List.subperm_of_subset hnd hsub).length_le

namespace Node

variable {r : Reduction} {c : Settings} {root n : Node} {assumed : List Literal} {k l : Literal}
  {f : Formula} {vars : List Nat} {frames : List Frame}

/-- A literal over a variable that was assumed is the complement of what was assumed. -/
theorem IsResidue.eq_negated (h : n.IsResidue r root assumed)
    (hl : l ∈ Formula.literalsOf n.clauses) (hk : k ∈ assumed) (hv : k.var = l.var) :
    l = k.negated := by
  rcases Literal.eq_or_eq_negated hv.symm with rfl | he
  · exact absurd hk (h.mem_literals hl).2.1
  · exact he

theorem IsResidue.var_ne_of_strike (h : n.IsResidue .strike root assumed)
    (hl : l ∈ Formula.literalsOf n.clauses) : ∀ k ∈ assumed, l.var ≠ k.var := by
  intro k hk hv
  exact (h.mem_literals hl).2.2 rfl k hk (h.eq_negated hl hk hv.symm)

theorem IsResidue.contains_of_strike (h : n.IsResidue .strike root assumed)
    (hroot : root.candidates.WellFormed) (hcov : root.Covered)
    (hl : l ∈ Formula.literalsOf n.clauses) : n.candidates.contains l.var = true :=
  (h.contains_iff hroot).2 ⟨hcov l (h.mem_literals hl).1, h.var_ne_of_strike hl⟩

/-- A variable that occurs and is no candidate was assumed. -/
theorem IsResidue.exists_assumed (h : n.IsResidue r root assumed)
    (hroot : root.candidates.WellFormed) (hcov : root.Covered)
    (hl : l ∈ Formula.literalsOf n.clauses) (hcand : n.candidates.contains l.var = false) :
    ∃ k ∈ assumed, k.var = l.var := by
  by_contra hnone
  have hne : ∀ k ∈ assumed, l.var ≠ k.var := fun k hk hv => hnone ⟨k, hk, hv.symm⟩
  have hmem := (h.contains_iff hroot).2 ⟨hcov l (h.mem_literals hl).1, hne⟩
  simp [hmem] at hcand

/-- The false side of a branch is the node again exactly if the variable is no candidate. -/
theorem IsResidue.assume_negated_eq_self_iff (h : n.IsResidue r root assumed)
    (hroot : root.candidates.WellFormed) (hcov : root.Covered)
    (hl : l ∈ Formula.literalsOf n.clauses) :
    n.assume r l.negated = n ↔ n.candidates.contains l.var = false := by
  constructor
  · intro hcut
    by_contra hcand
    have hcand : n.candidates.contains l.negated.var = true := by simpa using hcand
    exact assume_ne_of_contains hcand hcut
  · intro hcand
    cases r with
    | strike => simp [h.contains_of_strike hroot hcov hl] at hcand
    | faithful =>
      obtain ⟨k, hk, hv⟩ := h.exists_assumed hroot hcov hl hcand
      have hkl : l.negated = k := by
        rw [h.eq_negated hl hk hv, Literal.negated_negated]
      have hclear : l.negated ∉ Formula.literalsOf n.clauses := by
        intro hocc
        exact (h.mem_literals hocc).2.1 (hkl ▸ hk)
      exact assume_faithful_eq_self hclear (by simpa using hcand)

/-- A side that changes the node assumes a literal that was not assumed before. -/
theorem IsResidue.not_mem_of_side (h : n.IsResidue r root assumed)
    (hroot : root.candidates.WellFormed) (hcov : root.Covered)
    (hl : l ∈ Formula.literalsOf n.clauses) (side : k = l ∨ k = l.negated)
    (hne : n.assume r k ≠ n) : k ∉ assumed := by
  rcases side with rfl | rfl
  · exact (h.mem_literals hl).2.1
  · intro hk
    have hcand : n.candidates.contains l.var = true := by
      rw [Ne, h.assume_negated_eq_self_iff hroot hcov hl] at hne
      simpa using hne
    exact ((h.contains_iff hroot).1 hcand).2 _ hk (Literal.var_negated l).symm

/-- If a node below an accepted root is branched on, the root has candidates, so they cover it. -/
theorem Below.covered_of_view (h : root.Below c frames n) (hroot : f.root vars = .ok root)
    (hview : n.view c = .branch l) : root.Covered := by
  have hw := (Formula.sound_of_root hroot).wellFormed
  have hn := h.isResidue hw
  apply Formula.covered_of_root hroot
  by_contra hempty
  have hnone : ∀ v, root.candidates.contains v = false :=
    (CandidateSet.isEmpty_iff hw).1 (by simpa using hempty)
  have hall : n.candidates.isEmpty = true := by
    rw [CandidateSet.isEmpty_iff hn.wellFormed]
    intro v
    by_contra hv
    have hmem := (hn.contains_iff hw).1 (by simpa using hv)
    simp [hnone v] at hmem
  simp [isEmpty_of_view_branch hview] at hall

/-- No literal is assumed twice on a path. -/
theorem Below.nodup_assumed (h : root.Below c frames n) (hroot : f.root vars = .ok root) :
    (frames.map Frame.assumed).Nodup := by
  have hw := (Formula.sound_of_root hroot).wellFormed
  induction h with
  | root => exact .nil
  | @side f rest below view changed ih =>
    have hcov := below.covered_of_view hroot view
    have hocc := mem_of_view_branch view
    refine List.nodup_cons.2 ⟨?_, ih⟩
    exact (below.isResidue hw).not_mem_of_side hw hcov hocc f.assumed_eq changed

/-- With strike, no variable is branched on twice on a path. -/
theorem Below.nodup_vars_assumed (h : root.Below c frames n) (hr : c.reduction = .strike)
    (hw : root.candidates.WellFormed) : ((frames.map Frame.assumed).map Literal.var).Nodup := by
  induction h with
  | root => exact .nil
  | @side f rest below view changed ih =>
    have hres := below.isResidue hw
    rw [hr] at hres
    refine List.nodup_cons.2 ⟨?_, ih⟩
    intro hv
    obtain ⟨k, hk, hkv⟩ := List.mem_map.1 hv
    rw [Frame.var_assumed] at hkv
    exact hres.var_ne_of_strike (mem_of_view_branch view) k hk hkv.symm

/-- How strike branches below some assumed literals: on a variable that is new to the path, with two
sides that each leave one candidate less. -/
structure StrikeBranch (n : Node) (assumed : List Literal) (l : Literal) : Prop where
  nodup_vars : ((l :: assumed).map Literal.var).Nodup
  contains_var : n.candidates.contains l.var = true
  descends : ∀ k, k = l ∨ k = l.negated → ∃ child, n.reduce .strike k = some child ∧
    n.candidates.members.Perm (l.var :: child.candidates.members)

/-- How the faithful reduction branches below some assumed literals: on a variable for the first or
the second time, the second time for the other literal, and then without a false side. -/
structure FaithfulBranch (n : Node) (assumed : List Literal) (l : Literal) : Prop where
  count_var_le : ∀ v, ((l :: assumed).map Literal.var).count v ≤ 2
  eq_negated : ∀ k ∈ assumed, k.var = l.var → l = k.negated
  cut_iff : n.reduce .faithful l.negated = none ↔ n.candidates.contains l.var = false

theorem IsResidue.strikeBranch (h : n.IsResidue .strike root assumed)
    (hroot : root.candidates.WellFormed) (hcov : root.Covered)
    (hl : l ∈ Formula.literalsOf n.clauses) (hnd : (assumed.map Literal.var).Nodup) :
    n.StrikeBranch assumed l := by
  have hcand := h.contains_of_strike hroot hcov hl
  refine ⟨?_, hcand, ?_⟩
  · refine List.nodup_cons.2 ⟨?_, hnd⟩
    intro hv
    obtain ⟨k, hk, hkv⟩ := List.mem_map.1 hv
    exact h.var_ne_of_strike hl k hk hkv.symm
  · intro k side
    have hv : k.var = l.var := by
      rcases side with rfl | rfl
      · rfl
      · exact Literal.var_negated l
    have hmem := (CandidateSet.contains_iff h.wellFormed).1 hcand
    have hne : n.assume .strike k ≠ n := assume_ne_of_contains (hv ▸ hcand)
    refine ⟨n.assume .strike k, reduce_of_assume_ne hne, ?_⟩
    simp only [Node.assume, hv, CandidateSet.members_erase h.wellFormed]
    exact List.perm_cons_erase hmem

theorem IsResidue.faithfulBranch (h : n.IsResidue .faithful root assumed)
    (hroot : root.candidates.WellFormed) (hcov : root.Covered)
    (hl : l ∈ Formula.literalsOf n.clauses) (hnd : assumed.Nodup) :
    n.FaithfulBranch assumed l where
  count_var_le := Literal.count_vars_le_two (List.nodup_cons.2 ⟨(h.mem_literals hl).2.1, hnd⟩)
  eq_negated _ hk hv := h.eq_negated hl hk hv
  cut_iff := reduce_eq_none_iff.trans (h.assume_negated_eq_self_iff hroot hcov hl)

end Node

/-- Whenever the search of accepted input is about to branch, the literals assumed on the path and
the new one are distinct, the branch is as its reduction has it, and the literal has a complement. -/
theorem branching_along_path {c : Settings} {f : Formula} {vars : List Nat} {root : Node}
    {s : State} {l : Literal} (h : f.root vars = .ok root) (hs : State.Occurs c root s)
    (hl : s.current.view c = .branch l) :
    let assumed := s.frames.map Frame.assumed
    (l :: assumed).Nodup ∧
      (c.reduction = .strike → s.current.StrikeBranch assumed l) ∧
      (c.reduction = .faithful → s.current.FaithfulBranch assumed l) ∧ l.value ≠ -2147483648 := by
  intro assumed
  have hsound := Formula.sound_of_root h
  have hbelow := hs.current_below
  have hres := hbelow.isResidue hsound.wellFormed
  have hcov := hbelow.covered_of_view h hl
  have hocc := Node.mem_of_view_branch hl
  have hnd := hbelow.nodup_assumed h
  obtain ⟨hocc_root, hnew, -⟩ := hres.mem_literals hocc
  refine ⟨List.nodup_cons.2 ⟨hnew, hnd⟩, ?_, ?_, ?_⟩
  · intro hr
    have hvars := hbelow.nodup_vars_assumed hr hsound.wellFormed
    rw [hr] at hres
    exact hres.strikeBranch hsound.wellFormed hcov hocc hvars
  · intro hr
    rw [hr] at hres
    exact hres.faithfulBranch hsound.wellFormed hcov hocc hnd
  · rw [Literal.value_ne_least_iff]
    exact hsound.le_maxVar l.var (hcov l hocc_root)

theorem branching_along_path_again :
    let f : Formula := .ofClauses [[.of 1], [.of (-1)], [.of 2]]
    let root : Node := ⟨f.clauses, ⟨3, [1, 2]⟩, [], 2⟩
    let s : State :=
      { current := ⟨[[.of (-1)], [.of 2]], ⟨3, [2]⟩, [], 1⟩
        frames := [⟨root, .of 1, .whenTrue⟩]
        steps := 1
        events := [.descend .whenTrue (.of 1) 0, .branch (.of 1) 0] }
    f.root [1, 2] = .ok root ∧
      root.view { reduction := .strike } = .branch (.of 1) ∧ root.StrikeBranch [] (.of 1) ∧
      State.Occurs { reduction := .faithful } root s ∧
      s.current.view { reduction := .faithful } = .branch (.of (-1)) ∧
      s.current.FaithfulBranch [.of 1] (.of (-1)) := by
  intro f root s
  have hroot : f.root [1, 2] = .ok root := rfl
  have hbranch : (State.start root).advance { reduction := .faithful } 0 = .running s := rfl
  have hs : State.Occurs { reduction := .faithful } root s := .advance .start hbranch
  have hfirst : root.view { reduction := .strike } = .branch (.of 1) := rfl
  have hsecond : s.current.view { reduction := .faithful } = .branch (.of (-1)) := rfl
  exact ⟨hroot, hfirst, (branching_along_path hroot .start hfirst).2.1 rfl, hs, hsecond,
    (branching_along_path hroot hs hsecond).2.2.1 rfl⟩

end SatSearch
