import SatSearch.Proofs.BranchingDiscipline
import SatSearch.Proofs.SearchRecursion
import Mathlib.Data.Fintype.Card
import Mathlib.Data.Finset.Prod
import Mathlib.Algebra.Order.Ring.Nat

/-!
# Bounds on a search

Without a budget, the search of accepted input over `v` variables ends. With strike it takes at most
`2 ^ v - 1` steps and has at most `v` frames, since the two sides of a branch lose its variable. With
the faithful reduction it takes at most `(v + 1) * 2 ^ v - 1` steps and has at most `2 * v` frames:
the variable of a branch may stay, but a second branch on it has one side only, and loses it.
-/

namespace SatSearch

def Formula.varsOf (clauses : List Clause) : Finset Nat :=
  ((literalsOf clauses).map Literal.var).toFinset

theorem Formula.mem_varsOf {clauses : List Clause} {v : Nat} :
    v ∈ varsOf clauses ↔ ∃ l ∈ literalsOf clauses, l.var = v := by
  simp [varsOf]

namespace Reduction

/-- The most steps that a search takes, by the number of variables. -/
def maxSteps : Reduction → Nat → Nat
  | strike, v => 2 ^ v - 1
  | faithful, v => (v + 1) * 2 ^ v - 1

def maxFrames : Reduction → Nat → Nat
  | strike, v => v
  | faithful, v => 2 * v

end Reduction

section Frames

variable {c : Settings} {root n : Node} {f : Formula} {vars : List Nat} {frames : List Frame}

theorem Literal.length_le_of_nodup_vars {ls : List Literal} {vs : Finset Nat}
    (h : (ls.map Literal.var).Nodup) (hvs : ∀ l ∈ ls, l.var ∈ vs) : ls.length ≤ vs.card := by
  have hsub : (ls.map Literal.var).toFinset ⊆ vs := by
    intro v hv
    obtain ⟨l, hl, rfl⟩ := List.mem_map.1 (List.mem_toFinset.1 hv)
    exact hvs l hl
  have hcard := Finset.card_le_card hsub
  rwa [List.toFinset_card_of_nodup h, List.length_map] at hcard

/-- Distinct literals are at most two for each variable, one of each sign. -/
theorem Literal.length_le_of_nodup {ls : List Literal} {vs : Finset Nat} (h : ls.Nodup)
    (hvs : ∀ l ∈ ls, l.var ∈ vs) : ls.length ≤ 2 * vs.card := by
  have hmaps : ∀ l ∈ ls.toFinset, (l.var, l.isPositive) ∈ vs ×ˢ Finset.univ := by
    intro l hl
    simpa using hvs l (List.mem_toFinset.1 hl)
  have hinj : Set.InjOn (fun l : Literal => (l.var, l.isPositive)) ls.toFinset := by
    intro l _ k _ hlk
    exact Literal.eq_of_var_eq (congrArg Prod.fst hlk) (congrArg Prod.snd hlk)
  have hcard := Finset.card_le_card_of_injOn _ hmaps hinj
  rw [List.toFinset_card_of_nodup h, Finset.card_product, Finset.card_univ,
    Fintype.card_bool] at hcard
  omega

theorem Node.Below.var_mem_varsOf (h : root.Below c frames n)
    (hw : root.candidates.WellFormed) :
    ∀ k ∈ frames.map Frame.assumed, k.var ∈ Formula.varsOf root.clauses := by
  induction h with
  | root => simp
  | @side f rest below view changed ih =>
    refine List.forall_mem_cons.2 ⟨?_, ih⟩
    have hocc := ((below.isResidue hw).mem_literals (Node.mem_of_view_branch view)).1
    exact Formula.mem_varsOf.2 ⟨f.literal, hocc, (Frame.var_assumed f).symm⟩

theorem Node.Below.length_frames_le (h : root.Below c frames n)
    (hroot : f.root vars = .ok root) :
    frames.length ≤ c.reduction.maxFrames (Formula.varsOf root.clauses).card := by
  have hw := (Formula.sound_of_root hroot).wellFormed
  have hvars := h.var_mem_varsOf hw
  have hlength : (frames.map Frame.assumed).length = frames.length := List.length_map _
  rw [← hlength]
  cases hr : c.reduction with
  | strike => exact Literal.length_le_of_nodup_vars (h.nodup_vars_assumed hr hw) hvars
  | faithful => exact Literal.length_le_of_nodup (h.nodup_assumed hroot) hvars

end Frames

section Turns

variable {c : Settings} {clock : Nat → Nat} {s next : State} {e : Ending}

/-- A number of advances takes the search to its end. -/
inductive State.EndsAfter (c : Settings) (clock : Nat → Nat) : State → Nat → Ending → Prop where
  | finish {s : State} {e : Ending} (h : s.advance c (clock s.steps) = .finished e) :
      EndsAfter c clock s 1 e
  | go {s next : State} {k : Nat} {e : Ending}
      (h : s.advance c (clock s.steps) = .running next) (rest : EndsAfter c clock next k e) :
      EndsAfter c clock s (k + 1) e

def State.openSides (frames : List Frame) : Nat := frames.countP (·.side = .whenTrue)

theorem State.Returns.openSides_lt {r : Reduction} {frames : List Frame}
    (h : Returns r frames next) : openSides next.frames < openSides frames := by
  obtain ⟨suffix, side, changed, current, above⟩ := h
  have hle := suffix.sublist.countP_le (p := fun g : Frame => decide (g.side = .whenTrue))
  rw [above]
  simp only [openSides, List.countP_cons, side, decide_true, if_true, reduceCtorEq,
    decide_false, Bool.false_eq_true, if_false] at hle ⊢
  omega

/-- A turn takes a step and opens a false side, or it takes an open false side. -/
theorem State.Turn.openSides_lt (h : Turn c s next) :
    openSides next.frames + 2 * s.steps < openSides s.frames + 2 * next.steps := by
  cases h with
  | branches view current above steps =>
    rw [above, steps]
    simp only [openSides, List.countP_cons, decide_true, if_true]
    omega
  | returns back steps =>
    have hlt := back.openSides_lt
    omega

/-- The advances of a search are at most two for each step, and one to end it. -/
theorem State.exists_endsAfter (c : Settings) (clock : Nat → Nat) (s : State) :
    ∃ k, s.EndsAfter c clock k (run c clock s) ∧
      k + 2 * s.steps ≤ openSides s.frames + 2 * (run c clock s).steps + 1 := by
  induction hw : s.weight using Nat.strongRecOn generalizing s with
  | ind w ih =>
    rw [run_eq_ending]
    cases hadv : s.advance c (clock s.steps) with
    | finished e =>
      have hsteps := steps_of_advance_finished hadv
      refine ⟨1, .finish hadv, ?_⟩
      simp only [Progress.ending_finished, hsteps]
      omega
    | running next =>
      have hlt : next.weight < w := hw ▸ weight_lt_of_advance hadv
      obtain ⟨k, hk, hle⟩ := ih next.weight hlt next rfl
      have hopen := (turn_of_advance hadv).openSides_lt
      refine ⟨k + 1, .go hadv hk, ?_⟩
      simp only [Progress.ending_running]
      omega

end Turns

section Steps

variable {c : Settings} {n root : Node} {l k : Literal} {assumed : List Literal}

theorem Exploration.steps_branched_le (l : Literal) (depth : Nat) (first : Exploration)
    (second : Option Exploration) : (branched l depth first second).steps ≤
      first.steps + 1 + second.elim 0 Exploration.steps := by
  unfold branched
  cases first.accepted with
  | some path => simp
  | none =>
    cases second with
    | none => simp
    | some second => simp

theorem Node.varsOf_assume_subset (r : Reduction) (k : Literal) (n : Node) :
    Formula.varsOf (n.assume r k).clauses ⊆ Formula.varsOf n.clauses := by
  intro v hv
  obtain ⟨l, hl, rfl⟩ := Formula.mem_varsOf.1 hv
  exact Formula.mem_varsOf.2 ⟨l, mem_literals_of_assume hl, rfl⟩

/-- A side that leaves no literal over its variable leaves fewer variables. -/
theorem Node.card_varsOf_assume_lt {r : Reduction} (hl : l ∈ Formula.literalsOf n.clauses)
    (hgone : ∀ j ∈ Formula.literalsOf (n.assume r k).clauses, j.var ≠ l.var) :
    (Formula.varsOf (n.assume r k).clauses).card < (Formula.varsOf n.clauses).card := by
  apply Finset.card_lt_card
  refine (Finset.ssubset_iff_of_subset (varsOf_assume_subset r k n)).2 ⟨l.var, ?_, ?_⟩
  · exact Formula.mem_varsOf.2 ⟨l, hl, rfl⟩
  · intro hv
    obtain ⟨j, hj, hjl⟩ := Formula.mem_varsOf.1 hv
    exact hgone j hj hjl

theorem steps_explore_of_leaf (h : ∀ l, n.view c ≠ .branch l) (depth : Nat) :
    (explore c n depth).steps = 0 := by
  cases hv : n.view c with
  | satisfied => rw [explore_of_satisfied hv]; rfl
  | unsatisfiable => rw [explore_of_unsatisfiable hv]; rfl
  | branch l => exact absurd hv (h l)

theorem steps_explore_le (h : n.view c = .branch l) (depth : Nat) :
    (explore c n depth).steps ≤ (explore c (n.assume c.reduction l) (depth + 1)).steps + 1 +
      (explore c (n.assume c.reduction l.negated) (depth + 1)).steps := by
  rw [explore_of_branch h]
  refine (Exploration.steps_branched_le _ _ _ _).trans ?_
  unfold exploreFalse
  split
  · simp
  · simp

theorem steps_explore_le_of_cut (h : n.view c = .branch l)
    (hcut : n.assume c.reduction l.negated = n) (depth : Nat) :
    (explore c n depth).steps ≤ (explore c (n.assume c.reduction l) (depth + 1)).steps + 1 := by
  rw [explore_of_branch h]
  refine (Exploration.steps_branched_le _ _ _ _).trans ?_
  simp [exploreFalse, hcut]

theorem steps_explore_of_strike (hr : c.reduction = .strike) {v : Nat}
    (hv : (Formula.varsOf n.clauses).card ≤ v) (depth : Nat) :
    (explore c n depth).steps < 2 ^ v := by
  induction v generalizing n depth with
  | zero =>
    have hleaf : ∀ l, n.view c ≠ .branch l := by
      intro l hl
      have hmem := Formula.mem_varsOf.2 ⟨l, Node.mem_of_view_branch hl, rfl⟩
      have hpos := Finset.card_pos.2 ⟨_, hmem⟩
      omega
    rw [steps_explore_of_leaf hleaf]
    exact Nat.one_pos
  | succ v ih =>
    by_cases hleaf : ∀ l, n.view c ≠ .branch l
    · rw [steps_explore_of_leaf hleaf]
      exact Nat.two_pow_pos _
    · obtain ⟨l, hl⟩ := not_forall_not.1 hleaf
      have hside : ∀ k : Literal, k.var = l.var →
          (Formula.varsOf (n.assume c.reduction k).clauses).card ≤ v := by
        intro k hk
        have hgone : ∀ j ∈ Formula.literalsOf (n.assume c.reduction k).clauses,
            j.var ≠ l.var := by
          intro j hj
          rw [hr] at hj
          exact hk ▸ Node.var_ne_of_strike hj
        have hlt := Node.card_varsOf_assume_lt (Node.mem_of_view_branch hl) hgone
        omega
      have htrue := ih (hside l rfl) (depth + 1)
      have hfalse := ih (hside l.negated (Literal.var_negated l)) (depth + 1)
      have hsteps := steps_explore_le hl depth
      rw [pow_succ]
      omega

def Node.freshVars (n : Node) : Finset Nat :=
  (Formula.varsOf n.clauses).filter (n.candidates.contains · = true)

theorem Node.freshVars_assume_subset (hw : n.candidates.WellFormed) (r : Reduction)
    (k : Literal) : (n.assume r k).freshVars ⊆ n.freshVars.erase k.var := by
  intro v hv
  obtain ⟨hocc, hcand⟩ := Finset.mem_filter.1 hv
  obtain ⟨hne, hmem⟩ := (CandidateSet.contains_erase hw).1 hcand
  exact Finset.mem_erase.2 ⟨hne, Finset.mem_filter.2 ⟨varsOf_assume_subset r k n hocc, hmem⟩⟩

theorem Node.card_freshVars_assume_lt (hw : n.candidates.WellFormed) (r : Reduction)
    (hk : k.var ∈ n.freshVars) : (n.assume r k).freshVars.card < n.freshVars.card :=
  (Finset.card_le_card (freshVars_assume_subset hw r k)).trans_lt (Finset.card_erase_lt_of_mem hk)

theorem Node.card_freshVars_assume_le (hw : n.candidates.WellFormed) (r : Reduction)
    (k : Literal) : (n.assume r k).freshVars.card ≤ n.freshVars.card :=
  Finset.card_le_card ((freshVars_assume_subset hw r k).trans (Finset.erase_subset _ _))

/-- After the second branch on a variable, none of its literals is left. -/
theorem Node.IsResidue.var_ne_of_assumed (h : n.IsResidue .faithful root assumed)
    (hl : l ∈ Formula.literalsOf n.clauses) (hk : k ∈ assumed) (hv : k.var = l.var) :
    ∀ j ∈ Formula.literalsOf (n.assume .faithful l).clauses, j.var ≠ l.var := by
  intro j hj hjl
  have hchild : (n.assume .faithful l).IsResidue .faithful root (l :: assumed) :=
    h.assume (by simp)
  have hjk : j = k := by
    rw [hchild.eq_negated hj List.mem_cons_self hjl.symm, h.eq_negated hl hk hv,
      Literal.negated_negated]
  exact (hchild.mem_literals hj).2.1 (hjk ▸ List.mem_cons_of_mem l hk)

/-- Two sides of a branch, each with one fresh variable less. -/
theorem steps_lt_of_two_sides {v a v₁ a₁ s₁ v₂ a₂ s₂ : Nat} (h₁ : s₁ < (v₁ + 1) * 2 ^ a₁)
    (h₂ : s₂ < (v₂ + 1) * 2 ^ a₂) (hv₁ : v₁ ≤ v) (hv₂ : v₂ ≤ v) (ha₁ : a₁ < a) (ha₂ : a₂ < a) :
    s₁ + 1 + s₂ < (v + 1) * 2 ^ a := by
  obtain ⟨b, rfl⟩ := Nat.exists_eq_add_one_of_ne_zero (Nat.ne_of_gt (Nat.zero_lt_of_lt ha₁))
  have hle {w x : Nat} (hw : w ≤ v) (hx : x < b + 1) : (w + 1) * 2 ^ x ≤ (v + 1) * 2 ^ b :=
    Nat.mul_le_mul (by omega) (Nat.pow_le_pow_right (by omega) (by omega))
  have hs₁ := hle hv₁ ha₁
  have hs₂ := hle hv₂ ha₂
  rw [pow_succ, ← Nat.mul_assoc]
  omega

/-- One side of a branch, with one variable less. -/
theorem steps_lt_of_one_side {v a v₁ a₁ s₁ : Nat} (h₁ : s₁ < (v₁ + 1) * 2 ^ a₁) (hv : v₁ < v)
    (ha : a₁ ≤ a) : s₁ + 1 < (v + 1) * 2 ^ a := by
  have hle : (v₁ + 1) * 2 ^ a₁ ≤ v * 2 ^ a :=
    Nat.mul_le_mul hv (Nat.pow_le_pow_right (by omega) ha)
  have hpos := Nat.two_pow_pos a
  rw [Nat.add_mul, Nat.one_mul]
  omega

theorem steps_explore_of_faithful (hr : c.reduction = .faithful)
    (hw : root.candidates.WellFormed) (hcov : root.Covered)
    (h : n.IsResidue .faithful root assumed) (depth : Nat) : (explore c n depth).steps <
      ((Formula.varsOf n.clauses).card + 1) * 2 ^ n.freshVars.card := by
  induction hweight : n.weight using Nat.strongRecOn generalizing n assumed depth with
  | ind w ih =>
    by_cases hleaf : ∀ l, n.view c ≠ .branch l
    · rw [steps_explore_of_leaf hleaf]
      exact Nat.mul_pos (Nat.succ_pos _) (Nat.two_pow_pos _)
    · obtain ⟨l, hl⟩ := not_forall_not.1 hleaf
      have hocc := Node.mem_of_view_branch hl
      have below {k : Literal} (hne : n.assume .faithful k ≠ n) :=
        ih _ (hweight ▸ Node.weight_assume_lt hne) (h.assume (by simp)) (depth + 1) rfl
      have hvars (k : Literal) :=
        Finset.card_le_card (Node.varsOf_assume_subset .faithful k n)
      have htrue := below (Node.assume_ne_of_mem hocc)
      cases hcand : n.candidates.contains l.var with
      | true =>
        have hneg : n.candidates.contains l.negated.var = true := by simpa using hcand
        have hfalse := below (Node.assume_ne_of_contains hneg)
        have hfresh : l.var ∈ n.freshVars :=
          Finset.mem_filter.2 ⟨Formula.mem_varsOf.2 ⟨l, hocc, rfl⟩, hcand⟩
        have hfresh' : l.negated.var ∈ n.freshVars := by simpa using hfresh
        have hsteps := steps_explore_le hl depth
        rw [hr] at hsteps
        refine hsteps.trans_lt (steps_lt_of_two_sides htrue hfalse (hvars l) (hvars l.negated) ?_ ?_)
        · exact Node.card_freshVars_assume_lt h.wellFormed .faithful hfresh
        · exact Node.card_freshVars_assume_lt h.wellFormed .faithful hfresh'
      | false =>
        have hcut := (h.assume_negated_eq_self_iff hw hcov hocc).2 hcand
        obtain ⟨k, hk, hkl⟩ := h.exists_assumed hw hcov hocc hcand
        have hlt := Node.card_varsOf_assume_lt hocc (h.var_ne_of_assumed hocc hk hkl)
        have hsteps := steps_explore_le_of_cut hl (hr ▸ hcut) depth
        rw [hr] at hsteps
        refine hsteps.trans_lt (steps_lt_of_one_side htrue hlt ?_)
        exact Node.card_freshVars_assume_le h.wellFormed .faithful l

theorem steps_explore_root_le {f : Formula} {vars : List Nat} (h : f.root vars = .ok root)
    (depth : Nat) : (explore c root depth).steps ≤
      c.reduction.maxSteps (Formula.varsOf root.clauses).card := by
  have hw := (Formula.sound_of_root h).wellFormed
  cases hr : c.reduction with
  | strike => exact Nat.le_sub_one_of_lt (steps_explore_of_strike hr (Nat.le_refl _) depth)
  | faithful =>
    by_cases hleaf : ∀ l, root.view c ≠ .branch l
    · rw [steps_explore_of_leaf hleaf]
      exact Nat.zero_le _
    · obtain ⟨l, hl⟩ := not_forall_not.1 hleaf
      have hcov := Node.Below.root.covered_of_view h hl
      have hlt := steps_explore_of_faithful hr hw hcov (Node.isResidue_root hw .faithful) depth
      have hfresh := Finset.card_filter_le (Formula.varsOf root.clauses)
        (root.candidates.contains · = true)
      apply Nat.le_sub_one_of_lt
      refine hlt.trans_le (Nat.mul_le_mul_left _ ?_)
      exact Nat.pow_le_pow_right (by omega) hfresh

end Steps

/-- Without a budget, the search of accepted input ends, after at most two advances for each step and
one more. The steps are within the bound for the variables of the formula, and so are the frames of
every state, also when the frame of a branch is added. -/
theorem search_ends_within_bounds (r : Reduction) (s : Selection) (clock : Nat → Nat)
    {f : Formula} {vars : List Nat} {root : Node} (h : f.root vars = .ok root) :
    let c : Settings := { reduction := r, selection := s }
    let v := (Formula.varsOf f.clauses).card
    (∃ a k e, solve c clock f vars = .ok a ∧ (State.start root).EndsAfter c clock k e ∧
      e.solution = .ok a ∧ k ≤ 2 * a.steps + 1 ∧ a.steps ≤ r.maxSteps v) ∧
    ∀ state, State.Occurs c root state → state.frames.length ≤ r.maxFrames v ∧
      ∀ l, state.current.view c = .branch l → state.frames.length < r.maxFrames v := by
  intro c v
  have hclauses := Formula.clauses_of_root h
  constructor
  · have hsolve := (observe_eq_explore (c := c) ⟨rfl, rfl⟩ clock h).1
    have hsolution := solution_of_solve h hsolve
    have hsame := Ending.steps_of_solution hsolution
    obtain ⟨k, hends, hk⟩ := State.exists_endsAfter c clock (.start root)
    have hsteps := steps_explore_root_le (c := c) h 0
    rw [hclauses] at hsteps
    refine ⟨_, k, _, hsolve, hends, hsolution, ?_, hsteps⟩
    simp only [State.start, State.openSides, List.countP_nil] at hk hsame ⊢
    omega
  · intro state hs
    have hlength {n : Node} {frames : List Frame} (hbelow : root.Below c frames n) :
        frames.length ≤ r.maxFrames v := by
      have hle := hbelow.length_frames_le h
      rwa [hclauses] at hle
    refine ⟨hlength hs.current_below, ?_⟩
    intro l hl
    exact hlength (hs.current_below.branch hl)

/-- Units of both signs of one variable and an empty clause, with an idle candidate that keeps the
faithful search going: it takes as many steps as it can. -/
theorem search_ends_within_bounds_reached :
    let f : Formula := .ofClauses [[.of 1], [.of (-1)], []]
    let c : Settings := { reduction := .faithful }
    let root : Node := ⟨f.clauses, ⟨2, [1]⟩, [2], 2⟩
    f.root [1, 2] = .ok root ∧ (Formula.varsOf f.clauses).card = 1 ∧
      (∃ k e, (State.start root).EndsAfter c (fun _ => 0) k e ∧
        e.solution = .ok ⟨false, Reduction.maxSteps .faithful 1, []⟩ ∧ k ≤ 7) ∧
      ∀ state, State.Occurs c root state → state.frames.length ≤ 2 := by
  intro f c root
  have hroot : f.root [1, 2] = .ok root := rfl
  have hcard : (Formula.varsOf f.clauses).card = 1 := by decide
  have hsolve : solve c (fun _ => 0) f [1, 2] = .ok ⟨false, 3, []⟩ := by decide +kernel
  obtain ⟨⟨a, k, e, ha, hends, he, hk, -⟩, hframes⟩ :=
    search_ends_within_bounds .faithful .maxFrequency (fun _ => 0) hroot
  cases ha.symm.trans hsolve
  refine ⟨hroot, hcard, ⟨k, e, hends, he, hk⟩, ?_⟩
  intro state hs
  have hle := (hframes state hs).1
  rw [hcard] at hle
  exact hle

end SatSearch
