import SatSearch.Proofs.AcceptedInput
import SatSearch.Proofs.FrameChain

/-!
# What a path leaves of the root

Every node that a search holds, the current one and those saved in its frames, is what the literals
assumed below it leave of the root when they are assumed all at once. So it does not matter which
sides were explored before, or how often the search has gone back.
-/

namespace SatSearch

def Clause.misses (c : Clause) (ls : List Literal) : Bool := ls.all (· ∉ c)

theorem Clause.misses_iff {c : Clause} {ls : List Literal} :
    c.misses ls = true ↔ ∀ l ∈ ls, l ∉ c := by
  simp [misses]

theorem Clause.misses_cons (c : Clause) (l : Literal) (ls : List Literal) :
    c.misses (l :: ls) = (!decide (l ∈ c) && c.misses ls) := by
  simp [misses]

namespace Reduction

/-- What is left of a clause that has none of the assumed literals: with strike, it loses their
negations. -/
def remnant (r : Reduction) (assumed : List Literal) (c : Clause) : Clause :=
  match r with
  | faithful => c
  | strike => c.filter fun k => ∀ l ∈ assumed, k ≠ l.negated

/-- What is left of some clauses, in their order, when some literals are assumed all at once. -/
def residue (r : Reduction) (assumed : List Literal) (clauses : List Clause) : List Clause :=
  (clauses.filter (·.misses assumed)).map (r.remnant assumed)

variable {r : Reduction} {k : Literal} {assumed : List Literal}

theorem residue_nil (r : Reduction) (clauses : List Clause) : r.residue [] clauses = clauses := by
  have hwhole : ∀ c, r.remnant [] c = c := by
    intro c
    cases r <;> simp [remnant]
  simp [residue, Clause.misses, List.map_id'' hwhole]

theorem mem_remnant {c : Clause} : k ∈ r.remnant assumed c ↔
    k ∈ c ∧ (r = .strike → ∀ l ∈ assumed, k ≠ l.negated) := by
  cases r with
  | faithful => simp [remnant]
  | strike => simp [remnant]

/-- A literal that was not struck meets what is left of a clause as it meets the clause. -/
theorem clause?_remnant (h : r = .strike → ∀ l ∈ assumed, k ≠ l.negated) (c : Clause) :
    r.clause? k (r.remnant assumed c) =
      if k ∈ c then none else some (r.remnant (k :: assumed) c) := by
  by_cases hk : k ∈ c
  · rw [if_pos hk]
    exact clause?_eq_none_iff.2 (mem_remnant.2 ⟨hk, h⟩)
  · rw [if_neg hk]
    refine clause?_eq_some_iff.2 ⟨fun hm => hk (mem_remnant.1 hm).1, ?_⟩
    cases r with
    | faithful => rfl
    | strike => simp [remnant, Clause.without]

/-- Assuming one literal more leaves what assuming all of them at once leaves. -/
theorem filterMap_residue (h : r = .strike → ∀ l ∈ assumed, k ≠ l.negated)
    (clauses : List Clause) :
    (r.residue assumed clauses).filterMap (r.clause? k) = r.residue (k :: assumed) clauses := by
  simp only [residue, List.filterMap_map, Function.comp_def, clause?_remnant h,
    Clause.misses_cons]
  induction clauses with
  | nil => rfl
  | cons c clauses ih =>
    cases hc : c.misses assumed with
    | false => simp [hc, ih]
    | true =>
      by_cases hk : k ∈ c
      · simp [hc, hk, ih]
      · simp [hc, hk, ih]

theorem mem_literals_residue {clauses : List Clause}
    (h : k ∈ Formula.literalsOf (r.residue assumed clauses)) :
    k ∈ Formula.literalsOf clauses ∧ k ∉ assumed ∧
      (r = .strike → ∀ l ∈ assumed, k ≠ l.negated) := by
  obtain ⟨rest, hrest, hk⟩ := List.mem_flatten.1 h
  obtain ⟨c, hc, rfl⟩ := List.mem_map.1 hrest
  obtain ⟨hc, hmiss⟩ := List.mem_filter.1 hc
  obtain ⟨hkc, hstruck⟩ := mem_remnant.1 hk
  exact ⟨List.mem_flatten.2 ⟨c, hc, hkc⟩, fun hka => Clause.misses_iff.1 hmiss k hka hkc, hstruck⟩

end Reduction

namespace Node

/-- The node is what is left of the root when the literals are assumed all at once: of its clauses,
and of its candidates, which lose the variables of the literals. -/
structure IsResidue (n : Node) (r : Reduction) (root : Node) (assumed : List Literal) : Prop where
  clauses_eq : n.clauses = r.residue assumed root.clauses
  members_eq : n.candidates.members =
    root.candidates.members.filter fun v => ∀ l ∈ assumed, v ≠ l.var
  wellFormed : n.candidates.WellFormed

variable {r : Reduction} {c : Settings} {root n : Node} {assumed : List Literal} {k : Literal}

theorem isResidue_root (h : root.candidates.WellFormed) (r : Reduction) :
    root.IsResidue r root [] where
  clauses_eq := (r.residue_nil _).symm
  members_eq := by simp
  wellFormed := h

theorem IsResidue.assume (h : n.IsResidue r root assumed)
    (hk : r = .strike → ∀ l ∈ assumed, k ≠ l.negated) :
    (n.assume r k).IsResidue r root (k :: assumed) where
  clauses_eq := by
    simp only [Node.assume, h.clauses_eq]
    exact Reduction.filterMap_residue hk root.clauses
  members_eq := by
    have hnd : n.candidates.members.Nodup := h.wellFormed.ascending.imp Nat.ne_of_lt
    simp only [Node.assume]
    rw [CandidateSet.members_erase h.wellFormed, hnd.erase_eq_filter, h.members_eq,
      List.filter_filter]
    apply List.filter_congr
    intro v hv
    by_cases he : v = k.var
    · simp [he]
    · simp [he]
  wellFormed := CandidateSet.wellFormed_erase h.wellFormed k.var

theorem IsResidue.contains_iff (h : n.IsResidue r root assumed)
    (hroot : root.candidates.WellFormed) {v : Nat} : n.candidates.contains v = true ↔
      root.candidates.contains v = true ∧ ∀ l ∈ assumed, v ≠ l.var := by
  rw [CandidateSet.contains_iff h.wellFormed, CandidateSet.contains_iff hroot, h.members_eq]
  simp

theorem IsResidue.mem_literals (h : n.IsResidue r root assumed)
    (hk : k ∈ Formula.literalsOf n.clauses) : k ∈ Formula.literalsOf root.clauses ∧
      k ∉ assumed ∧ (r = .strike → ∀ l ∈ assumed, k ≠ l.negated) := by
  rw [h.clauses_eq] at hk
  exact Reduction.mem_literals_residue hk

/-- What the frames of a node assume leaves it of the root. -/
theorem Below.isResidue {frames : List Frame} (h : root.Below c frames n)
    (hroot : root.candidates.WellFormed) :
    n.IsResidue c.reduction root (frames.map Frame.assumed) := by
  induction h with
  | root => exact isResidue_root hroot c.reduction
  | @side f rest below view changed ih =>
    obtain ⟨-, hnew, hstruck⟩ := ih.mem_literals (mem_of_view_branch view)
    refine ih.assume ?_
    intro hr l hl
    rcases f.assumed_eq with he | he
    · rw [he]
      exact hstruck hr l hl
    · rw [he]
      intro hneg
      have hlf : f.literal = l := by simpa using congrArg Literal.negated hneg
      exact hnew (hlf ▸ hl)

end Node

/-- At every state of a search, the current node is what the literals assumed by the frames leave of
the root, and so is the node of each frame for the frames below it. -/
theorem residue_of_path {c : Settings} {f : Formula} {vars : List Nat} {root : Node} {s : State}
    (h : f.root vars = .ok root) (hs : State.Occurs c root s) :
    s.current.IsResidue c.reduction root (s.frames.map Frame.assumed) ∧
      ∀ frame rest, frame :: rest <:+ s.frames →
        frame.node.IsResidue c.reduction root (rest.map Frame.assumed) := by
  have hroot := (Formula.sound_of_root h).wellFormed
  refine ⟨hs.current_below.isResidue hroot, ?_⟩
  intro frame rest hsuffix
  exact (hs.current_below.of_suffix hsuffix).1.isResidue hroot

theorem residue_of_path_returned :
    let f : Formula := .ofClauses [[.of 1, .of 2], [.of (-1)]]
    let c : Settings := { reduction := .strike, selection := .firstLiteral }
    let root : Node := ⟨f.clauses, ⟨3, [1, 2]⟩, [], 2⟩
    let s : State :=
      { current := ⟨[[.of 2]], ⟨3, [2]⟩, [], 1⟩
        frames := [⟨root, .of 1, .whenFalse⟩]
        steps := 1
        events := [.descend .whenFalse (.of 1) 0, .descend .whenTrue (.of 1) 0,
          .branch (.of 1) 0] }
    f.root [1, 2] = .ok root ∧ State.Occurs c root s ∧
      s.current.IsResidue .strike root [.of (-1)] := by
  intro f c root s
  let below : State :=
    { current := ⟨[[]], ⟨3, [2]⟩, [], 1⟩
      frames := [⟨root, .of 1, .whenTrue⟩]
      steps := 1
      events := [.descend .whenTrue (.of 1) 0, .branch (.of 1) 0] }
  have hroot : f.root [1, 2] = .ok root := rfl
  have hbranch : (State.start root).advance c 0 = .running below := rfl
  have hreturn : below.advance c 0 = .running s := rfl
  have hs : State.Occurs c root s := .advance (.advance .start hbranch) hreturn
  exact ⟨hroot, hs, (residue_of_path hroot hs).1⟩

end SatSearch
