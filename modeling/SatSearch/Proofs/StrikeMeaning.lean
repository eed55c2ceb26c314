import SatSearch.Proofs.BranchingDiscipline
import SatSearch.Proofs.ReductionProgress

/-!
# What the clauses say once a literal is assumed

Where a literal is true, assuming it leaves clauses that say what the clauses said before, with
either reduction. With strike they say nothing more about the variable of the literal, so they can be
read without regard to its value.

Along the path of a search this adds up: with strike, the current clauses have a model exactly if the
formula has one that makes all literals assumed on the path true.
-/

namespace SatSearch

variable {σ τ : Valuation}

theorem Literal.holds_congr {l : Literal} (h : σ l.var = τ l.var) : l.Holds σ ↔ l.Holds τ := by
  rw [Literal.Holds, Literal.Holds, h]

/-- Valuations that agree on all variables that occur satisfy the same clauses. -/
theorem satisfies_congr {clauses : List Clause}
    (h : ∀ l ∈ Formula.literalsOf clauses, σ l.var = τ l.var) :
    Satisfies σ clauses ↔ Satisfies τ clauses := by
  refine forall₂_congr fun c hc => exists_congr fun k => and_congr_right fun hk => ?_
  exact Literal.holds_congr (h k (List.mem_flatten.2 ⟨c, hc, hk⟩))

/-- Under a true literal, what is left of a clause says what the clause says: only literals that are
false were struck. -/
theorem Reduction.holds_clause?_iff {r : Reduction} {l : Literal} {c rest : Clause}
    (h : r.clause? l c = some rest) (hl : l.Holds σ) : rest.Holds σ ↔ c.Holds σ := by
  constructor
  · rintro ⟨k, hk, hσ⟩
    exact ⟨k, (mem_of_mem_clause? h hk).1, hσ⟩
  · rintro ⟨k, hk, hσ⟩
    exact ⟨k, mem_clause?_of_var_ne h hk (var_ne_of_holds h hl hk hσ), hσ⟩

namespace Node

variable {c : Settings} {root n : Node} {frames : List Frame}

/-- The node after a literal is assumed: the child, or the node again where there is none. -/
theorem reduce_getD (r : Reduction) (l : Literal) (n : Node) :
    (n.reduce r l).getD n = n.assume r l := by
  cases h : n.reduce r l with
  | none => exact (reduce_eq_none_iff.1 h).symm
  | some child => exact eq_assume_of_reduce h

theorem satisfies_assume_iff {l : Literal} (hl : l.Holds σ) (r : Reduction) (n : Node) :
    Satisfies σ (n.assume r l).clauses ↔ Satisfies σ n.clauses := by
  constructor
  · intro h cl hcl
    cases hsome : r.clause? l cl with
    | none => exact ⟨l, Reduction.clause?_eq_none_iff.1 hsome, hl⟩
    | some rest =>
      have hrest := h rest (mem_assume.2 ⟨cl, hcl, hsome⟩)
      exact (Reduction.holds_clause?_iff hsome hl).1 hrest
  · intro h rest hrest
    obtain ⟨cl, hcl, hsome⟩ := mem_assume.1 hrest
    exact (Reduction.holds_clause?_iff hsome hl).2 (h cl hcl)

/-- Under valuations that make a literal true, striking keeps what the clauses say, and it takes the
literal and its negation out of all of them, so that the variable does not matter any more. Where the
node has no child, its own clauses are meant. The least literal, its own negation, is no exception. -/
theorem strike_keeps_meaning (n : Node) (l : Literal) :
    let child := (n.reduce .strike l).getD n
    (∀ σ, l.Holds σ → (Satisfies σ n.clauses ↔ Satisfies σ child.clauses)) ∧
      (∀ cl ∈ child.clauses, l ∉ cl ∧ l.negated ∉ cl) ∧
      ∀ σ value, Satisfies (Function.update σ l.var value) child.clauses ↔
        Satisfies σ child.clauses := by
  intro child
  have hchild : child = n.assume .strike l := reduce_getD .strike l n
  have hvar (k : Literal) (hk : k ∈ Formula.literalsOf child.clauses) : k.var ≠ l.var :=
    var_ne_of_strike (hchild ▸ hk)
  refine ⟨fun σ hl => ?_, fun cl hcl => ⟨fun hk => ?_, fun hk => ?_⟩, fun σ value => ?_⟩
  · rw [hchild]
    exact (satisfies_assume_iff hl .strike n).symm
  · exact hvar l (List.mem_flatten.2 ⟨cl, hcl, hk⟩) rfl
  · exact hvar l.negated (List.mem_flatten.2 ⟨cl, hcl, hk⟩) l.var_negated
  · exact satisfies_congr fun k hk => Function.update_of_ne (hvar k hk) value σ

/-- A clause with both literals of the variable 1 is dropped, and -1 is struck wherever it stands. -/
theorem strike_keeps_meaning_mixed :
    let n : Node := ⟨[[.of (-1), .of 2, .of (-1)], [.of 1, .of (-1)], [.of 3, .of 3], [.of (-1)]],
      ⟨4, [1, 2, 3]⟩, [], 3⟩
    let child : Node := ⟨[[.of 2], [.of 3, .of 3], []], ⟨4, [2, 3]⟩, [], 2⟩
    let σ : Valuation := fun _ => true
    n.reduce .strike (.of 1) = some child ∧ (Literal.of 1).Holds σ ∧
      (Satisfies σ n.clauses ↔ Satisfies σ child.clauses) ∧
      (∀ cl ∈ child.clauses, Literal.of 1 ∉ cl ∧ Literal.of (-1) ∉ cl) ∧
      (Satisfies (Function.update σ 1 false) child.clauses ↔ Satisfies σ child.clauses) := by
  intro n child σ
  have hchild : n.reduce .strike (.of 1) = some child := by decide
  have hl : (Literal.of 1).Holds σ := by decide
  have hmeaning := strike_keeps_meaning n (.of 1)
  rw [hchild] at hmeaning
  obtain ⟨hkeeps, hclear, hvalue⟩ := hmeaning
  exact ⟨hchild, hl, hkeeps σ hl, hclear, hvalue σ false⟩

/-- Under valuations that make the literals of the frames true, a node says what the root says. -/
theorem Below.satisfies_iff (h : root.Below c frames n)
    (hσ : ∀ frame ∈ frames, frame.assumed.Holds σ) :
    Satisfies σ n.clauses ↔ Satisfies σ root.clauses := by
  induction h with
  | root => exact Iff.rfl
  | @side frame rest below view changed ih =>
    obtain ⟨hframe, hrest⟩ := List.forall_mem_cons.1 hσ
    exact (satisfies_assume_iff hframe c.reduction frame.node).trans (ih hrest)

/-- With strike, a model of the node can be given the values that the frames assume. -/
theorem Below.exists_model (h : root.Below c frames n) (hr : c.reduction = .strike)
    (hw : root.candidates.WellFormed) (hσ : Satisfies σ n.clauses) :
    ∃ τ, Satisfies τ n.clauses ∧ ∀ frame ∈ frames, frame.assumed.Holds τ := by
  let assumed := frames.map Frame.assumed
  have hres := h.isResidue hw
  rw [hr] at hres
  obtain ⟨given, hgiven⟩ := exists_valuation_of_not_contradictory
    (not_contradictory_of_nodup (h.nodup_vars_assumed hr hw))
  let τ : Valuation := fun v => if v ∈ assumed.map Literal.var then given v else σ v
  refine ⟨τ, (satisfies_congr fun k hk => ?_).1 hσ, fun frame hframe => ?_⟩
  · have hnew : k.var ∉ assumed.map Literal.var := by
      intro hv
      obtain ⟨l, hl, hlk⟩ := List.mem_map.1 hv
      exact hres.var_ne_of_strike hk l hl hlk.symm
    exact (if_neg hnew).symm
  · have hmem : frame.assumed ∈ assumed := List.mem_map_of_mem hframe
    refine (Literal.holds_congr ?_).1 (hgiven frame.assumed hmem)
    exact (if_pos (List.mem_map_of_mem hmem)).symm

end Node

/-- At every state of a search with strike, the current clauses have a model exactly if the formula
has one that makes the literals assumed on the path true. -/
theorem State.Occurs.exists_model_iff {c : Settings} {f : Formula} {vars : List Nat} {root : Node}
    {s : State} (hs : State.Occurs c root s) (h : f.root vars = .ok root)
    (hr : c.reduction = .strike) :
    (∃ σ, Satisfies σ s.current.clauses) ↔
      ∃ σ, Satisfies σ f.clauses ∧ ∀ frame ∈ s.frames, frame.assumed.Holds σ := by
  have hbelow := hs.current_below
  rw [← Formula.clauses_of_root h]
  constructor
  · rintro ⟨σ, hσ⟩
    obtain ⟨τ, hτ, hpath⟩ := hbelow.exists_model hr (Formula.sound_of_root h).wellFormed hσ
    exact ⟨τ, (hbelow.satisfies_iff hpath).1 hτ, hpath⟩
  · rintro ⟨σ, hσ, hpath⟩
    exact ⟨σ, (hbelow.satisfies_iff hpath).2 hσ⟩

end SatSearch
