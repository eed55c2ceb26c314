import SatSearch.Proofs.LiteralTruth
import SatSearch.Proofs.BranchingLiteral
import Mathlib.Data.List.Basic

/-!
# Renaming variables

A renaming gives the variables other numbers, no two of them the same, and changes the signs of the
literals of some. On literals it is injective and goes along with negation, and it leaves alone the
one literal whose variable has no literal of the other sign.

The branching literal of renamed clauses is the renamed branching literal, because both rules of
choice compare literals only for being equal, and break ties by the order of first appearance.
-/

namespace SatSearch

/-- New numbers for the variables, and the choice of those whose literals change their signs. -/
structure Renaming where
  number : Nat → Nat
  flips : Nat → Bool
  number_mem : ∀ v, 0 < v ∧ v ≤ maxVar → 0 < number v ∧ number v ≤ maxVar
  number_inj : ∀ v w, 0 < v ∧ v ≤ maxVar → 0 < w ∧ w ≤ maxVar → number v = number w → v = w

namespace Renaming

variable (ρ : Renaming)

/-- The new number of a variable. What is no variable keeps its number. -/
def var (v : Nat) : Nat := if 0 < v ∧ v ≤ maxVar then ρ.number v else v

variable {ρ}

theorem var_mem_iff {v : Nat} : 0 < ρ.var v ∧ ρ.var v ≤ maxVar ↔ 0 < v ∧ v ≤ maxVar := by
  unfold var
  split
  · rename_i h
    exact iff_of_true (ρ.number_mem v h) h
  · rfl

theorem var_injective : Function.Injective ρ.var := by
  intro v w h
  by_cases hv : 0 < v ∧ v ≤ maxVar
  · have hw : 0 < w ∧ w ≤ maxVar := by rw [← var_mem_iff (ρ := ρ), ← h, var_mem_iff]; exact hv
    rw [var, if_pos hv, var, if_pos hw] at h
    exact ρ.number_inj v w hv hw h
  · have hw : ¬(0 < w ∧ w ≤ maxVar) := by
      rw [← var_mem_iff (ρ := ρ), ← h, var_mem_iff]
      exact hv
    rwa [var, if_neg hv, var, if_neg hw] at h

theorem var_mem_of_le {l : Literal} (h : l.var ≤ maxVar) :
    0 < ρ.var l.var ∧ ρ.var l.var ≤ maxVar := var_mem_iff.2 ⟨l.var_pos, h⟩

variable (ρ)

def literal (l : Literal) : Literal :=
  if h : l.var ≤ maxVar then .ofSign (ρ.var l.var) (l.isPositive != ρ.flips l.var) (var_mem_of_le h)
  else l

variable {ρ}

theorem var_literal (l : Literal) : (ρ.literal l).var = ρ.var l.var := by
  unfold literal
  split
  · exact Literal.var_ofSign _
  · rename_i h
    rw [var, if_neg fun hv => h hv.2]

theorem isPositive_literal {l : Literal} (h : l.var ≤ maxVar) :
    (ρ.literal l).isPositive = (l.isPositive != ρ.flips l.var) := by
  rw [literal, dif_pos h]
  exact Literal.isPositive_ofSign _

theorem literal_negated (l : Literal) : ρ.literal l.negated = (ρ.literal l).negated := by
  by_cases h : l.var ≤ maxVar
  · have hn : l.negated.var ≤ maxVar := by rwa [Literal.var_negated]
    have hρ : (ρ.literal l).var ≤ maxVar := by
      rw [var_literal]
      exact (var_mem_of_le h).2
    apply Literal.eq_of_var_eq
    · rw [var_literal, Literal.var_negated, Literal.var_negated, var_literal]
    · rw [isPositive_literal hn, Literal.isPositive_negated hρ, isPositive_literal h,
        Literal.isPositive_negated h, Literal.var_negated]
      cases l.isPositive <;> cases ρ.flips l.var <;> rfl
  · have hn : ¬l.negated.var ≤ maxVar := by rwa [Literal.var_negated]
    rw [literal, dif_neg hn, literal, dif_neg h]

theorem literal_injective : Function.Injective ρ.literal := by
  intro a b h
  have hvar : a.var = b.var := by
    apply var_injective (ρ := ρ)
    rw [← var_literal, ← var_literal, h]
  by_cases ha : a.var ≤ maxVar
  · apply Literal.eq_of_var_eq hvar
    have hsign := congrArg Literal.isPositive h
    rw [isPositive_literal ha, isPositive_literal (hvar ▸ ha), hvar] at hsign
    revert hsign
    cases a.isPositive <;> cases b.isPositive <;> cases ρ.flips b.var <;> simp
  · rwa [literal, dif_neg ha, literal, dif_neg (hvar ▸ ha)] at h

variable (ρ)

def clause (c : Clause) : Clause := c.map ρ.literal

variable {ρ}

theorem literalsOf_map_clause (clauses : List Clause) :
    Formula.literalsOf (clauses.map ρ.clause) = (Formula.literalsOf clauses).map ρ.literal := by
  simp only [Formula.literalsOf, List.map_flatten]
  rfl

theorem mem_clause_iff {l : Literal} {c : Clause} : ρ.literal l ∈ ρ.clause c ↔ l ∈ c :=
  List.mem_map_of_injective literal_injective

theorem without_clause (c : Clause) (l : Literal) :
    (ρ.clause c).without (ρ.literal l) = ρ.clause (c.without l) := by
  simp only [clause, Clause.without, List.filter_map, Function.comp_def, literal_injective.ne_iff]

end Renaming

namespace Frequencies

def renameEntry (ρ : Renaming) (e : Literal × Nat) : Literal × Nat := (ρ.literal e.1, e.2)

variable {ρ : Renaming}

theorem bumpEntry_map (l : Literal) (es : List (Literal × Nat)) :
    bumpEntry (ρ.literal l) (es.map (renameEntry ρ)) = (bumpEntry l es).map (renameEntry ρ) := by
  induction es with
  | nil => rfl
  | cons e es ih =>
    have hkey : (renameEntry ρ e).1 = ρ.literal l ↔ e.1 = l := Renaming.literal_injective.eq_iff
    simp only [List.map_cons, bumpEntry, hkey]
    split
    · rfl
    · rw [ih, List.map_cons]

theorem entries_foldl_bump_map (ls : List Literal) {m k : Frequencies} (hm : m.Indexed)
    (hk : k.Indexed) (h : k.entries = m.entries.map (renameEntry ρ)) :
    ((ls.map ρ.literal).foldl bump k).entries = (ls.foldl bump m).entries.map (renameEntry ρ) := by
  induction ls generalizing m k with
  | nil => exact h
  | cons l ls ih =>
    apply ih (hm.bump l) (hk.bump (ρ.literal l))
    rw [hk.entries_bump, hm.entries_bump, h, bumpEntry_map]

theorem prefer_map (best : Option (Literal × Nat)) (e : Literal × Nat) :
    prefer (best.map (renameEntry ρ)) (renameEntry ρ e) = (prefer best e).map (renameEntry ρ) := by
  cases best with
  | none => rfl
  | some top =>
    have hcount (e : Literal × Nat) : (renameEntry ρ e).2 = e.2 := rfl
    simp only [prefer, Option.map_some, hcount]
    split <;> rfl

theorem foldl_prefer_map (es : List (Literal × Nat)) (best : Option (Literal × Nat)) :
    (es.map (renameEntry ρ)).foldl prefer (best.map (renameEntry ρ)) =
      (es.foldl prefer best).map (renameEntry ρ) := by
  induction es generalizing best with
  | nil => rfl
  | cons e es ih => rw [List.map_cons, List.foldl_cons, prefer_map, ih, List.foldl_cons]

theorem greatest?_map_clause (clauses : List Clause) :
    (ofClauses (clauses.map ρ.clause)).greatest? =
      (ofClauses clauses).greatest?.map (renameEntry ρ) := by
  have hentries : (ofClauses (clauses.map ρ.clause)).entries =
      (ofClauses clauses).entries.map (renameEntry ρ) := by
    rw [ofClauses, Renaming.literalsOf_map_clause]
    exact entries_foldl_bump_map _ indexed_empty indexed_empty rfl
  rw [greatest?_eq_foldl, greatest?_eq_foldl, hentries]
  exact foldl_prefer_map _ none

end Frequencies

theorem Selection.pick_map_clause {ρ : Renaming} (s : Selection) (clauses : List Clause) :
    s.pick (clauses.map ρ.clause) = (s.pick clauses).map ρ.literal := by
  cases s with
  | maxFrequency =>
    simp only [pick, mostFrequent?, Frequencies.greatest?_map_clause, Option.map_map]
    rfl
  | firstLiteral => rw [pick, pick, Renaming.literalsOf_map_clause, List.head?_map]

end SatSearch
