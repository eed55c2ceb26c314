import SatSearch.Semantics
import Mathlib.Data.List.Nodup

/-!
# Literals under assignments

A variable has one literal of each sign, so literals over one variable are equal or each other's
negation. A list of literals can be made true together exactly if no two of them contradict each
other, both by a partial assignment, which is built one literal after the other, and by a valuation.
-/

namespace SatSearch

namespace Literal

theorem eq_of_var_eq {a b : Literal} (hv : a.var = b.var) (hp : a.isPositive = b.isPositive) :
    a = b := by
  apply Literal.ext
  have ha := a.value_ne_zero
  have hb := b.value_ne_zero
  simp only [var] at hv
  simp only [isPositive, decide_eq_decide] at hp
  omega

def ofSign (v : Nat) (positive : Bool) (h : 0 < v ∧ v ≤ maxVar) : Literal where
  value := if positive then (v : Int) else -(v : Int)
  value_ne_zero := by have := h.1; split <;> omega
  le_value := by have := h.2; simp only [maxVar] at this; split <;> omega
  value_le := by have := h.2; simp only [maxVar] at this; split <;> omega

theorem var_ofSign {v : Nat} {positive : Bool} (h : 0 < v ∧ v ≤ maxVar) :
    (ofSign v positive h).var = v := by
  simp only [ofSign, var]
  split <;> omega

theorem isPositive_ofSign {v : Nat} {positive : Bool} (h : 0 < v ∧ v ≤ maxVar) :
    (ofSign v positive h).isPositive = positive := by
  have hv := h.1
  cases positive with
  | true => simpa [ofSign, isPositive] using hv
  | false => simp [ofSign, isPositive]

theorem value_ne_least_iff (l : Literal) : l.value ≠ -2147483648 ↔ l.var ≤ maxVar := by
  have h₁ := l.le_value
  have h₂ := l.value_le
  simp only [var, maxVar]
  omega

/-- Negation changes the sign of every literal but the least one. -/
theorem isPositive_negated {l : Literal} (h : l.var ≤ maxVar) :
    l.negated.isPositive = !l.isPositive := by
  have hl := (value_ne_least_iff l).2 h
  have h₀ := l.value_ne_zero
  simp only [negated, hl, dite_false, isPositive]
  by_cases hp : 0 < l.value
  · simp [hp, Int.le_of_lt hp]
  · have hn : l.value < 0 := by omega
    simp [hp, hn]

/-- Literals over one variable are equal or each other's negation. -/
theorem eq_or_eq_negated {a b : Literal} (hv : a.var = b.var) : a = b ∨ a = b.negated := by
  by_cases hp : a.isPositive = b.isPositive
  · exact .inl (eq_of_var_eq hv hp)
  · have hle : b.var ≤ maxVar := by
      rw [← value_ne_least_iff]
      intro hb
      have := a.value_le
      simp only [var] at hv
      simp only [isPositive, decide_eq_decide] at hp
      omega
    refine .inr (eq_of_var_eq (by simp [hv]) ?_)
    rw [isPositive_negated hle]
    cases ha : a.isPositive <;> cases hb : b.isPositive <;> simp_all

variable {σ : Valuation}

theorem holds_negated {l : Literal} (h : l.var ≤ maxVar) : l.negated.Holds σ ↔ ¬l.Holds σ := by
  simp only [Holds, var_negated, isPositive_negated h]
  cases σ l.var <;> cases l.isPositive <;> simp

theorem Holds.eq_of_var_eq {a b : Literal} (ha : a.Holds σ) (hb : b.Holds σ)
    (hv : a.var = b.var) : a = b := by
  apply Literal.eq_of_var_eq hv
  rw [← ha, ← hb, hv]

end Literal

/-- Two literals of the list give one variable different values. -/
def Contradictory (ls : List Literal) : Prop :=
  ∃ l ∈ ls, ∃ k ∈ ls, l.var = k.var ∧ l.isPositive ≠ k.isPositive

instance (ls : List Literal) : Decidable (Contradictory ls) :=
  inferInstanceAs (Decidable (∃ l ∈ ls, ∃ k ∈ ls, l.var = k.var ∧ l.isPositive ≠ k.isPositive))

theorem not_contradictory_of_nodup {ls : List Literal} (h : (ls.map Literal.var).Nodup) :
    ¬Contradictory ls := by
  rintro ⟨l, hl, k, hk, hv, hp⟩
  apply hp
  rw [List.inj_on_of_nodup_map h hl hk hv]

/-- Literals that do not contradict each other are true together under some valuation. -/
theorem exists_valuation_of_not_contradictory {ls : List Literal} (h : ¬Contradictory ls) :
    ∃ σ : Valuation, ∀ l ∈ ls, l.Holds σ := by
  refine ⟨fun v => ls.any fun l => l.var = v ∧ l.isPositive = true, ?_⟩
  intro l hl
  simp only [Literal.Holds]
  cases hp : l.isPositive with
  | true =>
    rw [List.any_eq_true]
    exact ⟨l, hl, by simp [hp]⟩
  | false =>
    rw [List.any_eq_false]
    intro k hk hkv
    simp only [decide_eq_true_eq] at hkv
    exact h ⟨l, hl, k, hk, hkv.1.symm, by simp [hp, hkv.2]⟩

theorem lookup_of_mem {α β : Type} [BEq α] [LawfulBEq α] {es : List (α × β)}
    (h : (es.map Prod.fst).Nodup) {e : α × β} (he : e ∈ es) : es.lookup e.1 = some e.2 := by
  obtain ⟨before, after, rfl⟩ := List.append_of_mem he
  rw [List.map_append, List.map_cons] at h
  rw [List.lookup_eq_some_iff]
  refine ⟨before, after, rfl, fun p hp => ?_⟩
  have hne : p.1 ≠ e.1 :=
    (List.nodup_append.1 h).2.2 _ (List.mem_map_of_mem hp) _ List.mem_cons_self
  simpa using Ne.symm hne

namespace Assignment

theorem lookup_insertEntry {v : Nat} {es : List (Nat × Bool)} (h : es.lookup v = none) (b : Bool)
    (w : Nat) : (insertEntry v b es).lookup w = if w = v then some b else es.lookup w := by
  induction es with
  | nil =>
    by_cases hw : w = v
    · simp [insertEntry, hw]
    · simp [insertEntry, List.lookup_cons, hw, beq_false_of_ne hw]
  | cons e es ih =>
    obtain ⟨u, c⟩ := e
    have hu : v ≠ u := by
      rintro rfl
      simp at h
    have hrest : es.lookup v = none := by
      rwa [List.lookup_cons, beq_false_of_ne hu] at h
    simp only [insertEntry]
    split
    · by_cases hw : w = v
      · simp [hw]
      · simp only [List.lookup_cons, beq_false_of_ne hw, hw, if_false]
    · by_cases hwu : w = u
      · subst hwu
        simp [Ne.symm hu]
      · simp only [List.lookup_cons, beq_false_of_ne hwu, ih hrest]

/-- The first literal of a variable decides its value. -/
theorem value?_assign (a : Assignment) (l : Literal) (v : Nat) :
    (a.assign l).2.value? v =
      if v = l.var then some ((a.value? v).getD l.isPositive) else a.value? v := by
  unfold assign
  by_cases hv : v = l.var
  · cases h : a.value? l.var with
    | some b => simp [hv, h]
    | none =>
      simp only [value?] at h ⊢
      simp [hv, h, lookup_insertEntry h]
  · cases h : a.value? l.var with
    | some b => simp [hv]
    | none => simp [hv, value?, lookup_insertEntry h]

theorem assign_fst (a : Assignment) (l : Literal) :
    (a.assign l).1 = true ↔ (a.value? l.var).getD l.isPositive = l.isPositive := by
  unfold assign
  cases a.value? l.var <;> simp

/-- Assigning all literals of a list keeps the values given before, and makes the literals true. -/
theorem value?_of_assignAll {a m : Assignment} {ls : List Literal} (h : a.assignAll ls = some m) :
    (∀ v b, a.value? v = some b → m.value? v = some b) ∧
      ∀ l ∈ ls, m.value? l.var = some l.isPositive := by
  induction ls generalizing a with
  | nil =>
    cases h
    exact ⟨fun _ _ hb => hb, by simp⟩
  | cons l ls ih =>
    have hval := value?_assign a l
    have hfst := assign_fst a l
    simp only [assignAll] at h
    split at h
    · rename_i next hnext
      rw [hnext] at hval hfst
      obtain ⟨hkeep, htrue⟩ := ih h
      refine ⟨?_, ?_⟩
      · intro v b hb
        apply hkeep
        rw [hval, hb]
        simp
      · intro k hk
        rcases List.mem_cons.1 hk with rfl | hk
        · apply hkeep
          rw [hval, if_pos rfl, hfst.1 rfl]
        · exact htrue k hk
    · cases h

/-- Assigning fails only at a literal whose variable has the other value already, or gets it from
another literal of the list. -/
theorem contradiction_of_assignAll {a : Assignment} {ls : List Literal}
    (h : a.assignAll ls = none) :
    (∃ l ∈ ls, ∃ b, a.value? l.var = some b ∧ b ≠ l.isPositive) ∨ Contradictory ls := by
  induction ls generalizing a with
  | nil => cases h
  | cons l ls ih =>
    have hval := value?_assign a l
    have hfst := assign_fst a l
    simp only [assignAll] at h
    split at h
    · rename_i next hnext
      rw [hnext] at hval
      rcases ih h with ⟨k, hk, b, hb, hne⟩ | ⟨k, hk, j, hj, hkj⟩
      · rw [hval] at hb
        by_cases hv : k.var = l.var
        · cases ha : a.value? l.var with
          | some c =>
            refine .inl ⟨k, List.mem_cons_of_mem _ hk, b, ?_, hne⟩
            simpa [hv, ha] using hb
          | none =>
            refine .inr ⟨l, List.mem_cons_self, k, List.mem_cons_of_mem _ hk, hv.symm, ?_⟩
            have hb' : l.isPositive = b := by simpa [hv, ha] using hb
            rwa [hb']
        · refine .inl ⟨k, List.mem_cons_of_mem _ hk, b, ?_, hne⟩
          simpa [hv] using hb
      · exact .inr ⟨k, List.mem_cons_of_mem _ hk, j, List.mem_cons_of_mem _ hj, hkj⟩
    · rename_i next hnext
      rw [hnext] at hfst
      refine .inl ⟨l, List.mem_cons_self, ?_⟩
      cases ha : a.value? l.var with
      | some b => exact ⟨b, rfl, fun hb => by simp [ha, hb] at hfst⟩
      | none => simp [ha] at hfst

theorem ofSize_eq {n : Nat} (hn : n < maxCount) : ofSize n = .ok ⟨n + 1, []⟩ := by
  have hle : n + 1 ≤ maxCount := hn
  simp [ofSize, addCounts, hle]

theorem ofDecisions_eq_assignAll {n : Nat} (hn : n < maxCount) (ls : List Literal) :
    ofDecisions n ls = .ok (assignAll ⟨n + 1, []⟩ ls) := by
  simp only [ofDecisions, ofSize_eq hn]
  rfl

/-- The assignment of some decisions exists exactly if they do not contradict each other, and it
makes all of them true. -/
theorem ofDecisions_eq (n : Nat) (hn : n < maxCount) (ls : List Literal) :
    (Contradictory ls ∧ ofDecisions n ls = .ok none) ∨
      (¬Contradictory ls ∧ ∃ m, ofDecisions n ls = .ok (some m) ∧
        ∀ l ∈ ls, m.literalValue? l = some true) := by
  rw [ofDecisions_eq_assignAll hn]
  cases h : assignAll ⟨n + 1, []⟩ ls with
  | none =>
    refine .inl ⟨?_, rfl⟩
    rcases contradiction_of_assignAll h with ⟨l, -, b, hb, -⟩ | hc
    · simp [value?] at hb
    · exact hc
  | some m =>
    have htrue := (value?_of_assignAll h).2
    refine .inr ⟨?_, m, rfl, ?_⟩
    · rintro ⟨l, hl, k, hk, hv, hp⟩
      have hlk := htrue l hl
      rw [hv, htrue k hk] at hlk
      exact hp (Option.some.inj hlk).symm
    · intro l hl
      simp [literalValue?, htrue l hl]

end Assignment

theorem Formula.verify_of_hits {f : Formula} {a : Assignment}
    (h : ∀ c ∈ f.clauses, ∃ l ∈ c, a.literalValue? l = some true) : f.verify a = true := by
  rw [Formula.verify, List.all_eq_true]
  intro c hc
  obtain ⟨l, hl, htrue⟩ := h c hc
  rw [Clause.isSatisfiedBy, List.any_eq_true]
  exact ⟨l, hl, by simp [htrue]⟩

end SatSearch
