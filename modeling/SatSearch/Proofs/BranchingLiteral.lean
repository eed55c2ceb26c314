import SatSearch.Selection
import SatSearch.Proofs.FrequencySlots

/-!
# The branching literal occurs

Both rules for choosing a branching literal choose one that occurs in the clauses, and both choose
none only if no clause has a literal.
-/

namespace SatSearch

namespace Frequencies

private theorem mem_keys_foldl_bump {k : Literal} {ls : List Literal} {m : Frequencies}
    (h : m.Indexed) : k ∈ (ls.foldl bump m).keys ↔ k ∈ ls ∨ k ∈ m.keys := by
  induction ls generalizing m with
  | nil => simp
  | cons l ls ih =>
    have hstep : k ∈ (m.bump l).keys ↔ k = l ∨ k ∈ m.keys := by
      rw [h.keys_bump]
      split
      · rename_i hl
        exact ⟨.inr, fun hk => hk.elim (· ▸ hl) id⟩
      · rw [List.mem_append, List.mem_singleton, or_comm]
    rw [List.foldl_cons, ih (h.bump l), hstep, List.mem_cons, or_left_comm, or_assoc]

theorem mem_keys_ofClauses {k : Literal} {clauses : List Clause} :
    k ∈ (ofClauses clauses).keys ↔ k ∈ Formula.literalsOf clauses := by
  rw [ofClauses, mem_keys_foldl_bump indexed_empty]
  simp [keys, entries]

def prefer (best : Option (Literal × Nat)) (e : Literal × Nat) : Option (Literal × Nat) :=
  match best with
  | some top => if top.2 < e.2 then some e else some top
  | none => some e

theorem greatest?_eq_foldl (m : Frequencies) : m.greatest? = m.entries.foldl prefer none := rfl

theorem prefer_eq (best : Option (Literal × Nat)) (e : Literal × Nat) :
    prefer best e = some e ∨ prefer best e = best ∧ best ≠ none := by
  cases best with
  | none => exact .inl rfl
  | some top =>
    by_cases h : top.2 < e.2
    · exact .inl (by simp [prefer, h])
    · exact .inr (by simp [prefer, h])

theorem foldl_prefer_eq_none_iff (es : List (Literal × Nat))
    (best : Option (Literal × Nat)) : es.foldl prefer best = none ↔ best = none ∧ es = [] := by
  induction es generalizing best with
  | nil => simp
  | cons e es ih =>
    have hne : prefer best e ≠ none := by
      rcases prefer_eq best e with hp | ⟨hp, hne⟩
      · simp [hp]
      · rwa [hp]
    simp [ih, hne]

private theorem mem_of_foldl_prefer (es : List (Literal × Nat)) (best : Option (Literal × Nat))
    {k : Literal × Nat} (h : es.foldl prefer best = some k) : best = some k ∨ k ∈ es := by
  induction es generalizing best with
  | nil => exact .inl h
  | cons e es ih =>
    rcases ih (prefer best e) h with hk | hk
    · rcases prefer_eq best e with hp | ⟨hp, -⟩
      · rw [hp] at hk
        exact .inr (by simp [Option.some.inj hk])
      · exact .inl (hp ▸ hk)
    · exact .inr (List.mem_cons_of_mem _ hk)

theorem greatest?_eq_none_iff {m : Frequencies} : m.greatest? = none ↔ m.entries = [] := by
  rw [greatest?_eq_foldl, foldl_prefer_eq_none_iff]
  simp

theorem mem_of_greatest? {m : Frequencies} {e : Literal × Nat} (h : m.greatest? = some e) :
    e ∈ m.entries := by
  rcases mem_of_foldl_prefer m.entries none h with h | h
  · cases h
  · exact h

end Frequencies

namespace Selection

theorem mem_of_pick {s : Selection} {clauses : List Clause} {l : Literal}
    (h : s.pick clauses = some l) : l ∈ Formula.literalsOf clauses := by
  cases s with
  | maxFrequency =>
    simp only [pick, mostFrequent?, Option.map_map, Option.map_eq_some_iff] at h
    obtain ⟨e, he, rfl⟩ := h
    rw [← Frequencies.mem_keys_ofClauses]
    exact List.mem_map_of_mem (Frequencies.mem_of_greatest? he)
  | firstLiteral => exact List.mem_of_head? h

theorem pick_eq_none_iff {s : Selection} {clauses : List Clause} :
    s.pick clauses = none ↔ Formula.literalsOf clauses = [] := by
  cases s with
  | maxFrequency =>
    simp only [pick, mostFrequent?, Option.map_map, Option.map_eq_none_iff]
    rw [Frequencies.greatest?_eq_none_iff, List.eq_nil_iff_forall_not_mem,
      List.eq_nil_iff_forall_not_mem]
    constructor
    · intro h k hk
      obtain ⟨e, he, -⟩ := List.mem_map.1 (Frequencies.mem_keys_ofClauses.2 hk)
      exact h e he
    · intro h e he
      exact h e.1 (Frequencies.mem_keys_ofClauses.1 (List.mem_map_of_mem he))
  | firstLiteral => exact List.head?_eq_none_iff

end Selection

end SatSearch
