import SatSearch.Candidates

/-!
# Candidate sets as sets

A candidate set that was built from a list, and from which variables were removed since, behaves as
the set of the listed variables without the removed ones. The invariant is that the two parts of the
set lie on their own sides of the bound, are ascending, and have the size that is kept beside them.
-/

namespace SatSearch

theorem memAscending_iff {n : Nat} {ms : List Nat} (h : ms.Pairwise (· < ·)) :
    memAscending n ms = true ↔ n ∈ ms := by
  refine ⟨mem_of_memAscending, fun hn => ?_⟩
  induction ms with
  | nil => cases hn
  | cons m ms ih =>
    obtain ⟨hm, hms⟩ := List.pairwise_cons.1 h
    simp only [memAscending]
    rcases List.mem_cons.1 hn with rfl | hn
    · simp
    · rw [if_pos (hm n hn)]
      exact ih hms hn

theorem pairwise_insertAscending {n : Nat} {ms : List Nat} (h : ms.Pairwise (· < ·)) :
    (insertAscending n ms).Pairwise (· < ·) := by
  induction ms with
  | nil => simp [insertAscending]
  | cons m ms ih =>
    obtain ⟨hm, hms⟩ := List.pairwise_cons.1 h
    simp only [insertAscending]
    split
    · rename_i hlt
      refine List.pairwise_cons.2 ⟨?_, h⟩
      intro k hk
      rcases List.mem_cons.1 hk with rfl | hk
      · exact hlt
      · exact Nat.lt_trans hlt (hm k hk)
    · split
      · exact h
      · refine List.pairwise_cons.2 ⟨?_, ih hms⟩
        intro k hk
        rcases mem_insertAscending.1 hk with rfl | hk
        · omega
        · exact hm k hk

theorem length_insertAscending {n : Nat} {ms : List Nat} (h : n ∉ ms) :
    (insertAscending n ms).length = ms.length + 1 := by
  induction ms with
  | nil => rfl
  | cons m ms ih =>
    have hm : n ≠ m := fun he => h (by simp [he])
    have hms : n ∉ ms := fun hn => h (List.mem_cons_of_mem _ hn)
    simp only [insertAscending, hm, if_false]
    split
    · rfl
    · simp [ih hms]

namespace CandidateSet

/-- The parts of the set keep to their sides of the bound, and the size is right. -/
structure WellFormed (s : CandidateSet) : Prop where
  ascending : s.members.Pairwise (· < ·)
  ones_lt : ∀ v ∈ s.bits.ones, v < s.bits.length
  le_beyond : ∀ v ∈ s.beyond, s.bits.length ≤ v
  size_eq : s.size = s.members.length

theorem contains_iff {s : CandidateSet} (h : s.WellFormed) {v : Nat} :
    s.contains v = true ↔ v ∈ s.members := by
  obtain ⟨hones, hbeyond, -⟩ := List.pairwise_append.1 h.ascending
  simp only [contains, members, List.mem_append]
  split
  · rename_i hv
    have hb : v ∉ s.beyond := fun hb => by have := h.le_beyond v hb; omega
    simp [BitRow.get, memAscending_iff hones, hb]
  · rename_i hv
    have ho : v ∉ s.bits.ones := fun ho => hv (h.ones_lt v ho)
    simp [memAscending_iff hbeyond, ho]

theorem isEmpty_iff {s : CandidateSet} (h : s.WellFormed) :
    s.isEmpty = true ↔ ∀ v, s.contains v = false := by
  simp only [isEmpty, decide_eq_true_eq, h.size_eq, List.length_eq_zero_iff,
    List.eq_nil_iff_forall_not_mem, ← contains_iff h, Bool.not_eq_true]

theorem isEmpty_of_contains {s : CandidateSet} (h : s.WellFormed) {v : Nat}
    (hv : s.contains v = true) : s.isEmpty = false := by
  rw [← Bool.not_eq_true, isEmpty_iff h]
  intro hall
  simp [hall v] at hv

theorem wellFormed_empty (length : Nat) : (empty length).WellFormed where
  ascending := .nil
  ones_lt := by simp [empty, BitRow.zeros]
  le_beyond := by simp [empty]
  size_eq := rfl

theorem contains_empty (length v : Nat) : (empty length).contains v = false := by
  simp [contains, empty, BitRow.zeros, BitRow.get, memAscending]

theorem wellFormed_insert {s : CandidateSet} (h : s.WellFormed) (v : Nat) :
    (s.insert v).WellFormed := by
  obtain ⟨hones, hbeyond, hsides⟩ := List.pairwise_append.1 h.ascending
  unfold insert
  split
  · exact h
  · rename_i hv
    split
    · rename_i hlt
      have hnew : v ∉ s.bits.ones := by
        simpa [contains, hlt, BitRow.get, memAscending_iff hones] using hv
      simp only [BitRow.set, hlt, if_true]
      constructor
      · refine List.pairwise_append.2 ⟨pairwise_insertAscending hones, hbeyond, ?_⟩
        intro a ha b hb
        rcases mem_insertAscending.1 ha with rfl | ha
        · exact Nat.lt_of_lt_of_le hlt (h.le_beyond b hb)
        · exact hsides a ha b hb
      · intro a ha
        rcases mem_insertAscending.1 ha with rfl | ha
        · exact hlt
        · exact h.ones_lt a ha
      · exact h.le_beyond
      · simp only [members, List.length_append, length_insertAscending hnew, h.size_eq]
        omega
    · rename_i hlt
      have hnew : v ∉ s.beyond := by simpa [contains, hlt, memAscending_iff hbeyond] using hv
      constructor
      · refine List.pairwise_append.2 ⟨hones, pairwise_insertAscending hbeyond, ?_⟩
        intro a ha b hb
        rcases mem_insertAscending.1 hb with rfl | hb
        · exact Nat.lt_of_lt_of_le (h.ones_lt a ha) (Nat.le_of_not_lt hlt)
        · exact hsides a ha b hb
      · exact h.ones_lt
      · intro b hb
        rcases mem_insertAscending.1 hb with rfl | hb
        · exact Nat.le_of_not_lt hlt
        · exact h.le_beyond b hb
      · simp only [members, List.length_append, length_insertAscending hnew, h.size_eq]
        omega

theorem contains_insert {s : CandidateSet} (h : s.WellFormed) {v w : Nat} :
    (s.insert v).contains w = true ↔ w = v ∨ s.contains w = true := by
  rw [contains_iff (wellFormed_insert h v), contains_iff h]
  unfold insert
  split
  · rename_i hv
    constructor
    · exact .inr
    · rintro (rfl | hw)
      · exact (contains_iff h).1 hv
      · exact hw
  · split
    · rename_i hlt
      simp [members, BitRow.set, hlt, or_assoc]
    · simp [members, or_left_comm]

theorem wellFormed_erase {s : CandidateSet} (h : s.WellFormed) (v : Nat) :
    (s.erase v).WellFormed := by
  obtain ⟨hones, hbeyond, hsides⟩ := List.pairwise_append.1 h.ascending
  unfold erase
  split
  · exact h
  · rename_i hv
    have hsize := h.size_eq
    simp only [members, List.length_append] at hsize
    split
    · rename_i hlt
      have hmem : v ∈ s.bits.ones :=
        mem_of_memAscending (by simpa [contains, hlt, BitRow.get] using hv)
      have hpos := List.length_pos_of_mem hmem
      constructor
      · refine List.pairwise_append.2 ⟨hones.sublist List.erase_sublist, hbeyond, ?_⟩
        exact fun a ha b hb => hsides a (List.mem_of_mem_erase ha) b hb
      · exact fun a ha => h.ones_lt a (List.mem_of_mem_erase ha)
      · exact h.le_beyond
      · simp only [members, BitRow.clear, List.length_append, List.length_erase_of_mem hmem]
        omega
    · rename_i hlt
      have hmem : v ∈ s.beyond := mem_of_memAscending (by simpa [contains, hlt] using hv)
      have hpos := List.length_pos_of_mem hmem
      constructor
      · refine List.pairwise_append.2 ⟨hones, hbeyond.sublist List.erase_sublist, ?_⟩
        exact fun a ha b hb => hsides a ha b (List.mem_of_mem_erase hb)
      · exact h.ones_lt
      · exact fun b hb => h.le_beyond b (List.mem_of_mem_erase hb)
      · simp only [members, List.length_append, List.length_erase_of_mem hmem]
        omega

theorem members_erase {s : CandidateSet} (h : s.WellFormed) (v : Nat) :
    (s.erase v).members = s.members.erase v := by
  cases hv : s.contains v with
  | false =>
    have hm : v ∉ s.members := fun hm => by simp [(contains_iff h).2 hm] at hv
    rw [erase_of_not_contains hv, List.erase_of_not_mem hm]
  | true =>
    by_cases hlt : v < s.bits.length
    · have hm : v ∈ s.bits.ones :=
        mem_of_memAscending (by simpa [contains, hlt, BitRow.get] using hv)
      simp only [erase, hv, hlt, members, BitRow.clear]
      exact (List.erase_append_left _ hm).symm
    · have hm : v ∉ s.bits.ones := fun hm => hlt (h.ones_lt v hm)
      simp only [erase, hv, hlt, members]
      exact (List.erase_append_right _ hm).symm

theorem contains_erase {s : CandidateSet} (h : s.WellFormed) {v w : Nat} :
    (s.erase v).contains w = true ↔ w ≠ v ∧ s.contains w = true := by
  have hnd : s.members.Nodup := h.ascending.imp Nat.ne_of_lt
  rw [contains_iff (wellFormed_erase h v), contains_iff h, members_erase h, hnd.mem_erase_iff]

theorem isVariable_iff {v : Nat} : isVariable v = true ↔ 0 < v ∧ v ≤ maxVar := by
  simp only [isVariable, Bool.and_eq_true, decide_eq_true_eq]

/-- A list of variables is refused only for an entry that is no variable, or for a bound that leaves
no room; otherwise it becomes the set of its entries. -/
theorem ofListBounded_eq_ok_iff {vars : List Nat} {bound : Nat} {s : CandidateSet} :
    ofListBounded vars bound = .ok s ↔
      (∀ v ∈ vars, isVariable v = true) ∧ bound < maxCount ∧
        s = vars.foldr (fun v s => s.insert v) (empty (bound + 1)) := by
  unfold ofListBounded
  cases hf : vars.find? (!isVariable ·) with
  | some v =>
    have hv := List.find?_some hf
    have hm := List.mem_of_find?_eq_some hf
    simp only [reduceCtorEq, false_iff, not_and]
    intro hall
    simp [hall v hm] at hv
  | none =>
    have hall : ∀ v ∈ vars, isVariable v = true := by simpa using hf
    by_cases hb : bound < maxCount
    · have hadd : addCounts bound 1 = .ok (bound + 1) := addCounts_eq_ok_iff.2 ⟨hb, rfl⟩
      simp only [hadd, Except.ok.injEq]
      exact ⟨fun h => ⟨hall, hb, h.symm⟩, fun h => h.2.2.symm⟩
    · have hadd : addCounts bound 1 = .error .addOverflow := by
        have : ¬bound + 1 ≤ maxCount := hb
        simp [addCounts, this]
      simp [hadd, hb]

/-- A list of variables becomes a set if the bound leaves room. -/
theorem exists_ofListBounded {vars : List Nat} {bound : Nat}
    (hvars : ∀ v ∈ vars, 0 < v ∧ v ≤ maxVar) (hbound : bound < maxCount) :
    ∃ s, ofListBounded vars bound = .ok s :=
  ⟨_, ofListBounded_eq_ok_iff.2 ⟨fun v hv => isVariable_iff.2 (hvars v hv), hbound, rfl⟩⟩

theorem wellFormed_foldr_insert (vars : List Nat) (length : Nat) :
    (vars.foldr (fun v s => s.insert v) (empty length)).WellFormed := by
  induction vars with
  | nil => exact wellFormed_empty length
  | cons v vars ih => exact wellFormed_insert ih v

theorem wellFormed_of_ofListBounded {vars : List Nat} {bound : Nat} {s : CandidateSet}
    (h : ofListBounded vars bound = .ok s) : s.WellFormed := by
  obtain ⟨-, -, rfl⟩ := ofListBounded_eq_ok_iff.1 h
  exact wellFormed_foldr_insert vars (bound + 1)

theorem contains_of_ofListBounded {vars : List Nat} {bound : Nat} {s : CandidateSet}
    (h : ofListBounded vars bound = .ok s) (v : Nat) : s.contains v = true ↔ v ∈ vars := by
  obtain ⟨-, -, rfl⟩ := ofListBounded_eq_ok_iff.1 h
  clear h
  induction vars with
  | nil => simp [contains_empty]
  | cons w vars ih =>
    rw [List.foldr_cons, contains_insert (wellFormed_foldr_insert vars _), ih, List.mem_cons]

end CandidateSet

end SatSearch
