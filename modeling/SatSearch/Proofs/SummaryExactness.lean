import SatSearch.Proofs.CandidateMembership
import SatSearch.Report.Summary
import Mathlib.Algebra.BigOperators.Group.List.Lemmas
import Mathlib.Algebra.Group.Action.Defs
import Mathlib.Algebra.Order.BigOperators.Group.List
import Mathlib.Algebra.Order.Ring.Nat
import Mathlib.Data.List.Induction
import Mathlib.Data.List.Sort

/-!
# Summaries are exact

Records are counted into a summary one after the other, each into the entry of its size. What comes
out depends only on which records there are: every size that occurs has one entry, with the numbers,
the sum and the maximum of its records, and counting fails exactly if the sum of some size is no
count.
-/

namespace SatSearch

def stepSum (records : List Record) : Nat := (records.map (·.steps)).sum

theorem stepSum_append (xs ys : List Record) : stepSum (xs ++ ys) = stepSum xs + stepSum ys := by
  rw [stepSum, stepSum, stepSum, List.map_append, List.sum_append]

/-- The records of a size among some records, in order. -/
def sizeGroup (size : Nat) (records : List Record) : List Record :=
  records.filter (·.size = size)

theorem sizeGroup_append_self (r : Record) (records : List Record) :
    sizeGroup r.size (records ++ [r]) = sizeGroup r.size records ++ [r] := by
  simp [sizeGroup]

theorem sizeGroup_append_of_ne {r : Record} {size : Nat} (h : size ≠ r.size)
    (records : List Record) : sizeGroup size (records ++ [r]) = sizeGroup size records := by
  simp [sizeGroup, h.symm]

namespace SizeSummary

/-- The description gives the numbers, the sum and the maximum of a group of records. -/
structure Describes (s : SizeSummary) (group : List Record) : Prop where
  instances_eq : s.instances = group.length
  satisfiable_eq : s.satisfiable = group.countP (·.outcome = .satisfiable)
  unknown_eq : s.unknown = group.countP (·.outcome = .unknown)
  totalSteps_eq : s.totalSteps = stepSum group
  le_maxSteps : ∀ r ∈ group, r.steps ≤ s.maxSteps
  exists_eq_maxSteps : ∃ r ∈ group, r.steps = s.maxSteps

/-- The description of a group of records, whose sum may be too large for a count. -/
def ofGroup (group : List Record) : SizeSummary where
  instances := group.length
  satisfiable := group.countP (·.outcome = .satisfiable)
  unknown := group.countP (·.outcome = .unknown)
  totalSteps := stepSum group
  maxSteps := group.foldl (fun top r => max top r.steps) 0

theorem ofGroup_append (group : List Record) (r : Record) :
    ofGroup (group ++ [r]) = {
      instances := (ofGroup group).instances + 1
      satisfiable := (ofGroup group).satisfiable + if r.outcome = .satisfiable then 1 else 0
      unknown := (ofGroup group).unknown + if r.outcome = .unknown then 1 else 0
      totalSteps := (ofGroup group).totalSteps + r.steps
      maxSteps := max (ofGroup group).maxSteps r.steps } := by
  simp [ofGroup, stepSum, List.countP_append, List.countP_singleton]

theorem add_ofGroup_of_le {group : List Record} {r : Record}
    (h : stepSum (group ++ [r]) ≤ maxCount) :
    (ofGroup group).add r = .ok (ofGroup (group ++ [r])) := by
  have hsum : (ofGroup group).totalSteps + r.steps ≤ maxCount := by
    simpa [ofGroup, stepSum] using h
  have htotal := addCounts_eq_ok_iff.2 ⟨hsum, rfl⟩
  rw [ofGroup_append, add, htotal]
  rfl

theorem add_ofGroup_of_lt {group : List Record} {r : Record}
    (h : maxCount < stepSum (group ++ [r])) : (ofGroup group).add r = .error .addOverflow := by
  have hsum : ¬(ofGroup group).totalSteps + r.steps ≤ maxCount := by
    simpa [ofGroup, stepSum] using h
  rw [add, addCounts, if_neg hsum]
  rfl

theorem ofGroup_perm {xs ys : List Record} (h : xs.Perm ys) : ofGroup xs = ofGroup ys := by
  have hmax : xs.foldl (fun top r => max top r.steps) 0 =
      ys.foldl (fun top r => max top r.steps) 0 :=
    h.foldl_eq' (fun _ _ _ _ _ => by omega) 0
  simp only [ofGroup, stepSum, h.length_eq, h.countP_eq, (h.map _).sum_eq, hmax]

theorem le_maxSteps_ofGroup {group : List Record} {r : Record} (hr : r ∈ group) :
    r.steps ≤ (ofGroup group).maxSteps := by
  induction group using List.reverseRecOn with
  | nil => cases hr
  | append_singleton group last ih =>
    rw [ofGroup_append]
    rcases List.mem_append.1 hr with hr | hr
    · exact Nat.le_trans (ih hr) (Nat.le_max_left _ _)
    · rw [List.mem_singleton.1 hr]
      exact Nat.le_max_right _ _

theorem exists_eq_maxSteps_ofGroup {group : List Record} (h : group ≠ []) :
    ∃ r ∈ group, r.steps = (ofGroup group).maxSteps := by
  induction group using List.reverseRecOn with
  | nil => exact absurd rfl h
  | append_singleton group last ih =>
    rw [ofGroup_append]
    rcases Nat.le_total (ofGroup group).maxSteps last.steps with hle | hle
    · exact ⟨last, by simp, (Nat.max_eq_right hle).symm⟩
    · by_cases hempty : group = []
      · subst hempty
        exact ⟨last, by simp, (Nat.max_eq_right (Nat.zero_le _)).symm⟩
      · obtain ⟨r, hr, heq⟩ := ih hempty
        exact ⟨r, List.mem_append_left _ hr, heq.trans (Nat.max_eq_left hle).symm⟩

theorem describes_ofGroup {group : List Record} (h : group ≠ []) :
    (ofGroup group).Describes group where
  instances_eq := rfl
  satisfiable_eq := rfl
  unknown_eq := rfl
  totalSteps_eq := rfl
  le_maxSteps _ hr := le_maxSteps_ofGroup hr
  exists_eq_maxSteps := exists_eq_maxSteps_ofGroup h

namespace Describes

variable {s : SizeSummary} {group : List Record}

/-- A search does not have two outcomes. -/
theorem satisfiable_add_unknown_le (h : s.Describes group) :
    s.satisfiable + s.unknown ≤ s.instances := by
  rw [h.satisfiable_eq, h.unknown_eq, h.instances_eq,
    List.length_eq_countP_add_countP (fun r : Record => r.outcome = .satisfiable)]
  apply Nat.add_le_add_left
  apply List.countP_mono_left
  intro r _ hr
  simp only [decide_eq_true_eq] at hr
  simp [hr]

theorem maxSteps_le_totalSteps (h : s.Describes group) : s.maxSteps ≤ s.totalSteps := by
  obtain ⟨r, hr, heq⟩ := h.exists_eq_maxSteps
  rw [h.totalSteps_eq, ← heq]
  exact List.single_le_sum (fun _ _ => Nat.zero_le _) _ (List.mem_map_of_mem hr)

theorem totalSteps_le (h : s.Describes group) : s.totalSteps ≤ s.instances * s.maxSteps := by
  have hle : ∀ n ∈ group.map (·.steps), n ≤ s.maxSteps := by
    intro n hn
    obtain ⟨r, hr, rfl⟩ := List.mem_map.1 hn
    exact h.le_maxSteps r hr
  have hsum := List.sum_le_card_nsmul _ _ hle
  rwa [List.length_map, smul_eq_mul, ← h.instances_eq, ← stepSum, ← h.totalSteps_eq] at hsum

end Describes

end SizeSummary

namespace Summary

section Entry

variable {r : Record} {e : Nat × SizeSummary} {es : List (Nat × SizeSummary)}

theorem addEntry_nil (r : Record) :
    addEntry r [] = (SizeSummary.add {} r).map fun d => [(r.size, d)] := by
  rw [addEntry]
  cases SizeSummary.add {} r <;> rfl

theorem addEntry_cons_of_lt (h : r.size < e.1) :
    addEntry r (e :: es) = (SizeSummary.add {} r).map fun d => (r.size, d) :: e :: es := by
  rw [addEntry, if_pos h]
  cases SizeSummary.add {} r <;> rfl

theorem addEntry_cons_of_eq (h : r.size = e.1) :
    addEntry r (e :: es) = (e.2.add r).map fun d => (e.1, d) :: es := by
  rw [addEntry, if_neg (Nat.not_lt_of_le (Nat.le_of_eq h.symm)), if_pos h]
  cases e.2.add r <;> rfl

theorem addEntry_cons_of_gt (h : e.1 < r.size) :
    addEntry r (e :: es) = (addEntry r es).map (e :: ·) := by
  rw [addEntry, if_neg (Nat.not_lt_of_lt h), if_neg (Nat.ne_of_gt h)]
  cases addEntry r es <;> rfl

end Entry

/-- Among entries that are given by their sizes, a record is added to that of its size. A size
without entry has to be described as one without records. -/
theorem addEntry_map {sizes : List Nat} (hsizes : sizes.Pairwise (· < ·)) {r : Record}
    {entry : Nat → SizeSummary} (hempty : r.size ∉ sizes → entry r.size = {}) :
    addEntry r (sizes.map fun size => (size, entry size)) =
      ((entry r.size).add r).map fun d => (insertAscending r.size sizes).map fun size =>
        (size, if size = r.size then d else entry size) := by
  induction sizes with
  | nil =>
    rw [hempty List.not_mem_nil, List.map_nil, addEntry_nil]
    simp [insertAscending]
  | cons size sizes ih =>
    obtain ⟨hfirst, hlater⟩ := List.pairwise_cons.1 hsizes
    have hothers (hle : r.size ≤ size) (d : SizeSummary) :
        sizes.map (fun size => (size, if size = r.size then d else entry size)) =
          sizes.map fun size => (size, entry size) := by
      apply List.map_congr_left
      intro later hmem
      have := hfirst later hmem
      rw [if_neg (by omega)]
    rw [List.map_cons, insertAscending]
    rcases Nat.lt_trichotomy r.size size with hlt | heq | hgt
    · have hnew : r.size ∉ size :: sizes := by
        intro hmem
        rcases List.mem_cons.1 hmem with heq | hmem
        · omega
        · have := hfirst _ hmem
          omega
      rw [addEntry_cons_of_lt hlt, if_pos hlt, hempty hnew]
      simp [hlt.ne', hothers (Nat.le_of_lt hlt)]
    · rw [addEntry_cons_of_eq heq, if_neg (Nat.not_lt_of_le (Nat.le_of_eq heq.symm)), if_pos heq]
      simp only [List.map_cons, hothers (Nat.le_of_eq heq), ← heq, if_true]
    · have hempty' (hmem : r.size ∉ sizes) : entry r.size = {} :=
        hempty fun hcons => (List.mem_cons.1 hcons).elim hgt.ne' hmem
      rw [addEntry_cons_of_gt hgt, if_neg (Nat.not_lt_of_lt hgt), if_neg hgt.ne',
        ih hlater hempty']
      cases (entry r.size).add r <;> simp [Except.map, hgt.ne]

def sizesOf (records : List Record) : List Nat :=
  records.foldl (fun sizes r => insertAscending r.size sizes) []

theorem sizesOf_append (records : List Record) (r : Record) :
    sizesOf (records ++ [r]) = insertAscending r.size (sizesOf records) := by
  rw [sizesOf, List.foldl_append]
  rfl

theorem mem_sizesOf {size : Nat} {records : List Record} :
    size ∈ sizesOf records ↔ ∃ r ∈ records, r.size = size := by
  induction records using List.reverseRecOn with
  | nil => simp [sizesOf]
  | append_singleton records last ih =>
    rw [sizesOf_append, mem_insertAscending, ih]
    simp [or_and_right, exists_or, eq_comm, or_comm]

theorem pairwise_sizesOf (records : List Record) : (sizesOf records).Pairwise (· < ·) := by
  induction records using List.reverseRecOn with
  | nil => exact .nil
  | append_singleton records last ih =>
    rw [sizesOf_append]
    exact pairwise_insertAscending ih

theorem sizeGroup_eq_nil_iff {size : Nat} {records : List Record} :
    sizeGroup size records = [] ↔ size ∉ sizesOf records := by
  simp [sizeGroup, mem_sizesOf]

/-- The summary of some records, whose sums may be too large for counts. -/
def ofGroups (records : List Record) : Summary :=
  ⟨(sizesOf records).map fun size => (size, .ofGroup (sizeGroup size records))⟩

theorem map_fst_ofGroups (records : List Record) :
    (ofGroups records).bySize.map Prod.fst = sizesOf records := by
  rw [ofGroups, List.map_map]
  exact List.map_id _

theorem add_ofGroups (records : List Record) (r : Record) : (ofGroups records).add r =
    ((SizeSummary.ofGroup (sizeGroup r.size records)).add r).map fun e =>
      ⟨(insertAscending r.size (sizesOf records)).map fun size =>
        (size, if size = r.size then e else .ofGroup (sizeGroup size records))⟩ := by
  have hempty (hmem : r.size ∉ sizesOf records) :
      SizeSummary.ofGroup (sizeGroup r.size records) = {} := by
    rw [sizeGroup_eq_nil_iff.2 hmem]
    rfl
  rw [add, ofGroups, addEntry_map (pairwise_sizesOf records) hempty]
  cases (SizeSummary.ofGroup (sizeGroup r.size records)).add r <;> rfl

theorem ofRecords_append (records : List Record) (r : Record) :
    ofRecords (records ++ [r]) = (ofRecords records).bind (·.add r) := by
  rw [ofRecords, List.foldlM_append, ← ofRecords]
  cases ofRecords records with
  | error fault => rfl
  | ok s =>
    simp only [bind, Except.bind, List.foldlM_cons, List.foldlM_nil, pure, Except.pure]
    cases s.add r <;> rfl

/-- Counting succeeds as long as all sums are counts. -/
theorem ofRecords_of_le {records : List Record}
    (h : ∀ size, stepSum (sizeGroup size records) ≤ maxCount) :
    ofRecords records = .ok (ofGroups records) := by
  induction records using List.reverseRecOn with
  | nil => rfl
  | append_singleton records last ih =>
    have hbefore (size : Nat) : stepSum (sizeGroup size records) ≤ maxCount := by
      refine Nat.le_trans ?_ (h size)
      rw [sizeGroup, sizeGroup, List.filter_append, stepSum_append]
      exact Nat.le_add_right _ _
    have hlast := h last.size
    rw [sizeGroup_append_self] at hlast
    rw [ofRecords_append, ih hbefore, Except.bind, add_ofGroups,
      SizeSummary.add_ofGroup_of_le hlast, ofGroups, sizesOf_append]
    simp only [Except.map, Except.ok.injEq, Summary.mk.injEq]
    apply List.map_congr_left
    intro size _
    split
    · rename_i heq
      rw [heq, sizeGroup_append_self]
    · rename_i hne
      rw [sizeGroup_append_of_ne hne]

/-- Counting fails as soon as some sum is no count. -/
theorem ofRecords_of_lt {records : List Record}
    (h : ∃ size, maxCount < stepSum (sizeGroup size records)) :
    ofRecords records = .error .addOverflow := by
  induction records using List.reverseRecOn with
  | nil =>
    obtain ⟨size, hsize⟩ := h
    cases hsize
  | append_singleton records last ih =>
    rw [ofRecords_append]
    by_cases hbefore : ∃ size, maxCount < stepSum (sizeGroup size records)
    · rw [ih hbefore]
      rfl
    · have hle (size : Nat) : stepSum (sizeGroup size records) ≤ maxCount :=
        Nat.le_of_not_lt fun hlt => hbefore ⟨size, hlt⟩
      obtain ⟨size, hlt⟩ := h
      have hsize : size = last.size := by
        by_contra hne
        rw [sizeGroup_append_of_ne hne] at hlt
        exact absurd hlt (Nat.not_lt_of_le (hle size))
      rw [hsize, sizeGroup_append_self] at hlt
      rw [ofRecords_of_le hle, Except.bind, add_ofGroups, SizeSummary.add_ofGroup_of_lt hlt]
      rfl

theorem ofRecords_eq_error_iff {records : List Record} :
    ofRecords records = .error .addOverflow ↔
      ∃ size, maxCount < stepSum (sizeGroup size records) := by
  refine ⟨fun herror => ?_, ofRecords_of_lt⟩
  by_contra hnone
  have hle (size : Nat) : stepSum (sizeGroup size records) ≤ maxCount :=
    Nat.le_of_not_lt fun hlt => hnone ⟨size, hlt⟩
  cases herror.symm.trans (ofRecords_of_le hle)

section Order

variable {xs ys : List Record} (h : xs.Perm ys)

include h

theorem sizeGroup_perm (size : Nat) : (sizeGroup size xs).Perm (sizeGroup size ys) := h.filter _

theorem sizesOf_perm : sizesOf xs = sizesOf ys := by
  apply (pairwise_sizesOf xs).eq_of_mem_iff (pairwise_sizesOf ys)
  intro size
  simp only [mem_sizesOf, h.mem_iff]

theorem ofGroups_perm : ofGroups xs = ofGroups ys := by
  rw [ofGroups, ofGroups, sizesOf_perm h]
  simp only [SizeSummary.ofGroup_perm (sizeGroup_perm h _)]

/-- The order of the records makes no difference, neither to the summary nor to whether there is
one. -/
theorem ofRecords_perm : ofRecords xs = ofRecords ys := by
  have hsum (size : Nat) : stepSum (sizeGroup size xs) = stepSum (sizeGroup size ys) :=
    ((sizeGroup_perm h size).map _).sum_eq
  by_cases hlarge : ∃ size, maxCount < stepSum (sizeGroup size xs)
  · rw [ofRecords_of_lt hlarge]
    simp only [hsum] at hlarge
    rw [ofRecords_of_lt hlarge]
  · have hle (size : Nat) : stepSum (sizeGroup size xs) ≤ maxCount :=
      Nat.le_of_not_lt fun hlt => hlarge ⟨size, hlt⟩
    rw [ofRecords_of_le hle, ofGroups_perm h]
    simp only [hsum] at hle
    rw [ofRecords_of_le hle]

end Order

/-- Grouping by size loses no record. -/
theorem instances_ofGroups (records : List Record) :
    (ofGroups records).instances = records.length := by
  have hsizes : (sizesOf records).Perm (records.map (·.size)).dedup := by
    refine (List.perm_ext_iff_of_nodup ?_ (List.nodup_dedup _)).2 fun size => ?_
    · exact (pairwise_sizesOf records).imp Nat.ne_of_lt
    · rw [mem_sizesOf, List.mem_dedup, List.mem_map]
  have hcount (size : Nat) :
      (sizeGroup size records).length = (records.map (·.size)).count size := by
    rw [sizeGroup, ← List.countP_eq_length_filter, List.count, List.countP_map]
    apply List.countP_congr
    simp
  calc (ofGroups records).instances
      = ((sizesOf records).map fun size => (sizeGroup size records).length).sum := by
        rw [instances, ofGroups, List.foldl_map, List.sum_eq_foldl, List.foldl_map]
        rfl
    _ = ((records.map (·.size)).dedup.map fun size => (records.map (·.size)).count size).sum := by
        simp only [hcount]
        exact (hsizes.map _).sum_eq
    _ = records.length := by rw [List.sum_map_count_dedup_eq_length, List.length_map]

/-- A summary is exact and does not depend on the order of the records. If the sum of the steps of
each size is a count, every size that occurs has one entry, which describes its records, and
otherwise there is no summary. -/
theorem ofRecords_exact (records : List Record) :
    ((∀ size, stepSum (sizeGroup size records) ≤ maxCount) → ∃ s, ofRecords records = .ok s ∧
      (s.bySize.map Prod.fst).Pairwise (· < ·) ∧
      (∀ size, size ∈ s.bySize.map Prod.fst ↔ ∃ r ∈ records, r.size = size) ∧
      (∀ e ∈ s.bySize, e.2.Describes (sizeGroup e.1 records) ∧
        e.2.satisfiable + e.2.unknown ≤ e.2.instances ∧ e.2.maxSteps ≤ e.2.totalSteps ∧
        e.2.totalSteps ≤ e.2.instances * e.2.maxSteps) ∧
      s.instances = records.length) ∧
    (ofRecords records = .error .addOverflow ↔
      ∃ size, maxCount < stepSum (sizeGroup size records)) ∧
    ∀ reordered, reordered.Perm records → ofRecords reordered = ofRecords records := by
  refine ⟨fun hle => ⟨ofGroups records, ofRecords_of_le hle, ?_, fun size => ?_, fun e he => ?_,
    instances_ofGroups records⟩, ofRecords_eq_error_iff, fun _ hperm => ofRecords_perm hperm⟩
  · rw [map_fst_ofGroups]
    exact pairwise_sizesOf records
  · rw [map_fst_ofGroups, mem_sizesOf]
  · obtain ⟨size, hsize, rfl⟩ := List.mem_map.1 he
    have hdescribes : (SizeSummary.ofGroup (sizeGroup size records)).Describes _ :=
      SizeSummary.describes_ofGroup fun hnil => sizeGroup_eq_nil_iff.1 hnil hsize
    exact ⟨hdescribes, hdescribes.satisfiable_add_unknown_le, hdescribes.maxSteps_le_totalSteps,
      hdescribes.totalSteps_le⟩

/-- The sum of the larger size is the greatest count, so one more step is too much. -/
theorem ofRecords_exact_greatest_sum :
    let rs : List Record := [⟨10, 5, 15, 4, .satisfiable, 0⟩, ⟨20, 5, 25, maxCount, .unknown, 0⟩,
      ⟨11, 4, 15, 8, .unsatisfiable, 0⟩]
    let more : Record := ⟨21, 4, 25, 1, .satisfiable, 0⟩
    (∀ size, stepSum (sizeGroup size rs) ≤ maxCount) ∧ rs.reverse.Perm rs ∧
      (∃ s, ofRecords rs.reverse = .ok s ∧
        s.bySize = [(15, ⟨2, 1, 0, 12, 8⟩), (25, ⟨1, 0, 1, maxCount, maxCount⟩)] ∧
        SizeSummary.Describes ⟨2, 1, 0, 12, 8⟩ (sizeGroup 15 rs) ∧ s.instances = 3) ∧
      ofRecords (more :: rs) = .error .addOverflow := by
  intro rs more
  have hle (size : Nat) : stepSum (sizeGroup size rs) ≤ maxCount := by
    by_cases hsmall : size = 15
    · rw [hsmall]
      decide
    · by_cases hlarge : size = 25
      · rw [hlarge]
        decide
      · have hnone : sizeGroup size rs = [] := by
          simp [sizeGroup, rs, Ne.symm hsmall, Ne.symm hlarge]
        rw [hnone]
        decide
  have hperm : rs.reverse.Perm rs := List.reverse_perm rs
  obtain ⟨hexact, -, hordered⟩ := ofRecords_exact rs
  obtain ⟨s, hs, -, -, hentries, hinstances⟩ := hexact hle
  have heval : ofRecords rs =
      .ok ⟨[(15, ⟨2, 1, 0, 12, 8⟩), (25, ⟨1, 0, 1, maxCount, maxCount⟩)]⟩ := rfl
  have hsame : s = ⟨[(15, ⟨2, 1, 0, 12, 8⟩), (25, ⟨1, 0, 1, maxCount, maxCount⟩)]⟩ :=
    Except.ok.inj (hs.symm.trans heval)
  refine ⟨hle, hperm, ⟨s, (hordered _ hperm).trans hs, by rw [hsame], ?_, hinstances⟩, ?_⟩
  · exact (hentries (15, ⟨2, 1, 0, 12, 8⟩) (by rw [hsame]; exact List.mem_cons_self)).1
  · exact (ofRecords_exact (more :: rs)).2.1.2 ⟨25, by decide⟩

end Summary

end SatSearch
