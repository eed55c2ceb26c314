import SatSearch.Proofs.CandidateMembership
import Mathlib.Data.Finset.Card
import Mathlib.Data.Finset.SDiff
import Mathlib.Data.Finset.Dedup
import Mathlib.Data.List.Sort

/-!
# Candidate sets are finite sets

What a candidate set tells of itself, after it was built from a list and after every removal since,
is what the finite set of the listed and not yet removed variables tells. Its two parts never get
out of step: the row of bits and the list behind it share no variable, and the size that is kept
counts the members of both.
-/

namespace SatSearch

/-- Read off position by position, a row shows the ascending list that it is kept as. -/
theorem BitRow.filter_get_range {r : BitRow} (h : r.ones.Pairwise (· < ·))
    (hlt : ∀ v ∈ r.ones, v < r.length) : (List.range r.length).filter r.get = r.ones := by
  have hrow : ((List.range r.length).filter r.get).Pairwise (· < ·) :=
    List.pairwise_lt_range.filter _
  apply hrow.eq_of_mem_iff h
  intro v
  rw [List.mem_filter, List.mem_range, get, memAscending_iff h]
  exact ⟨fun hv => hv.2, fun hv => ⟨hlt v hv, hv⟩⟩

namespace CandidateSet

/-- What the set tells of itself is what the finite set does. -/
structure BehavesAs (s : CandidateSet) (vs : Finset Nat) : Prop where
  contains_iff (v : Nat) : s.contains v = true ↔ v ∈ vs
  remove_iff (v : Nat) : (s.remove v).1 = true ↔ v ∈ vs
  size_eq : s.size = vs.card
  isEmpty_iff : s.isEmpty = true ↔ vs = ∅
  ascending : s.members.Pairwise (· < ·)
  mem_members_iff (v : Nat) : v ∈ s.members ↔ v ∈ vs

/-- How the set is kept: a row of bits of the given length, whose bit 0 is not set, and behind it
the other members in ascending order. The size counts the bits that are set and those members. -/
structure Layout (length : Nat) (s : CandidateSet) : Prop where
  length_eq : s.bits.length = length
  get_zero : s.bits.get 0 = false
  size_eq : s.size = (List.range length).countP s.bits.get + s.beyond.length
  members_eq : s.members = (List.range length).filter s.bits.get ++ s.beyond
  beyond_ascending : s.beyond.Pairwise (· < ·)
  le_beyond : ∀ v ∈ s.beyond, length ≤ v

variable {s : CandidateSet} {vs : Finset Nat}

theorem WellFormed.behavesAs (h : s.WellFormed) (hv : ∀ v, s.contains v = true ↔ v ∈ vs) :
    s.BehavesAs vs where
  contains_iff := hv
  remove_iff := hv
  size_eq := by
    have hvs : s.members.toFinset = vs := by
      ext v
      rw [List.mem_toFinset, ← CandidateSet.contains_iff h, hv]
    rw [h.size_eq, ← hvs, List.toFinset_card_of_nodup (h.ascending.imp Nat.ne_of_lt)]
  isEmpty_iff := by
    rw [CandidateSet.isEmpty_iff h, Finset.eq_empty_iff_forall_notMem]
    simp only [← hv, Bool.not_eq_true]
  ascending := h.ascending
  mem_members_iff v := by rw [← CandidateSet.contains_iff h, hv]

theorem WellFormed.layout (h : s.WellFormed) (hpos : 0 < s.bits.length)
    (hzero : s.contains 0 = false) : s.Layout s.bits.length where
  length_eq := rfl
  get_zero := by simpa [contains, hpos] using hzero
  size_eq := by
    obtain ⟨hones, -, -⟩ := List.pairwise_append.1 h.ascending
    rw [List.countP_eq_length_filter, BitRow.filter_get_range hones h.ones_lt, h.size_eq, members,
      List.length_append]
  members_eq := by
    obtain ⟨hones, -, -⟩ := List.pairwise_append.1 h.ascending
    rw [BitRow.filter_get_range hones h.ones_lt, members]
  beyond_ascending := (List.pairwise_append.1 h.ascending).2.1
  le_beyond := h.le_beyond

theorem length_bits_insert (s : CandidateSet) (v : Nat) :
    (s.insert v).bits.length = s.bits.length := by
  simp only [insert, BitRow.set]
  split_ifs <;> rfl

theorem length_bits_erase (s : CandidateSet) (v : Nat) :
    (s.erase v).bits.length = s.bits.length := by
  simp only [erase]
  split_ifs <;> rfl

theorem length_bits_of_ofListBounded {vars : List Nat} {bound : Nat}
    (h : ofListBounded vars bound = .ok s) : s.bits.length = bound + 1 := by
  obtain ⟨-, -, rfl⟩ := ofListBounded_eq_ok_iff.1 h
  clear h
  induction vars with
  | nil => rfl
  | cons v vars ih => rw [List.foldr_cons, length_bits_insert, ih]

def removeAll (s : CandidateSet) (removed : List Nat) : CandidateSet :=
  removed.foldl (fun s v => (s.remove v).2) s

theorem wellFormed_removeAll (h : s.WellFormed) (removed : List Nat) :
    (s.removeAll removed).WellFormed := by
  induction removed generalizing s with
  | nil => exact h
  | cons v removed ih => exact ih (wellFormed_erase h v)

theorem contains_removeAll (h : s.WellFormed) (removed : List Nat) (v : Nat) :
    (s.removeAll removed).contains v = true ↔ s.contains v = true ∧ v ∉ removed := by
  induction removed generalizing s with
  | nil => simp [removeAll]
  | cons w removed ih =>
    have hstep : (s.removeAll (w :: removed)) = (s.erase w).removeAll removed := rfl
    rw [hstep, ih (wellFormed_erase h w), contains_erase h, List.mem_cons, not_or, and_assoc,
      and_left_comm]

theorem length_bits_removeAll (s : CandidateSet) (removed : List Nat) :
    (s.removeAll removed).bits.length = s.bits.length := by
  induction removed generalizing s with
  | nil => rfl
  | cons v removed ih => exact (ih (s.erase v)).trans (length_bits_erase s v)

/-- A list of variables becomes a set that behaves as the finite set of its entries, and goes on to
do so as variables are removed. Its row of bits reaches to the bound throughout. -/
theorem ofListBounded_behavesAs {vars : List Nat} {bound : Nat}
    (hvars : ∀ v ∈ vars, isVariable v = true) (hbound : bound < maxCount) :
    ∃ start, ofListBounded vars bound = .ok start ∧ ∀ removed : List Nat,
      (start.removeAll removed).BehavesAs (vars.toFinset \ removed.toFinset) ∧
        (start.removeAll removed).Layout (bound + 1) := by
  have hstart := ofListBounded_eq_ok_iff.2 ⟨hvars, hbound, rfl⟩
  refine ⟨_, hstart, ?_⟩
  generalize vars.foldr (fun v s => s.insert v) (empty (bound + 1)) = start at hstart ⊢
  intro removed
  have hw := wellFormed_of_ofListBounded hstart
  have hleft := wellFormed_removeAll hw removed
  have hcontains : ∀ v, (start.removeAll removed).contains v = true ↔
      v ∈ vars.toFinset \ removed.toFinset := by
    intro v
    rw [contains_removeAll hw, contains_of_ofListBounded hstart, Finset.mem_sdiff,
      List.mem_toFinset, List.mem_toFinset]
  have hlength : (start.removeAll removed).bits.length = bound + 1 :=
    (length_bits_removeAll start removed).trans (length_bits_of_ofListBounded hstart)
  have hzero : (start.removeAll removed).contains 0 = false := by
    rw [Bool.eq_false_iff, Ne, contains_removeAll hw, contains_of_ofListBounded hstart]
    rintro ⟨hmem, -⟩
    exact absurd (hvars 0 hmem) (by decide)
  refine ⟨hleft.behavesAs hcontains, ?_⟩
  have hlayout := hleft.layout (by omega) hzero
  rwa [hlength] at hlayout

/-- The bound is 1, so the row keeps the variable 1 and the list behind it the other two. -/
theorem ofListBounded_behavesAs_beyond_bound :
    let start : CandidateSet := ⟨⟨2, [1]⟩, [3, maxVar], 3⟩
    (∀ v ∈ [3, maxVar, 1, 3], isVariable v = true) ∧ 1 < maxCount ∧
      ofListBounded [3, maxVar, 1, 3] 1 = .ok start ∧
      (start.removeAll [1, 7]).BehavesAs {3, maxVar} ∧ (start.removeAll [1, 7]).Layout 2 := by
  intro start
  have hvars : ∀ v ∈ [3, maxVar, 1, 3], isVariable v = true := by decide
  have hbound : 1 < maxCount := by decide
  have hof : ofListBounded [3, maxVar, 1, 3] 1 = .ok start := by decide
  obtain ⟨s, hs, hleft⟩ := ofListBounded_behavesAs hvars hbound
  cases hs.symm.trans hof
  have hset : [3, maxVar, 1, 3].toFinset \ [1, 7].toFinset = {3, maxVar} := by decide
  exact ⟨hvars, hbound, hof, hset ▸ (hleft [1, 7]).1, (hleft [1, 7]).2⟩

end CandidateSet

end SatSearch
