import SatSearch.Random.Generator
import Mathlib.Data.List.Perm.Subperm

/-!
# Drawing always ends

A source goes through all states before it repeats one, so a search through a whole period finds an
acceptable number if any state gives one. For every range of at least three numbers there are three
states whose numbers may be scaled to the range and give different results, so a number that is not
among two others is always found.
-/

namespace SatSearch.Source

def after (s : Source) (n : Nat) : Source := ⟨s.state + UInt64.ofNat n * increment⟩

theorem after_advance (s : Source) (n : Nat) : s.advance.after n = s.after (n + 1) := by
  have hstate : s.state + increment + UInt64.ofNat n * increment =
      s.state + (UInt64.ofNat n + 1) * increment := by grind
  rw [after, after, UInt64.ofNat_add]
  exact congrArg Source.mk hstate

/-- The number whose product with the increment is 1. There is one, because the increment is odd. -/
def inverse : UInt64 := 0x32e25c49d2beaf2d

theorem inverse_mul_increment : inverse * increment = 1 := by decide

/-- Every state comes up within a period. -/
theorem exists_after_eq (s t : Source) : ∃ k < period, s.after (k + 1) = t := by
  let distance := (t.state - s.state) * inverse
  refine ⟨(distance - 1).toNat, UInt64.toNat_lt _, ?_⟩
  have hdistance : UInt64.ofNat ((distance - 1).toNat + 1) = distance := by
    rw [UInt64.ofNat_add, UInt64.ofNat_toNat]
    exact UInt64.sub_add_cancel distance 1
  have hstate : s.state + distance * increment = t.state := by
    have hinverse := inverse_mul_increment
    calc s.state + (t.state - s.state) * inverse * increment
        = s.state + (t.state - s.state) * (inverse * increment) := by rw [UInt64.mul_assoc]
      _ = s.state + (t.state - s.state) := by rw [hinverse, UInt64.mul_one]
      _ = t.state := by rw [UInt64.add_comm, UInt64.sub_add_cancel]
  rw [after, hdistance, hstate]

/-- The 32-bit number that a state gives. -/
def raw (s : Source) : Nat := s.output.toNat % rawCount

theorem raw_lt (s : Source) : s.raw < rawCount := Nat.mod_lt _ (by decide)

section Find

variable {accept : Nat → Bool}

theorem exists_find? {fuel : Nat} {s : Source}
    (h : ∃ k < fuel, accept (s.after (k + 1)).raw = true) :
    ∃ n rest, s.find? accept fuel = some (n, rest) ∧ accept n = true ∧ n < rawCount := by
  induction fuel generalizing s with
  | zero =>
    obtain ⟨k, hk, -⟩ := h
    exact absurd hk (Nat.not_lt_zero k)
  | succ fuel ih =>
    by_cases hnext : accept s.advance.raw = true
    · exact ⟨s.advance.raw, s.advance, if_pos hnext, hnext, raw_lt _⟩
    · have hfind : s.find? accept (fuel + 1) = s.advance.find? accept fuel := if_neg hnext
      rw [hfind]
      apply ih
      obtain ⟨k, hk, haccept⟩ := h
      cases k with
      | zero =>
        rw [← after_advance] at haccept
        exact absurd haccept (by simpa [after] using hnext)
      | succ k => exact ⟨k, Nat.lt_of_succ_lt_succ hk, by rwa [after_advance]⟩

/-- If some state gives an acceptable number, one is found. -/
theorem exists_findInPeriod {t : Source} (h : accept t.raw = true) (s : Source) :
    ∃ n rest, s.findInPeriod accept = .ok (n, rest) ∧ accept n = true ∧ n < rawCount := by
  obtain ⟨k, hk, ht⟩ := exists_after_eq s t
  obtain ⟨n, rest, hfind, hn, hlt⟩ := exists_find? (s := s) ⟨k, hk, ht ▸ h⟩
  exact ⟨n, rest, by rw [findInPeriod, hfind], hn, hlt⟩

end Find

section Range

variable {top : Nat}

theorem isFair_of_le {n : Nat} (htop : 0 < top) (h : top ≤ n * top % rawCount + 1) :
    isFair top n = true := by
  have hlt := Nat.mod_lt (rawCount - top) htop
  rw [isFair, decide_eq_true_eq]
  omega

theorem isFair_of_sub_le {n : Nat} (h : rawCount - top ≤ n * top % rawCount) :
    isFair top n = true := by
  rw [isFair, decide_eq_true_eq]
  exact Nat.le_trans (Nat.mod_le _ _) h

theorem raw_lowest : (⟨2713328213⟩ : Source).raw = 1 := by decide +kernel

theorem raw_highest : (⟨7866185462⟩ : Source).raw = 4294967295 := by decide +kernel

theorem raw_middle : (⟨7251588884⟩ : Source).raw = 2147483649 := by decide +kernel

theorem raw_second : (⟨683126214⟩ : Source).raw = 4294967294 := by decide +kernel

/-- Three states give different fair numbers: for the least result, for the greatest one, and for
one between them, which depends on the half in which the bound lies. -/
theorem exists_fair_states (h : 3 ≤ top) (htop : top ≤ maxTop) :
    ∃ low mid high : Source, (isFair top low.raw = true ∧ isFair top mid.raw = true ∧
      isFair top high.raw = true) ∧ scale top low.raw < scale top mid.raw ∧
        scale top mid.raw < scale top high.raw := by
  simp only [maxTop] at htop
  have hleast : 1 * top / 4294967296 = 0 := by omega
  have hgreatest : 4294967295 * top / 4294967296 = top - 1 := by omega
  have hlow : isFair top 1 = true := isFair_of_le (by omega) (by simp only [rawCount]; omega)
  have hhigh : isFair top 4294967295 = true := isFair_of_sub_le (by simp only [rawCount]; omega)
  rcases Nat.lt_or_ge 2147483648 top with hhalf | hhalf
  · refine ⟨⟨2713328213⟩, ⟨683126214⟩, ⟨7866185462⟩, ?_⟩
    rw [raw_lowest, raw_second, raw_highest]
    have hbetween : 4294967294 * top / 4294967296 = top - 2 := by omega
    have hmid : isFair top 4294967294 = true :=
      isFair_of_sub_le (by simp only [rawCount]; omega)
    refine ⟨⟨hlow, hmid, hhigh⟩, ?_⟩
    simp only [scale, rawCount, hleast, hbetween, hgreatest]
    omega
  · refine ⟨⟨2713328213⟩, ⟨7251588884⟩, ⟨7866185462⟩, ?_⟩
    rw [raw_lowest, raw_middle, raw_highest]
    have hbetween : 2147483649 * top / 4294967296 = top / 2 :=
      Nat.div_eq_of_lt_le (by omega) (by omega)
    have hmid : isFair top 2147483649 = true :=
      isFair_of_le (by omega) (by simp only [rawCount]; omega)
    refine ⟨⟨hlow, hmid, hhigh⟩, ?_⟩
    simp only [scale, rawCount, hleast, hbetween, hgreatest]
    omega

theorem scale_mem {n : Nat} (hn : n < rawCount) (htop : 0 < top) :
    0 < scale top n ∧ scale top n ≤ top := by
  have hlt : n * top / rawCount < top :=
    Nat.div_lt_of_lt_mul (Nat.mul_lt_mul_of_pos_right hn htop)
  rw [scale, Nat.add_comm]
  exact ⟨Nat.succ_pos _, hlt⟩

/-- A short list leaves out one of any three numbers. -/
theorem exists_not_mem_of_length {taken : List Nat} (h : taken.length < 3) {a b c : Nat}
    (hab : a < b) (hbc : b < c) : a ∉ taken ∨ b ∉ taken ∨ c ∉ taken := by
  by_contra hall
  have hnodup : [a, b, c].Nodup := by simp; omega
  have hsub : [a, b, c] ⊆ taken := by simpa using hall
  have hle := (List.subperm_of_subset hnodup hsub).length_le
  simp only [List.length_cons, List.length_nil] at hle
  omega

/-- Drawing a number that is not among at most two others ends, if there are three to draw from. -/
theorem exists_fresh (h : 3 ≤ top) (htop : top ≤ maxTop) {taken : List Nat}
    (htaken : taken.length < 3) (s : Source) :
    ∃ v rest, s.fresh top taken = .ok (v, rest) ∧ v ∉ taken ∧ 0 < v ∧ v ≤ top := by
  let accept (n : Nat) : Bool := isFair top n && !taken.contains (scale top n)
  have hstate : ∃ t : Source, accept t.raw = true := by
    obtain ⟨low, mid, high, ⟨hlow, hmid, hhigh⟩, hlm, hmh⟩ := exists_fair_states h htop
    rcases exists_not_mem_of_length htaken hlm hmh with hfree | hfree | hfree
    · exact ⟨low, by simp [accept, hlow, hfree]⟩
    · exact ⟨mid, by simp [accept, hmid, hfree]⟩
    · exact ⟨high, by simp [accept, hhigh, hfree]⟩
  obtain ⟨t, ht⟩ := hstate
  obtain ⟨n, rest, hfind, hn, hlt⟩ := exists_findInPeriod ht s
  have hfree : scale top n ∉ taken := by simpa [accept] using (Bool.and_eq_true_iff.1 hn).2
  refine ⟨scale top n, rest, ?_, hfree, scale_mem hlt (by omega)⟩
  simp only [fresh, accept, hfind, bind, Except.bind, pure, Except.pure]

end Range

end SatSearch.Source
