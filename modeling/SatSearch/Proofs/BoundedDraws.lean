import SatSearch.Proofs.SourcePeriod

/-!
# Numbers drawn from a range

A number drawn from a range lies in it. To draw a number that is not among some others is to draw
numbers from the range until one is not. A single search of a period does this, because a source that
starts later in its period still meets the same states.
-/

namespace SatSearch.Source

theorem after_one (s : Source) : s.after 1 = s.advance := by
  simp [after, advance]

theorem after_after (s : Source) (j k : Nat) : (s.after j).after k = s.after (j + k) := by
  have hstate : s.state + UInt64.ofNat j * increment + UInt64.ofNat k * increment =
      s.state + (UInt64.ofNat j + UInt64.ofNat k) * increment := by grind
  rw [after, after, after, UInt64.ofNat_add]
  exact congrArg Source.mk hstate

theorem after_add_period (s : Source) (k : Nat) : s.after (k + period) = s.after k := by
  have hperiod : UInt64.ofNat period = 0 := by decide
  rw [after, after, UInt64.ofNat_add, hperiod, UInt64.add_zero]

section Search

variable {accept : Nat → Bool} {s t : Source} {n k : Nat}

/-- The first acceptable number comes after `k` others. -/
def AcceptsAt (accept : Nat → Bool) (s : Source) (k : Nat) : Prop :=
  accept (s.after (k + 1)).raw = true ∧ ∀ j < k, accept (s.after (j + 1)).raw = false

theorem acceptsAt_zero_iff : s.AcceptsAt accept 0 ↔ accept s.advance.raw = true := by
  simp [AcceptsAt, after_one]

theorem acceptsAt_succ_iff : s.AcceptsAt accept (k + 1) ↔
    accept s.advance.raw = false ∧ s.advance.AcceptsAt accept k := by
  simp only [AcceptsAt, after_advance, Nat.forall_lt_succ_left, Nat.zero_add, after_one]
  exact and_left_comm

theorem find?_of_acceptsAt {fuel : Nat} (h : s.AcceptsAt accept k) (hk : k < fuel) :
    s.find? accept fuel = some ((s.after (k + 1)).raw, s.after (k + 1)) := by
  induction fuel generalizing s k with
  | zero => cases hk
  | succ fuel ih =>
    cases k with
    | zero =>
      rw [after_one]
      exact if_pos (acceptsAt_zero_iff.1 h)
    | succ k =>
      obtain ⟨hreject, hlater⟩ := acceptsAt_succ_iff.1 h
      have hfind : s.find? accept (fuel + 1) = s.advance.find? accept fuel :=
        if_neg (Bool.eq_false_iff.1 hreject)
      rw [hfind, ih hlater (Nat.lt_of_succ_lt_succ hk), after_advance]

theorem acceptsAt_of_find? {fuel : Nat} (h : s.find? accept fuel = some (n, t)) :
    ∃ k < fuel, s.AcceptsAt accept k ∧ t = s.after (k + 1) ∧ n = t.raw := by
  induction fuel generalizing s with
  | zero => cases h
  | succ fuel ih =>
    by_cases hnext : accept s.advance.raw = true
    · have hfind : s.find? accept (fuel + 1) = some (s.advance.raw, s.advance) := if_pos hnext
      cases hfind.symm.trans h
      exact ⟨0, Nat.succ_pos fuel, acceptsAt_zero_iff.2 hnext, (after_one s).symm, rfl⟩
    · have hfind : s.find? accept (fuel + 1) = s.advance.find? accept fuel := if_neg hnext
      obtain ⟨k, hk, hlater, ht, hn⟩ := ih (hfind ▸ h)
      have hreject := Bool.eq_false_iff.2 hnext
      rw [after_advance] at ht
      exact ⟨k + 1, Nat.succ_lt_succ hk, acceptsAt_succ_iff.2 ⟨hreject, hlater⟩, ht, hn⟩

theorem findInPeriod_of_acceptsAt (h : s.AcceptsAt accept k) (hk : k < period) :
    s.findInPeriod accept = .ok ((s.after (k + 1)).raw, s.after (k + 1)) := by
  rw [findInPeriod, find?_of_acceptsAt h hk]

theorem acceptsAt_of_findInPeriod (h : s.findInPeriod accept = .ok (n, t)) :
    ∃ k < period, s.AcceptsAt accept k ∧ t = s.after (k + 1) ∧ n = t.raw := by
  unfold findInPeriod at h
  split at h
  · rename_i found hfound
    cases h
    exact acceptsAt_of_find? hfound
  · cases h

theorem findInPeriod_eq_exhausted {fault : Fault} (h : s.findInPeriod accept = .error fault) :
    fault = .exhausted := by
  unfold findInPeriod at h
  split at h
  · cases h
  · cases h
    rfl

/-- If some of the first numbers are rejected, the search may as well start after them. -/
theorem findInPeriod_after (h : ∀ j ≤ k, accept (s.after (j + 1)).raw = false) :
    (s.after (k + 1)).findInPeriod accept = s.findInPeriod accept := by
  cases hlater : (s.after (k + 1)).findInPeriod accept with
  | ok found =>
    obtain ⟨j, hj, ⟨hfirst, hbefore⟩, ht, hn⟩ := acceptsAt_of_findInPeriod hlater
    rw [after_after, ← Nat.add_assoc] at hfirst ht
    have hlt : k + 1 + j < period := by
      by_contra hge
      have hsame : s.after (k + 1 + j + 1) = s.after (k + 1 + j - period + 1) := by
        rw [← after_add_period s (k + 1 + j - period + 1)]
        exact congrArg s.after (by omega)
      rw [hsame, h _ (by omega)] at hfirst
      cases hfirst
    have haccepts : s.AcceptsAt accept (k + 1 + j) := by
      refine ⟨hfirst, fun i hi => ?_⟩
      rcases Nat.lt_or_ge k i with hki | hik
      · have hi' := hbefore (i - (k + 1)) (by omega)
        rwa [after_after, show k + 1 + (i - (k + 1) + 1) = i + 1 by omega] at hi'
      · exact h i hik
    rw [findInPeriod_of_acceptsAt haccepts hlt, ← ht, ← hn]
  | error fault =>
    cases hs : s.findInPeriod accept with
    | ok found =>
      obtain ⟨j, -, haccepts, -⟩ := acceptsAt_of_findInPeriod hs
      obtain ⟨n, rest, hfound, -⟩ := exists_findInPeriod haccepts.1 (s.after (k + 1))
      cases hlater.symm.trans hfound
    | error fault' =>
      rw [findInPeriod_eq_exhausted hlater, findInPeriod_eq_exhausted hs]

/-- A search for two properties goes on from the first number that has one of them, if it does not
have the other. -/
theorem findInPeriod_and {p q : Nat → Bool} (h : s.findInPeriod p = .ok (n, t)) :
    s.findInPeriod (fun r => p r && q r) =
      if q n then .ok (n, t) else t.findInPeriod fun r => p r && q r := by
  obtain ⟨k, hk, ⟨haccept, hbefore⟩, rfl, rfl⟩ := acceptsAt_of_findInPeriod h
  split
  · rename_i hq
    exact findInPeriod_of_acceptsAt ⟨by simp [haccept, hq], fun j hj => by simp [hbefore j hj]⟩ hk
  · rename_i hq
    refine (findInPeriod_after fun j hj => ?_).symm
    rcases Nat.lt_or_eq_of_le hj with hlt | rfl
    · simp [hbefore j hlt]
    · simp [hq]

end Search

section Range

variable {top v : Nat} {s rest : Source}

/-- Drawing a number from a range ends, with a number of the range. -/
theorem exists_upTo (h : 0 < top) (htop : top ≤ maxTop) (s : Source) :
    ∃ v rest, s.upTo top = .ok (v, rest) ∧ 0 < v ∧ v ≤ top := by
  have hfair : isFair top (⟨7866185462⟩ : Source).raw = true := by
    rw [raw_highest]
    simp only [maxTop] at htop
    exact isFair_of_sub_le (by simp only [rawCount]; omega)
  obtain ⟨n, rest, hfind, -, hlt⟩ := exists_findInPeriod hfair s
  refine ⟨scale top n, rest, ?_, scale_mem hlt h⟩
  simp only [upTo, hfind, bind, Except.bind, pure, Except.pure]

/-- Drawing a number that is not among some others is drawing from the range until there is one. -/
theorem fresh_eq_of_upTo (h : s.upTo top = .ok (v, rest)) (taken : List Nat) :
    s.fresh top taken = if v ∈ taken then rest.fresh top taken else .ok (v, rest) := by
  cases hfind : s.findInPeriod (isFair top) with
  | error fault => simp [upTo, hfind, bind, Except.bind] at h
  | ok found =>
    simp only [upTo, hfind, bind, Except.bind, pure, Except.pure, Except.ok.injEq,
      Prod.mk.injEq] at h
    obtain ⟨rfl, rfl⟩ := h
    rw [fresh, findInPeriod_and hfind]
    by_cases hv : scale top found.1 ∈ taken
    · simp only [hv, List.contains_eq_mem, decide_true, Bool.not_true, Bool.false_eq_true, if_false,
        if_true, fresh]
    · simp [hv, bind, Except.bind, pure, Except.pure]

end Range

end SatSearch.Source
