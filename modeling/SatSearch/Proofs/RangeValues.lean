import SatSearch.Proofs.SweepOrder
import SatSearch.Sweep.Walk

/-!
# The values of a range

A walk through a range takes the values of its list and ends, wherever in the 64 bits the range lies
and whether or not its stride lands on its end. The list holds each value that the stride reaches
once, ascending, and the points of a sweep are the pairs of such values in lexicographic order.
-/

namespace SatSearch

section Span

variable {start stop passed : Nat}

theorem Span.isEmpty_of_le (h : start ≤ stop) : Span.isEmpty ⟨start, stop, false⟩ = false := by
  simpa [Span.isEmpty] using h

theorem Span.nth_of_lt (h : start + passed < stop) (hstop : stop ≤ maxCount) :
    Span.nth ⟨start, stop, false⟩ passed =
      .ok (some (start + passed), ⟨start + passed + 1, stop, false⟩) := by
  have hsum := addCounts_eq_ok_iff.2 ⟨(by omega : start + passed ≤ maxCount), rfl⟩
  have hnext := addCounts_eq_ok_iff.2 ⟨(by omega : start + passed + 1 ≤ maxCount), rfl⟩
  rw [nth, isEmpty_of_le (by omega), if_neg Bool.false_ne_true]
  simp only [hsum, if_pos h, hnext]
  rfl

theorem Span.nth_of_eq (h : start + passed = stop) (hstop : stop ≤ maxCount) :
    Span.nth ⟨start, stop, false⟩ passed = .ok (some stop, ⟨stop, stop, true⟩) := by
  have hsum := addCounts_eq_ok_iff.2 ⟨(by omega : start + passed ≤ maxCount), rfl⟩
  rw [nth, isEmpty_of_le (by omega), if_neg Bool.false_ne_true]
  simp only [hsum, h, Nat.lt_irrefl, if_false, if_true]

/-- The number behind the passed ones may be no count, but then it is behind the end as well. -/
theorem Span.nth_of_gt (h : start ≤ stop) (hgt : stop < start + passed) :
    Span.nth ⟨start, stop, false⟩ passed = .ok (none, ⟨stop, stop, true⟩) := by
  rw [nth, isEmpty_of_le h, if_neg Bool.false_ne_true]
  cases hsum : addCounts start passed with
  | error fault => rfl
  | ok n =>
    obtain ⟨-, rfl⟩ := addCounts_eq_ok_iff.1 hsum
    simp only [if_neg (Nat.not_lt_of_gt hgt), if_neg (Nat.ne_of_gt hgt)]

end Span

namespace Walk

theorem next_of_nth {w : Walk} {value : Option Nat} {span : Span}
    (h : w.span.nth (if w.started then w.gap else 0) = .ok (value, span)) :
    w.next = .ok (value, ⟨span, w.gap, true⟩) := by
  rw [next, h]
  rfl

theorem Yields.unique {w : Walk} {vs vs' : List Nat} (h : w.Yields vs) (h' : w.Yields vs') :
    vs = vs' := by
  induction h generalizing vs' with
  | done end_eq =>
    cases h' with
    | done => rfl
    | value next_eq => cases end_eq.symm.trans next_eq
  | value next_eq _ ih =>
    cases h' with
    | done end_eq => cases next_eq.symm.trans end_eq
    | value next_eq' tail =>
      cases next_eq.symm.trans next_eq'
      rw [ih tail]

theorem yields_of_exhausted (stop gap : Nat) : Yields ⟨⟨stop, stop, true⟩, gap, true⟩ [] :=
  .done (next_of_nth rfl)

def valuesAfter (stop stride v : Nat) : List Nat :=
  (List.range ((stop - v) / stride)).map fun k => v + (k + 1) * stride

theorem valuesAfter_of_lt {stop stride v : Nat} (hv : v ≤ stop) (h : stop < v + stride) :
    valuesAfter stop stride v = [] := by
  have hcount : (stop - v) / stride = 0 := Nat.div_eq_of_lt (by omega)
  rw [valuesAfter, hcount]
  rfl

theorem valuesAfter_of_le {stop stride v : Nat} (hstride : 0 < stride) (h : v + stride ≤ stop) :
    valuesAfter stop stride v = (v + stride) :: valuesAfter stop stride (v + stride) := by
  have hcount : (stop - v) / stride = (stop - (v + stride)) / stride + 1 := by
    rw [← Nat.add_div_right _ hstride, Nat.sub_add_eq, Nat.sub_add_cancel (by omega)]
  rw [valuesAfter, hcount, List.range_succ_eq_map, List.map_cons, List.map_map, Nat.zero_add,
    Nat.one_mul]
  refine congrArg ((v + stride) :: ·) (List.map_congr_left fun k _ => ?_)
  rw [Function.comp_apply, Nat.succ_mul (k + 1)]
  omega

/-- What a walk takes after a value below its end. -/
theorem yields_after {stop v : Nat} (hv : v < stop) (hstop : stop ≤ maxCount) (gap : Nat) :
    Yields ⟨⟨v + 1, stop, false⟩, gap, true⟩ (valuesAfter stop (gap + 1) v) := by
  induction hleft : stop - v using Nat.strongRecOn generalizing v with
  | ind left ih =>
    have hvalue : v + (gap + 1) = v + 1 + gap := by omega
    rcases Nat.lt_trichotomy (v + 1 + gap) stop with hlt | heq | hgt
    · have hnext := next_of_nth (w := ⟨⟨v + 1, stop, false⟩, gap, true⟩) (Span.nth_of_lt hlt hstop)
      rw [valuesAfter_of_le (Nat.succ_pos gap) (by omega), hvalue]
      exact .value hnext (ih _ (by omega) hlt rfl)
    · have hnext := next_of_nth (w := ⟨⟨v + 1, stop, false⟩, gap, true⟩) (Span.nth_of_eq heq hstop)
      rw [valuesAfter_of_le (Nat.succ_pos gap) (by omega), hvalue, heq,
        valuesAfter_of_lt (Nat.le_refl _) (by omega)]
      exact .value hnext (yields_of_exhausted stop gap)
    · have hnext := next_of_nth (w := ⟨⟨v + 1, stop, false⟩, gap, true⟩) (Span.nth_of_gt hv hgt)
      rw [valuesAfter_of_lt (Nat.le_of_lt hv) (by omega)]
      exact .done hnext

end Walk

namespace StepRange

theorem walk_yields_toList (r : StepRange) (hstop : r.stop ≤ maxCount) :
    r.walk.Yields r.toList := by
  have hgap : r.step - 1 + 1 = r.step := Nat.sub_add_cancel r.step_pos
  rcases Nat.lt_or_eq_of_le r.start_le_stop with hlt | heq
  · have hfirst : r.start + 0 < r.stop := hlt
    have hnext := Walk.next_of_nth (w := r.walk) (Span.nth_of_lt hfirst hstop)
    have hvalues := Walk.yields_after hlt hstop (r.step - 1)
    rw [hgap] at hvalues
    have hlist : r.toList = (r.start + 0) :: Walk.valuesAfter r.stop r.step r.start := by
      rw [toList, size, List.range_succ_eq_map, List.map_cons, List.map_map, value, Nat.zero_mul]
      rfl
    rw [hlist]
    exact .value hnext hvalues
  · have hfirst : r.start + 0 = r.stop := heq
    have hnext := Walk.next_of_nth (w := r.walk) (Span.nth_of_eq hfirst hstop)
    have hlist : r.toList = [r.stop] := by
      simp [toList, size, value, heq]
    rw [hlist]
    exact .value hnext (Walk.yields_of_exhausted _ _)

theorem mem_toList_iff (r : StepRange) {v : Nat} :
    v ∈ r.toList ↔ ∃ k, v = r.start + k * r.step ∧ v ≤ r.stop := by
  rw [toList, List.mem_map]
  constructor
  · rintro ⟨k, hk, rfl⟩
    exact ⟨k, rfl, r.value_le_stop (List.mem_range.1 hk)⟩
  · rintro ⟨k, rfl, hle⟩
    have hk : k ≤ (r.stop - r.start) / r.step :=
      (Nat.le_div_iff_mul_le r.step_pos).2 (by omega)
    exact ⟨k, List.mem_range.2 (Nat.lt_succ_of_le hk), rfl⟩

theorem pairwise_toList (r : StepRange) : r.toList.Pairwise (· < ·) := by
  rw [toList, List.pairwise_map]
  refine List.pairwise_lt_range.imp fun hlt => ?_
  exact Nat.add_lt_add_left (Nat.mul_lt_mul_of_pos_right hlt r.step_pos) _

end StepRange

/-- Pairs of ascending lists are in lexicographic order. -/
theorem pairwise_product {xs ys : List Nat} (hxs : xs.Pairwise (· < ·))
    (hys : ys.Pairwise (· < ·)) : (xs ×ˢ ys).Pairwise fun p q => p.1 < q.1 ∨ p.1 = q.1 ∧ p.2 < q.2 := by
  refine List.pairwise_flatMap.2 ⟨fun x _ => ?_, hxs.imp fun hlt p hp q hq => ?_⟩
  · rw [List.pairwise_map]
    exact hys.imp fun hlt => .inr ⟨rfl, hlt⟩
  · obtain ⟨_, _, rfl⟩ := List.mem_map.1 hp
    obtain ⟨_, _, rfl⟩ := List.mem_map.1 hq
    exact .inl hlt

/-- A range that is neither empty nor without stride is walked through to its end. Its values are
the numbers that the stride reaches up to the end, each once, and the points of a sweep are the
pairs of values of its two ranges, each once and in lexicographic order. -/
theorem range_values_exact :
    (∀ start stop step : Nat, start ≤ stop → 0 < step → stop ≤ maxCount →
      ∃ r, StepRange.ofBounds start stop step = .ok r ∧
        (∀ vs, r.walk.Yields vs ↔ vs = r.toList) ∧
        (∀ v, v ∈ r.toList ↔ ∃ k, v = start + k * step ∧ v ≤ stop) ∧
        r.toList.Pairwise (· < ·) ∧ r.toList.length = (stop - start) / step + 1) ∧
    ∀ s : Sweep, (∀ m n, (m, n) ∈ s.points ↔ m ∈ s.clauses.toList ∧ n ∈ s.vars.toList) ∧
      s.points.Nodup ∧ s.points.Pairwise fun p q => p.1 < q.1 ∨ p.1 = q.1 ∧ p.2 < q.2 := by
  constructor
  · intro start stop step hle hstep hstop
    let r : StepRange := ⟨start, stop, step, hle, hstep⟩
    have hyields : r.walk.Yields r.toList := r.walk_yields_toList hstop
    refine ⟨r, dif_pos ⟨hle, hstep⟩, fun vs => ⟨fun h => h.unique hyields, ?_⟩,
      fun v => r.mem_toList_iff, r.pairwise_toList, ?_⟩
    · rintro rfl
      exact hyields
    · rw [StepRange.toList, List.length_map, List.length_range]
      rfl
  · intro s
    have hordered : s.points.Pairwise fun p q => p.1 < q.1 ∨ p.1 = q.1 ∧ p.2 < q.2 := by
      rw [s.points_eq_product]
      exact pairwise_product s.clauses.pairwise_toList s.vars.pairwise_toList
    refine ⟨fun m n => ?_, hordered.imp ?_, hordered⟩
    · rw [s.points_eq_product, List.mem_product]
    · rintro p q (hlt | ⟨-, hlt⟩) rfl
      · exact Nat.lt_irrefl _ hlt
      · exact Nat.lt_irrefl _ hlt

/-- The stride would step from the last value over the greatest count. -/
theorem range_values_exact_greatest_count :
    18446744073709551610 ≤ maxCount ∧ 0 < 4 ∧ maxCount ≤ maxCount ∧
      ∃ r, StepRange.ofBounds 18446744073709551610 maxCount 4 = .ok r ∧
        r.walk.Yields [18446744073709551610, 18446744073709551614] := by
  have hle : 18446744073709551610 ≤ maxCount := by decide
  have hstep : 0 < 4 := by decide
  have hstop : maxCount ≤ maxCount := Nat.le_refl _
  obtain ⟨r, hr, hyields, -⟩ := range_values_exact.1 _ _ _ hle hstep hstop
  obtain rfl := Except.ok.inj hr
  exact ⟨hle, hstep, hstop, _, hr, (hyields _).2 (by decide +kernel)⟩

end SatSearch
