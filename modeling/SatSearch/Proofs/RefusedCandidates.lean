import SatSearch.Proofs.CallCounting
import SatSearch.Proofs.OccurringVariables

/-!
# Candidates that are refused

A list of candidates is refused for its first entry that is no variable; if there is none and the list
is not empty, it is refused for the first variable of the formula, in reading order, that it does not
name. A search with refused candidates does not start. With all others it ends with an answer, or a
budget stops it.
-/

namespace SatSearch

/-- The first entry of a list with a property. -/
def FirstWith (p : Nat → Prop) (v : Nat) (vs : List Nat) : Prop :=
  ∃ before after, vs = before ++ v :: after ∧ p v ∧ ∀ u ∈ before, ¬p u

section FirstWith

variable {p : Nat → Prop} {test : Nat → Bool} {v : Nat} {vs : List Nat}

theorem find?_eq_some_iff_firstWith (h : ∀ u, test u = true ↔ p u) :
    vs.find? test = some v ↔ FirstWith p v vs := by
  simp only [List.find?_eq_some_iff_append, FirstWith, ← h, Bool.not_eq_true, Bool.not_eq_true']
  constructor
  · rintro ⟨hv, before, after, hsplit, hbefore⟩
    exact ⟨before, after, hsplit, hv, hbefore⟩
  · rintro ⟨before, after, hsplit, hv, hbefore⟩
    exact ⟨hv, before, after, hsplit, hbefore⟩

theorem exists_firstWith (h : ∃ v ∈ vs, p v) : ∃ v, FirstWith p v vs := by
  classical
  have hsome : (vs.find? fun v => p v).isSome := by simpa using h
  obtain ⟨v, hv⟩ := Option.isSome_iff_exists.1 hsome
  exact ⟨v, (find?_eq_some_iff_firstWith fun u => decide_eq_true_iff).1 hv⟩

end FirstWith

theorem CandidateSet.ofListBounded_eq_invalidVariable_iff {vars : List Nat} {v : Nat}
    (bound : Nat) :
    ofListBounded vars bound = .error (.error (.invalidVariable v)) ↔
      FirstWith (fun w => ¬(0 < w ∧ w ≤ maxVar)) v vars := by
  have hinvalid (w : Nat) : (!isVariable w) = true ↔ ¬(0 < w ∧ w ≤ maxVar) := by
    rw [← isVariable_iff, Bool.not_eq_true', Bool.not_eq_true]
  rw [← find?_eq_some_iff_firstWith hinvalid, ofListBounded]
  cases vars.find? (!isVariable ·) with
  | some w => simp
  | none => cases addCounts bound 1 <;> simp

theorem exists_first_invalid {vars : List Nat} (h : ¬∀ w ∈ vars, 0 < w ∧ w ≤ maxVar) :
    ∃ v, FirstWith (fun w => ¬(0 < w ∧ w ≤ maxVar)) v vars := by
  apply exists_firstWith
  simpa only [not_forall, exists_prop] using h

namespace Formula

variable {f : Formula} {vars : List Nat} {s : CandidateSet} {v : Nat}

theorem missingCandidate?_eq_some_iff (hs : CandidateSet.ofListBounded vars f.numVars = .ok s) :
    f.missingCandidate? s = some v ↔
      vars ≠ [] ∧ FirstWith (· ∉ vars) v (f.literals.map Literal.var) := by
  have hcontains (w : Nat) : (!s.contains w) = true ↔ w ∉ vars := by
    rw [← CandidateSet.contains_of_ofListBounded hs]
    simp
  have hempty : s.isEmpty = true ↔ vars = [] := by
    rw [CandidateSet.isEmpty_iff (CandidateSet.wellFormed_of_ofListBounded hs),
      List.eq_nil_iff_forall_not_mem]
    refine forall_congr' fun w => ?_
    rw [← CandidateSet.contains_of_ofListBounded hs, Bool.not_eq_true]
  rw [missingCandidate?, ← find?_eq_some_iff_firstWith hcontains, Ne, ← hempty]
  cases s.isEmpty <;> simp

theorem root_eq_invalidVariable_iff : f.root vars = .error (.error (.invalidVariable v)) ↔
    FirstWith (fun w => ¬(0 < w ∧ w ≤ maxVar)) v vars := by
  rw [← CandidateSet.ofListBounded_eq_invalidVariable_iff f.numVars, root]
  cases CandidateSet.ofListBounded vars f.numVars with
  | error failure => simp only [bind, Except.bind, Except.error.injEq]
  | ok s => cases hm : f.missingCandidate? s <;> simp [bind, Except.bind, pure, Except.pure, hm]

variable (hn : f.numVars < maxCount)
include hn

theorem root_eq_missingCandidate_iff : f.root vars = .error (.error (.missingCandidate v)) ↔
    (∀ w ∈ vars, 0 < w ∧ w ≤ maxVar) ∧ vars ≠ [] ∧
      FirstWith (· ∉ vars) v (f.literals.map Literal.var) := by
  by_cases hvars : ∀ w ∈ vars, 0 < w ∧ w ≤ maxVar
  · obtain ⟨s, hs⟩ := CandidateSet.exists_ofListBounded hvars hn
    rw [and_iff_right hvars, ← missingCandidate?_eq_some_iff hs, root, hs]
    cases hm : f.missingCandidate? s <;> simp [bind, Except.bind, pure, Except.pure, hm]
  · obtain ⟨w, hw⟩ := exists_first_invalid hvars
    rw [root_eq_invalidVariable_iff.2 hw]
    simp [hvars]

/-- Candidates are accepted exactly if there are none or if they cover the formula. -/
theorem exists_root_iff : (∃ root, f.root vars = .ok root) ↔ vars = [] ∨ f.CoveredBy vars := by
  constructor
  · rintro ⟨root, hroot⟩
    obtain ⟨hs, hmissing, -⟩ := root_eq_ok_iff.1 hroot
    refine or_iff_not_imp_left.2 fun hne => ⟨fun w hw => ?_, fun l hl => ?_⟩
    · exact CandidateSet.isVariable_iff.1 ((CandidateSet.ofListBounded_eq_ok_iff.1 hs).1 w hw)
    · by_contra hl'
      obtain ⟨v, hv⟩ := exists_firstWith (p := (· ∉ vars)) ⟨l.var, List.mem_map_of_mem hl, hl'⟩
      cases hmissing.symm.trans ((missingCandidate?_eq_some_iff hs).2 ⟨hne, hv⟩)
  · rintro (rfl | hcov)
    · have hs := CandidateSet.ofListBounded_eq_ok_iff.2 ⟨List.forall_mem_nil _, hn, rfl⟩
      exact ⟨⟨f.clauses, _⟩, root_eq_ok_iff.2 ⟨hs, rfl, rfl⟩⟩
    · exact hcov.exists_root hn

/-- Candidates that are not accepted are refused for an entry, or for a variable of the formula. -/
theorem root_eq_error_of_not_exists (h : ¬∃ root, f.root vars = .ok root) :
    ∃ v, f.root vars = .error (.error (.invalidVariable v)) ∨
      f.root vars = .error (.error (.missingCandidate v)) := by
  by_cases hvars : ∀ w ∈ vars, 0 < w ∧ w ≤ maxVar
  · obtain ⟨s, hs⟩ := CandidateSet.exists_ofListBounded hvars hn
    cases hm : f.missingCandidate? s with
    | none => exact absurd ⟨⟨f.clauses, s⟩, root_eq_ok_iff.2 ⟨hs, hm, rfl⟩⟩ h
    | some v =>
      have hfirst := (missingCandidate?_eq_some_iff hs).1 hm
      exact ⟨v, .inr ((root_eq_missingCandidate_iff hn).2 ⟨hvars, hfirst⟩)⟩
  · obtain ⟨w, hw⟩ := exists_first_invalid hvars
    exact ⟨w, .inl (root_eq_invalidVariable_iff.2 hw)⟩

end Formula

theorem Settings.cases_of_stop? {c : Settings} {steps now : Nat} {reason : Error}
    (h : c.stop? steps now = some reason) :
    (∃ k, c.stepLimit = some k ∧ reason = .stepLimit k) ∨
      c.deadline ≠ none ∧ reason = .timeout steps := by
  unfold stop? at h
  split at h
  · obtain ⟨k, hk, hreason⟩ := Option.map_eq_some_iff.1 h
    exact .inl ⟨k, hk, hreason.symm⟩
  · obtain ⟨hlate, hreason⟩ := Option.ite_none_right_eq_some.1 h
    refine .inr ⟨fun hnone => ?_, (Option.some.inj hreason).symm⟩
    simp [hnone] at hlate

def Observation.Refused (o : Observation) : Prop :=
  ∃ v, o.result = .error (.error (.invalidVariable v)) ∨
    o.result = .error (.error (.missingCandidate v))

section Observe

variable {f : Formula} {vars : List Nat} (c : Settings) (clock : Nat → Nat)

theorem observe_of_root_error {failure : Failure} (h : f.root vars = .error failure) :
    observe c clock f vars = ⟨none, [], .error failure⟩ := by
  simp only [observe, h]

/-- A search that has started ends with an answer, or a budget stops it. -/
theorem answered_or_stopped {root : Node} (h : f.root vars = .ok root) :
    (∃ a, (observe c clock f vars).result = .ok a) ∨
      ∃ reason, (observe c clock f vars).result = .error (.error reason) ∧
        ((∃ k, c.stepLimit = some k ∧ reason = .stepLimit k) ∨
          c.deadline ≠ none ∧ ∃ k, reason = .timeout k) := by
  have hresult := (observe_of_root h c clock).1
  cases hs : (run c clock (.start root)).solution with
  | ok a =>
    rw [hs] at hresult
    exact .inl ⟨a, hresult⟩
  | error reason =>
    rw [hs] at hresult
    refine .inr ⟨reason, hresult, ?_⟩
    have hstopped := Ending.verdict_of_solution_error hs
    obtain ⟨k, hends, -⟩ := State.exists_endsAfter c clock (.start root)
    cases State.halt_of_advance hends.advance_last with
    | satisfied verdict steps => cases verdict.symm.trans hstopped
    | exhausted verdict steps => cases verdict.symm.trans hstopped
    | stopped stop verdict steps =>
      cases verdict.symm.trans hstopped
      exact (Settings.cases_of_stop? stop).imp id fun ⟨hd, hreason⟩ => ⟨hd, _, hreason⟩

/-- What a search is refused for is found before it starts, since only budgets stop it later. -/
theorem result_eq_iff_root_eq {e : Error} (hlimit : ∀ k, e ≠ .stepLimit k)
    (htime : ∀ k, e ≠ .timeout k) : (observe c clock f vars).result = .error (.error e) ↔
      f.root vars = .error (.error e) := by
  cases hroot : f.root vars with
  | error failure =>
    rw [observe_of_root_error c clock hroot]
    simp only [Except.error.injEq]
  | ok root =>
    refine iff_of_false (fun he => ?_) (fun he => by cases he)
    rcases answered_or_stopped c clock hroot with ⟨a, ha⟩ | ⟨reason, hreason, hstop⟩
    · cases ha.symm.trans he
    · cases hreason.symm.trans he
      rcases hstop with ⟨k, -, hk⟩ | ⟨-, k, hk⟩
      · exact hlimit k hk
      · exact htime k hk

theorem not_refused_of_root {root : Node} (h : f.root vars = .ok root) :
    ¬(observe c clock f vars).Refused := by
  rintro ⟨v, hv | hv⟩
  · cases h.symm.trans ((result_eq_iff_root_eq c clock (by simp) (by simp)).1 hv)
  · cases h.symm.trans ((result_eq_iff_root_eq c clock (by simp) (by simp)).1 hv)

theorem refused_iff (hn : f.numVars < maxCount) :
    (observe c clock f vars).Refused ↔ ¬(vars = [] ∨ f.CoveredBy vars) := by
  rw [← Formula.exists_root_iff hn]
  constructor
  · rintro hrefused ⟨root, hroot⟩
    exact not_refused_of_root c clock hroot hrefused
  · intro hnone
    obtain ⟨v, hv | hv⟩ := Formula.root_eq_error_of_not_exists hn hnone
    · exact ⟨v, .inl (by rw [observe_of_root_error c clock hv])⟩
    · exact ⟨v, .inr (by rw [observe_of_root_error c clock hv])⟩

/-- A search that was refused has not started. -/
theorem opening_of_refused (h : (observe c clock f vars).Refused) :
    (observe c clock f vars).opening = none ∧ (observe c clock f vars).told = [] := by
  cases hroot : f.root vars with
  | error failure =>
    rw [observe_of_root_error c clock hroot]
    exact ⟨rfl, rfl⟩
  | ok root => exact absurd h (not_refused_of_root c clock hroot)

/-- The variables of a formula are refused as its candidates only for the variable that has but one
literal. -/
theorem refused_vars_iff (hn : f.numVars < maxCount) :
    (observe c clock f f.vars).Refused ↔ ∃ l ∈ f.literals, l.value = -2147483648 := by
  have hleast (l : Literal) : l.value = -2147483648 ↔ ¬l.var ≤ maxVar := by
    rw [← l.value_ne_least_iff, not_not]
  rw [refused_iff c clock hn]
  constructor
  · intro hrefused
    by_contra hnone
    refine hrefused (.inr (Formula.coveredBy_vars fun l hl => ?_))
    by_contra hle
    exact hnone ⟨l, hl, (hleast l).2 hle⟩
  · rintro ⟨l, hl, hvalue⟩ hvars
    have hmem : l.var ∈ f.vars := Formula.mem_vars.2 ⟨l, hl, rfl⟩
    rcases hvars with hnil | hcov
    · rw [hnil] at hmem
      cases hmem
    · exact (hleast l).1 hvalue (hcov.isVariable _ hmem).2

end Observe

/-- What a search is refused for: the first candidate that is no variable, and otherwise, if there are
candidates, the first variable of the formula that is not among them. Then the search has not started
and its observer was told nothing. Candidates that are accepted get an answer, unless a budget stops
the search. The variables of the formula are accepted unless the literal -2147483648 occurs in it. -/
theorem observe_refuses_iff (c : Settings) (clock : Nat → Nat) {f : Formula}
    (hn : f.numVars < maxCount) (vars : List Nat) :
    let o := observe c clock f vars
    (∀ v, o.result = .error (.error (.invalidVariable v)) ↔
      FirstWith (fun w => ¬(0 < w ∧ w ≤ maxVar)) v vars) ∧
    (∀ v, o.result = .error (.error (.missingCandidate v)) ↔
      (∀ w ∈ vars, 0 < w ∧ w ≤ maxVar) ∧ vars ≠ [] ∧
        FirstWith (· ∉ vars) v (f.literals.map Literal.var)) ∧
    (o.Refused ↔ ¬(vars = [] ∨ f.CoveredBy vars)) ∧
    (o.Refused → o.opening = none ∧ o.told = []) ∧
    (¬o.Refused → o.opening ≠ none ∧ ((∃ a, o.result = .ok a) ∨
      ∃ reason, o.result = .error (.error reason) ∧
        ((∃ k, c.stepLimit = some k ∧ reason = .stepLimit k) ∨
          c.deadline ≠ none ∧ ∃ k, reason = .timeout k))) ∧
    ((observe c clock f f.vars).Refused ↔ ∃ l ∈ f.literals, l.value = -2147483648) := by
  intro o
  refine ⟨fun v => ?_, fun v => ?_, refused_iff c clock hn, opening_of_refused c clock, ?_,
    refused_vars_iff c clock hn⟩
  · rw [result_eq_iff_root_eq c clock (by simp) (by simp), Formula.root_eq_invalidVariable_iff]
  · rw [result_eq_iff_root_eq c clock (by simp) (by simp), Formula.root_eq_missingCandidate_iff hn]
  · intro haccepted
    rw [refused_iff c clock hn, not_not, ← Formula.exists_root_iff hn] at haccepted
    obtain ⟨root, hroot⟩ := haccepted
    refine ⟨?_, answered_or_stopped c clock hroot⟩
    simp [o, observe, hroot]

/-- The list is refused for 4294967295, which comes before the 0 and before the variable that is
missing; the list without these two entries is refused for that variable. -/
theorem observe_refuses_iff_least :
    let f : Formula := .ofClauses [[.of 3, .of 1], [.of (-2147483648), .of (-2)]]
    let c : Settings := { reduction := .strike, stepLimit := some 0 }
    let told (vars : List Nat) := (observe c (fun _ => 0) f vars).told
    f.numVars < maxCount ∧
      (observe c (fun _ => 0) f [3, 4294967295, 0]).result =
        .error (.error (.invalidVariable 4294967295)) ∧
      (observe c (fun _ => 0) f [3, 1]).result =
        .error (.error (.missingCandidate 2147483648)) ∧
      told [3, 1] = [] ∧ ¬(observe c (fun _ => 0) f []).Refused ∧
      (observe c (fun _ => 0) f f.vars).Refused := by
  intro f c told
  have hn : f.numVars < maxCount := by decide
  obtain ⟨hinvalid, -⟩ := observe_refuses_iff c (fun _ => 0) hn [3, 4294967295, 0]
  obtain ⟨-, hmissing, -, hrefused, -, hvars⟩ := observe_refuses_iff c (fun _ => 0) hn [3, 1]
  obtain ⟨-, -, hiff, -⟩ := observe_refuses_iff c (fun _ => 0) hn []
  have hfirst := (hmissing 2147483648).2
    ⟨by decide, by decide, [3, 1], [2], rfl, by decide, by decide⟩
  exact ⟨hn, (hinvalid _).2 ⟨[3], [0], rfl, by decide, by decide⟩, hfirst,
    (hrefused ⟨_, .inr hfirst⟩).2, fun h => hiff.1 h (.inl rfl),
    hvars.2 ⟨.of (-2147483648), by decide, rfl⟩⟩

end SatSearch
