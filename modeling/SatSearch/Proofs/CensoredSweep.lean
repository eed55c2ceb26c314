import SatSearch.Proofs.SeededSweep

/-!
# Sweeps under a step limit

A step limit does nothing to a sweep but to censor its records. The formulas are drawn whatever is
found of those before, so they stay the same; a search that needs more steps than the limit is
stopped after exactly that many, and every other search ends as it would without the limit.
-/

namespace SatSearch

/-- What a step limit makes of a record: the steps are cut off at the limit, and an outcome that needs
more of them is not known. -/
structure Record.Censors (k : Nat) (free limited : Record) : Prop where
  clauses_eq : limited.clauses = free.clauses
  vars_eq : limited.vars = free.vars
  size_eq : limited.size = free.size
  steps_eq : limited.steps = min k free.steps
  unknown_iff : limited.outcome = .unknown ↔ k < free.steps
  outcome_eq : free.steps ≤ k → limited.outcome = free.outcome

variable {c : Settings}

theorem Settings.withoutBudget_of_unlimited (hc : c.Unlimited) (limit : Option Nat) :
    { c with stepLimit := limit }.withoutBudget = c := by
  obtain ⟨hlimit, hdeadline⟩ := hc
  cases c
  subst hlimit hdeadline
  rfl

/-- A step limit keeps the answer of a search that needs no more steps, and stops every other one. -/
theorem solve_of_stepLimit (hc : c.Unlimited) {clock : Nat → Nat} {f : Formula} {vars : List Nat}
    {a : Solution} (h : solve c clock f vars = .ok a) (clock' : Nat → Nat) (k : Nat) :
    solve { c with stepLimit := some k } clock' f vars =
      if a.steps ≤ k then .ok a else .error (.error (.stepLimit k)) := by
  obtain ⟨-, root, hroot⟩ := exists_root_of_solve h
  have hsolution := solution_of_solve hroot h
  have hsteps := Ending.steps_of_solution hsolution
  have hrun : run { c with stepLimit := some k } clock' (.start root) =
      (run c clock (.start root)).within k := by
    have hwithin := run_eq_within (c := { c with stepLimit := some k }) rfl hc.2 clock'
      (s := .start root) (Nat.zero_le k) rfl
    rw [hwithin, Settings.withoutBudget_of_unlimited hc, run_congr_clock hc.2 clock' clock]
  rw [solve, (observe_of_root hroot _ clock').1, hrun]
  by_cases hle : a.steps ≤ k
  · rw [if_pos hle, Ending.within_of_le (hsteps ▸ hle), hsolution]
    rfl
  · rw [if_neg hle, Ending.within_of_lt (hsteps ▸ Nat.lt_of_not_le hle)]
    rfl

/-- Records of the same formula, without a budget and under a step limit. -/
theorem Record.Reports.censors (hc : c.Unlimited) {k : Nat} {timing timing' : Timing}
    {size : Nat × Nat} {f : Formula} {free limited : Record} (hfree : free.Reports c timing size f)
    (hlimited : limited.Reports { c with stepLimit := some k } timing' size f) :
    free.Censors k limited := by
  have hclauses := hlimited.clauses_eq.trans hfree.clauses_eq.symm
  have hvars := hlimited.vars_eq.trans hfree.vars_eq.symm
  have hsize := hlimited.size_eq.trans hfree.size_eq.symm
  obtain ⟨a, ha, hsteps, hout⟩ | ⟨_, hlimit, -⟩ := hfree.search
  · have hsolve := solve_of_stepLimit hc ha timing'.due k
    by_cases hle : a.steps ≤ k
    · rw [if_pos hle] at hsolve
      obtain ⟨b, hb, hsteps', hout'⟩ | ⟨_, -, hstop, -⟩ := hlimited.search
      · cases hsolve.symm.trans hb
        refine ⟨hclauses, hvars, hsize, ?_, ?_, fun _ => hout'.trans hout.symm⟩
        · rw [hsteps', hsteps, Nat.min_eq_right hle]
        · rw [hout', hsteps]
          cases a.satisfiable <;> simp [hle]
      · cases hsolve.symm.trans hstop
    · rw [if_neg hle] at hsolve
      obtain ⟨b, hb, -⟩ | ⟨k', -, hstop, hsteps', hout'⟩ := hlimited.search
      · cases hsolve.symm.trans hb
      · cases hsolve.symm.trans hstop
        have hlt : k < free.steps := hsteps ▸ Nat.lt_of_not_le hle
        refine ⟨hclauses, hvars, hsize, ?_, iff_of_true hout' hlt, ?_⟩
        · rw [hsteps', Nat.min_eq_left (Nat.le_of_lt hlt)]
        · exact fun hfits => absurd hlt (Nat.not_lt_of_le hfits)
  · cases hc.1.symm.trans hlimit

theorem Reported.forall₂_censors (hc : c.Unlimited) {k base : Nat} {timings timings' : Nat → Timing}
    {sizes : List (Nat × Nat)} {fs : List Formula} {records limited : List Record}
    (hfree : Reported c timings base sizes fs records)
    (hlimited : Reported { c with stepLimit := some k } timings' base sizes fs limited) :
    List.Forall₂ (Record.Censors k) records limited := by
  induction hfree generalizing limited with
  | nil =>
    cases hlimited
    exact .nil
  | cons first _ ih =>
    cases hlimited with
    | cons first' rest' => exact .cons (first.censors hc first') (ih rest')

namespace Sweep

/-- A sweep under a step limit collects the records of the sweep without it, each of them censored at
the limit. -/
theorem collect_of_stepLimit (clauses vars : StepRange) (repeats : Nat) (seed : UInt64)
    (r : Reduction) (s : Selection) (k : Nat) (timings timings' : Nat → Timing)
    (hvars : ∀ n ∈ vars.toList, n ≤ maxVar) :
    let c : Settings := { reduction := r, selection := s }
    let free : Sweep := ⟨clauses, vars, repeats, seed, c⟩
    let limited : Sweep := ⟨clauses, vars, repeats, seed, { c with stepLimit := some k }⟩
    ∃ records censored, free.collect timings = .ok records ∧
      limited.collect timings' = .ok censored ∧
      List.Forall₂ (Record.Censors k) records censored := by
  intro c free limited
  obtain ⟨instances, -, -, hcollect⟩ := exists_collect clauses vars repeats seed hvars
  have htime (limit : Option Nat) (timings : Nat → Timing) (k : Nat) :
      { c with stepLimit := limit }.InTime (timings k).due := fun _ hd => by cases hd
  obtain ⟨records, hfree, hreported⟩ := hcollect c timings (htime none timings)
  obtain ⟨censored, hlimited, hcensored⟩ := hcollect _ timings' (htime (some k) timings')
  exact ⟨records, censored, hfree, hlimited, hreported.forall₂_censors ⟨rfl, rfl⟩ hcensored⟩

/-- The first search ends on the limit, and the second one needs a step more. -/
theorem collect_of_stepLimit_one :
    let vars : StepRange := ⟨2, 3, 1, by decide, by decide⟩
    let free : Sweep := ⟨⟨1, 9, 8, by decide, by decide⟩, vars, 1, 11, {}⟩
    let limited : Sweep := { free with settings := { stepLimit := some 1 } }
    (∀ n ∈ vars.toList, n ≤ maxVar) ∧
      free.collect (fun _ => .still) =
        .ok [⟨1, 3, 4, 1, .satisfiable, 0⟩, ⟨9, 3, 12, 2, .satisfiable, 0⟩] ∧
      ∃ censored, limited.collect (fun _ => .still) = .ok censored ∧
        censored.map (fun r => (r.size, r.steps)) = [(4, 1), (12, 1)] ∧
        censored.map Record.outcome = [.satisfiable, .unknown] := by
  intro vars free limited
  have hvars : ∀ n ∈ vars.toList, n ≤ maxVar := by decide
  have hfree : free.collect (fun _ => .still) =
      .ok [⟨1, 3, 4, 1, .satisfiable, 0⟩, ⟨9, 3, 12, 2, .satisfiable, 0⟩] := by decide +kernel
  obtain ⟨records, censored, hrecords, hcensored, hpairs⟩ := collect_of_stepLimit free.clauses vars 1
    11 .faithful .maxFrequency 1 (fun _ => .still) (fun _ => .still) hvars
  cases hrecords.symm.trans hfree
  obtain ⟨first, second, h₁, h₂, rfl⟩ : ∃ first second,
      Record.Censors 1 ⟨1, 3, 4, 1, .satisfiable, 0⟩ first ∧
      Record.Censors 1 ⟨9, 3, 12, 2, .satisfiable, 0⟩ second ∧ censored = [first, second] := by
    cases hpairs with
    | cons h₁ hrest =>
      cases hrest with
      | cons h₂ hnil =>
        cases hnil
        exact ⟨_, _, h₁, h₂, rfl⟩
  refine ⟨hvars, hfree, _, hcensored, ?_, ?_⟩
  · simp [h₁.size_eq, h₁.steps_eq, h₂.size_eq, h₂.steps_eq]
  · simp [h₁.outcome_eq, h₂.unknown_iff]

end Sweep

end SatSearch
