import SatSearch.Proofs.BudgetTruncation
import SatSearch.Proofs.ListenerIndependence
import SatSearch.Proofs.RandomFormulas

/-!
# What a seeded sweep records

The formulas of a sweep are drawn from one source, whatever is found of the formulas before, so they
follow from the seed and the sizes alone. The search on each of them starts, and within its time it
always gives a record. The sink gets the records in order, up to and with the first that it refuses.
-/

namespace SatSearch

def Source.formulas : List (Nat × Nat) → Source → Except Failure (List Formula × Source)
  | [], s => .ok ([], s)
  | (m, n) :: sizes, s => do
    let (f, s) ← s.formula m n
    let (fs, s) ← formulas sizes s
    return (f :: fs, s)

/-- The record tells of the search on a formula of a size with all variables up to its bound as
candidates: the answer, or the limit that stopped it. -/
structure Record.Reports (c : Settings) (timing : Timing) (size : Nat × Nat) (f : Formula)
    (r : Record) : Prop where
  clauses_eq : r.clauses = size.1
  vars_eq : r.vars = size.2
  size_eq : r.size = size.1 + size.2
  elapsed_eq : r.elapsed = timing.total
  search : (∃ a, solve c timing.due f (List.range' 1 size.2) = .ok a ∧ r.steps = a.steps ∧
      r.outcome = if a.satisfiable then .satisfiable else .unsatisfiable) ∨
    ∃ k, c.stepLimit = some k ∧
      solve c timing.due f (List.range' 1 size.2) = .error (.error (.stepLimit k)) ∧
      r.steps = k ∧ r.outcome = .unknown

/-- The records tell, in order, of the searches on formulas of some sizes, with the readings of the
clock from a number on. -/
inductive Reported (c : Settings) (timings : Nat → Timing) :
    Nat → List (Nat × Nat) → List Formula → List Record → Prop where
  | nil {base : Nat} : Reported c timings base [] [] []
  | cons {base : Nat} {size : Nat × Nat} {sizes : List (Nat × Nat)} {f : Formula}
      {fs : List Formula} {record : Record} {records : List Record}
      (first : record.Reports c (timings base) size f)
      (rest : Reported c timings (base + 1) sizes fs records) :
      Reported c timings base (size :: sizes) (f :: fs) (record :: records)

variable {c : Settings}

theorem Reported.length_eq {timings : Nat → Timing} {base : Nat} {sizes : List (Nat × Nat)}
    {fs : List Formula} {records : List Record} (h : Reported c timings base sizes fs records) :
    fs.length = sizes.length ∧ records.length = fs.length := by
  induction h with
  | nil => exact ⟨rfl, rfl⟩
  | cons _ _ ih =>
    simp only [List.length_cons]
    omega

theorem Formula.IsDrawn.exists_record {m n : Nat} {f : Formula} (h : f.IsDrawn m n)
    (hn : n ≤ maxVar) {timing : Timing} (htime : c.InTime timing.due) :
    ∃ r, Record.ofResult f n timing.total (solve c timing.due f (List.range' 1 n)) = .ok r ∧
      r.Reports c timing (m, n) f := by
  obtain ⟨root, hroot⟩ := h.exists_root hn
  rcases solve_or_stepLimit htime hroot with ⟨a, ha⟩ | ⟨k, hk, hstop⟩
  · refine ⟨⟨m, n, m + n, a.steps, if a.satisfiable then .satisfiable else .unsatisfiable,
      timing.total⟩, ?_, rfl, rfl, rfl, rfl, .inl ⟨a, ha, rfl, rfl⟩⟩
    rw [ha, Record.ofResult, h.length_eq]
    rfl
  · refine ⟨⟨m, n, m + n, k, .unknown, timing.total⟩, ?_, rfl, rfl, rfl, rfl,
      .inr ⟨k, hk, hstop, rfl, rfl⟩⟩
    rw [hstop, Record.ofResult, h.length_eq]
    rfl

namespace Sweep

variable {s : Sweep} {timings : Nat → Timing}

/-- A listener that keeps all records gets that of the search on the formula that is drawn. -/
theorem measureSize_of_record (w : Work (List Record)) {size : Nat × Nat} {f : Formula}
    {rest : Source} {record : Record} (hf : w.source.formula size.1 size.2 = .ok (f, rest))
    (hrecord : Record.ofResult f size.2 (timings w.recorded).total
      (solve s.settings (timings w.recorded).due f (List.range' 1 size.2)) = .ok record) :
    s.measureSize timings (recordsOnly fun record kept => (record :: kept, none)) w size =
      .ok ⟨rest, w.recorded + 1, record :: w.heard⟩ := by
  simp only [solve] at hrecord
  simp only [measureSize, measure, hf, Except.mapError, hrecord, tell, recordsOnly, bind,
    Except.bind, pure, Except.pure]

/-- A sweep draws the formulas of some sizes whatever its settings, and gets a record of each. -/
theorem exists_formulas {sizes : List (Nat × Nat)}
    (h : ∀ size ∈ sizes, 3 ≤ size.2 ∧ size.2 ≤ maxVar) (source : Source) :
    ∃ fs rest, source.formulas sizes = .ok (fs, rest) ∧
      ∀ (s : Sweep) (timings : Nat → Timing) (base : Nat),
        (∀ k, s.settings.InTime (timings k).due) →
        ∃ records, Reported s.settings timings base sizes fs records ∧
          ∀ kept, sizes.foldlM
            (s.measureSize timings (recordsOnly fun record kept => (record :: kept, none)))
              ⟨source, base, kept⟩ =
            .ok ⟨rest, base + records.length, records.reverse ++ kept⟩ := by
  induction sizes generalizing source with
  | nil => exact ⟨[], source, rfl, fun s timings base _ => ⟨[], .nil, fun _ => rfl⟩⟩
  | cons size sizes ih =>
    obtain ⟨⟨hwide, hvar⟩, hsizes⟩ := List.forall_mem_cons.1 h
    obtain ⟨f, next, hf, hdrawn⟩ := source.exists_formula hwide hvar size.1
    obtain ⟨fs, rest, hfs, hrecords⟩ := ih hsizes next
    -- All formulas are drawn here, before there are settings that the records could depend on.
    refine ⟨f :: fs, rest, ?_, fun s timings base htime => ?_⟩
    · simp only [Source.formulas, hf, hfs, bind, Except.bind, pure, Except.pure]
    · obtain ⟨record, hrecord, hreports⟩ := hdrawn.exists_record hvar (htime base)
      obtain ⟨records, hreported, hfold⟩ := hrecords s timings (base + 1) htime
      refine ⟨record :: records, .cons hreports hreported, fun kept => ?_⟩
      rw [List.foldlM_cons, measureSize_of_record ⟨source, base, kept⟩ hf hrecord]
      refine (hfold (record :: kept)).trans ?_
      rw [List.length_cons, List.reverse_cons, List.append_assoc, List.singleton_append,
        Nat.add_assoc, Nat.add_comm 1]

/-- Sweeps with the same ranges and the same seed draw the same formulas, and collect a record of
each, whatever their settings. -/
theorem exists_collect (clauses vars : StepRange) (repeats : Nat) (seed : UInt64)
    (hvars : ∀ n ∈ vars.toList, n ≤ maxVar) :
    ∃ instances rest,
      Source.formulas (plan clauses vars repeats) ⟨seed⟩ = .ok (instances, rest) ∧
      ∀ (c : Settings) (timings : Nat → Timing), (∀ k, c.InTime (timings k).due) →
        ∃ records, (Sweep.mk clauses vars repeats seed c).collect timings = .ok records ∧
          Reported c timings 0 (plan clauses vars repeats) instances records := by
  have hsizes : ∀ size ∈ plan clauses vars repeats, 3 ≤ size.2 ∧ size.2 ≤ maxVar := by
    intro size hsize
    obtain ⟨hwide, hmem⟩ := mem_plan hsize
    exact ⟨hwide, hvars _ hmem⟩
  have hdrawable : ∀ n ∈ vars.toList, n ≤ Source.maxTop :=
    fun n hn => Nat.le_trans (hvars n hn) (by decide)
  obtain ⟨instances, rest, hdraw, hrecords⟩ := exists_formulas hsizes ⟨seed⟩
  refine ⟨instances, rest, hdraw, fun c timings htime => ?_⟩
  let s : Sweep := ⟨clauses, vars, repeats, seed, c⟩
  obtain ⟨records, hreported, hfold⟩ := hrecords s timings 0 htime
  refine ⟨records, ?_, hreported⟩
  rw [collect, run_eq_listenTo, listenTo, visitLast_eq_plan s timings _ hdrawable, hfold []]
  simp

/-- A sweep draws the formulas of its plan from its seed alone and records the search on each. The
sink gets these records in order, all of them or those up to the first that it refuses. -/
theorem run_reports_plan (clauses vars : StepRange) (repeats : Nat) (seed : UInt64)
    (hvars : ∀ n ∈ vars.toList, n ≤ maxVar) :
    ∃ instances rest,
      Source.formulas (plan clauses vars repeats) ⟨seed⟩ = .ok (instances, rest) ∧
      ∀ (c : Settings) (timings : Nat → Timing), (∀ k, c.InTime (timings k).due) →
        let s : Sweep := ⟨clauses, vars, repeats, seed, c⟩
        ∃ records, Reported c timings 0 (plan clauses vars repeats) instances records ∧
          records.length = instances.length ∧ s.collect timings = .ok records ∧
          ∀ (σ : Type) (sink : Record → σ → σ × Option Failure) (start : σ),
            ((∀ k, refusal? sink records start k = none) →
              s.run timings sink start =
                (received sink records start records.length, .ok records.length)) ∧
            ∀ k reason, (∀ j < k, refusal? sink records start j = none) →
              refusal? sink records start k = some reason →
              s.run timings sink start =
                (received sink records start (k + 1), .error reason) := by
  obtain ⟨instances, rest, hdraw, hcollect⟩ := exists_collect clauses vars repeats seed hvars
  refine ⟨instances, rest, hdraw, fun c timings htime => ?_⟩
  intro s
  obtain ⟨records, hrecords, hreported⟩ := hcollect c timings htime
  obtain ⟨htold, houtcome⟩ := s.records_of_collect timings hrecords
  refine ⟨records, hreported, hreported.length_eq.2, hrecords, fun σ sink start => ⟨?_, ?_⟩⟩
  · intro haccepted
    rw [run_eq_feed, htold, houtcome, feed_of_accepted haccepted]
  · intro k reason hbefore hrefused
    rw [run_eq_feed, htold, feed_of_refused hbefore hrefused]

/-- Two points have three variables and are measured twice each; the others are passed over. A sink
that refuses its third record gets three of the four. -/
theorem run_reports_plan_until_full :
    let vars : StepRange := ⟨2, 3, 1, by decide, by decide⟩
    let s : Sweep := ⟨⟨1, 5, 4, by decide, by decide⟩, vars, 2, 11,
      { stepLimit := some 1, deadline := some 1 }⟩
    let sink (record : Record) (kept : List Record) : List Record × Option Failure :=
      (kept ++ [record], if kept.length = 2 then some (.error (.stream .full)) else none)
    (∀ n ∈ vars.toList, n ≤ maxVar) ∧ plan s.clauses vars 2 = [(1, 3), (1, 3), (5, 3), (5, 3)] ∧
      ∃ records, records.length = 4 ∧ s.collect (fun _ => .still) = .ok records ∧
        s.run (fun _ => .still) sink [] = (records.take 3, .error (.error (.stream .full))) := by
  intro vars s sink
  have hvars : ∀ n ∈ vars.toList, n ≤ maxVar := by decide
  have hplan : plan s.clauses vars 2 = [(1, 3), (1, 3), (5, 3), (5, 3)] := by decide
  obtain ⟨instances, rest, -, hrecords⟩ := run_reports_plan s.clauses vars 2 s.seed hvars
  have htime : s.settings.InTime Timing.still.due := by
    intro d hd k
    rw [← Option.some.inj hd]
    exact Nat.one_pos
  obtain ⟨records, hreported, -, hcollect, hsink⟩ := hrecords s.settings _ fun _ => htime
  have hlength : records.length = 4 := by
    rw [hreported.length_eq.2, hreported.length_eq.1, hplan]
    rfl
  refine ⟨hvars, hplan, records, hlength, hcollect, ?_⟩
  match records, hlength with
  | [first, second, third, last], _ =>
    have hbefore : ∀ j < 2, refusal? sink [first, second, third, last] [] j = none := by
      intro j hj
      obtain rfl | rfl : j = 0 ∨ j = 1 := by omega
      · rfl
      · rfl
    exact (hsink _ sink []).2 2 _ hbefore rfl

end Sweep

end SatSearch
