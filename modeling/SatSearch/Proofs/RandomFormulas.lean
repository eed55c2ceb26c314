import SatSearch.Proofs.AcceptedInput
import SatSearch.Proofs.SourcePeriod

/-!
# What random formulas look like

A random clause has three literals over distinct variables up to the bound, and a random formula
has as many of them as were asked for. Drawing the variables always succeeds for a bound of at least
three, and they get their signs unless one of them is too large for a literal. So drawing a formula
succeeds if the bound is a variable itself, and a search for it starts from all variables up to the
bound.
-/

namespace SatSearch

namespace Literal

theorem ofVar_eq {v : Nat} (positive : Bool) (h : 0 < v ∧ v ≤ maxVar) :
    ofVar v positive = .ok (ofSign v positive h) := by
  have hvalue := ofInt?_value (ofSign v positive h)
  rw [ofVar, if_neg (Nat.not_lt_of_le h.2)]
  simp only [ofSign] at hvalue
  rw [hvalue]
  rfl

theorem ofVar_of_lt {v : Nat} (positive : Bool) (h : maxVar < v) :
    ofVar v positive = .error .variableOverflow := if_pos h

end Literal

/-- The clause has three literals, over distinct variables up to a bound. -/
structure Clause.IsDrawn (top : Nat) (c : Clause) : Prop where
  length_eq : c.length = 3
  nodup : (c.map Literal.var).Nodup
  var_le : ∀ l ∈ c, l.var ≤ top

namespace Source

variable {top : Nat}

theorem exists_distinct (h : 3 ≤ top) (htop : top ≤ maxTop) (taken : List Nat) (count : Nat)
    (hcount : taken.length + count ≤ 3) (s : Source) :
    ∃ vs rest, s.distinct top taken count = .ok (vs, rest) ∧ vs.length = count ∧ vs.Nodup ∧
      ∀ v ∈ vs, v ∉ taken ∧ 0 < v ∧ v ≤ top := by
  induction count generalizing taken s with
  | zero => exact ⟨[], s, rfl, rfl, .nil, by simp⟩
  | succ count ih =>
    have hroom : taken.length < 3 := by omega
    obtain ⟨v, s₁, hv, hfree, hpos, hle⟩ := exists_fresh h htop hroom s
    have hnext : (taken ++ [v]).length + count ≤ 3 := by
      rw [List.length_append, List.length_singleton]
      omega
    obtain ⟨vs, s₂, hvs, hlen, hnodup, hmem⟩ := ih (taken ++ [v]) hnext s₁
    refine ⟨v :: vs, s₂, ?_, by rw [List.length_cons, hlen], ?_, ?_⟩
    · simp only [distinct, hv, hvs, bind, Except.bind, pure, Except.pure]
    · refine List.nodup_cons.2 ⟨fun hmemv => ?_, hnodup⟩
      exact (hmem v hmemv).1 (List.mem_append_right _ List.mem_cons_self)
    · refine List.forall_mem_cons.2 ⟨⟨hfree, hpos, hle⟩, fun w hw => ?_⟩
      obtain ⟨hw₁, hw₂⟩ := hmem w hw
      exact ⟨fun hwt => hw₁ (List.mem_append_left _ hwt), hw₂⟩

/-- Variables that are not too large get their signs, by one number each. -/
theorem exists_signed {vs : List Nat} (h : ∀ v ∈ vs, 0 < v ∧ v ≤ maxVar) (s : Source) :
    ∃ ls, signed vs s = .ok (ls, s.after vs.length) ∧ ls.map Literal.var = vs := by
  induction vs generalizing s with
  | nil => exact ⟨[], by simp [signed, after], rfl⟩
  | cons v vs ih =>
    obtain ⟨hv, hvs⟩ := List.forall_mem_cons.1 h
    obtain ⟨ls, hls, hvars⟩ := ih hvs s.bool.2
    refine ⟨.ofSign v s.bool.1 hv :: ls, ?_, ?_⟩
    · simp only [signed, Literal.ofVar_eq s.bool.1 hv, hls, bind, Except.bind, pure, Except.pure]
      rw [List.length_cons, ← after_advance]
      rfl
    · rw [List.map_cons, Literal.var_ofSign, hvars]

/-- One variable that is too large is enough for all to fail. -/
theorem signed_of_lt {vs : List Nat} (h : ∀ v ∈ vs, 0 < v) (hlarge : ∃ v ∈ vs, maxVar < v)
    (s : Source) : signed vs s = .error .variableOverflow := by
  induction vs generalizing s with
  | nil => simp at hlarge
  | cons v vs ih =>
    obtain ⟨hpos, hvs⟩ := List.forall_mem_cons.1 h
    rcases Nat.lt_or_ge maxVar v with hv | hv
    · simp only [signed, Literal.ofVar_of_lt _ hv, bind, Except.bind]
    · have hlater : ∃ w ∈ vs, maxVar < w := by
        obtain ⟨w, hw, hlt⟩ := hlarge
        rcases List.mem_cons.1 hw with rfl | hw
        · exact absurd hv (Nat.not_le_of_lt hlt)
        · exact ⟨w, hw, hlt⟩
      simp only [signed, Literal.ofVar_eq s.bool.1 ⟨hpos, hv⟩, ih hvs hlater, bind, Except.bind]

structure DistinctUpTo (top : Nat) (vs : List Nat) : Prop where
  length_eq : vs.length = 3
  nodup : vs.Nodup
  mem_range : ∀ v ∈ vs, 0 < v ∧ v ≤ top

theorem DistinctUpTo.isDrawn {c : Clause} (h : DistinctUpTo top (c.map Literal.var)) :
    c.IsDrawn top where
  length_eq := by rw [← List.length_map (f := Literal.var), h.length_eq]
  nodup := h.nodup
  var_le l hl := (h.mem_range l.var (List.mem_map_of_mem hl)).2

theorem exists_three_distinct (h : 3 ≤ top) (htop : top ≤ maxTop) (s : Source) :
    ∃ vs rest, s.distinct top [] clauseWidth = .ok (vs, rest) ∧ DistinctUpTo top vs := by
  obtain ⟨vs, rest, hvs, hlen, hnodup, hmem⟩ := exists_distinct h htop [] clauseWidth (by decide) s
  exact ⟨vs, rest, hvs, hlen, hnodup, fun v hv => (hmem v hv).2⟩

theorem exists_clause_of_le {s t : Source} {vs : List Nat}
    (hvs : s.distinct top [] clauseWidth = .ok (vs, t)) (h : DistinctUpTo top vs)
    (hle : ∀ v ∈ vs, v ≤ maxVar) :
    ∃ c, s.clause top = .ok (c, t.after clauseWidth) ∧ c.map Literal.var = vs := by
  obtain ⟨c, hc, hvars⟩ := exists_signed (fun v hv => ⟨(h.mem_range v hv).1, hle v hv⟩) t
  rw [h.length_eq] at hc
  refine ⟨c, ?_, hvars⟩
  simp only [clause, hvs, hc, bind, Except.bind]
  rfl

theorem clause_of_lt {s t : Source} {vs : List Nat}
    (hvs : s.distinct top [] clauseWidth = .ok (vs, t)) (h : DistinctUpTo top vs)
    (hlarge : ∃ v ∈ vs, maxVar < v) : s.clause top = .error .variableOverflow := by
  simp only [clause, hvs, signed_of_lt (fun v hv => (h.mem_range v hv).1) hlarge, bind, Except.bind]

/-- The variables of some clauses, without the signs that they get. After the variables of a clause,
the source gives one number for each of their signs. -/
def drawVars (top : Nat) : (count : Nat) → Source → Except Fault (List (List Nat) × Source)
  | 0, s => .ok ([], s)
  | count + 1, s => do
    let (vs, s) ← s.distinct top [] clauseWidth
    let (vss, s) ← drawVars top count (s.after clauseWidth)
    return (vs :: vss, s)

/-- How drawing clauses ends, by the variables that come up. -/
structure DrawsVars (top count : Nat) (s : Source) (vss : List (List Nat)) (rest : Source) :
    Prop where
  drawVars_eq : s.drawVars top count = .ok (vss, rest)
  length_eq : vss.length = count
  distinct : ∀ vs ∈ vss, DistinctUpTo top vs
  clauses_of_le : (∀ vs ∈ vss, ∀ v ∈ vs, v ≤ maxVar) →
    ∃ cs, s.clauses top count = .ok (cs, rest) ∧ cs.map (List.map Literal.var) = vss
  clauses_of_lt : (∃ vs ∈ vss, ∃ v ∈ vs, maxVar < v) →
    s.clauses top count = .error .variableOverflow

theorem exists_drawsVars (h : 3 ≤ top) (htop : top ≤ maxTop) (count : Nat) (s : Source) :
    ∃ vss rest, DrawsVars top count s vss rest := by
  induction count generalizing s with
  | zero => exact ⟨[], s, rfl, rfl, by simp, fun _ => ⟨[], rfl, rfl⟩, by simp⟩
  | succ count ih =>
    obtain ⟨vs, t, hvs, hdistinct⟩ := exists_three_distinct h htop s
    obtain ⟨vss, rest, hlater⟩ := ih (t.after clauseWidth)
    refine ⟨vs :: vss, rest, ?_, ?_, List.forall_mem_cons.2 ⟨hdistinct, hlater.distinct⟩, ?_, ?_⟩
    · simp only [drawVars, hvs, hlater.drawVars_eq, bind, Except.bind, pure, Except.pure]
    · rw [List.length_cons, hlater.length_eq]
    · intro hle
      obtain ⟨hvsle, hvssle⟩ := List.forall_mem_cons.1 hle
      obtain ⟨c, hc, hvars⟩ := exists_clause_of_le hvs hdistinct hvsle
      obtain ⟨cs, hcs, hall⟩ := hlater.clauses_of_le hvssle
      refine ⟨c :: cs, ?_, by rw [List.map_cons, hvars, hall]⟩
      simp only [clauses, hc, hcs, bind, Except.bind, pure, Except.pure]
    · intro hlarge
      by_cases hvslarge : ∃ v ∈ vs, maxVar < v
      · simp only [clauses, clause_of_lt hvs hdistinct hvslarge, bind, Except.bind]
      · have hvsle : ∀ v ∈ vs, v ≤ maxVar :=
          fun v hv => Nat.le_of_not_lt fun hlt => hvslarge ⟨v, hv, hlt⟩
        obtain ⟨c, hc, -⟩ := exists_clause_of_le hvs hdistinct hvsle
        have hvsslarge : ∃ ws ∈ vss, ∃ v ∈ ws, maxVar < v := by
          obtain ⟨ws, hws, hwslarge⟩ := hlarge
          rcases List.mem_cons.1 hws with rfl | hws
          · exact absurd hwslarge hvslarge
          · exact ⟨ws, hws, hwslarge⟩
        simp only [clauses, hc, hlater.clauses_of_lt hvsslarge, bind, Except.bind]

/-- Clauses over variables that are not too large are drawn. -/
theorem exists_clauses (h : 3 ≤ top) (htop : top ≤ maxVar) (count : Nat) (s : Source) :
    ∃ cs rest, s.clauses top count = .ok (cs, rest) ∧ cs.length = count ∧
      ∀ c ∈ cs, c.IsDrawn top := by
  obtain ⟨vss, rest, hdraws⟩ := exists_drawsVars h (Nat.le_trans htop (by decide)) count s
  obtain ⟨cs, hcs, hvars⟩ := hdraws.clauses_of_le fun vs hvs v hv =>
    Nat.le_trans ((hdraws.distinct vs hvs).mem_range v hv).2 htop
  refine ⟨cs, rest, hcs, ?_, fun c hc => ?_⟩
  · rw [← List.length_map (f := List.map Literal.var), hvars, hdraws.length_eq]
  · exact (hdraws.distinct _ (hvars ▸ List.mem_map_of_mem hc)).isDrawn

end Source

/-- The formula has a number of random clauses over the variables up to a bound. -/
structure Formula.IsDrawn (numClauses top : Nat) (f : Formula) : Prop where
  length_eq : f.clauses.length = numClauses
  clauses : ∀ c ∈ f.clauses, c.IsDrawn top
  numVars_eq : f.numVars = largestVar f.clauses

namespace Source

variable {m n : Nat} {s : Source}

theorem not_outOfRange (h : 3 ≤ n) (hn : n ≤ maxTop) : ¬(n < clauseWidth ∨ maxTop < n) := by
  simp only [clauseWidth]
  omega

theorem formula_of_clauses {rest : Source} {cs : List Clause} (h : 3 ≤ n) (hn : n ≤ maxTop)
    (hcs : s.clauses n m = .ok (cs, rest)) : s.formula m n = .ok (.ofClauses cs, rest) := by
  simp only [formula, if_neg (not_outOfRange h hn), hcs, bind, Except.bind, pure, Except.pure,
    Except.mapError]

theorem formula_of_clauses_fault {fault : Fault} (h : 3 ≤ n) (hn : n ≤ maxTop)
    (hfault : s.clauses n m = .error fault) : s.formula m n = .error (.fault fault) := by
  simp only [formula, if_neg (not_outOfRange h hn), hfault, bind, Except.bind, Except.mapError]

theorem exists_formula (h : 3 ≤ n) (hn : n ≤ maxVar) (m : Nat) (s : Source) :
    ∃ f rest, s.formula m n = .ok (f, rest) ∧ f.IsDrawn m n := by
  obtain ⟨cs, rest, hcs, hlen, hall⟩ := exists_clauses h hn m s
  exact ⟨.ofClauses cs, rest, formula_of_clauses h (Nat.le_trans hn (by decide)) hcs, hlen, hall,
    rfl⟩

end Source

namespace Formula

theorem largestVar_le {clauses : List Clause} {n : Nat}
    (h : ∀ l ∈ literalsOf clauses, l.var ≤ n) : largestVar clauses ≤ n := by
  have hfold (ls : List Literal) (top : Nat) (htop : top ≤ n) (hls : ∀ l ∈ ls, l.var ≤ n) :
      ls.foldl (fun top l => max top l.var) top ≤ n := by
    induction ls generalizing top with
    | nil => exact htop
    | cons l ls ih =>
      obtain ⟨hl, hls⟩ := List.forall_mem_cons.1 hls
      exact ih _ (Nat.max_le.2 ⟨htop, hl⟩) hls
  exact hfold _ 0 (Nat.zero_le n) h

variable {f : Formula} {m n : Nat}

theorem IsDrawn.var_le (h : f.IsDrawn m n) : ∀ l ∈ f.literals, l.var ≤ n := by
  intro l hl
  obtain ⟨c, hc, hlc⟩ := List.mem_flatten.1 hl
  exact (h.clauses c hc).var_le l hlc

theorem IsDrawn.coveredBy (h : f.IsDrawn m n) (hn : n ≤ maxVar) :
    f.CoveredBy (List.range' 1 n) where
  isVariable v hv := by
    rw [List.mem_range'_1] at hv
    omega
  mem l hl := by
    have hle := h.var_le l hl
    have hpos := l.var_pos
    rw [List.mem_range'_1]
    omega

/-- The search for a random formula starts from all variables up to its bound. -/
theorem IsDrawn.exists_root (h : f.IsDrawn m n) (hn : n ≤ maxVar) :
    ∃ root, f.root (List.range' 1 n) = .ok root := by
  apply (h.coveredBy hn).exists_root
  rw [h.numVars_eq]
  exact Nat.lt_of_le_of_lt (largestVar_le h.var_le) (Nat.lt_of_le_of_lt hn (by decide))

end Formula

end SatSearch
