import SatSearch.Proofs.BoundedDraws
import SatSearch.Proofs.RefusedCandidates

/-!
# How drawing a formula ends

For a bound that is a variable, drawing a formula ends with one, and all variables up to the bound are
accepted as its candidates. Bounds below three and those of more than 32 bits are an error. For the
bounds between, drawing fails exactly if a variable comes up that is too large for a literal.
-/

namespace SatSearch

namespace Formula

variable {f : Formula} {m n : Nat}

theorem IsDrawn.numVars_le (h : f.IsDrawn m n) : f.numVars ≤ n := by
  rw [h.numVars_eq]
  exact largestVar_le h.var_le

theorem IsDrawn.mem_range_of_mem_vars (h : f.IsDrawn m n) {v : Nat} (hv : v ∈ f.vars) :
    0 < v ∧ v ≤ n := by
  obtain ⟨l, hl, rfl⟩ := mem_vars.1 hv
  exact ⟨l.var_pos, h.var_le l hl⟩

theorem IsDrawn.not_refused (h : f.IsDrawn m n) (hn : n ≤ maxVar) (c : Settings)
    (clock : Nat → Nat) : ¬(observe c clock f (List.range' 1 n)).Refused := by
  obtain ⟨root, hroot⟩ := h.exists_root hn
  exact not_refused_of_root c clock hroot

end Formula

/-- A random formula over the variables up to a bound has the number of clauses that was asked for,
each with three literals over distinct variables of the range, and is not refused a search with the
range as its candidates. Its variables are drawn from the range, again and again until one is new. -/
theorem formula_of_range {n : Nat} (h : 3 ≤ n) (hn : n ≤ maxVar) (m : Nat) (s : Source) :
    (∀ t : Source, ∃ v rest, t.upTo n = .ok (v, rest) ∧ 0 < v ∧ v ≤ n ∧
      ∀ taken, t.fresh n taken = if v ∈ taken then rest.fresh n taken else .ok (v, rest)) ∧
    ∃ f rest, s.formula m n = .ok (f, rest) ∧ f.clauses.length = m ∧
      (∀ c ∈ f.clauses, c.length = 3 ∧ (c.map Literal.var).Nodup ∧
        ∀ l ∈ c, 0 < l.var ∧ l.var ≤ n) ∧
      f.numVars ≤ n ∧ (∀ v ∈ f.vars, 0 < v ∧ v ≤ n) ∧
      ∀ (c : Settings) (clock : Nat → Nat),
        ¬(observe c clock f (List.range' 1 n)).Refused := by
  refine ⟨fun t => ?_, ?_⟩
  · obtain ⟨v, rest, hv, hpos, hle⟩ :=
      Source.exists_upTo (Nat.zero_lt_of_lt h) (Nat.le_trans hn (by decide)) t
    exact ⟨v, rest, hv, hpos, hle, Source.fresh_eq_of_upTo hv⟩
  · obtain ⟨f, rest, hf, hdrawn⟩ := s.exists_formula h hn m
    refine ⟨f, rest, hf, hdrawn.length_eq, fun c hc => ?_, hdrawn.numVars_le,
      fun v hv => hdrawn.mem_range_of_mem_vars hv, hdrawn.not_refused hn⟩
    have hcdrawn := hdrawn.clauses c hc
    exact ⟨hcdrawn.length_eq, hcdrawn.nodup, fun l hl => ⟨l.var_pos, hcdrawn.var_le l hl⟩⟩

/-- The largest bound that is a variable. -/
theorem formula_of_range_maxVar :
    let f : Formula := .ofClauses [[.of 1533599576, .of (-1432026910), .of 2039292739]]
    3 ≤ maxVar ∧ maxVar ≤ maxVar ∧ (∃ rest, Source.formula 1 maxVar ⟨1⟩ = .ok (f, rest)) ∧
      f.numVars ≤ maxVar ∧
      ¬(observe {} (fun _ => 0) f (List.range' 1 maxVar)).Refused := by
  intro f
  have h : 3 ≤ maxVar := by decide
  have hn : maxVar ≤ maxVar := Nat.le_refl maxVar
  have heval : (Source.formula 1 maxVar ⟨1⟩).map Prod.fst = .ok f := by decide +kernel
  obtain ⟨-, g, rest, hg, -, -, hle, -, haccepted⟩ := formula_of_range h hn 1 ⟨1⟩
  rw [hg] at heval
  have hsame : g = f := Except.ok.inj heval
  rw [hsame] at hg hle haccepted
  exact ⟨h, hn, ⟨rest, hg⟩, hle, haccepted {} fun _ => 0⟩

/-- Drawing a formula ends in one of three ways. Bounds out of range are an error. Otherwise distinct
variables up to the bound come up for each clause. If none of them is too large for a literal, they
get their signs and are the clauses of the formula, and if one is, there is a fault. -/
theorem formula_outcome (s : Source) (m n : Nat) :
    (n < 3 ∨ Source.maxTop < n → s.formula m n = .error (.error (.tooFewVariables n))) ∧
    (3 ≤ n → n ≤ Source.maxTop → ∃ vss rest, s.drawVars n m = .ok (vss, rest) ∧ vss.length = m ∧
      (∀ vs ∈ vss, vs.length = 3 ∧ vs.Nodup ∧ ∀ v ∈ vs, 0 < v ∧ v ≤ n) ∧
      ((∀ vs ∈ vss, ∀ v ∈ vs, v ≤ maxVar) → ∃ f, s.formula m n = .ok (f, rest) ∧
        f.clauses.map (List.map Literal.var) = vss) ∧
      ((∃ vs ∈ vss, ∃ v ∈ vs, maxVar < v) →
        s.formula m n = .error (.fault .variableOverflow))) := by
  refine ⟨fun hout => if_pos hout, fun h hn => ?_⟩
  obtain ⟨vss, rest, hdraws⟩ := Source.exists_drawsVars h hn m s
  refine ⟨vss, rest, hdraws.drawVars_eq, hdraws.length_eq, fun vs hvs => ?_, fun hle => ?_,
    fun hlarge => Source.formula_of_clauses_fault h hn (hdraws.clauses_of_lt hlarge)⟩
  · have hdistinct := hdraws.distinct vs hvs
    exact ⟨hdistinct.length_eq, hdistinct.nodup, hdistinct.mem_range⟩
  · obtain ⟨cs, hcs, hvars⟩ := hdraws.clauses_of_le hle
    exact ⟨_, Source.formula_of_clauses h hn hcs, hvars⟩

/-- The first variable that comes up is too large for a literal. -/
theorem formula_outcome_overflow :
    3 ≤ 4294967295 ∧ 4294967295 ≤ Source.maxTop ∧
      (∃ vss rest, Source.drawVars 4294967295 1 ⟨1⟩ = .ok (vss, rest) ∧
        vss = [[3067199153, 2864053821, 4078585478]]) ∧
      Source.formula 1 4294967295 ⟨1⟩ = .error (.fault .variableOverflow) ∧
      Source.formula 1 4294967296 ⟨1⟩ = .error (.error (.tooFewVariables 4294967296)) := by
  have h : 3 ≤ 4294967295 := by decide
  have hn : 4294967295 ≤ Source.maxTop := by decide
  have heval : (Source.drawVars 4294967295 1 ⟨1⟩).map Prod.fst =
      .ok [[3067199153, 2864053821, 4078585478]] := by decide +kernel
  obtain ⟨vss, rest, hvss, -, -, -, hlarge⟩ := (formula_outcome ⟨1⟩ 1 4294967295).2 h hn
  rw [hvss] at heval
  have hvars : vss = [[3067199153, 2864053821, 4078585478]] := Except.ok.inj heval
  refine ⟨h, hn, ⟨vss, rest, hvss, hvars⟩, hlarge ?_,
    (formula_outcome ⟨1⟩ 1 4294967296).1 (by decide)⟩
  rw [hvars]
  decide

/-- The error is not the only way in which drawing a formula fails. -/
theorem not_formula_fails_only_by_error :
    ¬∀ (s : Source) (m n : Nat), m ≤ maxCount → n ≤ maxCount →
      (∃ f rest, s.formula m n = .ok (f, rest)) ∨
        s.formula m n = .error (.error (.tooFewVariables n)) := by
  intro h
  have hfault : Source.formula 1 4294967295 ⟨1⟩ = .error (.fault .variableOverflow) := by
    decide +kernel
  rcases h ⟨1⟩ 1 4294967295 (by decide) (by decide) with ⟨f, rest, hf⟩ | herror
  · cases hfault.symm.trans hf
  · cases hfault.symm.trans herror

end SatSearch
