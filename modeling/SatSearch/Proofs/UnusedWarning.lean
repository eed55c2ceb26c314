import SatSearch.CommandLine.Log
import SatSearch.Proofs.FiniteCandidates
import SatSearch.Proofs.RefusedCandidates
import Mathlib.Data.Finset.Max

/-!
# The warning about unused candidates

A search that starts warns of candidates that occur in no clause, exactly if there are any and the
formula has clauses. It names the smallest of them and tells their number, however the candidates
were listed.
-/

namespace SatSearch

namespace Formula

variable {f : Formula} {vars : List Nat} {s : CandidateSet}

def unusedAmong (f : Formula) (vars : List Nat) : Finset Nat :=
  vars.toFinset.filter fun v => ∀ l ∈ f.literals, l.var ≠ v

theorem mem_unusedAmong {v : Nat} :
    v ∈ f.unusedAmong vars ↔ v ∈ vars ∧ ∀ l ∈ f.literals, l.var ≠ v := by
  rw [unusedAmong, Finset.mem_filter, List.mem_toFinset]

/-- The candidates that the search finds to occur in no clause. -/
theorem toFinset_filter_members (h : s.BehavesAs vars.toFinset) :
    (s.members.filter (!f.vars.contains ·)).toFinset = f.unusedAmong vars := by
  ext v
  rw [List.mem_toFinset, List.mem_filter, h.mem_members_iff, List.mem_toFinset, mem_unusedAmong]
  refine and_congr_right fun _ => ?_
  simp [mem_vars]

theorem isLeast_of_pairwise_cons {v : Nat} {rest : List Nat} (h : (v :: rest).Pairwise (· < ·)) :
    IsLeast ↑(v :: rest).toFinset v := by
  refine ⟨by simp, fun w hw => ?_⟩
  rcases List.mem_cons.1 (List.mem_toFinset.1 hw) with rfl | hrest
  · exact Nat.le_refl _
  · exact Nat.le_of_lt (List.rel_of_pairwise_cons h hrest)

/-- The first of the unused candidates is the least of them, since they are listed in ascending order,
and with those that are counted behind it they are all. -/
theorem unusedCandidates?_eq_some_iff (h : s.BehavesAs vars.toFinset) {u : Unused} :
    f.unusedCandidates? s = some u ↔ f.clauses ≠ [] ∧
      IsLeast ↑(f.unusedAmong vars) u.first ∧ u.count = (f.unusedAmong vars).card := by
  have hascending : (s.members.filter (!f.vars.contains ·)).Pairwise (· < ·) := h.ascending.filter _
  have hcard := List.toFinset_card_of_nodup (hascending.imp Nat.ne_of_lt)
  rw [← toFinset_filter_members h, hcard, unusedCandidates?, Ne, ← List.isEmpty_iff]
  split
  · rename_i hnone
    exact iff_of_false (Option.some_ne_none u).symm fun hu => hu.1 hnone
  · rename_i hsome
    dsimp only
    cases hlist : s.members.filter (!f.vars.contains ·) with
    | nil => exact iff_of_false (Option.some_ne_none u).symm fun hu => by simpa using hu.2.1.1
    | cons v rest =>
      have hleast := isLeast_of_pairwise_cons (hlist ▸ hascending)
      rw [Option.some.injEq]
      constructor
      · rintro rfl
        exact ⟨hsome, hleast, rfl⟩
      · rintro ⟨-, hfirst, hcount⟩
        cases u
        exact congr (congrArg Unused.mk (hleast.unique hfirst)) hcount.symm

theorem isSome_unusedCandidates?_iff (h : s.BehavesAs vars.toFinset) :
    (f.unusedCandidates? s).isSome ↔
      f.clauses ≠ [] ∧ ∃ v ∈ vars, ∀ l ∈ f.literals, l.var ≠ v := by
  have hexists : (∃ v ∈ vars, ∀ l ∈ f.literals, l.var ≠ v) ↔ (f.unusedAmong vars).Nonempty := by
    simp only [Finset.Nonempty, mem_unusedAmong]
  rw [hexists, Option.isSome_iff_exists]
  constructor
  · rintro ⟨u, hu⟩
    obtain ⟨hclauses, hleast, -⟩ := (unusedCandidates?_eq_some_iff h).1 hu
    exact ⟨hclauses, _, hleast.1⟩
  · rintro ⟨hclauses, hunused⟩
    exact ⟨⟨_, _⟩, (unusedCandidates?_eq_some_iff h).2
      ⟨hclauses, Finset.isLeast_min' _ hunused, rfl⟩⟩

end Formula

namespace LogLine

def ofUnused (u : Unused) : LogLine where
  level := .warn
  target := searchTarget
  message := "candidate variables occur in no clause, " ++
    "the faithful reduction may accept an unsatisfiable formula"
  fields := [("first", Decimal.text u.first), ("count", Decimal.text u.count)]

def warnings (lines : List LogLine) : List LogLine := lines.filter (·.level = .warn)

theorem warnings_append (xs ys : List LogLine) :
    warnings (xs ++ ys) = warnings xs ++ warnings ys := List.filter_append ..

theorem warnings_ofOpening (c : Settings) (opening : Opening) :
    warnings (ofOpening c opening) = (opening.unused.map ofUnused).toList := by
  cases hunused : opening.unused with
  | none => simp [warnings, ofOpening, hunused]
  | some u => simp [warnings, ofOpening, hunused, ofUnused]

/-- What happens in a search is only traced. -/
theorem warnings_ofEvents (steps : Nat) (events : List Event) :
    warnings (ofEvents steps events) = [] := by
  fun_induction ofEvents steps events with
  | case1 => rfl
  | case2 steps l depth rest ih => exact ih
  | case3 steps side l depth rest ih => exact ih
  | case4 steps l depth rest ih => exact ih

/-- A search that has started warns of nothing but its unused candidates. -/
theorem warnings_ofSearch (c : Settings) {o : Observation} {opening : Opening}
    (h : o.opening = some opening) :
    warnings (ofSearch c o) = (opening.unused.map ofUnused).toList := by
  rw [ofSearch, h, warnings_append, warnings_append, warnings_ofOpening, warnings_ofEvents,
    List.append_nil]
  cases o.result with
  | ok a => exact List.append_nil _
  | error failure => exact List.append_nil _

end LogLine

/-- A search whose candidates are variables, and cover the formula unless there are none, starts. It
warns of unused candidates exactly if the formula has clauses and one of the candidates occurs in
none of them; the smallest of these and their number are what it warns of. -/
theorem search_warns_of_unused (c : Settings) (clock : Nat → Nat) {f : Formula} {vars : List Nat}
    (hn : f.numVars < maxCount) (hvars : ∀ v ∈ vars, 0 < v ∧ v ≤ maxVar)
    (hcovered : vars ≠ [] → ∀ l ∈ f.literals, l.var ∈ vars) :
    let seen := observe c clock f vars
    ∃ opening, seen.opening = some opening ∧
      (opening.unused.isSome ↔ f.clauses ≠ [] ∧ ∃ v ∈ vars, ∀ l ∈ f.literals, l.var ≠ v) ∧
      (∀ u, opening.unused = some u → IsLeast {v | v ∈ vars ∧ ∀ l ∈ f.literals, l.var ≠ v} u.first ∧
        u.count = (f.unusedAmong vars).card) ∧
      LogLine.warnings (LogLine.ofSearch c seen) =
        (opening.unused.map LogLine.ofUnused).toList := by
  intro seen
  have hvalid : vars = [] ∨ f.CoveredBy vars :=
    or_iff_not_imp_left.2 fun hne => ⟨hvars, hcovered hne⟩
  obtain ⟨root, hroot⟩ := (Formula.exists_root_iff hn).2 hvalid
  obtain ⟨hs, -, -⟩ := Formula.root_eq_ok_iff.1 hroot
  have hbehaves : root.candidates.BehavesAs vars.toFinset := by
    refine (CandidateSet.wellFormed_of_ofListBounded hs).behavesAs fun v => ?_
    rw [CandidateSet.contains_of_ofListBounded hs, List.mem_toFinset]
  have hopening : seen.opening = some ⟨f.clauses.length, root.candidates.size,
      f.unusedCandidates? root.candidates⟩ := by
    simp only [seen, observe, hroot]
  refine ⟨_, hopening, Formula.isSome_unusedCandidates?_iff hbehaves, fun u hu => ?_,
    LogLine.warnings_ofSearch c hopening⟩
  obtain ⟨-, hleast, hcount⟩ := (Formula.unusedCandidates?_eq_some_iff hbehaves).1 hu
  have hset : {v | v ∈ vars ∧ ∀ l ∈ f.literals, l.var ≠ v} = ↑(f.unusedAmong vars) := by
    ext v
    exact Formula.mem_unusedAmong.symm
  exact ⟨hset ▸ hleast, hcount⟩

/-- The unused variable 4 is in the row of bits, and 7, which is listed twice, is beyond it. -/
theorem search_warns_of_unused_on_both_sides :
    let f : Formula := ⟨[[.of 3, .of (-1)]], 5⟩
    let vars := [7, 4, 3, 1, 7]
    f.numVars < maxCount ∧ (∀ v ∈ vars, 0 < v ∧ v ≤ maxVar) ∧ (∀ l ∈ f.literals, l.var ∈ vars) ∧
      LogLine.warnings (LogLine.ofSearch {} (observe {} (fun _ => 0) f vars)) =
        [LogLine.ofUnused ⟨4, 2⟩] := by
  intro f vars
  have hn : f.numVars < maxCount := by decide
  have hvars : ∀ v ∈ vars, 0 < v ∧ v ≤ maxVar := by decide
  have hcovered : ∀ l ∈ f.literals, l.var ∈ vars := by decide
  obtain ⟨opening, -, hiff, hunused, hwarnings⟩ :=
    search_warns_of_unused {} (fun _ => 0) hn hvars fun _ => hcovered
  obtain ⟨u, hu⟩ := Option.isSome_iff_exists.1 (hiff.2 ⟨by decide, 4, by decide, by decide⟩)
  obtain ⟨hleast, hcount⟩ := hunused u hu
  have hfour : IsLeast {v | v ∈ vars ∧ ∀ l ∈ f.literals, l.var ≠ v} 4 := by
    refine ⟨⟨by decide, by decide⟩, fun v hv => ?_⟩
    have hsmall : ∀ v ∈ vars, (∀ l ∈ f.literals, l.var ≠ v) → 4 ≤ v := by decide
    exact hsmall v hv.1 hv.2
  have hsame : u = ⟨4, 2⟩ := by
    cases u
    exact congr (congrArg Unused.mk (hleast.unique hfour)) (hcount.trans (by decide))
  rw [hu, hsame] at hwarnings
  exact ⟨hn, hvars, hcovered, hwarnings⟩

end SatSearch
