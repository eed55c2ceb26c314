import SatSearch.Proofs.DimacsRoundTrip
import SatSearch.Proofs.OccurringVariables
import SatSearch.Proofs.SolvingCommands
import SatSearch.Proofs.UnusedCandidates
import SatSearch.Proofs.WrittenFiles

/-!
# Exported instances

A random formula that is written to a file is read back as it was drawn, since it has no empty clause
and its number of variables is its largest one. With strike, solving the file gives what solving the
formula gave: the candidates of the file are the variables that occur, and the others among the
candidates of the random formula do not matter.
-/

namespace SatSearch

namespace CommandLine

theorem not_mem_randomComment (m n seed : Nat) : '\n' ∉ (randomComment m n seed).toList := by
  have hnumber (k : Nat) : '\n' ∉ Decimal.digits k := fun hk =>
    Bool.noConfusion (Decimal.isBlank_of_mem_digits hk)
  have hlabel : '\n' ∉ "random 3-SAT, m=".toList ∧ '\n' ∉ " n=".toList ∧
      '\n' ∉ " seed=".toList := by
    decide
  unfold randomComment
  simp only [Decimal.text, String.toList_append, String.toList_ofList, List.mem_append, hlabel,
    hnumber, or_self, not_false_eq_true]

theorem read_exported {f : Formula} {m n : Nat} (h : f.IsDrawn m n) (seed : Nat) :
    Dimacs.read (f.dimacs [randomComment m n seed]).toUTF8.toList = .ok f := by
  have hcomment : ∀ comment ∈ [randomComment m n seed], '\n' ∉ comment.toList := by
    simpa using not_mem_randomComment m n seed
  rw [Dimacs.read_dimacs hcomment, Formula.ofClauses_filter_eq_iff.2 ⟨h.nil_not_mem, h.numVars_eq⟩]

/-- What a search gives in a session, apart from what is measured: the answer and the calls, or the
trouble that ends it. -/
def outcomeIn (session : Session) (o : CommonOptions) (f : Formula) (vars : List Nat) :
    Except Trouble (Solution × CallCounts) :=
  ((search o f vars).run.run session).1.map fun found => (found.1, found.2.1)

def outcomeOf (e : Ending) : Except Error (Solution × CallCounts) :=
  e.solution.map (·, .ofEvents e.events)

theorem outcomeIn_of_root {vars : List Nat} {root : Node} (h : f.root vars = .ok root)
    (o : CommonOptions) (session : Session) :
    let clock := (session.gauges.timing session.searches).due
    outcomeIn session o f vars =
      (outcomeOf (SatSearch.run o.settings clock (.start root))).mapError .ofError := by
  intro clock
  rw [outcomeIn, search_run, outcomeOf]
  simp only [observe, h]
  cases (SatSearch.run o.settings clock (.start root)).solution with
  | error e => rfl
  | ok a => rfl

/-- A drawn formula is exported as a text that is read back as the formula. With strike, the search of
the file and the search of the random formula find the same answer by the same calls, or both are
stopped by the step limit, in every session. -/
theorem exported_instance_reproduces (o : CommonOptions) (hr : o.reduction = .strike)
    (ht : o.timeout = none) {n : Nat} (hwide : 3 ≤ n) (hn : n ≤ maxVar) (m seed : Nat) :
    ∃ f rest, Source.formula m n ⟨seed.toUInt64⟩ = .ok (f, rest) ∧
      let written := (f.dimacs [randomComment m n seed]).toUTF8.toList
      Dimacs.read written = .ok f ∧
      (∀ (session : Session) (path : String) (files : FileTree),
        session.files.write path written = .ok files →
        (solveRandom o m n seed (some path)).run.run session =
            (solveAndReport o none f (List.range' 1 n)).run.run
              ({ session with files }.print ("DIMACS written to: " ++ path ++ "\n")) ∧
          ∀ later : Session, later.files = files → (solveFile o path).run.run later =
            (solveAndReport o (some path) f f.vars).run.run later) ∧
      ∃ outcome : Except Error (Solution × CallCounts),
        (∀ session : Session, outcomeIn session o f f.vars = outcome.mapError .ofError ∧
          outcomeIn session o f (List.range' 1 n) = outcome.mapError .ofError) ∧
        ∀ e, outcome = .error e → ∃ k, o.stepLimit = some k ∧ e = .stepLimit k := by
  obtain ⟨f, rest, hf, hdrawn⟩ := Source.exists_formula hwide hn m ⟨seed.toUInt64⟩
  have hread := read_exported hdrawn seed
  have hd : o.settings.deadline = none := by simp [CommonOptions.settings, ht]
  have hcovered := hdrawn.coveredBy_vars hn
  have hcovered' := hdrawn.coveredBy hn
  obtain ⟨root, hroot⟩ := hcovered.exists_root (hdrawn.numVars_lt hn)
  obtain ⟨root', hroot'⟩ := hcovered'.exists_root (hdrawn.numVars_lt hn)
  refine ⟨f, rest, hf, hread, fun session path files hwrite => ⟨solveRandom_of_write o hf hwrite,
    fun later hlater => ?_⟩, outcomeOf (SatSearch.run o.settings (fun _ => 0) (.start root)),
    fun session => ⟨?_, ?_⟩, fun e he => ?_⟩
  · have hfile : later.files.read path = .ok (f.dimacs [randomComment m n seed]).toUTF8.toList :=
      hlater ▸ FileTree.read_of_write hwrite
    exact solveFile_of_read o hfile hread
  · rw [outcomeIn_of_root hroot, run_congr_clock hd _ (fun _ => 0)]
  · have hrun := (Node.matching_of_strike (c := o.settings) hr).run_start_eq
      (hcovered.alike hcovered' hroot hroot') hd (fun _ => 0)
    rw [outcomeIn_of_root hroot', ← hrun]
  · rw [outcomeOf] at he
    rcases solution_or_stepLimit hd (fun _ => 0) root with ⟨a, ha⟩ | ⟨k, hk, hstop⟩
    · rw [ha] at he
      cases he
    · rw [hstop] at he
      cases he
      exact ⟨k, hk, rfl⟩

/-- The variable 4 is a candidate of the random formula, but does not occur in it. -/
theorem exported_instance_reproduces_of_missing :
    let o : CommonOptions := { reduction := .strike, stepLimit := some 3 }
    let f : Formula := ⟨[[.of 3, .of 1, .of 2]], 3⟩
    let written := (f.dimacs [randomComment 1 4 0]).toUTF8.toList
    let files : FileTree := ⟨["home"], [], [(["home", "drawn.cnf"], written)]⟩
    o.reduction = .strike ∧ o.timeout = none ∧ 3 ≤ 4 ∧ 4 ≤ maxVar ∧
      Source.formula 1 4 ⟨(0 : Nat).toUInt64⟩ = .ok (f, ⟨7614582451446465832⟩) ∧ 4 ∉ f.vars ∧
      Dimacs.read written = .ok f ∧
      FileTree.write ⟨["home"], [], []⟩ "drawn.cnf" written = .ok files ∧
      (∀ later : Session, later.files = files → (solveFile o "drawn.cnf").run.run later =
        (solveAndReport o (some "drawn.cnf") f f.vars).run.run later) ∧
      ∀ session : Session,
        outcomeIn session o f f.vars = outcomeIn session o f (List.range' 1 4) := by
  intro o f written files
  have hdrawn : Source.formula 1 4 ⟨(0 : Nat).toUInt64⟩ = .ok (f, ⟨7614582451446465832⟩) := by
    decide +kernel
  have hwrite : FileTree.write ⟨["home"], [], []⟩ "drawn.cnf" written = .ok files := rfl
  obtain ⟨f', rest, hf, hread, hcommands, outcome, hsame, -⟩ :=
    exported_instance_reproduces o rfl rfl (by decide : 3 ≤ 4) (by decide) 1 0
  cases hf.symm.trans hdrawn
  have hmissing : 4 ∉ f.vars := by
    rw [Formula.mem_vars]
    decide
  let session : Session := ⟨⟨["home"], [], []⟩, .error, .still, 0, "", ""⟩
  have hthere := (hcommands session "drawn.cnf" files hwrite).2
  exact ⟨rfl, rfl, by decide, by decide, hdrawn, hmissing, hread, hwrite, hthere,
    fun session => (hsame session).1.trans (hsame session).2.symm⟩

end CommandLine

end SatSearch
