import SatSearch.Sweep.Grid
import Mathlib.Data.List.ProdSigma

/-!
# The order of a sweep

The points of a sweep are the pairs of values of its two ranges, of which the number of clauses
varies slowest. At a point with fewer than three variables it has nothing to measure, and the source
stays as it is; each other point stands for as many formulas as there are repeats. So a sweep is one
loop over a list of tasks, and if its listener only takes records, over a list of sizes.
-/

namespace SatSearch

namespace Sweep

/-- The numbers of clauses and variables of the formulas of a sweep, in order. -/
def plan (clauses vars : StepRange) (repeats : Nat) : List (Nat × Nat) :=
  ((clauses.toList ×ˢ vars.toList).filter (3 ≤ ·.2)).flatMap (List.replicate repeats)

theorem map_div_mod_range {α β : Type} (f : Nat → α) (g : Nat → β) (rows : Nat) {width : Nat}
    (h : 0 < width) : (List.range (rows * width)).map (fun k => (f (k / width), g (k % width))) =
      (List.range rows).map f ×ˢ (List.range width).map g := by
  induction rows with
  | zero => simp
  | succ rows ih =>
    have hrow : (List.range width).map (fun k => (f ((rows * width + k) / width),
        g ((rows * width + k) % width))) = [f rows] ×ˢ (List.range width).map g := by
      rw [List.product_cons, List.nil_product, List.append_nil, List.map_map]
      apply List.map_congr_left
      intro k hk
      have hk : k < width := List.mem_range.1 hk
      rw [Nat.mul_comm, Nat.mul_add_div h, Nat.div_eq_of_lt hk, Nat.mul_add_mod,
        Nat.mod_eq_of_lt hk]
      rfl
    rw [Nat.succ_mul, List.range_add, List.map_append, ih, List.map_map, List.range_succ,
      List.map_append]
    exact (congrArg _ hrow).trans (List.flatMap_append.symm)

theorem points_eq_product (s : Sweep) : s.points = s.clauses.toList ×ˢ s.vars.toList :=
  map_div_mod_range s.clauses.value s.vars.value s.clauses.size (Nat.succ_pos _)

theorem mem_plan {clauses vars : StepRange} {repeats : Nat} {size : Nat × Nat}
    (h : size ∈ plan clauses vars repeats) : 3 ≤ size.2 ∧ size.2 ∈ vars.toList := by
  obtain ⟨point, hpoint, hsize⟩ := List.mem_flatMap.1 h
  obtain ⟨hmem, hwide⟩ := List.mem_filter.1 hpoint
  rw [List.eq_of_mem_replicate hsize]
  exact ⟨of_decide_eq_true hwide, (List.mem_product.1 hmem).2⟩

/-! ### Tasks -/

/-- What a sweep does at a point: it refuses or skips it, or it measures formulas there and says so
in the end. -/
inductive Task where
  | refuse
  | skip (clauses vars : Nat)
  | measure (clauses vars : Nat)
  | conclude (clauses vars : Nat)

def tasksAt (repeats m n : Nat) : List Task :=
  if Source.maxTop < n then [.refuse]
  else if n < Source.clauseWidth then [.skip m n]
  else List.replicate repeats (.measure m n) ++ [.conclude m n]

def tasks (s : Sweep) : List Task :=
  s.points.flatMap fun point => tasksAt s.repeats point.1 point.2

variable {σ : Type}

def Task.run (s : Sweep) (timings : Nat → Timing) (listen : Listener σ) (w : Work σ) :
    Task → Except (Halt σ) (Work σ)
  | refuse => .error ⟨w.heard, .error (.invalidRange s.vars.text)⟩
  | skip m n => tell listen (.skipped m n) w
  | measure m n => s.measure timings listen m n w
  | conclude m n => tell listen (.measured m n s.repeats) w

theorem cases_of_mem_tasksAt {repeats m n : Nat} {task : Task} (h : task ∈ tasksAt repeats m n) :
    Source.maxTop < n ∧ task = .refuse ∨ n < Source.clauseWidth ∧ task = .skip m n ∨
      Source.clauseWidth ≤ n ∧ (task = .measure m n ∨ task = .conclude m n) := by
  unfold tasksAt at h
  split at h
  · rename_i hfar
    exact .inl ⟨hfar, List.mem_singleton.1 h⟩
  · split at h
    · rename_i hnarrow
      exact .inr (.inl ⟨hnarrow, List.mem_singleton.1 h⟩)
    · rename_i hwide
      refine .inr (.inr ⟨Nat.le_of_not_lt hwide, ?_⟩)
      rcases List.mem_append.1 h with hmeasure | hconclude
      · exact .inl (List.eq_of_mem_replicate hmeasure)
      · exact .inr (List.mem_singleton.1 hconclude)

variable (s : Sweep) (timings : Nat → Timing) (listen : Listener σ)

theorem measureAll_eq_foldlM (m n count : Nat) (w : Work σ) :
    s.measureAll timings listen m n count w =
      (List.replicate count (.measure m n)).foldlM (Task.run s timings listen) w := by
  induction count generalizing w with
  | zero => rfl
  | succ count ih =>
    rw [List.replicate_succ, List.foldlM_cons, measureAll]
    apply bind_congr
    intro next
    exact ih next

theorem visit_eq_foldlM (m n : Nat) (w : Work σ) : s.visit timings listen m n w =
    (tasksAt s.repeats m n).foldlM (Task.run s timings listen) w := by
  have hone (task : Task) : [task].foldlM (Task.run s timings listen) w =
      task.run s timings listen w := bind_pure _
  unfold visit tasksAt
  split
  · exact (hone .refuse).symm
  · split
    · exact (hone (.skip m n)).symm
    · rw [List.foldlM_append, ← measureAll_eq_foldlM]
      apply bind_congr
      intro next
      exact (bind_pure _).symm

theorem visitLast_eq_foldlM {left : Nat} (h : left ≤ s.pointCount) (w : Work σ) :
    s.visitLast timings listen left w =
      (((List.range' (s.pointCount - left) left).map s.point).flatMap fun point =>
        tasksAt s.repeats point.1 point.2).foldlM (Task.run s timings listen) w := by
  induction left generalizing w with
  | zero => rfl
  | succ left ih =>
    have hnext : s.pointCount - (left + 1) + 1 = s.pointCount - left := by omega
    rw [List.range'_succ, List.map_cons, List.flatMap_cons, List.foldlM_append, hnext, visitLast,
      ← visit_eq_foldlM]
    apply bind_congr
    intro next
    exact ih (Nat.le_of_succ_le h) next

/-- A sweep is a loop over its tasks. -/
theorem visitLast_eq_tasks (w : Work σ) : s.visitLast timings listen s.pointCount w =
    s.tasks.foldlM (Task.run s timings listen) w := by
  rw [visitLast_eq_foldlM s timings listen (Nat.le_refl _), Nat.sub_self, ← List.range_eq_range']
  rfl

/-! ### Records only -/

/-- The listener that hands records to a sink and takes no notice of anything else. -/
def recordsOnly (sink : Record → σ → σ × Option Failure) : Listener σ := fun notice state =>
  match notice with
  | .recorded record => sink record state
  | _ => (state, none)

theorem run_eq_listenTo (sink : Record → σ → σ × Option Failure) (start : σ) :
    s.run timings sink start = s.listenTo timings (recordsOnly sink) start := rfl

def measureSize (w : Work σ) (size : Nat × Nat) : Except (Halt σ) (Work σ) :=
  s.measure timings listen size.1 size.2 w

def Task.size? : Task → Option (Nat × Nat)
  | refuse => none
  | skip _ _ => none
  | measure m n => some (m, n)
  | conclude _ _ => none

theorem foldlM_tasks (sink : Record → σ → σ × Option Failure) {tasks : List Task}
    (h : Task.refuse ∉ tasks) (w : Work σ) :
    tasks.foldlM (Task.run s timings (recordsOnly sink)) w =
      (tasks.filterMap Task.size?).foldlM (s.measureSize timings (recordsOnly sink)) w := by
  induction tasks generalizing w with
  | nil => rfl
  | cons task tasks ih =>
    obtain ⟨htask, htasks⟩ := not_or.1 (List.mem_cons.not.1 h)
    cases task with
    | refuse => exact absurd rfl htask
    | skip m n => exact ih htasks w
    | conclude m n => exact ih htasks w
    | measure m n =>
      have hsize : (Task.measure m n :: tasks).filterMap Task.size? =
          (m, n) :: tasks.filterMap Task.size? := rfl
      rw [hsize, List.foldlM_cons, List.foldlM_cons]
      apply bind_congr
      intro next
      exact ih htasks next

theorem filterMap_tasksAt {n : Nat} (h : n ≤ Source.maxTop) (repeats m : Nat) :
    (tasksAt repeats m n).filterMap Task.size? =
      if 3 ≤ n then List.replicate repeats (m, n) else [] := by
  rw [tasksAt, if_neg (Nat.not_lt_of_le h)]
  by_cases hwide : 3 ≤ n
  · have hdrawn : ¬n < Source.clauseWidth := Nat.not_lt_of_le hwide
    have hsize : (Task.measure m n).size? = some (m, n) := rfl
    rw [if_neg hdrawn, if_pos hwide, List.filterMap_append, List.filterMap_replicate_of_some hsize]
    exact List.append_nil _
  · have hnarrow : n < Source.clauseWidth := Nat.lt_of_not_le hwide
    rw [if_pos hnarrow, if_neg hwide]
    rfl

theorem filterMap_tasks (h : ∀ n ∈ s.vars.toList, n ≤ Source.maxTop) :
    s.tasks.filterMap Task.size? = plan s.clauses s.vars s.repeats := by
  have hpoints : ∀ point ∈ s.points, point.2 ≤ Source.maxTop := by
    intro point hpoint
    rw [points_eq_product] at hpoint
    exact h point.2 (List.mem_product.1 hpoint).2
  rw [tasks, plan, ← points_eq_product, List.filterMap_flatMap]
  generalize s.points = points at hpoints
  induction points with
  | nil => rfl
  | cons point points ih =>
    obtain ⟨hpoint, hrest⟩ := List.forall_mem_cons.1 hpoints
    rw [List.flatMap_cons, ih hrest, filterMap_tasksAt hpoint, List.filter_cons]
    by_cases hwide : 3 ≤ point.2
    · simp [hwide]
    · simp [hwide]

/-- A sweep whose listener only takes records is a loop over its plan. -/
theorem visitLast_eq_plan (sink : Record → σ → σ × Option Failure)
    (h : ∀ n ∈ s.vars.toList, n ≤ Source.maxTop) (w : Work σ) :
    s.visitLast timings (recordsOnly sink) s.pointCount w =
      (plan s.clauses s.vars s.repeats).foldlM (s.measureSize timings (recordsOnly sink)) w := by
  have hdrawable : Task.refuse ∉ s.tasks := by
    intro hrefuse
    obtain ⟨point, hpoint, htask⟩ := List.mem_flatMap.1 hrefuse
    rw [points_eq_product] at hpoint
    rcases cases_of_mem_tasksAt htask with ⟨hfar, -⟩ | ⟨-, hskip⟩ | ⟨-, hmeasure | hconclude⟩
    · exact Nat.not_lt_of_le (h point.2 (List.mem_product.1 hpoint).2) hfar
    · cases hskip
    · cases hmeasure
    · cases hconclude
  rw [visitLast_eq_tasks, foldlM_tasks s timings sink hdrawable, filterMap_tasks s h]

end Sweep

end SatSearch
