import SatSearch.Proofs.SweepOrder

/-!
# What a sweep tells its listener

All that a listener can do to a sweep is to end it. The formulas are drawn and searched on in the
same way whoever listens, so a sweep has one list of notices, and every listener hears these notices
in order, up to the first that it refuses. There are four kinds of them, and each tells of a point of
the sweep or of a formula that was drawn for one.
-/

namespace SatSearch

def Notice.record? : Notice → Option Record
  | .recorded record => some record
  | .skipped _ _ => none
  | .searched _ => none
  | .measured _ _ _ => none

def Notice.records (told : List Notice) : List Record := told.filterMap record?

theorem Notice.records_append (first second : List Notice) :
    records (first ++ second) = records first ++ records second := List.filterMap_append

namespace Sweep

/-- The notices that a sweep gives. A search is told of with the formula that was drawn, the reading
of the clock at its turn, and all variables up to the bound of its point. -/
inductive Tells (s : Sweep) (timings : Nat → Timing) : Notice → Prop where
  | skipped {m n : Nat} (point : (m, n) ∈ s.points) (narrow : n < Source.clauseWidth) :
      Tells s timings (.skipped m n)
  | searched {m n : Nat} {source rest : Source} {f : Formula} (turn : Nat)
      (point : (m, n) ∈ s.points) (wide : Source.clauseWidth ≤ n)
      (drawn : source.formula m n = .ok (f, rest)) :
      Tells s timings (.searched (observe s.settings (timings turn).due f (List.range' 1 n)))
  | recorded {n : Nat} {f : Formula} {record : Record} (turn : Nat)
      (result : Record.ofResult f n (timings turn).total
        (solve s.settings (timings turn).due f (List.range' 1 n)) = .ok record) :
      Tells s timings (.recorded record)
  | measured {m n : Nat} (point : (m, n) ∈ s.points) (wide : Source.clauseWidth ≤ n) :
      Tells s timings (.measured m n s.repeats)

variable {σ : Type}

/-! ### Hearing notices -/

def hearOne (listen : Listener σ) (heard : σ) (notice : Notice) : Except (Halt σ) σ :=
  (listen notice heard).2.elim (.ok (listen notice heard).1)
    fun reason => .error ⟨(listen notice heard).1, reason⟩

/-- What a listener makes of some notices, up to the first that it refuses. -/
def hear (listen : Listener σ) (told : List Notice) (heard : σ) : Except (Halt σ) σ :=
  told.foldlM (hearOne listen) heard

theorem hear_append (listen : Listener σ) (first second : List Notice) (heard : σ) :
    hear listen (first ++ second) heard = hear listen first heard >>= hear listen second :=
  List.foldlM_append

theorem hear_singleton (listen : Listener σ) (notice : Notice) (heard : σ) :
    hear listen [notice] heard = hearOne listen heard notice := by
  rw [hear, List.foldlM_cons]
  exact bind_pure _

theorem tell_eq_hearOne (listen : Listener σ) (notice : Notice) (w : Work σ) :
    tell listen notice w = (hearOne listen w.heard notice).map (⟨w.source, w.recorded, ·⟩) := by
  unfold tell hearOne
  cases hanswer : listen notice w.heard with
  | mk heard refusal =>
    cases refusal with
    | none => rfl
    | some reason => rfl

/-- A listener that keeps what it picks out of each notice has picked it out of all of them. -/
theorem hear_of_keeps {α : Type} {listen : Listener (List α)} {pick : Notice → Option α}
    (h : ∀ notice kept, listen notice kept = (kept ++ (pick notice).toList, none))
    (told : List Notice) (kept : List α) :
    hear listen told kept = .ok (kept ++ told.filterMap pick) := by
  induction told generalizing kept with
  | nil => exact congrArg Except.ok kept.append_nil.symm
  | cons notice told ih =>
    have hone : hearOne listen kept notice = .ok (kept ++ (pick notice).toList) := by
      rw [hearOne, h]
      rfl
    rw [hear, List.foldlM_cons, hone]
    refine (ih _).trans ?_
    cases hpick : pick notice with
    | none => simp [hpick]
    | some value => simp [hpick]

/-! ### Scripts -/

/-- The notices of a part of a sweep, and then the source and the number of records behind it, or
the reason why it fails. -/
structure Script where
  told : List Notice
  outcome : Except Failure (Source × Nat)

def Script.perform (script : Script) (listen : Listener σ) (heard : σ) :
    Except (Halt σ) (Work σ) := do
  let heard ← hear listen script.told heard
  (script.outcome.map fun next => ⟨next.1, next.2, heard⟩).mapError (⟨heard, ·⟩)

/-- The part follows a script, whoever listens. It counts the records that it tells of, and all its
notices are of some kind. -/
def Scripted (kind : Notice → Prop)
    (part : ∀ σ : Type, Listener σ → Work σ → Except (Halt σ) (Work σ)) : Prop :=
  ∀ source recorded, ∃ script : Script, (∀ notice ∈ script.told, kind notice) ∧
    (∀ next, script.outcome = .ok next →
      next.2 = recorded + (Notice.records script.told).length) ∧
    ∀ (σ : Type) (listen : Listener σ) (heard : σ),
      part σ listen ⟨source, recorded, heard⟩ = script.perform listen heard

namespace Scripted

variable {kind : Notice → Prop}

theorem done : Scripted kind fun _ _ w => .ok w :=
  fun source recorded => ⟨⟨[], .ok (source, recorded)⟩, nofun, fun _ h => (Except.ok.inj h) ▸ rfl,
    fun _ _ _ => rfl⟩

theorem fail (reason : Failure) : Scripted kind fun _ _ w => .error ⟨w.heard, reason⟩ :=
  fun _ _ => ⟨⟨[], .error reason⟩, nofun, nofun, fun _ _ _ => rfl⟩

theorem tell {notice : Notice} (hkind : kind notice) (h : notice.record? = none) :
    Scripted kind fun _ listen w => Sweep.tell listen notice w := fun source recorded => by
  refine ⟨⟨[notice], .ok (source, recorded)⟩, List.forall_mem_singleton.2 hkind,
    fun next hnext => ?_, fun σ listen heard => ?_⟩
  · cases hnext
    simp [Notice.records, h]
  · simp only [tell_eq_hearOne, Script.perform, hear_singleton]
    cases hearOne listen heard notice with
    | ok later => rfl
    | error halt => rfl

theorem record {record : Record} (hkind : kind (.recorded record)) :
    Scripted kind fun _ listen w => Sweep.tell listen (.recorded record) w >>= fun w =>
      pure { w with recorded := w.recorded + 1 } := fun source recorded => by
  refine ⟨⟨[.recorded record], .ok (source, recorded + 1)⟩, List.forall_mem_singleton.2 hkind,
    fun next hnext => ?_, fun σ listen heard => ?_⟩
  · cases hnext
    rfl
  · simp only [tell_eq_hearOne, Script.perform, hear_singleton]
    cases hearOne listen heard (.recorded record) with
    | ok later => rfl
    | error halt => rfl

/-- Two parts in a row follow the one script and then the other, unless the first one fails. -/
theorem bind {first second : ∀ σ : Type, Listener σ → Work σ → Except (Halt σ) (Work σ)}
    (hfirst : Scripted kind first) (hsecond : Scripted kind second) :
    Scripted kind fun σ listen w => first σ listen w >>= second σ listen :=
  fun source recorded => by
  obtain ⟨⟨told, outcome⟩, htold, hcount, hperform⟩ := hfirst source recorded
  cases outcome with
  | error reason =>
    refine ⟨⟨told, .error reason⟩, htold, nofun, fun σ listen heard => ?_⟩
    simp only [hperform, Script.perform]
    cases hear listen told heard with
    | ok later => rfl
    | error halt => rfl
  | ok next =>
    obtain ⟨script, hmore, hrest, hlater⟩ := hsecond next.1 next.2
    refine ⟨⟨told ++ script.told, script.outcome⟩, List.forall_mem_append.2 ⟨htold, hmore⟩,
      fun last hlast => ?_, fun σ listen heard => ?_⟩
    · rw [hrest last hlast, hcount next rfl, Notice.records_append, List.length_append,
        Nat.add_assoc]
    · simp only [hperform, Script.perform, hear_append]
      cases hear listen told heard with
      | ok later => exact hlater σ listen later
      | error halt => rfl

theorem foldlM {tasks : List Task}
    {part : ∀ σ : Type, Listener σ → Work σ → Task → Except (Halt σ) (Work σ)}
    (h : ∀ task ∈ tasks, Scripted kind fun σ listen w => part σ listen w task) :
    Scripted kind fun σ listen w => tasks.foldlM (part σ listen) w := by
  induction tasks with
  | nil => exact done
  | cons task tasks ih =>
    obtain ⟨htask, htasks⟩ := List.forall_mem_cons.1 h
    exact htask.bind (ih htasks)

end Scripted

variable (s : Sweep) (timings : Nat → Timing)

/-- What follows a search: its record is told of and counted, if it gives one. -/
theorem scripted_record {kind : Notice → Prop} {result : Except Failure Record}
    (h : ∀ record, result = .ok record → kind (.recorded record)) :
    Scripted kind fun _ listen w => result.mapError (⟨w.heard, ·⟩) >>= fun record =>
      tell listen (.recorded record) w >>= fun w =>
        pure { w with recorded := w.recorded + 1 } := by
  cases result with
  | error reason => exact .fail reason
  | ok record => exact .record (h record rfl)

theorem scripted_measure {m n : Nat} (point : (m, n) ∈ s.points) (wide : Source.clauseWidth ≤ n) :
    Scripted (s.Tells timings) fun _ listen w => s.measure timings listen m n w :=
  fun source recorded => by
  cases hdrawn : source.formula m n with
  | error reason =>
    refine ⟨⟨[], .error reason⟩, nofun, nofun, fun σ listen heard => ?_⟩
    simp only [measure, hdrawn]
    rfl
  | ok drawn =>
    let timing := timings recorded
    let search := observe s.settings timing.due drawn.1 (List.range' 1 n)
    have hrecord (record : Record)
        (h : Record.ofResult drawn.1 n timing.total search.result = .ok record) :
        s.Tells timings (.recorded record) := .recorded recorded h
    have hsearch := (Scripted.tell (.searched recorded point wide hdrawn) rfl).bind
      (scripted_record hrecord)
    obtain ⟨script, htold, hcount, hperform⟩ := hsearch drawn.2 recorded
    refine ⟨script, htold, hcount, fun σ listen heard => ?_⟩
    rw [← hperform]
    simp only [measure, hdrawn]
    rfl

theorem scripted_task {task : Task} (h : task ∈ s.tasks) :
    Scripted (s.Tells timings) fun _ listen w => task.run s timings listen w := by
  obtain ⟨point, hpoint, htask⟩ := List.mem_flatMap.1 h
  rcases cases_of_mem_tasksAt htask with ⟨-, rfl⟩ | ⟨hnarrow, rfl⟩ | ⟨hwide, rfl | rfl⟩
  · exact .fail _
  · exact .tell (.skipped hpoint hnarrow) rfl
  · exact s.scripted_measure timings hpoint hwide
  · exact .tell (.measured hpoint hwide) rfl

def recording : Listener (List Notice) := fun notice told => (told ++ [notice], none)

/-- The notices of a sweep, in order. -/
def notices : List Notice := (s.listenTo timings recording []).1

/-- The number of records of a sweep that no listener ends, or the reason why it fails. -/
def outcome : Except Failure Nat := (s.listenTo timings recording []).2

/-- A sweep follows its notices and its outcome, whoever listens. -/
theorem exists_script : ∃ script : Script,
    s.notices timings = script.told ∧ s.outcome timings = script.outcome.map Prod.snd ∧
    (∀ notice ∈ script.told, s.Tells timings notice) ∧
    (∀ next, script.outcome = .ok next → next.2 = (Notice.records script.told).length) ∧
    ∀ (σ : Type) (listen : Listener σ) (start : σ),
      s.visitLast timings listen s.pointCount ⟨⟨s.seed⟩, 0, start⟩ =
        script.perform listen start := by
  have hscripted := Scripted.foldlM fun task htask => s.scripted_task timings htask
  obtain ⟨script, htold, hcount, hperform⟩ := hscripted ⟨s.seed⟩ 0
  simp only [← visitLast_eq_tasks] at hperform
  have hall : hear recording script.told [] = .ok script.told := by
    have hkeeps (notice : Notice) (told : List Notice) :
        recording notice told = (told ++ (some notice).toList, none) := rfl
    rw [hear_of_keeps hkeeps, List.nil_append, List.filterMap_some]
  refine ⟨script, ?_, ?_, htold, fun next hnext => (hcount next hnext).trans (Nat.zero_add _),
    hperform⟩
  · simp only [notices, listenTo, hperform, Script.perform, hall]
    cases script.outcome <;> rfl
  · simp only [outcome, listenTo, hperform, Script.perform, hall]
    cases script.outcome <;> rfl

end Sweep

end SatSearch
