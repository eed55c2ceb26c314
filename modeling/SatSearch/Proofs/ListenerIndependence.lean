import SatSearch.Proofs.SweepNotices

/-!
# A sweep does not depend on its listener

Every listener of a sweep hears the notices of the sweep, so two of them can be compared by what they
make of one list. A sink gets the records that are told of, up to the first that it refuses, and
whoever collects the records of a sweep gets all of them, unless the sweep fails.
-/

namespace SatSearch

variable {σ : Type}

/-! ### Handing records to a sink -/

section Sink

variable (sink : Record → σ → σ × Option Failure)

/-- The state of a sink that was handed the first of some records. -/
def received (records : List Record) (start : σ) (count : Nat) : σ :=
  (records.take count).foldl (fun state record => (sink record state).1) start

/-- Why the sink refuses the record at a position, if it does and was handed all records before. -/
def refusal? (records : List Record) (start : σ) (k : Nat) : Option Failure :=
  records[k]?.bind fun record => (sink record (received sink records start k)).2

def feed : List Record → σ → Except (Sweep.Halt σ) σ
  | [], state => .ok state
  | record :: records, state => match (sink record state).2 with
    | none => feed records (sink record state).1
    | some reason => .error ⟨(sink record state).1, reason⟩

variable {sink}

theorem feed_of_accepted {records : List Record} {start : σ}
    (h : ∀ k, refusal? sink records start k = none) :
    feed sink records start = .ok (received sink records start records.length) := by
  induction records generalizing start with
  | nil => rfl
  | cons record records ih =>
    have hfirst : (sink record start).2 = none := h 0
    rw [feed, hfirst]
    exact ih fun k => h (k + 1)

theorem feed_of_refused {records : List Record} {start : σ} {k : Nat} {reason : Failure}
    (hbefore : ∀ j < k, refusal? sink records start j = none)
    (h : refusal? sink records start k = some reason) :
    feed sink records start = .error ⟨received sink records start (k + 1), reason⟩ := by
  induction records generalizing start k with
  | nil => cases h
  | cons record records ih =>
    cases k with
    | zero =>
      have hfirst : (sink record start).2 = some reason := h
      rw [feed, hfirst]
      rfl
    | succ k =>
      have hfirst : (sink record start).2 = none := hbefore 0 (Nat.succ_pos k)
      rw [feed, hfirst]
      exact ih (fun j hj => hbefore (j + 1) (Nat.succ_lt_succ hj)) h

/-- A sink that keeps all records holds the latest first. -/
theorem received_cons (records : List Record) (count : Nat) :
    received (fun record kept => (record :: kept, none)) records [] count =
      (records.take count).reverse := by
  simp [received]

end Sink

def Notice.search? : Notice → Option Observation
  | .searched search => some search
  | .skipped _ _ => none
  | .recorded _ => none
  | .measured _ _ _ => none

namespace Sweep

variable (s : Sweep) (timings : Nat → Timing)

/-- A listener that takes all notices of a sweep hears it to its end. -/
theorem listenTo_of_hear {listen : Listener σ} {start heard : σ}
    (h : hear listen (s.notices timings) start = .ok heard) :
    s.listenTo timings listen start = (heard, s.outcome timings) := by
  obtain ⟨script, hnotices, houtcome, -, -, hperform⟩ := s.exists_script timings
  rw [hnotices] at h
  simp only [houtcome, listenTo, hperform, Script.perform, h]
  cases script.outcome <;> rfl

/-- A listener that refuses a notice ends the sweep there, whatever would have come of it. -/
theorem listenTo_of_refused {listen : Listener σ} {start : σ} {halt : Halt σ}
    (h : hear listen (s.notices timings) start = .error halt) :
    s.listenTo timings listen start = (halt.heard, .error halt.reason) := by
  obtain ⟨script, hnotices, -, -, -, hperform⟩ := s.exists_script timings
  rw [hnotices] at h
  simp only [listenTo, hperform, Script.perform, h]
  rfl

theorem tells_of_mem_notices {notice : Notice} (h : notice ∈ s.notices timings) :
    s.Tells timings notice := by
  obtain ⟨script, hnotices, -, htold, -⟩ := s.exists_script timings
  exact htold notice (hnotices ▸ h)

/-- The records that a sweep counts are those that it tells of. -/
theorem recorded_eq_length {recorded : Nat} (h : s.outcome timings = .ok recorded) :
    recorded = (Notice.records (s.notices timings)).length := by
  obtain ⟨script, hnotices, houtcome, -, hcount, -⟩ := s.exists_script timings
  rw [houtcome] at h
  cases hnext : script.outcome with
  | error reason =>
    rw [hnext] at h
    cases h
  | ok next =>
    rw [hnext] at h
    cases h
    rw [hcount next hnext, hnotices]

/-! ### Records -/

theorem hear_recordsOnly (sink : Record → σ → σ × Option Failure) (told : List Notice) (heard : σ) :
    hear (recordsOnly sink) told heard = feed sink (Notice.records told) heard := by
  induction told generalizing heard with
  | nil => rfl
  | cons notice told ih =>
    cases notice with
    | recorded record =>
      have hrecords : Notice.records (.recorded record :: told) =
          record :: Notice.records told := rfl
      rw [hear, List.foldlM_cons, hearOne, recordsOnly, hrecords, feed]
      cases (sink record heard).2 with
      | none => exact ih _
      | some reason => rfl
    | _ => exact ih heard

/-- A run hands its records to the sink until one is refused. -/
theorem run_eq_feed (sink : Record → σ → σ × Option Failure) (start : σ) :
    s.run timings sink start = match feed sink (Notice.records (s.notices timings)) start with
      | .ok heard => (heard, s.outcome timings)
      | .error halt => (halt.heard, .error halt.reason) := by
  rw [run_eq_listenTo]
  cases hfeed : feed sink (Notice.records (s.notices timings)) start with
  | ok heard => exact s.listenTo_of_hear timings ((hear_recordsOnly sink _ _).trans hfeed)
  | error halt => exact s.listenTo_of_refused timings ((hear_recordsOnly sink _ _).trans hfeed)

/-- What a sweep collects are the records that it tells of, unless it fails. -/
theorem collect_eq_map : s.collect timings =
    (s.outcome timings).map fun _ => Notice.records (s.notices timings) := by
  rw [collect, run_eq_feed, feed_of_accepted fun k => Option.bind_eq_none_iff.2 fun _ _ => rfl]
  simp only [received_cons, List.take_length]
  cases s.outcome timings with
  | error reason => rfl
  | ok recorded => simp [Except.map]

/-- A sweep that collects records comes to its end, and counts them. -/
theorem records_of_collect {records : List Record} (h : s.collect timings = .ok records) :
    Notice.records (s.notices timings) = records ∧ s.outcome timings = .ok records.length := by
  rw [collect_eq_map] at h
  cases houtcome : s.outcome timings with
  | error reason =>
    rw [houtcome] at h
    cases h
  | ok recorded =>
    rw [houtcome] at h
    cases h
    exact ⟨rfl, congrArg Except.ok (s.recorded_eq_length timings houtcome)⟩

/-! ### Searches -/

def searchesOnly : Listener (List Observation) := fun notice seen =>
  match notice with
  | .searched search => (seen ++ [search], none)
  | _ => (seen, none)

def searches : List Observation := (s.listenTo timings searchesOnly []).1

theorem searches_eq_filterMap :
    s.searches timings = (s.notices timings).filterMap Notice.search? := by
  have hkeeps (notice : Notice) (seen : List Observation) :
      searchesOnly notice seen = (seen ++ notice.search?.toList, none) := by
    cases notice with
    | searched search => rfl
    | _ => exact congrArg (·, none) seen.append_nil.symm
  rw [searches, s.listenTo_of_hear timings (hear_of_keeps hkeeps _ []), List.nil_append]

theorem tells_of_mem_searches {search : Observation} (h : search ∈ s.searches timings) :
    s.Tells timings (.searched search) := by
  rw [searches_eq_filterMap] at h
  obtain ⟨notice, hnotice, hsearch⟩ := List.mem_filterMap.1 h
  cases notice with
  | searched other =>
    cases hsearch
    exact s.tells_of_mem_notices timings hnotice
  | _ => cases hsearch

end Sweep

end SatSearch
