import SatSearch.Proofs.CensoredSweep
import SatSearch.Proofs.ListenerIndependence
import SatSearch.Proofs.SolvingCommands
import SatSearch.Proofs.SummaryExactness
import SatSearch.Proofs.WrittenFiles

/-!
# Streamed sweeps

The command line takes the notices of a sweep as they come: it logs each of them, and adds each
record to its lines and to its summary. In the end these are the lines and the summary of all records
together, as a caller of the library who collects the records gets them. Only the times differ from
one run to the next.
-/

namespace SatSearch

def Record.untimed (r : Record) : Record := { r with elapsed := 0 }

theorem stepSum_sizeGroup_le (size : Nat) (records : List Record) :
    stepSum (sizeGroup size records) ≤ stepSum records :=
  (List.filter_sublist.map _).sum_le_sum fun _ _ => Nat.zero_le _

/-- A record shows nothing of the clock but its time, unless the clock ends the search. -/
theorem Record.Reports.untimed_eq {c : Settings} {timing timing' : Timing} {size : Nat × Nat}
    {f : Formula} {r r' : Record} (h : r.Reports c timing size f) (h' : r'.Reports c timing' size f)
    (htime : c.InTime timing.due) (htime' : c.InTime timing'.due) : r.untimed = r'.untimed := by
  have hsolve := solve_congr_of_inTime htime htime' f (List.range' 1 size.2)
  have hfound : r.steps = r'.steps ∧ r.outcome = r'.outcome := by
    rcases h.search with ⟨a, ha, hsteps, hout⟩ | ⟨k, -, hstop, hsteps, hout⟩
    · rcases h'.search with ⟨a', ha', hsteps', hout'⟩ | ⟨k, -, hstop, -⟩
      · cases (ha.symm.trans hsolve).trans ha'
        exact ⟨hsteps.trans hsteps'.symm, hout.trans hout'.symm⟩
      · cases (ha.symm.trans hsolve).trans hstop
    · rcases h'.search with ⟨a, ha, -⟩ | ⟨k', -, hstop', hsteps', hout'⟩
      · cases (hstop.symm.trans hsolve).trans ha
      · cases (hstop.symm.trans hsolve).trans hstop'
        exact ⟨hsteps.trans hsteps'.symm, hout.trans hout'.symm⟩
  simp only [Record.untimed, h.clauses_eq, h'.clauses_eq, h.vars_eq, h'.vars_eq, h.size_eq,
    h'.size_eq, hfound]

theorem Reported.map_untimed_eq {c : Settings} {timings timings' : Nat → Timing} {base : Nat}
    {sizes : List (Nat × Nat)} {fs : List Formula} {records records' : List Record}
    (htime : ∀ k, c.InTime (timings k).due) (htime' : ∀ k, c.InTime (timings' k).due)
    (h : Reported c timings base sizes fs records) (h' : Reported c timings' base sizes fs records') :
    records.map Record.untimed = records'.map Record.untimed := by
  induction h generalizing records' with
  | nil =>
    cases h'
    rfl
  | cons first _ ih =>
    cases h' with
    | cons first' rest' =>
      rw [List.map_cons, List.map_cons, first.untimed_eq first' (htime _) (htime' _), ih rest']

theorem Summary.addEntry_untimed (r : Record) (es : List (Nat × SizeSummary)) :
    addEntry r.untimed es = addEntry r es := by
  induction es with
  | nil => rfl
  | cons e es ih =>
    simp only [addEntry, ih]
    rfl

theorem Summary.ofRecords_map_untimed (records : List Record) :
    ofRecords (records.map Record.untimed) = ofRecords records := by
  have hadd (s : Summary) (r : Record) : s.add r.untimed = s.add r := by
    rw [add, addEntry_untimed]
    rfl
  rw [ofRecords, List.foldlM_map]
  simp only [hadd]
  rfl

theorem Session.log_append (session : Session) (first second : List LogLine) :
    session.log (first ++ second) = (session.log first).log second := by
  unfold log printError
  rw [List.filter_append, List.map_append, String.join_append, ← String.append_assoc]

theorem Session.log_nil (session : Session) : session.log [] = session := by
  simp [log, printError, String.join_nil]

namespace CommandLine

/-- As long as its records can be summed up, a sweep is heard to its end. -/
theorem hear_listen (c : Settings) {told : List Notice} {w : SweepOutput} {summary : Summary}
    (h : (Notice.records told).foldlM Summary.add w.summary = .ok summary) :
    Sweep.hear (listen c) told w =
      .ok ⟨w.csv ++ String.join ((Notice.records told).map Record.csvRow), summary,
        w.session.log (told.flatMap (LogLine.ofNotice c))⟩ := by
  induction told generalizing w with
  | nil =>
    cases h
    have hsame : (⟨w.csv ++ String.join [], w.summary, w.session.log []⟩ : SweepOutput) = w := by
      rw [String.join_nil, String.append_empty, Session.log_nil]
    exact congrArg Except.ok hsame.symm
  | cons notice told ih =>
    rw [List.flatMap_cons, Session.log_append]
    cases notice with
    | recorded record =>
      have hrecords : Notice.records (.recorded record :: told) = record :: Notice.records told := rfl
      rw [hrecords, List.foldlM_cons] at h
      cases hadd : w.summary.add record with
      | error fault =>
        rw [hadd] at h
        cases h
      | ok next =>
        rw [hadd] at h
        have hheard : Sweep.hearOne (listen c) w (.recorded record) =
            .ok ⟨w.csv ++ record.csvRow, next, w.session.log []⟩ := by
          simp only [Sweep.hearOne, listen, hadd]
          rfl
        have hrest := @ih ⟨w.csv ++ record.csvRow, next, w.session.log []⟩ h
        rw [String.append_assoc, ← String.join_cons] at hrest
        rw [Sweep.hear, List.foldlM_cons, hheard]
        exact hrest
    | skipped => exact ih h
    | searched => exact ih h
    | measured => exact ih h

/-- What the command line makes of a sweep that the library can collect and sum up. -/
theorem listenTo_listen {s : Sweep} {timings : Nat → Timing} {records : List Record}
    {summary : Summary} (hcollect : s.collect timings = .ok records)
    (hsummary : Summary.ofRecords records = .ok summary) (session : Session) :
    s.listenTo timings (listen s.settings) ⟨Record.csvHeader, {}, session⟩ =
      (⟨csv records, summary,
        session.log ((s.notices timings).flatMap (LogLine.ofNotice s.settings))⟩,
        .ok records.length) := by
  obtain ⟨hrecords, houtcome⟩ := s.records_of_collect timings hcollect
  have hsum : (Notice.records (s.notices timings)).foldlM Summary.add {} = .ok summary :=
    hrecords.symm ▸ hsummary
  rw [s.listenTo_of_hear timings (hear_listen s.settings hsum), houtcome, hrecords]
  rfl

def announcement (path : String) (recorded : Nat) : String :=
  Decimal.text recorded ++ " records written to: " ++ path ++ "\n"

/-- The lines of a sweep are in its file, and their number has been said; without a file, they have
been printed. -/
structure Delivered (output : Option String) (text : String) (recorded : Nat)
    (before after : Session) : Prop where
  printed : output = none → after.out = before.out ++ text ∧ after.files = before.files
  written : ∀ path, output = some path →
    before.files.write path text.toUTF8.toList = .ok after.files ∧
    after.files.read path = .ok text.toUTF8.toList ∧
    after.out = before.out ++ announcement path recorded

def timingsIn (session : Session) (k : Nat) : Timing :=
  session.gauges.timing (session.searches + k)

def tableText (o : CommonOptions) (summary : Summary) : String :=
  if o.stats then summary.table else ""

theorem run_table (o : CommonOptions) (summary : Summary) (session : Session) :
    (if o.stats then Action.printError summary.table else pure () : Action Unit).run.run session =
      (.ok (), session.printError (tableText o summary)) := by
  cases hstats : o.stats with
  | true =>
    simp only [tableText, hstats, if_true]
    rfl
  | false =>
    simp only [tableText, hstats, Bool.false_eq_true, if_false, Session.printError,
      String.append_empty]
    rfl

section Run

variable (o : CommonOptions) {s : Sweep} {session later : Session} {text : String}
  {summary : Summary} {recorded : Nat}

theorem runSweep_run_of_none (h : s.listenTo (timingsIn session) (listen s.settings)
      ⟨Record.csvHeader, {}, session.log [.ofSweep s]⟩ = (⟨text, summary, later⟩, .ok recorded)) :
    (runSweep o s none).run.run session =
      (.ok (), (later.print text).printError (tableText o summary)) := by
  let heard := s.listenTo (timingsIn session) (listen s.settings)
    ⟨Record.csvHeader, {}, session.log [.ofSweep s]⟩
  have hrun : (runSweep o s none).run.run session = (Action.liftFailure heard.2 >>= fun _ =>
      if o.stats then .printError heard.1.summary.table else pure () : Action Unit).run.run
        (heard.1.session.print heard.1.csv) := rfl
  rw [hrun, show heard = _ from h]
  exact run_table o summary _

theorem runSweep_run_of_some {path : String} {opened files : FileTree}
    (hopen : session.files.write path [] = .ok opened)
    (h : s.listenTo (timingsIn session) (listen s.settings)
      ⟨Record.csvHeader, {}, { session with files := opened }.log [.ofSweep s]⟩ =
        (⟨text, summary, later⟩, .ok recorded))
    (hwrite : later.files.write path text.toUTF8.toList = .ok files) :
    (runSweep o s (some path)).run.run session =
      (.ok (), ({ later with files }.print (announcement path recorded)).printError
        (tableText o summary)) := by
  let start := { session with files := opened }.log [.ofSweep s]
  let heard := s.listenTo (timingsIn session) (listen s.settings) ⟨Record.csvHeader, {}, start⟩
  have hrun : (runSweep o s (some path)).run.run session =
      (deliver (some path) heard.1.csv >>= fun _ => Action.liftFailure heard.2 >>= fun recorded =>
        .print (announcement path recorded) >>= fun _ =>
          if o.stats then .printError heard.1.summary.table else pure () : Action Unit).run.run
        heard.1.session := by
    have hempty : "".toUTF8.toList = [] := by simp
    exact run_bind_of_ok (writeFile_run (hempty ▸ hopen))
  rw [hrun, show heard = _ from h]
  exact (run_bind_of_ok (writeFile_run hwrite)).trans (run_table o summary _)

end Run

/-- A sweep that the library can collect and sum up at the clock of the session is delivered whole. -/
theorem runSweep_run {o : CommonOptions} {s : Sweep} {output : Option String} {session : Session}
    {records : List Record} {summary : Summary}
    (hcollect : s.collect (timingsIn session) = .ok records)
    (hsummary : Summary.ofRecords records = .ok summary)
    (hopen : ∀ path, output = some path → ∃ opened, session.files.write path [] = .ok opened) :
    ∃ later, (runSweep o s output).run.run session = (.ok (), later) ∧
      Delivered output (csv records) records.length session later ∧
      later.err = (session.log (.ofSweep s :: (s.notices (timingsIn session)).flatMap
        (LogLine.ofNotice s.settings))).err ++ tableText o summary := by
  let lines := (s.notices (timingsIn session)).flatMap (LogLine.ofNotice s.settings)
  have herr (before : Session) : ((before.log [.ofSweep s]).log lines).err =
      (before.log (.ofSweep s :: lines)).err := by
    rw [← Session.log_append, List.singleton_append]
  cases output with
  | none =>
    have hheard := listenTo_listen hcollect hsummary (session.log [.ofSweep s])
    refine ⟨_, runSweep_run_of_none o hheard, ⟨fun _ => ⟨rfl, rfl⟩, nofun⟩, ?_⟩
    exact congrArg (· ++ tableText o summary) (herr session)
  | some path =>
    obtain ⟨opened, hempty⟩ := hopen path rfl
    let start : Session := { session with files := opened }
    have hheard := listenTo_listen hcollect hsummary (start.log [.ofSweep s])
    obtain ⟨files, hfiles⟩ := FileTree.exists_write hempty (csv records).toUTF8.toList
    have hagain : opened.write path (csv records).toUTF8.toList = .ok files :=
      (FileTree.write_write hempty).trans hfiles
    refine ⟨_, runSweep_run_of_some o hempty hheard hagain, ⟨nofun, ?_⟩, ?_⟩
    · rintro _ ⟨⟩
      exact ⟨hfiles, FileTree.read_of_write hfiles, rfl⟩
    · exact congrArg (· ++ tableText o summary) (herr start)

/-- The sweep of the command line comes to the same as collecting the records first. If all sizes can
be drawn, no deadline is reached, the output can be written and the sums are counts, it succeeds. Its
lines are those of the collected records but for their times, the number that it gives is theirs, and
the table is that of their summary. -/
theorem runSweep_agrees_with_collect (o : CommonOptions) (s : Sweep) (output : Option String)
    (session : Session) (timings : Nat → Timing) (hvars : ∀ n ∈ s.vars.toList, n ≤ maxVar)
    (htime : ∀ k, s.settings.InTime (timings k).due)
    (hsession : ∀ k, s.settings.InTime (timingsIn session k).due)
    (hopen : ∀ path, output = some path → ∃ opened, session.files.write path [] = .ok opened) :
    ∃ records, s.collect timings = .ok records ∧
      ((∀ size, stepSum (sizeGroup size records) ≤ maxCount) →
        ∃ measured summary later,
          s.collect (timingsIn session) = .ok measured ∧
          measured.map Record.untimed = records.map Record.untimed ∧
          Summary.ofRecords records = .ok summary ∧
          (runSweep o s output).run.run session = (.ok (), later) ∧
          Delivered output (csv measured) records.length session later ∧
          later.err = (session.log (.ofSweep s :: (s.notices (timingsIn session)).flatMap
            (LogLine.ofNotice s.settings))).err ++ tableText o summary) := by
  obtain ⟨instances, -, -, hcollect⟩ :=
    Sweep.exists_collect s.clauses s.vars s.repeats s.seed hvars
  obtain ⟨records, hrecords, hreported⟩ := hcollect s.settings timings htime
  obtain ⟨measured, hmeasured, hreported'⟩ := hcollect s.settings (timingsIn session) hsession
  have hsame := hreported'.map_untimed_eq hsession htime hreported
  refine ⟨records, hrecords, fun hsums => ?_⟩
  have hsummary := Summary.ofRecords_of_le hsums
  have hsummary' : Summary.ofRecords measured = .ok (Summary.ofGroups records) := by
    rw [← Summary.ofRecords_map_untimed, hsame, Summary.ofRecords_map_untimed, hsummary]
  have hlength : records.length = measured.length := by
    simpa using congrArg List.length hsame.symm
  obtain ⟨later, hrun, hdelivered, herr⟩ := @runSweep_run o s output _ _ _ hmeasured hsummary' hopen
  exact ⟨measured, _, later, hmeasured, hsame, hsummary, hrun, hlength ▸ hdelivered, herr⟩

/-- Two points are passed over, and the searches at the last point are stopped by the limit. -/
theorem runSweep_agrees_with_collect_limited :
    let s : Sweep := ⟨⟨1, 9, 8, by decide, by decide⟩, ⟨2, 3, 1, by decide, by decide⟩, 2, 11,
      { stepLimit := some 1, deadline := some 1 }⟩
    let session : Session := ⟨⟨["home"], [], []⟩, .error, .still, 0, "", ""⟩
    let timings (k : Nat) : Timing := ⟨fun _ => 0, 1500 * k⟩
    let records : List Record := [⟨1, 3, 4, 1, .satisfiable, 0⟩, ⟨1, 3, 4, 1, .satisfiable, 1500⟩,
      ⟨9, 3, 12, 1, .unknown, 3000⟩, ⟨9, 3, 12, 1, .unknown, 4500⟩]
    (∀ n ∈ s.vars.toList, n ≤ maxVar) ∧ (∀ k, s.settings.InTime (timings k).due) ∧
      (∀ k, s.settings.InTime (timingsIn session k).due) ∧
      (∃ opened, session.files.write "sweep.csv" [] = .ok opened) ∧
      s.collect timings = .ok records ∧
      (∀ size, stepSum (sizeGroup size records) ≤ maxCount) ∧
      ∃ summary later, Summary.ofRecords records = .ok summary ∧
        (runSweep { stats := true } s (some "sweep.csv")).run.run session = (.ok (), later) ∧
        later.files.read "sweep.csv" =
          .ok (csv (records.map Record.untimed)).toUTF8.toList ∧
        later.out = "4 records written to: sweep.csv\n" ∧
        ∃ logged, later.err = logged ++ summary.table := by
  intro s session timings records
  have hvars : ∀ n ∈ s.vars.toList, n ≤ maxVar := by decide
  have htime (timing : Nat → Timing) (hzero : ∀ k j, (timing k).due j = 0) (k : Nat) :
      s.settings.InTime (timing k).due := by
    intro d hd j
    rw [hzero, ← Option.some.inj hd]
    exact Nat.one_pos
  have htimings := htime timings fun _ _ => rfl
  have hsession := htime (timingsIn session) fun _ _ => rfl
  have hopen : ∃ opened, session.files.write "sweep.csv" [] = .ok opened := ⟨_, rfl⟩
  have hcollect : s.collect timings = .ok records := by decide +kernel
  have hsession' : s.collect (timingsIn session) = .ok (records.map Record.untimed) := by
    decide +kernel
  have hsums (size : Nat) : stepSum (sizeGroup size records) ≤ maxCount :=
    (stepSum_sizeGroup_le size records).trans (by decide)
  obtain ⟨records', hrecords, hagree⟩ := runSweep_agrees_with_collect { stats := true } s
    (some "sweep.csv") session timings hvars htimings hsession fun path hpath =>
      Option.some.inj hpath ▸ hopen
  cases hrecords.symm.trans hcollect
  obtain ⟨measured, summary, later, hmeasured, -, hsummary, hrun, hdelivered, herr⟩ :=
    hagree hsums
  cases hmeasured.symm.trans hsession'
  obtain ⟨-, hread, hout⟩ := hdelivered.written "sweep.csv" rfl
  have hsaid : announcement "sweep.csv" 4 = "4 records written to: sweep.csv\n" := by decide +kernel
  exact ⟨hvars, htimings, hsession, hopen, hcollect, hsums, summary, later, hsummary, hrun, hread,
    hout.trans hsaid, _, herr⟩

end CommandLine

end SatSearch
