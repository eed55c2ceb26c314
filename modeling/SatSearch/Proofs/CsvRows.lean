import SatSearch.Proofs.DecimalRoundTrip
import SatSearch.Report.Csv
import Mathlib.Data.List.Forall2

/-!
# The rows of comma-separated values

No cell of a row has a comma or a line feed in it, so the text of some records can be cut into its
lines and these into their cells. It is therefore the same for other records only if they agree in
everything that the cells show, and that is all of a record except the part of its time that is less
than a microsecond.
-/

namespace SatSearch

theorem mem_of_mem_intercalate {α : Type} {a b : α} {pieces : List (List α)}
    (h : b ∈ [a].intercalate pieces) : b = a ∨ ∃ piece ∈ pieces, b ∈ piece := by
  induction pieces with
  | nil => cases h
  | cons piece pieces ih =>
    cases pieces with
    | nil =>
      rw [List.intercalate_singleton] at h
      exact .inr ⟨piece, List.mem_cons_self, h⟩
    | cons next later =>
      rw [List.intercalate_cons_cons, List.append_assoc, List.mem_append, List.mem_append] at h
      rcases h with hfirst | hbetween | hlater
      · exact .inr ⟨piece, List.mem_cons_self, hfirst⟩
      · exact .inl (List.mem_singleton.1 hbetween)
      · exact (ih hlater).imp_right fun ⟨p, hp, hb⟩ => ⟨p, List.mem_cons_of_mem _ hp, hb⟩

/-- A text of ended lines is cut into these lines and the nothing behind the last one. -/
theorem splitOn_flatMap_lines {lines : List (List Char)} (h : ∀ line ∈ lines, '\n' ∉ line) :
    (lines.flatMap (· ++ ['\n'])).splitOn '\n' = lines ++ [[]] := by
  induction lines with
  | nil => rfl
  | cons line lines ih =>
    obtain ⟨hline, hlines⟩ := List.forall_mem_cons.1 h
    rw [List.flatMap_cons, List.append_assoc, List.singleton_append,
      List.splitOn_append_cons_self_of_not_mem hline, ih hlines]
    rfl

theorem Outcome.text_inj {a b : Outcome} : a.text = b.text ↔ a = b := by
  cases a <;> cases b <;> decide

namespace Record

/-- The records agree, up to the part of their times that is less than a microsecond. -/
structure SameRow (a b : Record) : Prop where
  clauses_eq : a.clauses = b.clauses
  vars_eq : a.vars = b.vars
  size_eq : a.size = b.size
  steps_eq : a.steps = b.steps
  outcome_eq : a.outcome = b.outcome
  micros_eq : a.micros = b.micros

theorem cells_eq_iff {a b : Record} : a.cells = b.cells ↔ a.SameRow b := by
  simp only [cells, List.cons.injEq, Decimal.text_inj, Outcome.text_inj, and_true]
  constructor
  · rintro ⟨hclauses, hvars, hsize, hsteps, houtcome, hmicros⟩
    exact ⟨hclauses, hvars, hsize, hsteps, houtcome, hmicros⟩
  · rintro ⟨hclauses, hvars, hsize, hsteps, houtcome, hmicros⟩
    exact ⟨hclauses, hvars, hsize, hsteps, houtcome, hmicros⟩

theorem map_cells_eq_iff {xs ys : List Record} :
    xs.map cells = ys.map cells ↔ List.Forall₂ SameRow xs ys := by
  rw [← List.forall₂_eq_eq_eq, List.forall₂_map_left_iff, List.forall₂_map_right_iff]
  simp only [cells_eq_iff]

/-- A character that is neither a digit nor in the name of an outcome is in no cell. -/
theorem not_mem_cell {c : Char} (hdigit : ∀ d < 10, c ≠ Decimal.digitChar d)
    (houtcome : c ∉ "sat".toList ∧ c ∉ "unsat".toList ∧ c ∉ "unknown".toList) (r : Record) :
    ∀ cell ∈ r.cells.map String.toList, c ∉ cell := by
  have hnumber (n : Nat) : c ∉ (Decimal.text n).toList := by
    rw [Decimal.text, String.toList_ofList]
    exact Decimal.not_mem_digits hdigit n
  have hname : c ∉ r.outcome.text.toList := by
    cases r.outcome with
    | satisfiable => exact houtcome.1
    | unsatisfiable => exact houtcome.2.1
    | unknown => exact houtcome.2.2
  simp [cells, hnumber, hname]

def line (r : Record) : List Char := [','].intercalate (r.cells.map String.toList)

theorem toList_csvRow (r : Record) : r.csvRow.toList = r.line ++ ['\n'] := by
  rw [csvRow, String.toList_append, String.toList_intercalate]
  rfl

theorem splitOn_line (r : Record) : r.line.splitOn ',' = r.cells.map String.toList :=
  List.splitOn_intercalate ',' (r.not_mem_cell (by decide) (by decide)) (List.cons_ne_nil _ _)

theorem not_mem_line (r : Record) : '\n' ∉ r.line := by
  intro hmem
  rcases mem_of_mem_intercalate hmem with hcomma | ⟨cell, hcell, hin⟩
  · exact absurd hcomma (by decide)
  · exact r.not_mem_cell (by decide) (by decide) cell hcell hin

def headerLine : List Char := "clauses,variables,size,steps,outcome,micros".toList

theorem toList_csvHeader : csvHeader.toList = headerLine ++ ['\n'] := by decide

end Record

def csvLines (records : List Record) : List (List Char) :=
  Record.headerLine :: records.map Record.line

theorem toList_csv (records : List Record) :
    (csv records).toList = (csvLines records).flatMap (· ++ ['\n']) := by
  have hrows : (String.join (records.map Record.csvRow)).toList =
      (records.map Record.line).flatMap (· ++ ['\n']) := by
    simp [String.toList_join, List.flatMap_map, Record.toList_csvRow]
  rw [csv, String.toList_append, Record.toList_csvHeader, hrows, csvLines, List.flatMap_cons]

theorem not_mem_csvLines {records : List Record} : ∀ line ∈ csvLines records, '\n' ∉ line := by
  refine List.forall_mem_cons.2 ⟨by decide, fun line hline => ?_⟩
  obtain ⟨r, -, rfl⟩ := List.mem_map.1 hline
  exact r.not_mem_line

theorem splitOn_csv (records : List Record) :
    (csv records).toList.splitOn '\n' = csvLines records ++ [[]] := by
  rw [toList_csv, splitOn_flatMap_lines not_mem_csvLines]

/-- The cells are read off the lines, and the lines off the text. -/
theorem map_cells_of_csv {xs ys : List Record} (h : csv xs = csv ys) :
    xs.map Record.cells = ys.map Record.cells := by
  have hlines : csvLines xs ++ [[]] = csvLines ys ++ [[]] := by
    rw [← splitOn_csv, ← splitOn_csv, h]
  have hrows := (List.cons.inj (List.append_cancel_right hlines)).2
  have hcells := congrArg (List.map (List.splitOn ',')) hrows
  simp only [List.map_map, Function.comp_def, Record.splitOn_line] at hcells
  have htexts := congrArg (List.map (List.map String.ofList)) hcells
  simpa [Function.comp_def] using htexts

theorem csv_of_map_cells {xs ys : List Record} (h : xs.map Record.cells = ys.map Record.cells) :
    csv xs = csv ys := by
  have hrow : Record.csvRow = (fun cells => ",".intercalate cells ++ "\n") ∘ Record.cells := rfl
  rw [csv, csv, hrow, ← List.map_map, h, List.map_map]

/-- The texts of two lists of records are the same bytes exactly if the lists are equally long and
their records agree in order, but for less than a microsecond each. Such a text consists of ended
lines, the header and one for each record, which has exactly its six cells between commas. -/
theorem csv_determines_rows :
    (∀ xs ys : List Record, (csv xs).toUTF8 = (csv ys).toUTF8 ↔
      List.Forall₂ Record.SameRow xs ys) ∧
    ∀ records : List Record, ∃ rows,
      (csv records).toList.splitOn '\n' =
        "clauses,variables,size,steps,outcome,micros".toList :: rows ++ [[]] ∧
      rows.length = records.length ∧
      List.Forall₂ (fun r row => row.splitOn ',' = r.cells.map String.toList ∧
        (row.splitOn ',').length = 6) records rows := by
  refine ⟨fun xs ys => ?_, fun records => ⟨records.map Record.line, splitOn_csv records,
    List.length_map .., ?_⟩⟩
  · rw [String.toUTF8_eq_toByteArray, String.toUTF8_eq_toByteArray, String.toByteArray_inj,
      ← Record.map_cells_eq_iff]
    exact ⟨map_cells_of_csv, csv_of_map_cells⟩
  · rw [List.forall₂_map_right_iff, List.forall₂_same]
    intro r _
    rw [r.splitOn_line]
    exact ⟨rfl, rfl⟩

/-- The times of these two records are the shortest and the longest of 1234 microseconds. -/
example : csv [⟨4, 3, 7, 2, .unknown, 1234000⟩] = csv [⟨4, 3, 7, 2, .unknown, 1234999⟩] := rfl

end SatSearch
