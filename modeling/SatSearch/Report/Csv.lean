import SatSearch.Sweep.Record

/-!
# Records as comma-separated values

A header line, and one line for each record with its six cells. Times are given in whole
microseconds.
-/

namespace SatSearch

def Record.csvHeader : String := "clauses,variables,size,steps,outcome,micros\n"

def Record.micros (r : Record) : Nat := r.elapsed / 1000

def Record.cells (r : Record) : List String :=
  [Decimal.text r.clauses, Decimal.text r.vars, Decimal.text r.size, Decimal.text r.steps,
    r.outcome.text, Decimal.text r.micros]

def Record.csvRow (r : Record) : String := ",".intercalate r.cells ++ "\n"

def csv (records : List Record) : String :=
  Record.csvHeader ++ String.join (records.map Record.csvRow)

/-- Writes bytes to a place that holds only so many: what it holds afterwards, and whether there was
room for all. -/
def writeBounded (room : Nat) (bytes : List UInt8) : List UInt8 × Except Error Unit :=
  (bytes.take room, if bytes.length ≤ room then .ok () else .error (.stream .full))

end SatSearch
