import SatSearch.Sweep.Record
import SatSearch.Text.Fixed

/-!
# Summaries of records

Records are grouped by size, and each group is described by the numbers of its records, by the sum
and the maximum of their steps, and by the share of the satisfiable ones. The sum has to be a count;
it is the only thing that can go wrong.
-/

namespace SatSearch

/-- The description of the records of one size. -/
structure SizeSummary where
  instances : Nat := 0
  satisfiable : Nat := 0
  unknown : Nat := 0
  totalSteps : Nat := 0
  maxSteps : Nat := 0
deriving DecidableEq, Repr

namespace SizeSummary

def add (s : SizeSummary) (r : Record) : Except Fault SizeSummary := do
  let total ← addCounts s.totalSteps r.steps
  return {
    instances := s.instances + 1
    satisfiable := s.satisfiable + (if r.outcome = .satisfiable then 1 else 0)
    unknown := s.unknown + (if r.outcome = .unknown then 1 else 0)
    totalSteps := total
    maxSteps := max s.maxSteps r.steps }

/-- The quotient of two counts, 0 where there is nothing to divide by. -/
def quotient (num den : Nat) : Float :=
  if den = 0 then 0 else num.toUInt64.toFloat / den.toUInt64.toFloat

def meanSteps (s : SizeSummary) : Float := quotient s.totalSteps s.instances

def satisfiableRatio (s : SizeSummary) : Float := quotient s.satisfiable s.instances

end SizeSummary

/-- The descriptions of all sizes that occur, ascending. -/
structure Summary where
  bySize : List (Nat × SizeSummary) := []
deriving DecidableEq, Repr

namespace Summary

/-- Counts one more record among descriptions in ascending order. -/
def addEntry (r : Record) : List (Nat × SizeSummary) → Except Fault (List (Nat × SizeSummary))
  | [] => do return [(r.size, ← SizeSummary.add {} r)]
  | e :: es =>
    if r.size < e.1 then do return (r.size, ← SizeSummary.add {} r) :: e :: es
    else if r.size = e.1 then do return (e.1, ← e.2.add r) :: es
    else do return e :: (← addEntry r es)

def add (s : Summary) (r : Record) : Except Fault Summary := do
  return ⟨← addEntry r s.bySize⟩

def ofRecords (records : List Record) : Except Fault Summary := records.foldlM add {}

def instances (s : Summary) : Nat := s.bySize.foldl (fun n e => n + e.2.instances) 0

/-- One line of a table with six columns. -/
def tableLine (size instances mean greatest share unknown : String) : String :=
  "|  " ++ " ".intercalate [Decimal.padLeft 6 size, Decimal.padLeft 9 instances,
    Decimal.padLeft 12 mean, Decimal.padLeft 10 greatest, Decimal.padLeft 8 share,
    Decimal.padLeft 8 unknown] ++ "  |\n"

def sizeLine (size : Nat) (s : SizeSummary) : String :=
  tableLine (Decimal.text size) (Decimal.text s.instances) (Decimal.floatText 1 s.meanSteps)
    (Decimal.text s.maxSteps) (Decimal.floatText 1 (100.0 * s.satisfiableRatio))
    (Decimal.text s.unknown)

def table (s : Summary) : String :=
  "==========================[ Sweep Summary ]==========================\n" ++
    tableLine "size" "instances" "mean steps" "max steps" "sat %" "unknown" ++
    String.join (s.bySize.map fun e => sizeLine e.1 e.2) ++
    "=====================================================================\n"

end Summary

end SatSearch
