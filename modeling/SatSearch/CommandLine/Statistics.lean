import SatSearch.Search.Solve
import SatSearch.Text.Fixed

/-!
# Printed statistics

The block that follows a solved formula: the sizes of the problem, and what the search did. Times
and memory are printed as they were measured, in seconds and mebibytes; a time that stands alone is
printed exactly, in the largest unit that it reaches.
-/

namespace SatSearch

/-- Times in nanoseconds, and the bytes of memory allocated and resident. -/
structure Measures where
  reading : Nat
  search : Nat
  memory : Option (Nat × Nat)
deriving DecidableEq, Repr

namespace Statistics

def line (label value : String) : String :=
  "|  " ++ Decimal.padRight 28 label ++ " " ++ Decimal.padLeft 18 value ++ "  |\n"

def second : Nat := 1000000000

/-- A line with a label, a count, and the count per second of a time in nanoseconds. -/
def rateLine (label : String) (count nanoseconds : Nat) : String :=
  let rate := if nanoseconds = 0 then 0 else Decimal.roundDiv (count * second) nanoseconds
  "|  " ++ Decimal.padRight 20 label ++ " " ++ Decimal.padLeft 12 (Decimal.text count) ++
    " (" ++ Decimal.padLeft 9 (Decimal.text rate) ++ "/sec)  |\n"

def seconds (nanoseconds : Nat) : String := Decimal.fixedText 3 nanoseconds second

/-- A time in nanoseconds with the unit that suits it. -/
def elapsed (nanoseconds : Nat) : String :=
  if second ≤ nanoseconds then Decimal.exactText 9 nanoseconds ++ "s"
  else if 1000000 ≤ nanoseconds then Decimal.exactText 6 nanoseconds ++ "ms"
  else if 1000 ≤ nanoseconds then Decimal.exactText 3 nanoseconds ++ "µs"
  else Decimal.exactText 0 nanoseconds ++ "ns"

/-- An amount of memory in units of 1048576 bytes. -/
def mebibytes (bytes : Nat) : String := Decimal.fixedText 2 bytes 1048576

/-- The statistics of a solved formula, with the number of candidates that were listed. -/
def block (f : Formula) (candidates : Nat) (s : Solution) (n : CallCounts) (m : Measures) :
    String :=
  "\n=======================[ Problem Statistics ]=========================\n" ++
    line "Parse time (s)" (seconds m.reading) ++
    line "Variables" (Decimal.text f.numVars) ++
    line "Candidate variables" (Decimal.text candidates) ++
    line "Clauses" (Decimal.text f.clauses.length) ++
    line "Literals" (Decimal.text f.numLiterals) ++
    "========================[ Search Statistics ]========================\n" ++
    rateLine "Steps" s.steps m.search ++
    line "True-side descents" (Decimal.text n.trueDescents) ++
    line "False-side descents" (Decimal.text n.falseDescents) ++
    line "Max depth" (Decimal.text n.maxDepth) ++
    line "Decisions on path" (Decimal.text s.decisions.length) ++
    (match m.memory with
      | some (allocated, resident) =>
        line "Memory usage (MiB)" (mebibytes allocated) ++
          line "Resident memory (MiB)" (mebibytes resident)
      | none => "") ++
    line "CPU time (s)" (seconds m.search) ++
    "=====================================================================\n"

end Statistics

def Solution.text (s : Solution) : String :=
  "Solution \x7b satisfiable: " ++ (if s.satisfiable then "true" else "false") ++ ", steps: " ++
    Decimal.text s.steps ++ ", decisions: [" ++
    ", ".intercalate (s.decisions.map fun l => "Literal(" ++ l.text ++ ")") ++ "] \x7d"

end SatSearch
