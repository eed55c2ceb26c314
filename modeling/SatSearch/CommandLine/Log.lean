import SatSearch.Sweep.Grid

/-!
# The log

What is logged about searches and sweeps. A line has a level, the part of the program that it comes
from, a message, and named values.
-/

namespace SatSearch

inductive Level where
  | error
  | warn
  | info
  | debug
  | trace
deriving DecidableEq, Repr

namespace Level

def rank : Level → Nat
  | error => 0
  | warn => 1
  | info => 2
  | debug => 3
  | trace => 4

def name : Level → String
  | error => "ERROR"
  | warn => "WARN"
  | info => "INFO"
  | debug => "DEBUG"
  | trace => "TRACE"

/-- The least important level that is shown, by the number of requests for more and by whether
debugging was asked for. -/
def shown (verbosity : Nat) (debugging : Bool) : Level :=
  match verbosity with
  | 0 => if debugging then debug else warn
  | 1 => if debugging then debug else info
  | 2 => debug
  | _ => trace

end Level

/-- A line of the log. -/
structure LogLine where
  level : Level
  target : String
  message : String
  fields : List (String × String) := []
deriving DecidableEq, Repr

namespace LogLine

def searchTarget : String := "freq_sat::sat::backtrack"

def sweepTarget : String := "freq_sat::experiment::sweep"

def commandTarget : String := "freq_sat::command_line::cli"

/-- A character of a message as it is logged. The control characters that can steer a terminal are
spelled out by their numbers: bell, backspace, form feed, escape and delete, and the control
characters above ASCII. Tabs, line ends and all others stay. -/
def visible (c : Char) : String :=
  let digits := String.ofList [Nat.digitChar (c.toNat / 16), Nat.digitChar (c.toNat % 16)]
  if c.toNat ∈ [0x07, 0x08, 0x0c, 0x1b, 0x7f] then "\\x" ++ digits
  else if 0x80 ≤ c.toNat ∧ c.toNat ≤ 0x9f then "\\u\x7b" ++ digits ++ "\x7d"
  else c.toString

/-- The line as text, without the time. -/
def text (l : LogLine) : String :=
  l.level.name ++ " " ++ l.target ++ ": " ++ String.join (l.message.toList.map visible) ++
    String.join (l.fields.map fun f => " " ++ f.1 ++ "=" ++ f.2) ++ "\n"

/-- The lines for what happens in a search, after a number of steps. -/
def ofEvents (steps : Nat) : List Event → List LogLine
  | [] => []
  | .branch l depth :: rest =>
    { level := .trace, target := searchTarget, message := "branch"
      fields := [("literal", l.text), ("depth", Decimal.text depth),
        ("steps", Decimal.text (steps + 1))] } :: ofEvents (steps + 1) rest
  | .descend _ _ _ :: rest => ofEvents steps rest
  | .cut l depth :: rest =>
    { level := .trace, target := searchTarget, message := "false side repeats its parent"
      fields := [("literal", l.text), ("depth", Decimal.text depth)] } :: ofEvents steps rest

def ofOpening (c : Settings) (o : Opening) : List LogLine :=
  let warning := match o.unused with
    | none => []
    | some unused => [{
        level := .warn, target := searchTarget
        message := "candidate variables occur in no clause, " ++
          "the faithful reduction may accept an unsatisfiable formula"
        fields := [("first", Decimal.text unused.first), ("count", Decimal.text unused.count)] }]
  warning ++ [{
    level := .debug, target := searchTarget, message := "starting search"
    fields := [("clauses", Decimal.text o.clauses), ("candidates", Decimal.text o.candidates),
      ("reduction", c.reduction.name), ("selection", c.selection.name)] }]

def boolText (b : Bool) : String := if b then "true" else "false"

def ofSolution (s : Solution) : List LogLine :=
  [{ level := .debug, target := searchTarget, message := "search finished"
     fields := [("satisfiable", boolText s.satisfiable), ("steps", Decimal.text s.steps)] }]

def ofSearch (c : Settings) (o : Observation) : List LogLine :=
  (match o.opening with
    | some opening => ofOpening c opening
    | none => []) ++
  ofEvents 0 o.events ++
  (match o.result with
    | .ok s => ofSolution s
    | .error _ => [])

def ofNotice (c : Settings) : Notice → List LogLine
  | .skipped m n =>
    [{ level := .warn, target := sweepTarget
       message := "skipping point with fewer than 3 variables"
       fields := [("clauses", Decimal.text m), ("variables", Decimal.text n)] }]
  | .searched search => ofSearch c search
  | .recorded _ => []
  | .measured m n repeats =>
    [{ level := .info, target := sweepTarget, message := "point measured"
       fields := [("clauses", Decimal.text m), ("variables", Decimal.text n),
         ("repeats", Decimal.text repeats)] }]

def ofSweep (s : Sweep) : LogLine where
  level := .info
  target := commandTarget
  message := "starting sweep"
  fields := [("clauses", s.clauses.text), ("variables", s.vars.text),
    ("repeats", Decimal.text s.repeats), ("seed", Decimal.text s.seed.toNat)]

def warning (message : String) : LogLine :=
  { level := .warn, target := commandTarget, message }

end LogLine

end SatSearch
