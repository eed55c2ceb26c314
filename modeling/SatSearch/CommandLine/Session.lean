import SatSearch.CommandLine.FileTree
import SatSearch.CommandLine.Log
import SatSearch.CommandLine.Statistics

/-!
# Sessions

A session is the run of one command: the files that it sees and changes, what it has printed, and
the readings of the clock. The actions of a session may fail with a trouble, and keep what was done
before.
-/

namespace SatSearch

inductive Trouble where
  | failed (reason : String) (causes : List String)
  | faulted (fault : Fault)
deriving DecidableEq, Repr

namespace Trouble

/-- The trouble that an error is. A stream error is named again as the cause of its error. -/
def ofError (e : Error) : Trouble :=
  .failed e.message (match e with
    | .stream cause => [cause.message]
    | _ => [])

def ofFailure : Failure → Trouble
  | .error e => ofError e
  | .fault f => .faulted f

/-- The trouble as the cause of another one. -/
def within (context : String) : Trouble → Trouble
  | failed reason causes => .failed context (reason :: causes)
  | faulted fault => .faulted fault

/-- The causes, numbered if there are several. -/
def causeLines (causes : List String) : List String :=
  match causes with
  | [only] => ["    " ++ only ++ "\n"]
  | _ => causes.zipIdx.map fun (cause, i) => "    " ++ Decimal.text i ++ ": " ++ cause ++ "\n"

def message : Trouble → String
  | failed reason causes =>
    "Error: " ++ reason ++ "\n" ++
      (if causes.isEmpty then "" else "\nCaused by:\n" ++ String.join (causeLines causes))
  | faulted fault => "Fault: " ++ fault.message ++ "\n"

def exitCode : Trouble → Nat
  | failed _ _ => 1
  | faulted _ => 101

end Trouble

/-- What is read off clocks and meters during a session: the time to read a formula, in nanoseconds,
and the times of a search, by the number of searches before it, and the bytes of memory allocated and
resident. -/
structure Gauges where
  reading : Nat → Nat
  timing : Nat → Timing
  memory : Option (Nat × Nat)

def Gauges.still : Gauges := ⟨fun _ => 0, fun _ => .still, none⟩

structure Session where
  files : FileTree
  level : Level
  gauges : Gauges
  searches : Nat := 0
  out : String := ""
  err : String := ""

namespace Session

def print (text : String) (s : Session) : Session := { s with out := s.out ++ text }

def printError (text : String) (s : Session) : Session := { s with err := s.err ++ text }

def log (lines : List LogLine) (s : Session) : Session :=
  s.printError (String.join
    ((lines.filter fun l => l.level.rank ≤ s.level.rank).map LogLine.text))

end Session

/-- An action of a session. -/
abbrev Action (α : Type) := ExceptT Trouble (StateM Session) α

namespace Action

def print (text : String) : Action Unit := modify (Session.print text)

def printError (text : String) : Action Unit := modify (Session.printError text)

def log (lines : List LogLine) : Action Unit := modify (Session.log lines)

def liftFailure {α : Type} (x : Except Failure α) : Action α :=
  match x with
  | .ok a => pure a
  | .error e => throw (.ofFailure e)

def liftFault {α : Type} (x : Except Fault α) : Action α :=
  match x with
  | .ok a => pure a
  | .error e => throw (.faulted e)

/-- Goes on with a value, or fails with the cause of an error below its context. -/
def liftWithin {α : Type} (context : String) (x : Except Error α) : Action α :=
  match x with
  | .ok a => pure a
  | .error e => throw ((Trouble.ofError e).within context)

def writeFile (context path : String) (bytes : List UInt8) : Action Unit := do
  match (← get).files.write path bytes with
  | .ok files => modify fun s => { s with files }
  | .error cause => throw (.failed context [cause.message])

end Action

end SatSearch
