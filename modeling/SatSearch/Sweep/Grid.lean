import SatSearch.Random.Generator
import SatSearch.Sweep.Record
import SatSearch.Sweep.StepRange

/-!
# Sweeps

A sweep measures random formulas over a grid of sizes: all numbers of clauses of one range with all
numbers of variables of another, several formulas at each point. All formulas come from one source,
so the seed determines them. Points with fewer than three variables are skipped.

What a sweep does is told to a listener, which keeps a state of its own and may refuse a record;
that ends the sweep.
-/

namespace SatSearch

structure Sweep where
  clauses : StepRange
  vars : StepRange
  repeats : Nat
  seed : UInt64
  settings : Settings

inductive Notice where
  | skipped (clauses vars : Nat)
  | searched (search : Observation)
  | recorded (record : Record)
  | measured (clauses vars repeats : Nat)

/-- Takes a notice into its state, or refuses it. -/
abbrev Listener (σ : Type) := Notice → σ → σ × Option Failure

namespace Sweep

def pointCount (s : Sweep) : Nat := s.clauses.size * s.vars.size

def point (s : Sweep) (k : Nat) : Nat × Nat :=
  (s.clauses.value (k / s.vars.size), s.vars.value (k % s.vars.size))

/-- All points, in the order in which they are measured. -/
def points (s : Sweep) : List (Nat × Nat) := (List.range s.pointCount).map s.point

/-- The first points, as many of them as there are up to a number. -/
def takePoints (s : Sweep) (n : Nat) : List (Nat × Nat) :=
  (List.range (min n s.pointCount)).map s.point

/-- The state of a sweep between two measurements. -/
structure Work (σ : Type) where
  source : Source
  recorded : Nat
  heard : σ

/-- The end of a sweep before its time: the state of the listener, and the reason. -/
structure Halt (σ : Type) where
  heard : σ
  reason : Failure

variable {σ : Type}

def tell (listen : Listener σ) (notice : Notice) (w : Work σ) : Except (Halt σ) (Work σ) :=
  match listen notice w.heard with
  | (heard, none) => .ok { w with heard }
  | (heard, some reason) => .error ⟨heard, reason⟩

/-- Measures one random formula. The candidates of its search are all variables up to `n`, whether
they occur or not. -/
def measure (s : Sweep) (timings : Nat → Timing) (listen : Listener σ) (m n : Nat) (w : Work σ) :
    Except (Halt σ) (Work σ) := do
  let (f, source) ← (w.source.formula m n).mapError (⟨w.heard, ·⟩)
  let timing := timings w.recorded
  let search := observe s.settings timing.due f (List.range' 1 n)
  let w ← tell listen (.searched search) { w with source }
  let record ← (Record.ofResult f n timing.total search.result).mapError (⟨w.heard, ·⟩)
  let w ← tell listen (.recorded record) w
  return { w with recorded := w.recorded + 1 }

def measureAll (s : Sweep) (timings : Nat → Timing) (listen : Listener σ) (m n : Nat) :
    (count : Nat) → Work σ → Except (Halt σ) (Work σ)
  | 0, w => .ok w
  | count + 1, w => do
    let w ← s.measure timings listen m n w
    measureAll s timings listen m n count w

/-- Measures or skips a point. More variables than can be drawn from end the sweep. -/
def visit (s : Sweep) (timings : Nat → Timing) (listen : Listener σ) (m n : Nat) (w : Work σ) :
    Except (Halt σ) (Work σ) :=
  if Source.maxTop < n then
    .error ⟨w.heard, .error (.invalidRange s.vars.text)⟩
  else if n < Source.clauseWidth then tell listen (.skipped m n) w
  else do
    let w ← s.measureAll timings listen m n s.repeats w
    tell listen (.measured m n s.repeats) w

def visitLast (s : Sweep) (timings : Nat → Timing) (listen : Listener σ) :
    (left : Nat) → Work σ → Except (Halt σ) (Work σ)
  | 0, w => .ok w
  | left + 1, w => do
    let (m, n) := s.point (s.pointCount - (left + 1))
    let w ← s.visit timings listen m n w
    visitLast s timings listen left w

/-- Runs a sweep. `timings` gives the readings of the clock by the number of the measurement. The
result is the last state of the listener and the number of records. -/
def listenTo (s : Sweep) (timings : Nat → Timing) (listen : Listener σ) (start : σ) :
    σ × Except Failure Nat :=
  match s.visitLast timings listen s.pointCount ⟨⟨s.seed⟩, 0, start⟩ with
  | .ok w => (w.heard, .ok w.recorded)
  | .error halt => (halt.heard, .error halt.reason)

/-- Runs a sweep, handing each record to a sink as soon as it is measured. -/
def run (s : Sweep) (timings : Nat → Timing) (sink : Record → σ → σ × Option Failure) (start : σ) :
    σ × Except Failure Nat :=
  s.listenTo timings (fun notice state => match notice with
    | .recorded record => sink record state
    | _ => (state, none)) start

def collect (s : Sweep) (timings : Nat → Timing) : Except Failure (List Record) :=
  match s.run timings (fun record records => (record :: records, none)) [] with
  | (records, .ok _) => .ok records.reverse
  | (_, .error failure) => .error failure

end Sweep

end SatSearch
