import SatSearch.Error
import SatSearch.Text.Blank
import SatSearch.Text.Decimal

/-!
# Ranges with a stride

A range is written `start:end:step` and holds `start`, `start + step` and so on up to `end`, which
is held if the stride lands on it. A range is never empty. Where it is read from text, the step may
be left out, and so may the end.
-/

namespace SatSearch

/-- The numbers from `start` to `stop` in strides of `step`. -/
structure StepRange where
  start : Nat
  stop : Nat
  step : Nat
  start_le_stop : start ≤ stop
  step_pos : 0 < step
deriving DecidableEq, Repr

namespace StepRange

def textOf (start stop step : Nat) : String :=
  Decimal.text start ++ ":" ++ Decimal.text stop ++ ":" ++ Decimal.text step

/-- The range of three numbers, unless it is empty or never moves. -/
def ofBounds (start stop step : Nat) : Except Error StepRange :=
  if h : start ≤ stop ∧ 0 < step then .ok ⟨start, stop, step, h.1, h.2⟩
  else .error (.invalidRange (textOf start stop step))

def text (r : StepRange) : String := textOf r.start r.stop r.step

/-- Reads a size, with white space at its ends. -/
def size? (part : List Char) : Option Nat := Decimal.unsigned? maxCount (Text.trim part)

/-- Reads a range from text: one, two or three sizes between colons. -/
def ofText (text : String) : Except Error StepRange :=
  match (text.toList.splitOn ':').mapM size? with
  | some [only] => ofBounds only only 1
  | some [start, stop] => ofBounds start stop 1
  | some [start, stop, step] => ofBounds start stop step
  | _ => .error (.invalidRange text)

def size (r : StepRange) : Nat := (r.stop - r.start) / r.step + 1

/-- The value at a position below the number of values. -/
def value (r : StepRange) (k : Nat) : Nat := r.start + k * r.step

def toList (r : StepRange) : List Nat := (List.range r.size).map r.value

def take (r : StepRange) (n : Nat) : List Nat := (List.range (min n r.size)).map r.value

theorem value_le_stop (r : StepRange) {k : Nat} (h : k < r.size) : r.value k ≤ r.stop := by
  have hk : k ≤ (r.stop - r.start) / r.step := by simp only [size] at h; omega
  have := Nat.le_div_iff_mul_le r.step_pos |>.1 hk
  have := r.start_le_stop
  simp only [value]
  omega

end StepRange

end SatSearch
