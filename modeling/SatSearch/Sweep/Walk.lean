import SatSearch.Sweep.StepRange

/-!
# Walking through a range

The values of a range, taken one after the other in 64 bits. What is left is an unbroken span, and
the next value is found by passing over as many numbers as the stride leaves out. A number behind
the greatest count ends the walk, and so does one behind the end of the range; a span that ends with
a taken number is marked, because there may be no number after it.
-/

namespace SatSearch

/-- The numbers from `start` to `stop`, unless they have all been taken. -/
structure Span where
  start : Nat
  stop : Nat
  exhausted : Bool
deriving DecidableEq, Repr

namespace Span

def isEmpty (s : Span) : Bool := s.exhausted || s.stop < s.start

/-- Passes over some numbers and takes the next one. -/
def nth (s : Span) (passed : Nat) : Except Fault (Option Nat × Span) :=
  if s.isEmpty then .ok (none, s)
  else match addCounts s.start passed with
    | .error _ => .ok (none, ⟨s.stop, s.stop, true⟩)
    | .ok n =>
      if n < s.stop then do
        let next ← addCounts n 1
        return (some n, ⟨next, s.stop, false⟩)
      else if n = s.stop then .ok (some n, ⟨n, s.stop, true⟩)
      else .ok (none, ⟨s.stop, s.stop, true⟩)

end Span

/-- A walk through a span in strides. The first value is the first number of the span; before each
later value, `gap` numbers are passed over. -/
structure Walk where
  span : Span
  gap : Nat
  started : Bool
deriving DecidableEq, Repr

namespace Walk

/-- The next value, if there is one. -/
def next (w : Walk) : Except Fault (Option Nat × Walk) := do
  let (value, span) ← w.span.nth (if w.started then w.gap else 0)
  return (value, ⟨span, w.gap, true⟩)

/-- The walk takes these values and ends then, and nothing is added that is no count. -/
inductive Yields : Walk → List Nat → Prop where
  | done {w rest : Walk} (end_eq : w.next = .ok (none, rest)) : Yields w []
  | value {w rest : Walk} {v : Nat} {vs : List Nat} (next_eq : w.next = .ok (some v, rest))
      (tail : Yields rest vs) : Yields w (v :: vs)

end Walk

def StepRange.walk (r : StepRange) : Walk := ⟨⟨r.start, r.stop, false⟩, r.step - 1, false⟩

end SatSearch
