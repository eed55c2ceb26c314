import SatSearch.Error

/-!
# A source of random numbers

A source is a 64-bit state that advances by an odd constant, so it goes through all its states
before it repeats one. Each state gives a number by a wide multiplication whose two halves are
combined.

Numbers in a range are drawn by scaling a 32-bit number to the range and rejecting those for which
the scaling would favour some results. As a source has a period, a search for an acceptable number
is bounded by it.
-/

namespace SatSearch

structure Source where
  state : UInt64
deriving DecidableEq, Repr

namespace Source

def increment : UInt64 := 0x2d358dccaa6c78a5

/-- What the second factor of the multiplication differs by from the first. -/
def mask : UInt64 := 0x8bb84b93962eacc9

def period : Nat := 18446744073709551616

def rawCount : Nat := 4294967296

def advance (s : Source) : Source := ⟨s.state + increment⟩

/-- The 64-bit number that a state gives: both halves of a product of 128 bits, combined. -/
def output (s : Source) : UInt64 :=
  let product := s.state.toNat * (s.state ^^^ mask).toNat
  product.toUInt64 ^^^ (product >>> 64).toUInt64

/-- The next 32-bit number: the low half of the next output. -/
def next (s : Source) : Nat × Source := (s.advance.output.toNat % rawCount, s.advance)

/-- The first of the next numbers that is acceptable, looking at no more than `fuel` of them. -/
def find? (accept : Nat → Bool) : (fuel : Nat) → Source → Option (Nat × Source)
  | 0, _ => none
  | fuel + 1, s =>
    let (raw, rest) := s.next
    if accept raw then some (raw, rest) else find? accept fuel rest

/-- The first acceptable number of a whole period. -/
def findInPeriod (accept : Nat → Bool) (s : Source) : Except Fault (Nat × Source) :=
  match s.find? accept period with
  | some found => .ok found
  | none => .error .exhausted

/-- The number between 1 and `top` to which a 32-bit number is scaled. -/
def scale (top raw : Nat) : Nat := 1 + raw * top / rawCount

/-- Whether a 32-bit number may be scaled: the numbers that are left are shared equally by the
results. -/
def isFair (top raw : Nat) : Bool := (rawCount - top) % top ≤ raw * top % rawCount

def upTo (top : Nat) (s : Source) : Except Fault (Nat × Source) := do
  let (raw, rest) ← s.findInPeriod (isFair top)
  return (scale top raw, rest)

/-- A number between 1 and `top` that is not in a list. -/
def fresh (top : Nat) (taken : List Nat) (s : Source) : Except Fault (Nat × Source) := do
  let (raw, rest) ← s.findInPeriod fun raw => isFair top raw && !taken.contains (scale top raw)
  return (scale top raw, rest)

def bool (s : Source) : Bool × Source :=
  let (raw, rest) := s.next
  (raw % 2 = 0, rest)

end Source

end SatSearch
