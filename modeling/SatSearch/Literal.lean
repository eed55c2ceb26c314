import SatSearch.Error
import SatSearch.Text.Decimal

/-!
# Literals

A literal is a non-zero integer of 32 bits: its magnitude is a variable, and its sign says which
value of the variable makes the literal true.

The range is not symmetric. The literal -2147483648 has a variable that no positive literal names,
and negating it, as 32-bit integers are negated, gives it back.
-/

namespace SatSearch

/-- The largest variable that has a literal of either sign. -/
def maxVar : Nat := 2147483647

/-- A non-zero integer of 32 bits. -/
structure Literal where
  value : Int
  value_ne_zero : value ≠ 0
  le_value : -2147483648 ≤ value
  value_le : value ≤ 2147483647
deriving DecidableEq, Repr

namespace Literal

@[ext] theorem ext {a b : Literal} (h : a.value = b.value) : a = b := by
  cases a; cases b; simp_all

def of (n : Int) (h : n ≠ 0 ∧ -2147483648 ≤ n ∧ n ≤ 2147483647 := by decide) : Literal :=
  ⟨n, h.1, h.2.1, h.2.2⟩

/-- The literal that an integer is, unless it is 0 or out of range. -/
def ofInt? (n : Int) : Option Literal :=
  if h : n ≠ 0 ∧ -2147483648 ≤ n ∧ n ≤ 2147483647 then some ⟨n, h.1, h.2.1, h.2.2⟩ else none

/-- The literal of a variable that is true where the variable has the value `positive`. -/
def ofVar (var : Nat) (positive : Bool) : Except Fault Literal :=
  if maxVar < var then .error .variableOverflow
  else match ofInt? (if positive then (var : Int) else -(var : Int)) with
    | some l => .ok l
    | none => .error .zeroVariable

def var (l : Literal) : Nat := l.value.natAbs

/-- Whether the literal is true where its variable is. -/
def isPositive (l : Literal) : Bool := 0 < l.value

def isNegative (l : Literal) : Bool := !l.isPositive

/-- The negation of a 32-bit integer: the least one has no other integer to go to. -/
def negated (l : Literal) : Literal :=
  if h : l.value = -2147483648 then l
  else ⟨-l.value, by have := l.value_ne_zero; omega, by have := l.value_le; omega,
    by have := l.le_value; omega⟩

def text (l : Literal) : String := Decimal.signedText l.value

theorem var_pos (l : Literal) : 0 < l.var := by
  have := l.value_ne_zero
  simp only [var]
  omega

theorem ofInt?_value (l : Literal) : ofInt? l.value = some l := by
  simp [ofInt?, l.value_ne_zero, l.le_value, l.value_le]

theorem value_of_ofInt? {n : Int} {l : Literal} (h : ofInt? n = some l) : l.value = n := by
  unfold ofInt? at h
  split at h
  · cases h; rfl
  · cases h

@[simp] theorem negated_negated (l : Literal) : l.negated.negated = l := by
  apply Literal.ext
  by_cases h : l.value = -2147483648
  · simp [negated, h]
  · have h' : -l.value ≠ -2147483648 := by have := l.value_le; omega
    simp [negated, h, h']

@[simp] theorem var_negated (l : Literal) : l.negated.var = l.var := by
  simp only [negated, var]
  split <;> simp_all

end Literal

end SatSearch
