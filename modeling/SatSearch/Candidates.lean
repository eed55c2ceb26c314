import SatSearch.Candidates.BitRow
import SatSearch.Literal

/-!
# Candidate sets

The variables that a search may still branch on. A row of bits holds those up to a bound, usually
the largest variable of a formula, and an ascending list holds the few beyond it; the number of
members is kept beside them.
-/

namespace SatSearch

/-- A finite set of variables. `bits` holds those below its length, and `beyond` the others in
ascending order. -/
structure CandidateSet where
  bits : BitRow
  beyond : List Nat
  size : Nat
deriving DecidableEq, Repr

namespace CandidateSet

/-- The set without members whose row of bits has the given length. The length may be any count:
memory is taken to be unbounded, so no row is too long to allocate. -/
def empty (length : Nat) : CandidateSet := ⟨.zeros length, [], 0⟩

def contains (s : CandidateSet) (v : Nat) : Bool :=
  if v < s.bits.length then s.bits.get v else memAscending v s.beyond

def insert (s : CandidateSet) (v : Nat) : CandidateSet :=
  if s.contains v then s
  else if v < s.bits.length then { s with bits := s.bits.set v, size := s.size + 1 }
  else { s with beyond := insertAscending v s.beyond, size := s.size + 1 }

def erase (s : CandidateSet) (v : Nat) : CandidateSet :=
  if !s.contains v then s
  else if v < s.bits.length then { s with bits := s.bits.clear v, size := s.size - 1 }
  else { s with beyond := s.beyond.erase v, size := s.size - 1 }

def remove (s : CandidateSet) (v : Nat) : Bool × CandidateSet := (s.contains v, s.erase v)

def isEmpty (s : CandidateSet) : Bool := s.size = 0

def members (s : CandidateSet) : List Nat := s.bits.ones ++ s.beyond

/-- Whether literals of both signs name this variable. -/
def isVariable (v : Nat) : Bool := 0 < v && v ≤ maxVar

/-- The set of the listed variables, with a row of bits for the variables up to `bound`. The first
entry that is no variable is refused. -/
def ofListBounded (vars : List Nat) (bound : Nat) : Except Failure CandidateSet :=
  match vars.find? (!isVariable ·) with
  | some v => .error (.error (.invalidVariable v))
  | none => match addCounts bound 1 with
    | .ok length => .ok (vars.foldr (fun v s => s.insert v) (empty length))
    | .error f => .error (.fault f)

def ofList (vars : List Nat) : Except Failure CandidateSet := ofListBounded vars vars.length

theorem length_members_erase_lt {s : CandidateSet} {v : Nat} (h : s.contains v = true) :
    (s.erase v).members.length < s.members.length := by
  have fewer {xs : List Nat} (hv : v ∈ xs) : (xs.erase v).length < xs.length := by
    have := List.length_pos_of_mem hv
    rw [List.length_erase_of_mem hv]
    omega
  by_cases hv : v < s.bits.length
  · have hm : v ∈ s.bits.ones := mem_of_memAscending (by simpa [contains, hv, BitRow.get] using h)
    have := fewer hm
    simp only [erase, h, hv, members, BitRow.clear, List.length_append]
    simpa using this
  · have hm : v ∈ s.beyond := mem_of_memAscending (by simpa [contains, hv] using h)
    have := fewer hm
    simp only [erase, h, hv, members, List.length_append]
    simpa using this

/-- Removing a variable that is no member changes nothing. -/
theorem erase_of_not_contains {s : CandidateSet} {v : Nat} (h : s.contains v = false) :
    s.erase v = s := by
  simp [erase, h]

end CandidateSet

end SatSearch
