/-!
# Rows of bits

A row of bits of a fixed length, kept as the ascending list of the positions that are set, so that
a long row with few set bits takes little room. The operations on ascending lists are those of a
set: adding keeps the order and adds nothing twice, and looking for a number ends at the first one
that is not smaller.
-/

namespace SatSearch

/-- Adds a number to an ascending list, unless it is there already. -/
def insertAscending (n : Nat) : List Nat → List Nat
  | [] => [n]
  | m :: ms => if n < m then n :: m :: ms else if n = m then m :: ms else m :: insertAscending n ms

@[simp] theorem mem_insertAscending {n k : Nat} {ms : List Nat} :
    k ∈ insertAscending n ms ↔ k = n ∨ k ∈ ms := by
  induction ms with
  | nil => simp [insertAscending]
  | cons m ms ih => simp only [insertAscending]; grind

def memAscending (n : Nat) : List Nat → Bool
  | [] => false
  | m :: ms => if m < n then memAscending n ms else n = m

theorem mem_of_memAscending {n : Nat} {ms : List Nat} (h : memAscending n ms = true) : n ∈ ms := by
  induction ms with
  | nil => cases h
  | cons m ms ih =>
    simp only [memAscending] at h
    split at h
    · exact List.mem_cons_of_mem _ (ih h)
    · exact List.mem_cons.2 (.inl (by simpa using h))

structure BitRow where
  length : Nat
  ones : List Nat
deriving DecidableEq, Repr

namespace BitRow

def zeros (length : Nat) : BitRow := ⟨length, []⟩

def get (r : BitRow) (i : Nat) : Bool := memAscending i r.ones

def set (r : BitRow) (i : Nat) : BitRow :=
  if i < r.length then { r with ones := insertAscending i r.ones } else r

def clear (r : BitRow) (i : Nat) : BitRow := { r with ones := r.ones.erase i }

def count (r : BitRow) : Nat := r.ones.length

end BitRow

end SatSearch
