import SatSearch.Formula
import SatSearch.Frequency.SlotTree

/-!
# Frequencies of literals

How often each literal occurs in a list of clauses, in the order of first appearance. The two signs
of a variable are counted apart, and repetitions within a clause count.
-/

namespace SatSearch

/-- A table of the literals that were counted, and at which position of it each of them stands. -/
structure Frequencies where
  table : Array (Literal × Nat)
  slots : SlotTree
deriving DecidableEq, Repr

namespace Frequencies

/-- The literals that were counted, each with its count, in the order of first appearance. -/
def entries (m : Frequencies) : List (Literal × Nat) := m.table.toList

/-- Counts an occurrence in the entry of its literal, or in a new one at the end. -/
def bump (m : Frequencies) (l : Literal) : Frequencies :=
  match m.slots.find? l with
  | some slot => { m with table := m.table.modify slot fun e => (e.1, e.2 + 1) }
  | none => ⟨m.table.push (l, 1), m.slots.insert l m.table.size⟩

def ofClauses (clauses : List Clause) : Frequencies :=
  (Formula.literalsOf clauses).foldl bump ⟨#[], .empty⟩

/-- The count of a literal, which is 0 where it does not occur. -/
def get (m : Frequencies) (l : Literal) : Nat :=
  match m.slots.find? l with
  | some slot => (m.table[slot]?.map Prod.snd).getD 0
  | none => 0

def size (m : Frequencies) : Nat := m.table.size

def isEmpty (m : Frequencies) : Bool := m.table.isEmpty

/-- The entry of the largest count; of several, the first. -/
def greatest? (m : Frequencies) : Option (Literal × Nat) :=
  m.entries.foldl (fun best e => match best with
    | some top => if top.2 < e.2 then some e else some top
    | none => some e) none

end Frequencies

/-- The most frequent literal, the first of several, together with all frequencies. -/
def mostFrequent? (clauses : List Clause) : Option (Literal × Frequencies) :=
  let m := Frequencies.ofClauses clauses
  m.greatest?.map fun e => (e.1, m)

end SatSearch
