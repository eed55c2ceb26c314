import SatSearch.Literal

/-!
# Slots of literals

A table from literals to positions, kept as a search tree over the integers that the literals are.
-/

namespace SatSearch

/-- A search tree, of which the left side holds smaller literals and the right side larger ones. -/
inductive SlotTree where
  | empty
  | node (left : SlotTree) (l : Literal) (slot : Nat) (right : SlotTree)
deriving DecidableEq, Repr

namespace SlotTree

def find? : SlotTree → Literal → Option Nat
  | empty, _ => none
  | node left k slot right, l =>
    if l = k then some slot else if l.value < k.value then left.find? l else right.find? l

/-- Puts a literal into a slot, in place of the one that it had. -/
def insert : SlotTree → Literal → Nat → SlotTree
  | empty, l, slot => node empty l slot empty
  | node left k other right, l, slot =>
    if l = k then node left k slot right
    else if l.value < k.value then node (left.insert l slot) k other right
    else node left k other (right.insert l slot)

theorem find?_insert_self (t : SlotTree) (l : Literal) (slot : Nat) :
    (t.insert l slot).find? l = some slot := by
  induction t with
  | empty => simp [insert, find?]
  | node left j other right ihl ihr =>
    by_cases hj : l = j
    · simp [insert, find?, hj]
    · by_cases hlt : l.value < j.value <;> simp [insert, find?, hj, hlt, ihl, ihr]

theorem find?_insert_of_ne (t : SlotTree) {l k : Literal} (h : k ≠ l) (slot : Nat) :
    (t.insert l slot).find? k = t.find? k := by
  induction t with
  | empty => simp [insert, find?, h]
  | node left j other right ihl ihr =>
    by_cases hj : l = j
    · simp [insert, find?, hj, hj ▸ h]
    · by_cases hlt : l.value < j.value <;> simp [insert, find?, hj, hlt, ihl, ihr]

end SlotTree

end SatSearch
