import SatSearch.Frequency

/-!
# The slots of the frequencies

The slots that are kept beside the table spare a scan of it: the slot of a literal is the first
position at which the literal stands. So an occurrence is counted in the entry that a scan would
find, and a count is read off the entry that a scan would find.
-/

namespace SatSearch.Frequencies

def keys (m : Frequencies) : List Literal := m.entries.map Prod.fst

/-- Every literal has its first entry in its slot, and those without a slot have none. -/
def Indexed (m : Frequencies) : Prop := ∀ l, m.slots.find? l = m.keys.idxOf? l

def bumpEntry (l : Literal) : List (Literal × Nat) → List (Literal × Nat)
  | [] => [(l, 1)]
  | e :: es => if e.1 = l then (e.1, e.2 + 1) :: es else e :: bumpEntry l es

variable {l : Literal} {es : List (Literal × Nat)} {m : Frequencies}

theorem bumpEntry_of_idxOf?_eq_some {slot : Nat} (h : (es.map Prod.fst).idxOf? l = some slot) :
    bumpEntry l es = es.modify slot fun e => (e.1, e.2 + 1) := by
  induction es generalizing slot with
  | nil => cases h
  | cons e es ih =>
    rw [List.map_cons, List.idxOf?_cons] at h
    by_cases he : e.1 = l
    · have hslot : slot = 0 := by simpa [he] using h.symm
      simp [bumpEntry, he, hslot]
    · simp only [beq_iff_eq, he, if_false, Option.map_eq_some_iff] at h
      obtain ⟨next, hnext, rfl⟩ := h
      simp only [bumpEntry, he, if_false, ih hnext, List.modify_succ_cons]

theorem bumpEntry_of_idxOf?_eq_none (h : (es.map Prod.fst).idxOf? l = none) :
    bumpEntry l es = es ++ [(l, 1)] := by
  induction es with
  | nil => rfl
  | cons e es ih =>
    rw [List.map_cons, List.idxOf?_cons] at h
    by_cases he : e.1 = l
    · simp [he] at h
    · simp only [beq_iff_eq, he, if_false, Option.map_eq_none_iff] at h
      simp only [bumpEntry, he, if_false, ih h, List.cons_append]

theorem lookup_eq_of_idxOf? (l : Literal) (es : List (Literal × Nat)) :
    es.lookup l = ((es.map Prod.fst).idxOf? l).bind fun slot => es[slot]?.map Prod.snd := by
  induction es with
  | nil => rfl
  | cons e es ih =>
    obtain ⟨k, n⟩ := e
    rw [List.map_cons, List.idxOf?_cons, List.lookup_cons]
    by_cases hk : k = l
    · simp [hk]
    · simp only [beq_false_of_ne hk, beq_false_of_ne (Ne.symm hk), ih]
      cases (es.map Prod.fst).idxOf? l <;> simp

theorem indexed_empty : Indexed ⟨#[], .empty⟩ := fun _ => rfl

theorem entries_bump_of_slot {slot : Nat} (h : m.slots.find? l = some slot) :
    (m.bump l).entries = m.entries.modify slot fun e => (e.1, e.2 + 1) := by
  simp only [bump, h, entries, Array.toList_modify]

theorem entries_bump_of_no_slot (h : m.slots.find? l = none) :
    (m.bump l).entries = m.entries ++ [(l, 1)] := by
  simp only [bump, h, entries, Array.toList_push]

theorem Indexed.entries_bump (h : m.Indexed) (l : Literal) :
    (m.bump l).entries = bumpEntry l m.entries := by
  cases hslot : m.slots.find? l with
  | some slot =>
    rw [entries_bump_of_slot hslot, bumpEntry_of_idxOf?_eq_some ((h l).symm.trans hslot)]
  | none =>
    rw [entries_bump_of_no_slot hslot, bumpEntry_of_idxOf?_eq_none ((h l).symm.trans hslot)]

theorem keys_bump_of_slot {slot : Nat} (h : m.slots.find? l = some slot) :
    (m.bump l).keys = m.keys := by
  apply List.ext_getElem?
  intro i
  rw [keys, keys, entries_bump_of_slot h, List.getElem?_map, List.getElem?_map,
    List.getElem?_modify]
  cases m.entries[i]? with
  | none => rfl
  | some e =>
    by_cases hi : slot = i <;> simp [hi]

theorem keys_bump_of_no_slot (h : m.slots.find? l = none) : (m.bump l).keys = m.keys ++ [l] := by
  rw [keys, keys, entries_bump_of_no_slot h, List.map_append, List.map_singleton]

theorem Indexed.keys_bump (h : m.Indexed) (l : Literal) :
    (m.bump l).keys = if l ∈ m.keys then m.keys else m.keys ++ [l] := by
  cases hslot : m.slots.find? l with
  | some slot =>
    have hmem : l ∈ m.keys := List.isSome_idxOf?.1 (by rw [← h l, hslot, Option.isSome_some])
    rw [keys_bump_of_slot hslot, if_pos hmem]
  | none =>
    have hnew : l ∉ m.keys := List.idxOf?_eq_none_iff.1 ((h l).symm.trans hslot)
    rw [keys_bump_of_no_slot hslot, if_neg hnew]

theorem idxOf?_concat (ks : List Literal) (l k : Literal) :
    (ks ++ [l]).idxOf? k = (ks.idxOf? k).or (if l = k then some ks.length else none) := by
  rw [List.idxOf?, List.findIdx?_append, ← List.idxOf?]
  by_cases hk : l = k <;> simp [hk]

theorem Indexed.bump (h : m.Indexed) (l : Literal) : (m.bump l).Indexed := by
  intro k
  cases hslot : m.slots.find? l with
  | some slot =>
    have hslots : (m.bump l).slots = m.slots := by simp only [Frequencies.bump, hslot]
    rw [hslots, h k, keys_bump_of_slot hslot]
  | none =>
    have hslots : (m.bump l).slots = m.slots.insert l m.table.size := by
      simp only [Frequencies.bump, hslot]
    rw [hslots, keys_bump_of_no_slot hslot, idxOf?_concat, ← h k]
    by_cases hk : l = k
    · subst hk
      simp [SlotTree.find?_insert_self, hslot, keys, entries]
    · simp [SlotTree.find?_insert_of_ne _ (Ne.symm hk), hk]

theorem Indexed.get_eq (h : m.Indexed) (l : Literal) :
    m.get l = (m.entries.lookup l).getD 0 := by
  rw [get, h l, lookup_eq_of_idxOf?, keys]
  cases (m.entries.map Prod.fst).idxOf? l with
  | none => rfl
  | some slot => simp only [entries, Option.bind_some, Array.getElem?_toList]

end SatSearch.Frequencies
