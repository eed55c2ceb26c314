import SatSearch.Proofs.BranchingLiteral
import SatSearch.Proofs.LiteralTruth
import Mathlib.Algebra.GroupWithZero.Nat
import Mathlib.Data.List.Induction

/-!
# Frequencies are exact

Counting the literals of some clauses gives each literal that occurs one entry, in the order of
first appearance, with the number of its occurrences. Of these entries the choice of the most
frequent literal takes the first one that no other exceeds.
-/

namespace SatSearch

namespace Frequencies

theorem lookup_bumpEntry (l k : Literal) (es : List (Literal × Nat)) :
    ((bumpEntry l es).lookup k).getD 0 = (es.lookup k).getD 0 + if k = l then 1 else 0 := by
  induction es with
  | nil =>
    by_cases hk : k = l
    · simp [bumpEntry, hk]
    · simp [bumpEntry, List.lookup_cons, beq_false_of_ne hk, hk]
  | cons e es ih =>
    obtain ⟨j, n⟩ := e
    by_cases hj : j = l
    · subst hj
      by_cases hk : k = j
      · simp [bumpEntry, hk]
      · simp [bumpEntry, List.lookup_cons, beq_false_of_ne hk, hk]
    · simp only [bumpEntry, hj, if_false, List.lookup_cons]
      by_cases hk : k = j
      · have hkl : k ≠ l := hk ▸ hj
        simp [hk, hj]
      · simp only [beq_false_of_ne hk, ih]

theorem sum_bumpEntry (l : Literal) (es : List (Literal × Nat)) :
    ((bumpEntry l es).map Prod.snd).sum = (es.map Prod.snd).sum + 1 := by
  induction es with
  | nil => rfl
  | cons e es ih =>
    by_cases he : e.1 = l
    · simp only [bumpEntry, he, if_true, List.map_cons, List.sum_cons]
      omega
    · simp only [bumpEntry, he, if_false, List.map_cons, List.sum_cons, ih]
      omega

theorem Indexed.get_bump {m : Frequencies} (h : m.Indexed) (l k : Literal) :
    (m.bump l).get k = m.get k + if k = l then 1 else 0 := by
  rw [(h.bump l).get_eq, h.entries_bump, lookup_bumpEntry, h.get_eq]

/-- The entries count the literals of a list: each literal that occurs has one entry, in the order
of first appearance, with the number of its occurrences. -/
structure Counts (m : Frequencies) (ls : List Literal) : Prop where
  indexed : m.Indexed
  mem_keys_iff (l : Literal) : l ∈ m.keys ↔ l ∈ ls
  first_appearance : m.keys.Pairwise fun k l => ls.idxOf k < ls.idxOf l
  get_eq (l : Literal) : m.get l = ls.count l
  sum_eq : (m.entries.map Prod.snd).sum = ls.length

theorem counts_nil : Counts ⟨#[], .empty⟩ [] where
  indexed := indexed_empty
  mem_keys_iff _ := Iff.rfl
  first_appearance := .nil
  get_eq _ := rfl
  sum_eq := rfl

/-- One more literal is counted as it is read. -/
theorem Counts.bump {m : Frequencies} {ls : List Literal} (h : m.Counts ls) (l : Literal) :
    (m.bump l).Counts (ls ++ [l]) where
  indexed := h.indexed.bump l
  mem_keys_iff k := by
    rw [h.indexed.keys_bump, List.mem_append, List.mem_singleton, ← h.mem_keys_iff]
    split_ifs with hl
    · refine ⟨.inl, ?_⟩
      rintro (hk | rfl)
      · exact hk
      · exact hl
    · simp
  first_appearance := by
    have hold : ∀ k ∈ m.keys, (ls ++ [l]).idxOf k = ls.idxOf k := by
      intro k hk
      exact List.idxOf_append_of_mem ((h.mem_keys_iff k).1 hk)
    have hkeys : m.keys.Pairwise fun j k => (ls ++ [l]).idxOf j < (ls ++ [l]).idxOf k := by
      refine h.first_appearance.imp_of_mem ?_
      intro j k hj hk hlt
      rwa [hold j hj, hold k hk]
    rw [h.indexed.keys_bump]
    split_ifs with hl
    · exact hkeys
    · refine List.pairwise_append.2 ⟨hkeys, List.pairwise_singleton _ l, ?_⟩
      intro k hk j hj
      have hnew : l ∉ ls := mt (h.mem_keys_iff l).2 hl
      rw [List.mem_singleton.1 hj, hold k hk, List.idxOf_append_of_notMem hnew]
      have := List.idxOf_lt_length_of_mem ((h.mem_keys_iff k).1 hk)
      omega
  get_eq k := by
    rw [h.indexed.get_bump, h.get_eq, List.count_append, List.count_singleton]
    simp only [beq_iff_eq, eq_comm (a := l)]
  sum_eq := by
    rw [h.indexed.entries_bump, sum_bumpEntry, h.sum_eq, List.length_append, List.length_singleton]

theorem counts_ofClauses (clauses : List Clause) :
    (ofClauses clauses).Counts (Formula.literalsOf clauses) := by
  rw [ofClauses]
  induction Formula.literalsOf clauses using List.reverseRecOn with
  | nil => exact counts_nil
  | append_singleton ls l ih =>
    rw [List.foldl_append]
    exact ih.bump l

variable {m : Frequencies} {ls : List Literal}

theorem Counts.nodup_keys (h : m.Counts ls) : m.keys.Nodup := by
  refine h.first_appearance.imp ?_
  rintro k l hlt rfl
  exact Nat.lt_irrefl _ hlt

/-- The number in an entry is the count of its literal. -/
theorem Counts.get_of_mem (h : m.Counts ls) {e : Literal × Nat} (he : e ∈ m.entries) :
    m.get e.1 = e.2 := by
  rw [h.indexed.get_eq, lookup_of_mem h.nodup_keys he, Option.getD_some]

/-- The greatest entry exceeds all entries before it, and none after it exceeds it. -/
theorem exists_of_foldl_prefer {es : List (Literal × Nat)} {e : Literal × Nat}
    (h : es.foldl prefer none = some e) :
    ∃ before after, es = before ++ e :: after ∧ (∀ b ∈ before, b.2 < e.2) ∧
      ∀ a ∈ after, a.2 ≤ e.2 := by
  induction es using List.reverseRecOn generalizing e with
  | nil => cases h
  | append_singleton es last ih =>
    rw [List.foldl_append, List.foldl_cons, List.foldl_nil] at h
    cases htop : es.foldl prefer none with
    | none =>
      obtain ⟨-, rfl⟩ := (foldl_prefer_eq_none_iff es none).1 htop
      cases h
      exact ⟨[], [], rfl, by simp, by simp⟩
    | some top =>
      obtain ⟨before, after, rfl, hbefore, hafter⟩ := ih htop
      rw [htop, prefer] at h
      split_ifs at h with hlt
      · cases h
        refine ⟨before ++ top :: after, [], by simp, ?_, by simp⟩
        intro b hb
        rcases List.mem_append.1 hb with hb | hb
        · exact Nat.lt_trans (hbefore b hb) hlt
        · rcases List.mem_cons.1 hb with rfl | hb
          · exact hlt
          · exact Nat.lt_of_le_of_lt (hafter b hb) hlt
      · cases h
        refine ⟨before, after ++ [last], by simp, hbefore, ?_⟩
        intro a ha
        rcases List.mem_append.1 ha with ha | ha
        · exact hafter a ha
        · rw [List.mem_singleton.1 ha]
          exact Nat.le_of_not_lt hlt

end Frequencies

/-- The literal is a most frequent one of the list, and all others with as many occurrences appear
after it. -/
structure IsFirstMode (ls : List Literal) (l : Literal) : Prop where
  mem : l ∈ ls
  exceeds : ∀ k ∈ ls, k ≠ l →
    ls.count k < ls.count l ∨ ls.count k = ls.count l ∧ ls.idxOf l < ls.idxOf k

theorem IsFirstMode.unique {ls : List Literal} {k l : Literal} (hk : IsFirstMode ls k)
    (hl : IsFirstMode ls l) : k = l := by
  by_contra hne
  have hkl := hl.exceeds k hk.mem hne
  have hlk := hk.exceeds l hl.mem (Ne.symm hne)
  omega

theorem Frequencies.Counts.isFirstMode {m : Frequencies} {ls : List Literal} (h : m.Counts ls)
    {e : Literal × Nat} (he : m.greatest? = some e) : IsFirstMode ls e.1 := by
  have hcount {d : Literal × Nat} (hd : d ∈ m.entries) : ls.count d.1 = d.2 := by
    rw [← h.get_eq, h.get_of_mem hd]
  have hmem := mem_of_greatest? he
  obtain ⟨before, after, hentries, hbefore, hafter⟩ := exists_of_foldl_prefer he
  refine ⟨(h.mem_keys_iff e.1).1 (List.mem_map_of_mem hmem), ?_⟩
  intro k hk hne
  obtain ⟨d, hd, rfl⟩ := List.mem_map.1 ((h.mem_keys_iff k).2 hk)
  rw [hcount hd, hcount hmem]
  rw [hentries] at hd
  rcases List.mem_append.1 hd with hd | hd
  · exact .inl (hbefore d hd)
  · rcases List.mem_cons.1 hd with rfl | hd
    · exact absurd rfl hne
    · have horder := h.first_appearance
      rw [keys, hentries, List.map_append, List.map_cons] at horder
      have hlt := (List.pairwise_cons.1 (List.pairwise_append.1 horder).2.1).1 d.1
        (List.mem_map_of_mem hd)
      have hle := hafter d hd
      omega

theorem mostFrequent?_eq_none_iff {clauses : List Clause} :
    mostFrequent? clauses = none ↔ ∀ c ∈ clauses, c = [] := by
  rw [← List.flatten_eq_nil_iff, ← Formula.literalsOf,
    ← Selection.pick_eq_none_iff (s := .maxFrequency), Selection.pick, Option.map_eq_none_iff]

/-- The most frequent literal is chosen, the first one of several. -/
theorem mostFrequent?_eq_some_iff {clauses : List Clause} {l : Literal} {m : Frequencies} :
    mostFrequent? clauses = some (l, m) ↔
      m = .ofClauses clauses ∧ IsFirstMode (Formula.literalsOf clauses) l := by
  have hcounts := Frequencies.counts_ofClauses clauses
  rw [mostFrequent?, Option.map_eq_some_iff]
  constructor
  · rintro ⟨e, he, heq⟩
    cases heq
    exact ⟨rfl, hcounts.isFirstMode he⟩
  · rintro ⟨rfl, hl⟩
    cases he : (Frequencies.ofClauses clauses).greatest? with
    | none =>
      have hnil := Frequencies.greatest?_eq_none_iff.1 he
      have hkey := (hcounts.mem_keys_iff l).2 hl.mem
      simp [Frequencies.keys, hnil] at hkey
    | some e => exact ⟨e, rfl, by rw [(hcounts.isFirstMode he).unique hl]⟩

/-- The frequencies of some clauses list every literal that occurs, once and in the order of first
appearance, with the number of its occurrences. The most frequent literal is the first of those that
no other exceeds, and there is none only if no clause has a literal. -/
theorem frequencies_exact (clauses : List Clause) :
    let ls := Formula.literalsOf clauses
    let m := Frequencies.ofClauses clauses
    ((∀ l, l ∈ m.keys ↔ l ∈ ls) ∧ m.keys.Nodup ∧
        m.keys.Pairwise (fun k l => ls.idxOf k < ls.idxOf l) ∧
        ∀ e ∈ m.entries, e.2 = ls.count e.1) ∧
      (∀ l, m.get l = ls.count l) ∧ (∀ l ∉ ls, m.get l = 0) ∧
      (m.entries.map Prod.snd).sum = ls.length ∧
      (mostFrequent? clauses = none ↔ ∀ c ∈ clauses, c = []) ∧
      ∀ l counts, mostFrequent? clauses = some (l, counts) ↔ counts = m ∧ IsFirstMode ls l := by
  intro ls m
  have hcounts : m.Counts ls := Frequencies.counts_ofClauses clauses
  refine ⟨⟨hcounts.mem_keys_iff, hcounts.nodup_keys, hcounts.first_appearance, ?_⟩, hcounts.get_eq,
    ?_, hcounts.sum_eq, mostFrequent?_eq_none_iff, fun l counts => mostFrequent?_eq_some_iff⟩
  · intro e he
    rw [← hcounts.get_eq, hcounts.get_of_mem he]
  · intro l hl
    rw [hcounts.get_eq, List.count_eq_zero_of_not_mem hl]

/-- Both literals occur twice, and the larger one appears first. -/
example : (mostFrequent? [[.of 5, .of 4], [.of 4, .of 5]]).map (·.1) = some (.of 5) := by decide

end SatSearch
