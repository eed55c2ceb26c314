import SatSearch.Proofs.CandidateMembership
import SatSearch.Proofs.LiteralTruth

/-!
# The first value of a variable stays

Literals are made true one after the other. The value of a variable is the one that the first literal
of it has asked for, and a later literal of it is refused exactly if it asks for the other value. So
an assignment exists for literals of which no two contradict each other, and it holds these literals
and no others.

The invariant is that the entries of an assignment are ascending and lie within its room.
-/

namespace SatSearch

/-- The value that the first literal of a variable asks for. -/
def firstSign? (ls : List Literal) (v : Nat) : Option Bool :=
  (ls.find? fun l => l.var = v).map Literal.isPositive

theorem firstSign?_cons (l : Literal) (ls : List Literal) (v : Nat) :
    firstSign? (l :: ls) v = if l.var = v then some l.isPositive else firstSign? ls v := by
  by_cases h : l.var = v <;> simp [firstSign?, h]

theorem exists_of_firstSign? {ls : List Literal} {v : Nat} {b : Bool}
    (h : firstSign? ls v = some b) : ∃ l ∈ ls, l.var = v ∧ l.isPositive = b := by
  obtain ⟨l, hl, hb⟩ := Option.map_eq_some_iff.1 h
  exact ⟨l, List.mem_of_find?_eq_some hl, by simpa using List.find?_some hl, hb⟩

theorem firstSign?_of_not_contradictory {ls : List Literal} (h : ¬Contradictory ls) {l : Literal} :
    firstSign? ls l.var = some l.isPositive ↔ l ∈ ls := by
  constructor
  · intro hfirst
    obtain ⟨k, hk, hv, hp⟩ := exists_of_firstSign? hfirst
    rwa [← Literal.eq_of_var_eq hv hp]
  · intro hl
    cases hfirst : firstSign? ls l.var with
    | none =>
      have hnone := List.find?_eq_none.1 (Option.map_eq_none_iff.1 hfirst) l hl
      simp at hnone
    | some b =>
      obtain ⟨k, hk, hv, rfl⟩ := exists_of_firstSign? hfirst
      by_contra hne
      exact h ⟨k, hk, l, hl, hv, fun hp => hne (congrArg some hp)⟩

theorem Literal.signed_var_eq_value (l : Literal) :
    (if l.isPositive then (l.var : Int) else -(l.var : Int)) = l.value := by
  have := l.value_ne_zero
  simp only [isPositive, var, decide_eq_true_eq]
  split <;> omega

namespace Assignment

variable {a : Assignment} {l : Literal} {v : Nat} {b : Bool} {es : List (Nat × Bool)}

/-- The assignment after some literals are made true, one after the other, as far as they are. -/
def after (a : Assignment) (ls : List Literal) : Assignment :=
  ls.foldl (fun a l => (a.assign l).2) a

theorem assign_fst_iff (a : Assignment) (l : Literal) : (a.assign l).1 = true ↔
    a.value? l.var = none ∨ a.value? l.var = some l.isPositive := by
  rw [assign_fst]
  cases a.value? l.var <;> simp

/-- A literal that is refused changes nothing. -/
theorem assign_snd_of_refused (h : (a.assign l).1 = false) : (a.assign l).2 = a := by
  unfold assign at h ⊢
  cases hv : a.value? l.var with
  | some b => rfl
  | none => simp [hv] at h

theorem value?_after (a : Assignment) (ls : List Literal) (v : Nat) :
    (a.after ls).value? v = (a.value? v).or (firstSign? ls v) := by
  induction ls generalizing a with
  | nil => simp [after, firstSign?]
  | cons l ls ih =>
    have hstep : a.after (l :: ls) = (a.assign l).2.after ls := rfl
    rw [hstep, ih, value?_assign, firstSign?_cons]
    by_cases hv : v = l.var
    · cases a.value? v <;> simp [hv]
    · rw [if_neg hv, if_neg (Ne.symm hv)]

/-- Literals that can all be made true are made true one after the other. -/
theorem eq_after_of_assignAll {m : Assignment} {ls : List Literal} (h : a.assignAll ls = some m) :
    m = a.after ls := by
  induction ls generalizing a with
  | nil =>
    cases h
    rfl
  | cons l ls ih =>
    simp only [assignAll] at h
    split at h
    · rename_i next hnext
      rw [ih h, after, after, List.foldl_cons, hnext]
    · cases h

/-! ### The entries -/

theorem lookup_eq_none_iff_not_mem : es.lookup v = none ↔ v ∉ es.map Prod.fst := by
  rw [List.lookup_eq_none_iff, List.mem_map]
  constructor
  · rintro h ⟨e, he, rfl⟩
    simpa using h e he
  · intro h e he
    rw [bne_iff_ne]
    rintro rfl
    exact h ⟨e, he, rfl⟩

theorem map_fst_insertEntry (h : v ∉ es.map Prod.fst) :
    (insertEntry v b es).map Prod.fst = insertAscending v (es.map Prod.fst) := by
  induction es with
  | nil => rfl
  | cons e es ih =>
    obtain ⟨hv, hvs⟩ := not_or.1 (List.mem_cons.not.1 h)
    simp only [insertEntry, List.map_cons, insertAscending, if_neg hv]
    split
    · rfl
    · rw [List.map_cons, ih hvs]

structure WellFormed (a : Assignment) : Prop where
  ascending : (a.entries.map Prod.fst).Pairwise (· < ·)
  lt_room : ∀ v ∈ a.entries.map Prod.fst, v < a.room

theorem WellFormed.lt_room_of_value? (h : a.WellFormed) (hv : a.value? v = some b) :
    v < a.room := by
  apply h.lt_room
  by_contra hmem
  cases hv.symm.trans (lookup_eq_none_iff_not_mem.2 hmem)

theorem WellFormed.assign (h : a.WellFormed) (l : Literal) : (a.assign l).2.WellFormed := by
  unfold Assignment.assign
  cases hv : a.value? l.var with
  | some b => exact h
  | none =>
    have hnew := map_fst_insertEntry (b := l.isPositive) (lookup_eq_none_iff_not_mem.1 hv)
    constructor
    · simp only [hnew]
      exact pairwise_insertAscending h.ascending
    · simp only [hnew, mem_insertAscending]
      rintro w (rfl | hw)
      · omega
      · have := h.lt_room w hw
        omega

/-- There is room for a literal afterwards, also if it is refused. -/
theorem WellFormed.room_assign (h : a.WellFormed) (l : Literal) :
    (a.assign l).2.room = max a.room (l.var + 1) := by
  unfold Assignment.assign
  cases hv : a.value? l.var with
  | some b => exact (Nat.max_eq_left (h.lt_room_of_value? hv)).symm
  | none => rfl

theorem WellFormed.after (h : a.WellFormed) (ls : List Literal) : (a.after ls).WellFormed := by
  induction ls generalizing a with
  | nil => exact h
  | cons l ls ih => exact ih (h.assign l)

theorem WellFormed.room_after (h : a.WellFormed) (ls : List Literal) :
    (a.after ls).room = ls.foldl (fun room l => max room (l.var + 1)) a.room := by
  induction ls generalizing a with
  | nil => rfl
  | cons l ls ih =>
    rw [List.foldl_cons, ← h.room_assign l]
    exact ih (h.assign l)

theorem WellFormed.mem_entries_iff (h : a.WellFormed) :
    (v, b) ∈ a.entries ↔ a.value? v = some b := by
  constructor
  · exact lookup_of_mem (h.ascending.imp Nat.ne_of_lt)
  · intro hv
    obtain ⟨before, rest, hsplit, -⟩ := List.lookup_eq_some_iff.1 hv
    rw [hsplit]
    exact List.mem_append_right before List.mem_cons_self

theorem wellFormed_of_room (room : Nat) : WellFormed ⟨room, []⟩ where
  ascending := .nil
  lt_room := by simp

theorem WellFormed.toInts_ascending (h : a.WellFormed) :
    a.toInts.Pairwise fun i j => i.natAbs < j.natAbs := by
  have hkeys : ((a.entries.filter fun e => e.1 ≤ maxVar).map Prod.fst).Pairwise (· < ·) :=
    h.ascending.sublist (List.filter_sublist.map Prod.fst)
  rw [toInts, List.pairwise_map]
  refine (List.pairwise_map.1 hkeys).imp fun hlt => ?_
  split <;> split <;> simpa using hlt

theorem literalValue?_eq_true_iff :
    a.literalValue? l = some true ↔ a.value? l.var = some l.isPositive := by
  rw [literalValue?, Option.map_eq_some_iff]
  constructor
  · rintro ⟨b, hb, heq⟩
    rw [hb, beq_iff_eq.1 heq]
  · intro hv
    exact ⟨_, hv, beq_self_eq_true _⟩

/-- The integers of an assignment are those of the literals that it makes true, but for the literal
whose variable has no other. -/
theorem WellFormed.mem_toInts_iff (h : a.WellFormed) (hzero : a.value? 0 = none) {i : Int} :
    i ∈ a.toInts ↔
      ∃ l : Literal, a.literalValue? l = some true ∧ l.value = i ∧ i ≠ -2147483648 := by
  simp only [toInts, List.mem_map, List.mem_filter, decide_eq_true_eq, literalValue?_eq_true_iff]
  constructor
  · rintro ⟨⟨v, b⟩, ⟨he, hle⟩, rfl⟩
    rw [h.mem_entries_iff] at he
    have hpos : 0 < v := by
      rw [Nat.pos_iff_ne_zero]
      rintro rfl
      cases hzero.symm.trans he
    let l := Literal.ofSign v b ⟨hpos, hle⟩
    refine ⟨l, ?_, rfl, ?_⟩
    · rw [Literal.var_ofSign, Literal.isPositive_ofSign, he]
    · exact l.value_ne_least_iff.2 (by rwa [Literal.var_ofSign])
  · rintro ⟨l, hl, rfl, hleast⟩
    refine ⟨(l.var, l.isPositive), ⟨h.mem_entries_iff.2 hl, ?_⟩, l.signed_var_eq_value⟩
    exact l.value_ne_least_iff.1 hleast

end Assignment

open Assignment in
/-- Literals are made true one after the other, starting without values. Each of them succeeds exactly
if the ones before give its variable no other value, and changes nothing if it fails. In the end each
variable has the value that its first literal asks for. So literals can be made true together exactly
if no two of them contradict each other; then they are the only literals that are true, and they are
listed by their variables, the literal -2147483648 excepted. -/
theorem assignment_keeps_first {n : Nat} (hn : n < maxCount) (ls : List Literal) :
    ∃ start, ofSize n = .ok start ∧
      (∀ before l, let a := start.after before
        ((a.assign l).1 = true ↔
          firstSign? before l.var = none ∨ firstSign? before l.var = some l.isPositive) ∧
        ((a.assign l).1 = false → (a.assign l).2 = a)) ∧
      (∀ v, (start.after ls).value? v = firstSign? ls v) ∧
      (start.after ls).room = ls.foldl (fun room l => max room (l.var + 1)) (n + 1) ∧
      (ofDecisions n ls = .ok none ↔ Contradictory ls) ∧
      (¬Contradictory ls → ∃ m, ofDecisions n ls = .ok (some m) ∧
        (∀ l, m.literalValue? l = some true ↔ l ∈ ls) ∧
        (m.toInts.Pairwise fun i j => i.natAbs < j.natAbs) ∧
        ∀ i, i ∈ m.toInts ↔ i ≠ -2147483648 ∧ ∃ l ∈ ls, l.value = i) := by
  let start : Assignment := ⟨n + 1, []⟩
  have hstart : start.WellFormed := wellFormed_of_room (n + 1)
  have hvalue (ls : List Literal) (v : Nat) : (start.after ls).value? v = firstSign? ls v := by
    rw [value?_after, value?, List.lookup_nil, Option.none_or]
  refine ⟨start, ofSize_eq hn, ?_, hvalue ls, hstart.room_after ls, ?_, ?_⟩
  · intro before l a
    rw [assign_fst_iff, hvalue]
    exact ⟨Iff.rfl, assign_snd_of_refused⟩
  · rcases ofDecisions_eq n hn ls with ⟨hc, hnone⟩ | ⟨hc, m, hm, -⟩
    · exact iff_of_true hnone hc
    · exact iff_of_false (fun hnone => by cases hm.symm.trans hnone) hc
  · intro hc
    rcases ofDecisions_eq n hn ls with ⟨hc', -⟩ | ⟨-, m, hm, -⟩
    · exact absurd hc' hc
    have hlast : m = start.after ls := by
      rw [ofDecisions_eq_assignAll hn] at hm
      exact eq_after_of_assignAll (Except.ok.inj hm)
    subst hlast
    have hwell := hstart.after ls
    have htrue (l : Literal) : (start.after ls).literalValue? l = some true ↔ l ∈ ls := by
      rw [literalValue?_eq_true_iff, hvalue, firstSign?_of_not_contradictory hc]
    have hzero : (start.after ls).value? 0 = none := by
      rw [hvalue, firstSign?, Option.map_eq_none_iff, List.find?_eq_none]
      intro l _
      simpa using Nat.ne_of_gt l.var_pos
    refine ⟨_, hm, htrue, hwell.toInts_ascending, fun i => ?_⟩
    rw [hwell.mem_toInts_iff hzero]
    constructor
    · rintro ⟨l, hl, hi, hne⟩
      exact ⟨hne, l, (htrue l).1 hl, hi⟩
    · rintro ⟨hne, l, hl, hi⟩
      exact ⟨l, (htrue l).2 hl, hi, hne⟩

open Assignment in
/-- The third literal is refused, and would have had its room. The second list names the variable 3
twice, which is listed once, and the variable 2147483648, which is not listed. -/
theorem assignment_keeps_first_beyond_room :
    let ls : List Literal := [.of 3, .of (-1), .of (-3)]
    let ks : List Literal := [.of 3, .of (-2147483648), .of (-1), .of 3]
    1 < maxCount ∧ ¬Contradictory ks ∧ ofDecisions 1 ls = .ok none ∧
      (∃ start, ofSize 1 = .ok start ∧
        ((start.after [.of 3, .of (-1)]).assign (.of (-3))).1 = false ∧
        (start.after ls).value? 3 = some true ∧ (start.after ls).room = 4) ∧
      ∃ m, ofDecisions 1 ks = .ok (some m) ∧ 3 ∈ m.toInts ∧ -1 ∈ m.toInts ∧
        -2147483648 ∉ m.toInts := by
  intro ls ks
  have hn : 1 < maxCount := by decide
  obtain ⟨start, hstart, hcalls, hvalue, hroom, hnone, -⟩ := assignment_keeps_first hn ls
  obtain ⟨-, -, -, -, -, -, hsome⟩ := assignment_keeps_first hn ks
  have hks : ¬Contradictory ks := by decide
  obtain ⟨m, hm, -, -, hints⟩ := hsome hks
  have hrefused : ((start.after [.of 3, .of (-1)]).assign (.of (-3))).1 = false := by
    rw [Bool.eq_false_iff, Ne, (hcalls [.of 3, .of (-1)] (.of (-3))).1]
    decide
  refine ⟨hn, hks, hnone.2 (by decide), ⟨start, hstart, hrefused, hvalue 3, hroom⟩, m, hm, ?_, ?_, ?_⟩
  · exact (hints 3).2 ⟨by decide, .of 3, by decide, rfl⟩
  · exact (hints (-1)).2 ⟨by decide, .of (-1), by decide, rfl⟩
  · exact fun hmem => ((hints _).1 hmem).1 rfl

end SatSearch
