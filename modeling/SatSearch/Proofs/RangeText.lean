import SatSearch.Proofs.NumeralSyntax
import SatSearch.Sweep.StepRange
import Mathlib.Data.List.Forall2
import Mathlib.Data.List.TakeWhile

/-!
# The text of a range

A text stands for a range if it consists of one, two or three sizes between colons, each with any
white space around it. The reader accepts these texts and no others, unless the range is empty or
never moves. It says so by the numbers that it has read, and by the text itself where there is no
range to read. The writing of a range is read back.
-/

namespace SatSearch

namespace Text

theorem dropWhile_isBlank_append {front word : List Char}
    (hfront : ∀ c ∈ front, isBlank c = true) (hword : ∀ c ∈ word, isBlank c = false)
    (hne : word ≠ []) (back : List Char) :
    (front ++ (word ++ back)).dropWhile isBlank = word ++ back := by
  obtain ⟨c, cs, rfl⟩ := List.exists_cons_of_ne_nil hne
  have hc : isBlank c = false := hword c List.mem_cons_self
  rw [List.dropWhile_append_of_pos hfront, List.cons_append, List.dropWhile_cons_of_neg]
  simp [hc]

/-- What stands between white space is left. -/
theorem trim_append {front word back : List Char} (hfront : ∀ c ∈ front, isBlank c = true)
    (hback : ∀ c ∈ back, isBlank c = true) (hword : ∀ c ∈ word, isBlank c = false)
    (hne : word ≠ []) : trim (front ++ word ++ back) = word := by
  have hback' : ∀ c ∈ back.reverse, isBlank c = true := by simpa using hback
  have hword' : ∀ c ∈ word.reverse, isBlank c = false := by simpa using hword
  have hends := dropWhile_isBlank_append hback' hword' (by simpa using hne) []
  rw [List.append_nil] at hends
  rw [trim, List.append_assoc, dropWhile_isBlank_append hfront hword hne back, List.reverse_append,
    hends, List.reverse_reverse]

/-- Only white space is taken away, at the two ends. -/
theorem exists_eq_append_trim (cs : List Char) : ∃ front back, cs = front ++ trim cs ++ back ∧
    (∀ c ∈ front, isBlank c = true) ∧ ∀ c ∈ back, isBlank c = true := by
  let rest := cs.dropWhile isBlank
  have hrest : rest = trim cs ++ (rest.reverse.takeWhile isBlank).reverse := by
    rw [trim, ← List.reverse_append, List.takeWhile_append_dropWhile, List.reverse_reverse]
  refine ⟨cs.takeWhile isBlank, (rest.reverse.takeWhile isBlank).reverse, ?_, ?_, ?_⟩
  · rw [List.append_assoc, ← hrest, List.takeWhile_append_dropWhile]
  · exact fun c hc => List.mem_takeWhile_imp hc
  · exact fun c hc => List.mem_takeWhile_imp (List.mem_reverse.1 hc)

end Text

theorem not_mem_of_mem_splitOn {α : Type} [BEq α] [LawfulBEq α] {a : α} {xs piece : List α}
    (h : piece ∈ xs.splitOn a) : a ∉ piece := by
  induction xs generalizing piece with
  | nil => simp [List.mem_singleton.1 h]
  | cons x xs ih =>
    rw [List.splitOn_cons_eq_if_modifyHead] at h
    split at h
    · rcases List.mem_cons.1 h with rfl | h
      · exact List.not_mem_nil
      · exact ih h
    · rename_i hx
      obtain ⟨first, pieces, hxs⟩ := List.exists_cons_of_ne_nil (List.splitOn_ne_nil a xs)
      rw [hxs, List.modifyHead_cons] at h
      rcases List.mem_cons.1 h with rfl | h
      · have hne : a ≠ x := fun heq => hx (beq_iff_eq.2 heq.symm)
        exact List.not_mem_cons_of_ne_of_not_mem hne (ih (hxs ▸ List.mem_cons_self))
      · exact ih (hxs ▸ List.mem_cons_of_mem _ h)

theorem mapM_eq_some_iff {α β : Type} {f : α → Option β} {xs : List α} {ys : List β} :
    xs.mapM f = some ys ↔ List.Forall₂ (fun x y => f x = some y) xs ys := by
  induction xs generalizing ys with
  | nil => cases ys <;> simp
  | cons x xs ih =>
    cases ys with
    | nil => cases hx : f x <;> cases hxs : xs.mapM f <;> simp [List.mapM_cons, hx, hxs]
    | cons y ys =>
      rw [List.forall₂_cons, ← ih, List.mapM_cons]
      cases hx : f x <;> cases hxs : xs.mapM f <;> simp

namespace StepRange

def SpellsSize (part : List Char) (n : Nat) : Prop :=
  ∃ front word back, part = front ++ word ++ back ∧ (∀ c ∈ front, Text.isBlank c = true) ∧
    (∀ c ∈ back, Text.isBlank c = true) ∧ Decimal.UnsignedNumeral word n ∧ n ≤ maxCount

/-- The parts between colons are the sizes of a range. A step that is left out is 1, and an end that
is left out is the start. -/
inductive SpellsBounds : List (List Char) → (start stop step : Nat) → Prop where
  | one {p : List Char} {n : Nat} (only : SpellsSize p n) : SpellsBounds [p] n n 1
  | two {p q : List Char} {m n : Nat} (start : SpellsSize p m) (stop : SpellsSize q n) :
      SpellsBounds [p, q] m n 1
  | three {p q r : List Char} {m n k : Nat} (start : SpellsSize p m) (stop : SpellsSize q n)
      (step : SpellsSize r k) : SpellsBounds [p, q, r] m n k

theorem size?_eq_some_iff {part : List Char} {n : Nat} :
    size? part = some n ↔ SpellsSize part n := by
  rw [size?, Decimal.unsigned?_eq_some_iff]
  constructor
  · rintro ⟨hnumeral, hle⟩
    obtain ⟨front, back, hpart, hfront, hback⟩ := Text.exists_eq_append_trim part
    exact ⟨front, Text.trim part, back, hpart, hfront, hback, hnumeral, hle⟩
  · rintro ⟨front, word, back, rfl, hfront, hback, hnumeral, hle⟩
    rw [Text.trim_append hfront hback (fun c hc => hnumeral.isBlank_of_mem hc) hnumeral.ne_nil]
    exact ⟨hnumeral, hle⟩

theorem SpellsSize.of_digits {n : Nat} (h : n ≤ maxCount) : SpellsSize (Decimal.digits n) n :=
  ⟨[], Decimal.digits n, [], by simp, by simp, by simp,
    .plain (Decimal.natural?_eq_some_iff.1 (Decimal.natural?_digits n)), h⟩

section Reading

variable {text : String} {parts : List (List Char)} {start stop step : Nat}

theorem ofText_of_spellsBounds (hparts : text.toList.splitOn ':' = parts)
    (h : SpellsBounds parts start stop step) : ofText text = ofBounds start stop step := by
  rw [ofText, hparts]
  cases h with
  | one only => simp [size?_eq_some_iff.2 only]
  | two start stop => simp [size?_eq_some_iff.2 start, size?_eq_some_iff.2 stop]
  | three start stop step =>
    simp [size?_eq_some_iff.2 start, size?_eq_some_iff.2 stop, size?_eq_some_iff.2 step]

def Unreadable (parts : List (List Char)) : Prop :=
  (∃ part ∈ parts, ∀ n, ¬SpellsSize part n) ∨ 3 < parts.length

theorem SpellsBounds.not_unreadable (h : SpellsBounds parts start stop step) :
    ¬Unreadable parts := by
  rintro (⟨part, hpart, hnone⟩ | hmany)
  · have hall : ∀ part ∈ parts, ∃ n, SpellsSize part n := by
      cases h with
      | one only => simpa using ⟨_, only⟩
      | two start stop => simpa using ⟨⟨_, start⟩, _, stop⟩
      | three start stop step => simpa using ⟨⟨_, start⟩, ⟨_, stop⟩, _, step⟩
    obtain ⟨n, hn⟩ := hall part hpart
    exact hnone n hn
  · cases h <;> simp at hmany

theorem unreadable_or_exists_spellsBounds (hne : parts ≠ []) :
    Unreadable parts ∨ ∃ start stop step, SpellsBounds parts start stop step := by
  by_cases hall : ∀ part ∈ parts, ∃ n, SpellsSize part n
  · match parts with
    | [] => exact absurd rfl hne
    | [p] =>
      obtain ⟨n, hn⟩ := hall p (by simp)
      exact .inr ⟨n, n, 1, .one hn⟩
    | [p, q] =>
      obtain ⟨m, hm⟩ := hall p (by simp)
      obtain ⟨n, hn⟩ := hall q (by simp)
      exact .inr ⟨m, n, 1, .two hm hn⟩
    | [p, q, r] =>
      obtain ⟨m, hm⟩ := hall p (by simp)
      obtain ⟨n, hn⟩ := hall q (by simp)
      obtain ⟨k, hk⟩ := hall r (by simp)
      exact .inr ⟨m, n, k, .three hm hn hk⟩
    | _ :: _ :: _ :: _ :: _ => exact .inl (.inr (by simp))
  · simp only [not_forall, not_exists] at hall
    obtain ⟨part, hpart, hnone⟩ := hall
    exact .inl (.inl ⟨part, hpart, hnone⟩)

theorem ofText_of_unreadable (hparts : text.toList.splitOn ':' = parts) (h : Unreadable parts) :
    ofText text = .error (.invalidRange text) := by
  rw [ofText, hparts]
  split
  · rename_i n hread
    obtain ⟨p, _, hp, hnil, rfl⟩ := List.forall₂_cons_right_iff.1 (mapM_eq_some_iff.1 hread)
    cases hnil
    exact absurd h (SpellsBounds.one (size?_eq_some_iff.1 hp)).not_unreadable
  · rename_i m n hread
    obtain ⟨p, _, hp, hlater, rfl⟩ := List.forall₂_cons_right_iff.1 (mapM_eq_some_iff.1 hread)
    obtain ⟨q, _, hq, hnil, rfl⟩ := List.forall₂_cons_right_iff.1 hlater
    cases hnil
    have hbounds := SpellsBounds.two (size?_eq_some_iff.1 hp) (size?_eq_some_iff.1 hq)
    exact absurd h hbounds.not_unreadable
  · rename_i m n k hread
    obtain ⟨p, _, hp, hlater, rfl⟩ := List.forall₂_cons_right_iff.1 (mapM_eq_some_iff.1 hread)
    obtain ⟨q, _, hq, hlast, rfl⟩ := List.forall₂_cons_right_iff.1 hlater
    obtain ⟨r, _, hr, hnil, rfl⟩ := List.forall₂_cons_right_iff.1 hlast
    cases hnil
    have hbounds := SpellsBounds.three (size?_eq_some_iff.1 hp) (size?_eq_some_iff.1 hq)
      (size?_eq_some_iff.1 hr)
    exact absurd h hbounds.not_unreadable
  · rfl

end Reading

theorem ofBounds_eq_ok_iff {start stop step : Nat} {r : StepRange} :
    ofBounds start stop step = .ok r ↔ start = r.start ∧ stop = r.stop ∧ step = r.step := by
  constructor
  · intro h
    unfold ofBounds at h
    split at h
    · cases h
      exact ⟨rfl, rfl, rfl⟩
    · cases h
  · rintro ⟨rfl, rfl, rfl⟩
    exact dif_pos ⟨r.start_le_stop, r.step_pos⟩

theorem ofBounds_eq_error_iff {start stop step : Nat} {e : Error} :
    ofBounds start stop step = .error e ↔
      (stop < start ∨ step = 0) ∧ e = .invalidRange (textOf start stop step) := by
  unfold ofBounds
  split
  · rename_i h
    simp only [reduceCtorEq, false_iff, not_and]
    omega
  · rename_i h
    have hwrong : stop < start ∨ step = 0 := by omega
    simp [hwrong, eq_comm]

/-- The sizes of the parts are determined by them. -/
theorem SpellsBounds.unique {parts : List (List Char)} {start stop step start' stop' step' : Nat}
    (h : SpellsBounds parts start stop step) (h' : SpellsBounds parts start' stop' step') :
    start = start' ∧ stop = stop' ∧ step = step' := by
  have hsize {p : List Char} {m n : Nat} (hm : SpellsSize p m) (hn : SpellsSize p n) : m = n :=
    Option.some.inj ((size?_eq_some_iff.2 hm).symm.trans (size?_eq_some_iff.2 hn))
  cases h with
  | one only =>
    cases h' with
    | one only' => exact ⟨hsize only only', hsize only only', rfl⟩
  | two start stop =>
    cases h' with
    | two start' stop' => exact ⟨hsize start start', hsize stop stop', rfl⟩
  | three start stop step =>
    cases h' with
    | three start' stop' step' =>
      exact ⟨hsize start start', hsize stop stop', hsize step step'⟩

theorem toList_text (r : StepRange) : r.text.toList =
    Decimal.digits r.start ++ ':' :: (Decimal.digits r.stop ++ ':' :: Decimal.digits r.step) := by
  simp [text, textOf, Decimal.text]

theorem splitOn_text (r : StepRange) : r.text.toList.splitOn ':' =
    [Decimal.digits r.start, Decimal.digits r.stop, Decimal.digits r.step] := by
  have hdigits (n : Nat) : ':' ∉ Decimal.digits n := Decimal.not_mem_digits (by decide) n
  rw [toList_text, List.splitOn_append_cons_self_of_not_mem (hdigits _),
    List.splitOn_append_cons_self_of_not_mem (hdigits _), List.splitOn_eq_singleton (hdigits _)]

/-- Reading a range is reading the parts of its text between colons: their sizes are the range,
unless that is empty or never moves, and if there are no such sizes, the text itself is named. The
writing of a range is read back. -/
theorem range_text_exact :
    (∀ text : String, ∃ parts, [':'].intercalate parts = text.toList ∧ parts ≠ [] ∧
      (∀ part ∈ parts, ':' ∉ part) ∧
      (∀ r, ofText text = .ok r ↔ SpellsBounds parts r.start r.stop r.step) ∧
      ∀ e, ofText text = .error e ↔
        ((∃ part ∈ parts, ∀ n, ¬SpellsSize part n) ∨ 3 < parts.length) ∧
            e = .invalidRange text ∨
          ∃ start stop step, SpellsBounds parts start stop step ∧ (stop < start ∨ step = 0) ∧
            e = .invalidRange (textOf start stop step)) ∧
    ∀ start stop step r, stop ≤ maxCount → step ≤ maxCount → ofBounds start stop step = .ok r →
      ofText r.text = .ok r := by
  constructor
  · intro text
    have hne := List.splitOn_ne_nil ':' text.toList
    refine ⟨text.toList.splitOn ':', List.intercalate_splitOn ':', hne,
      fun part hpart => not_mem_of_mem_splitOn hpart, ?_⟩
    rcases unreadable_or_exists_spellsBounds hne with hunreadable | ⟨start, stop, step, hbounds⟩
    · rw [ofText_of_unreadable rfl hunreadable]
      refine ⟨fun r => ⟨fun h => (nomatch h), fun h => absurd hunreadable h.not_unreadable⟩,
        fun e => ⟨fun h => ?_, ?_⟩⟩
      · cases h
        exact .inl ⟨hunreadable, rfl⟩
      · rintro (⟨-, rfl⟩ | ⟨_, _, _, hbounds, -⟩)
        · rfl
        · exact absurd hunreadable hbounds.not_unreadable
    · rw [ofText_of_spellsBounds rfl hbounds]
      refine ⟨fun r => ?_, fun e => ?_⟩
      · rw [ofBounds_eq_ok_iff]
        refine ⟨?_, hbounds.unique⟩
        rintro ⟨rfl, rfl, rfl⟩
        exact hbounds
      · rw [ofBounds_eq_error_iff]
        refine ⟨fun ⟨hwrong, he⟩ => .inr ⟨start, stop, step, hbounds, hwrong, he⟩, ?_⟩
        rintro (⟨hunreadable, -⟩ | ⟨_, _, _, hbounds', hwrong, he⟩)
        · exact absurd hunreadable hbounds.not_unreadable
        · obtain ⟨rfl, rfl, rfl⟩ := hbounds.unique hbounds'
          exact ⟨hwrong, he⟩
  · intro start stop step r hstop hstep hr
    obtain ⟨rfl, rfl, rfl⟩ := ofBounds_eq_ok_iff.1 hr
    have hbounds := SpellsBounds.three (.of_digits (Nat.le_trans r.start_le_stop hstop))
      (.of_digits hstop) (.of_digits hstep)
    rw [ofText_of_spellsBounds r.splitOn_text hbounds, hr]

/-- The range with the greatest end and step, and another way to write it. -/
theorem range_text_exact_greatest_counts :
    ∃ r, maxCount ≤ maxCount ∧ ofBounds 0 maxCount maxCount = .ok r ∧ ofText r.text = .ok r ∧
      ofText " +000:18446744073709551615\t: 18446744073709551615" = .ok r := by
  let r : StepRange := ⟨0, maxCount, maxCount, Nat.zero_le _, by decide⟩
  have hr : ofBounds 0 maxCount maxCount = .ok r := rfl
  refine ⟨r, Nat.le_refl _, hr, ?_, by decide +kernel⟩
  exact range_text_exact.2 0 maxCount maxCount r (Nat.le_refl _) (Nat.le_refl _) hr

end StepRange

end SatSearch
