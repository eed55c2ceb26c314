import SatSearch.Proofs.DecimalRoundTrip

/-!
# Which words are integers

A numeral is a run of ASCII digits, and a signed numeral is a numeral behind at most one sign. The
reader of integers accepts the signed numerals of numbers within its range and no other words, and
gives their numbers; the reader of natural numbers knows no minus sign. Leading zeros and signs of
zero make other words for the same number.
-/

namespace SatSearch.Decimal

/-- A non-empty run of digits, and the number that it stands for. -/
inductive Numeral : List Char → Nat → Prop where
  | digit {d : Nat} (h : d < 10) : Numeral [digitChar d] d
  | snoc {ds : List Char} {n d : Nat} (h : Numeral ds n) (hd : d < 10) :
      Numeral (ds ++ [digitChar d]) (10 * n + d)

inductive UnsignedNumeral : List Char → Nat → Prop where
  | plain {ds : List Char} {n : Nat} (h : Numeral ds n) : UnsignedNumeral ds n
  | plus {ds : List Char} {n : Nat} (h : Numeral ds n) : UnsignedNumeral ('+' :: ds) n

inductive SignedNumeral : List Char → Int → Prop where
  | plain {ds : List Char} {n : Nat} (h : Numeral ds n) : SignedNumeral ds n
  | plus {ds : List Char} {n : Nat} (h : Numeral ds n) : SignedNumeral ('+' :: ds) n
  | minus {ds : List Char} {n : Nat} (h : Numeral ds n) : SignedNumeral ('-' :: ds) (-n)

theorem digitValue?_eq_some_iff {c : Char} {d : Nat} :
    digitValue? c = some d ↔ d < 10 ∧ c = digitChar d := by
  constructor
  · intro h
    obtain ⟨⟨hlow, hhigh⟩, hvalue⟩ := Option.ite_none_right_eq_some.1 h
    obtain rfl := Option.some.inj hvalue
    have hlow' : 48 ≤ c.toNat := hlow
    have hhigh' : c.toNat ≤ 57 := hhigh
    refine ⟨by omega, ?_⟩
    rw [digitChar, show 48 + (c.toNat - 48) = c.toNat by omega, Char.ofNat_toNat]
  · rintro ⟨hd, rfl⟩
    exact digitValue?_digitChar hd

theorem Numeral.ne_nil {ds : List Char} {n : Nat} (h : Numeral ds n) : ds ≠ [] := by
  cases h <;> simp

theorem Numeral.readDigits_eq {ds : List Char} {n : Nat} (h : Numeral ds n) :
    readDigits 0 ds = some n := by
  induction h with
  | digit hd => simp [readDigits, digitValue?_digitChar hd]
  | snoc _ hd ih =>
    rw [readDigits_append, ih]
    simp [readDigits, digitValue?_digitChar hd]

/-- Reading on behind a numeral gives a longer numeral. -/
theorem Numeral.append_of_readDigits {ds cs : List Char} {m n : Nat} (h : Numeral ds m)
    (hn : readDigits m cs = some n) : Numeral (ds ++ cs) n := by
  induction cs generalizing ds m with
  | nil =>
    cases hn
    rwa [List.append_nil]
  | cons c cs ih =>
    simp only [readDigits] at hn
    split at hn
    · rename_i d hread
      obtain ⟨hd, rfl⟩ := digitValue?_eq_some_iff.1 hread
      rw [← List.singleton_append, ← List.append_assoc]
      exact ih (h.snoc hd) hn
    · cases hn

theorem natural?_eq_some_iff {cs : List Char} {n : Nat} : natural? cs = some n ↔ Numeral cs n := by
  constructor
  · intro h
    cases cs with
    | nil => cases h
    | cons c cs =>
      simp only [natural?, readDigits] at h
      split at h
      · rename_i d hread
        obtain ⟨hd, rfl⟩ := digitValue?_eq_some_iff.1 hread
        rw [Nat.mul_zero, Nat.zero_add] at h
        exact (Numeral.digit hd).append_of_readDigits h
      · cases h
  · intro h
    obtain ⟨c, cs, rfl⟩ := List.exists_cons_of_ne_nil h.ne_nil
    exact h.readDigits_eq

/-- A numeral starts with a digit. -/
theorem Numeral.exists_eq_cons {ds : List Char} {n : Nat} (h : Numeral ds n) :
    ∃ d < 10, ∃ cs, ds = digitChar d :: cs := by
  induction h with
  | digit hd => exact ⟨_, hd, [], rfl⟩
  | snoc _ _ ih =>
    obtain ⟨d, hd, cs, rfl⟩ := ih
    exact ⟨d, hd, _, List.cons_append⟩

theorem Numeral.not_sign {c : Char} {cs : List Char} {n : Nat} (hc : c = '+' ∨ c = '-') :
    ¬Numeral (c :: cs) n := by
  have hsigns : ∀ d < 10, digitChar d ≠ '+' ∧ digitChar d ≠ '-' := by decide
  intro h
  obtain ⟨d, hd, rest, he⟩ := h.exists_eq_cons
  obtain ⟨hplus, hminus⟩ := hsigns d hd
  rw [(List.cons.inj he).1] at hc
  simp [hplus, hminus] at hc

theorem Numeral.exists_digit_of_mem {ds : List Char} {n : Nat} (h : Numeral ds n) {c : Char}
    (hc : c ∈ ds) : ∃ d < 10, c = digitChar d := by
  induction h with
  | @digit d hd => exact ⟨d, hd, List.mem_singleton.1 hc⟩
  | @snoc _ _ d _ hd ih =>
    rcases List.mem_append.1 hc with hc | hc
    · exact ih hc
    · exact ⟨d, hd, List.mem_singleton.1 hc⟩

theorem natural?_dropPlus_eq_some_iff {cs : List Char} {n : Nat} :
    natural? (dropPlus cs) = some n ↔ UnsignedNumeral cs n := by
  rw [natural?_eq_some_iff]
  constructor
  · intro h
    unfold dropPlus at h
    split at h
    · exact .plus h
    · exact .plain h
  · intro h
    cases h with
    | plain h =>
      have hplus : ∀ ds, cs = '+' :: ds → False :=
        fun ds he => Numeral.not_sign (.inl rfl) (he ▸ h)
      rw [dropPlus]
      · exact h
      · exact hplus
    | plus h => exact h

/-- The reader of natural numbers accepts exactly the numerals of the numbers up to its bound, with
or without a plus sign. -/
theorem unsigned?_eq_some_iff {greatest n : Nat} {cs : List Char} :
    unsigned? greatest cs = some n ↔ UnsignedNumeral cs n ∧ n ≤ greatest := by
  rw [unsigned?, Option.filter_eq_some_iff, natural?_dropPlus_eq_some_iff, decide_eq_true_eq]

theorem UnsignedNumeral.ne_nil {cs : List Char} {n : Nat} (h : UnsignedNumeral cs n) : cs ≠ [] := by
  cases h with
  | plain h => exact h.ne_nil
  | plus _ => exact List.cons_ne_nil _ _

theorem Numeral.isBlank_of_mem {ds : List Char} {n : Nat} (h : Numeral ds n) {c : Char}
    (hc : c ∈ ds) : Text.isBlank c = false := by
  obtain ⟨d, hd, rfl⟩ := h.exists_digit_of_mem hc
  exact isBlank_digitChar hd

theorem UnsignedNumeral.isBlank_of_mem {cs : List Char} {n : Nat} (h : UnsignedNumeral cs n)
    {c : Char} (hc : c ∈ cs) : Text.isBlank c = false := by
  cases h with
  | plain h => exact h.isBlank_of_mem hc
  | plus h =>
    rcases List.mem_cons.1 hc with rfl | hc
    · decide
    · exact h.isBlank_of_mem hc

variable {least greatest n : Int}

theorem signed?_minus_eq_some_iff {ds : List Char} : signed? least greatest ('-' :: ds) = some n ↔
    (∃ m : Nat, natural? ds = some m ∧ n = -(m : Int)) ∧ least ≤ n ∧ n ≤ greatest := by
  simp only [signed?, Option.filter_eq_some_iff, Bool.and_eq_true, decide_eq_true_eq]
  apply and_congr_left'
  cases natural? ds with
  | none => simp
  | some m => simp [eq_comm]

theorem signed?_eq_some_iff_of_not_minus {cs : List Char} (hcs : ∀ ds, cs ≠ '-' :: ds) :
    signed? least greatest cs = some n ↔
      (∃ m : Nat, natural? (dropPlus cs) = some m ∧ n = m) ∧ least ≤ n ∧ n ≤ greatest := by
  rw [signed?]
  · simp only [Option.filter_eq_some_iff, Bool.and_eq_true, decide_eq_true_eq]
    apply and_congr_left'
    cases natural? (dropPlus cs) with
    | none => simp
    | some m => simp [eq_comm]
  · exact hcs

/-- The reader of integers accepts exactly the signed numerals of the numbers in its range. -/
theorem signed?_eq_some_iff {cs : List Char} :
    signed? least greatest cs = some n ↔ SignedNumeral cs n ∧ least ≤ n ∧ n ≤ greatest := by
  by_cases hcs : ∃ ds, cs = '-' :: ds
  · obtain ⟨ds, rfl⟩ := hcs
    rw [signed?_minus_eq_some_iff]
    apply and_congr_left'
    constructor
    · rintro ⟨m, hm, rfl⟩
      exact .minus (natural?_eq_some_iff.1 hm)
    · intro h
      cases h with
      | plain h => exact absurd h (Numeral.not_sign (.inr rfl))
      | minus h => exact ⟨_, natural?_eq_some_iff.2 h, rfl⟩
  · rw [signed?_eq_some_iff_of_not_minus (not_exists.1 hcs)]
    apply and_congr_left'
    simp only [natural?_dropPlus_eq_some_iff]
    constructor
    · rintro ⟨m, hm, rfl⟩
      cases hm with
      | plain h => exact .plain h
      | plus h => exact .plus h
    · intro h
      cases h with
      | plain h => exact ⟨_, .plain h, rfl⟩
      | plus h => exact ⟨_, .plus h, rfl⟩
      | minus h => exact absurd ⟨_, rfl⟩ hcs

end SatSearch.Decimal
