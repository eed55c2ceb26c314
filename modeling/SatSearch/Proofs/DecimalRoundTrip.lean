import SatSearch.Text.Blank
import SatSearch.Text.Decimal

/-!
# Written numbers are read back

Reading the decimal writing of a number gives the number, if it is in the range that is asked for. A
written number consists of digits, after a minus sign if it is negative, so white space and the signs
of other formats do not occur in it.
-/

namespace SatSearch.Decimal

theorem digitValue?_digitChar {d : Nat} (h : d < 10) : digitValue? (digitChar d) = some d := by
  have hall : ∀ d < 10, digitValue? (digitChar d) = some d := by decide
  exact hall d h

theorem readDigits_append (value : Nat) (cs ds : List Char) :
    readDigits value (cs ++ ds) = (readDigits value cs).bind (readDigits · ds) := by
  induction cs generalizing value with
  | nil => rfl
  | cons c cs ih =>
    rw [List.cons_append, readDigits, readDigits]
    cases digitValue? c with
    | none => rfl
    | some d => exact ih _

theorem readDigits_digits (n : Nat) : readDigits 0 (digits n) = some n := by
  induction n using Nat.strongRecOn with
  | ind n ih =>
    rw [digits]
    split
    · rename_i hn
      simp [readDigits, digitValue?_digitChar hn]
    · have hlast : n % 10 < 10 := Nat.mod_lt n (by decide)
      rw [readDigits_append, ih (n / 10) (by omega)]
      simp only [Option.bind_some, readDigits, digitValue?_digitChar hlast, Option.some.injEq]
      omega

theorem mem_digits {n : Nat} {c : Char} (h : c ∈ digits n) : ∃ d < 10, c = digitChar d := by
  induction n using Nat.strongRecOn with
  | ind n ih =>
    rw [digits] at h
    split at h
    · rename_i hn
      exact ⟨n, hn, List.mem_singleton.1 h⟩
    · rcases List.mem_append.1 h with h | h
      · exact ih (n / 10) (by omega) h
      · exact ⟨n % 10, Nat.mod_lt n (by decide), List.mem_singleton.1 h⟩

theorem exists_digits_eq_cons (n : Nat) : ∃ d < 10, ∃ cs, digits n = digitChar d :: cs := by
  have hne : digits n ≠ [] := by
    rw [digits]
    split <;> simp
  obtain ⟨c, cs, hcs⟩ := List.exists_cons_of_ne_nil hne
  obtain ⟨d, hd, rfl⟩ := mem_digits (c := c) (n := n) (by simp [hcs])
  exact ⟨d, hd, cs, hcs⟩

theorem natural?_digits (n : Nat) : natural? (digits n) = some n := by
  obtain ⟨d, -, cs, hcs⟩ := exists_digits_eq_cons n
  rw [hcs, natural?, ← hcs, readDigits_digits]

theorem digits_inj {m n : Nat} : digits m = digits n ↔ m = n := by
  refine ⟨fun h => ?_, fun h => congrArg digits h⟩
  have hread := natural?_digits m
  rw [h, natural?_digits] at hread
  exact (Option.some.inj hread).symm

theorem text_inj {m n : Nat} : text m = text n ↔ m = n := by
  rw [text, text, String.ofList_inj, digits_inj]

theorem not_mem_digits {c : Char} (h : ∀ d < 10, c ≠ digitChar d) (n : Nat) : c ∉ digits n := by
  intro hmem
  obtain ⟨d, hd, heq⟩ := mem_digits hmem
  exact h d hd heq

theorem dropPlus_digits (n : Nat) : dropPlus (digits n) = digits n := by
  have hplus : ∀ d < 10, digitChar d ≠ '+' := by decide
  obtain ⟨d, hd, cs, hcs⟩ := exists_digits_eq_cons n
  rw [hcs, dropPlus]
  simp [hplus d hd]

theorem signed?_signedDigits {least greatest n : Int} (hl : least ≤ n) (hg : n ≤ greatest) :
    signed? least greatest (signedDigits n) = some n := by
  have hrange {m : Int} (hm : m = n) :
      (some m).filter (fun k => least ≤ k && k ≤ greatest) = some n := by
    simp [hm, hl, hg]
  unfold signedDigits
  split
  · have hneg : -((n.natAbs : Nat) : Int) = n := by omega
    simp only [signed?, natural?_digits]
    exact hrange hneg
  · have hpos : ((n.natAbs : Nat) : Int) = n := by omega
    have hminus : ∀ d < 10, digitChar d ≠ '-' := by decide
    obtain ⟨d, hd, cs, hcs⟩ := exists_digits_eq_cons n.natAbs
    have hdrop := dropPlus_digits n.natAbs
    have hread := natural?_digits n.natAbs
    rw [hcs] at hdrop hread ⊢
    rw [signed?]
    · simp only [hdrop, hread]
      exact hrange hpos
    · exact fun ds h => hminus d hd (List.cons.inj h).1

theorem mem_signedDigits {n : Int} {c : Char} (h : c ∈ signedDigits n) :
    c = '-' ∨ ∃ d < 10, c = digitChar d := by
  unfold signedDigits at h
  split at h
  · rcases List.mem_cons.1 h with rfl | h
    · exact .inl rfl
    · exact .inr (mem_digits h)
  · exact .inr (mem_digits h)

theorem signedDigits_ne_nil (n : Int) : signedDigits n ≠ [] := by
  obtain ⟨d, -, cs, hcs⟩ := exists_digits_eq_cons n.natAbs
  unfold signedDigits
  split <;> simp [hcs]

theorem isBlank_digitChar {d : Nat} (h : d < 10) : Text.isBlank (digitChar d) = false := by
  have hall : ∀ d < 10, Text.isBlank (digitChar d) = false := by decide
  exact hall d h

theorem isBlank_of_mem_digits {n : Nat} {c : Char} (h : c ∈ digits n) :
    Text.isBlank c = false := by
  obtain ⟨d, hd, rfl⟩ := mem_digits h
  exact isBlank_digitChar hd

theorem isBlank_of_mem_signedDigits {n : Int} {c : Char} (h : c ∈ signedDigits n) :
    Text.isBlank c = false := by
  unfold signedDigits at h
  split at h
  · rcases List.mem_cons.1 h with rfl | h
    · decide
    · exact isBlank_of_mem_digits h
  · exact isBlank_of_mem_digits h

end SatSearch.Decimal
