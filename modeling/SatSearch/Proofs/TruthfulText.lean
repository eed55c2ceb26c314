import SatSearch.Proofs.DimacsRoundTrip
import SatSearch.Proofs.ReportText

/-!
# Texts without a bad verdict

A bad verdict is told by the two words `Verified: false`. Of all that a report prints, only a verdict
and the label of a number of variables have a capital V. A text in which each of them goes on as it
should has no bad verdict, and neither has a text that is composed of such texts.
-/

namespace SatSearch.CommandLine

/-- Each `V` in the text begins to speak of variables, or begins a good verdict. -/
def truthful : List Char → Bool
  | [] => true
  | c :: cs =>
    (c ≠ 'V' || "Va".toList.isPrefixOf (c :: cs) || "Verified: true".toList.isPrefixOf (c :: cs)) &&
      truthful cs

theorem truthful_of_not_mem {cs : List Char} (h : 'V' ∉ cs) : truthful cs = true := by
  induction cs with
  | nil => rfl
  | cons c cs ih =>
    obtain ⟨hc, hcs⟩ := not_or.1 (List.mem_cons.not.1 h)
    simp [truthful, Ne.symm hc, ih hcs]

theorem truthful_append {cs ds : List Char} (hcs : truthful cs = true) (hds : truthful ds = true) :
    truthful (cs ++ ds) = true := by
  induction cs with
  | nil => exact hds
  | cons c cs ih =>
    simp only [truthful, Bool.and_eq_true, Bool.or_eq_true, List.isPrefixOf_iff_prefix] at hcs
    have hlonger {word : List Char} (h : word <+: c :: cs) : word <+: c :: (cs ++ ds) :=
      h.trans (List.prefix_append (c :: cs) ds)
    simp only [List.cons_append, truthful, Bool.and_eq_true, Bool.or_eq_true,
      List.isPrefixOf_iff_prefix]
    exact ⟨hcs.1.imp (Or.imp_right hlonger) hlonger, ih hcs.2⟩

theorem truthful_of_append {cs ds : List Char} (h : truthful (cs ++ ds) = true) :
    truthful ds = true := by
  induction cs with
  | nil => exact h
  | cons c cs ih => exact ih (Bool.and_eq_true_iff.1 h).2

theorem not_truthful_bad_verdict (after : List Char) :
    truthful ("Verified: false".toList ++ after) = false := by
  simp [truthful, List.isPrefixOf]

/-- Each `V` in the text goes on as it should, so the text adds no bad verdict to one that it is part
of. -/
def Truthful (s : String) : Prop := truthful s.toList = true

namespace Truthful

variable {s t : String}

theorem append (hs : Truthful s) (ht : Truthful t) : Truthful (s ++ t) := by
  rw [Truthful, String.toList_append]
  exact truthful_append hs ht

/-- The characters of a text that is written down in a definition can be looked through. -/
theorem ofList {cs : List Char} (h : truthful cs = true) : Truthful (.ofList cs) := by
  rw [Truthful, String.toList_ofList]
  exact h

theorem between {before after : List Char} (hbefore : truthful before = true) (hs : Truthful s)
    (hafter : truthful after = true) : Truthful (.ofList before ++ s ++ .ofList after) :=
  ((ofList hbefore).append hs).append (ofList hafter)

theorem ite {p : Prop} [Decidable p] (hs : Truthful s) (ht : Truthful t) :
    Truthful (if p then s else t) := by
  split
  · exact hs
  · exact ht

theorem join {texts : List String} (h : ∀ s ∈ texts, Truthful s) :
    Truthful (String.join texts) := by
  induction texts with
  | nil => exact ofList (by decide)
  | cons s texts ih =>
    rw [String.join_cons]
    exact (h s List.mem_cons_self).append (ih fun t ht => h t (List.mem_cons_of_mem _ ht))

theorem intercalate {texts : List String} (hs : Truthful s) (h : ∀ t ∈ texts, Truthful t) :
    Truthful (s.intercalate texts) := by
  induction texts with
  | nil => rfl
  | cons t texts ih =>
    have hrest := ih fun u hu => h u (List.mem_cons_of_mem _ hu)
    cases texts with
    | nil => simpa using h t List.mem_cons_self
    | cons u texts =>
      rw [String.intercalate_cons_cons]
      exact ((h t List.mem_cons_self).append hs).append hrest

/-- A truthful text says nowhere that an answer was found to be wrong. -/
theorem ne_append (h : Truthful s) (before after : String) :
    s ≠ before ++ "Verified: false" ++ after := by
  rintro rfl
  rw [Truthful, String.append_assoc, String.toList_append, String.toList_append] at h
  exact Bool.noConfusion ((not_truthful_bad_verdict _).symm.trans (truthful_of_append h))

section Numbers

variable (n : Nat)

theorem ne_digitChar : ∀ d < 10, 'V' ≠ Decimal.digitChar d := by decide

theorem number : Truthful (Decimal.text n) :=
  ofList (truthful_of_not_mem (Decimal.not_mem_digits ne_digitChar n))

theorem literal (l : Literal) : Truthful l.text := by
  refine ofList (truthful_of_not_mem fun h => ?_)
  rcases Decimal.mem_signedDigits h with heq | ⟨d, hd, heq⟩
  · exact absurd heq (by decide)
  · exact ne_digitChar d hd heq

theorem blanks : 'V' ∉ List.replicate n ' ' := fun h =>
  absurd (List.eq_of_mem_replicate h) (by decide)

theorem padLeft (width : Nat) (h : Truthful s) : Truthful (Decimal.padLeft width s) := by
  rw [Truthful, Decimal.padLeft, String.toList_ofList]
  exact truthful_append (truthful_of_not_mem (blanks _)) h

theorem padRight (width : Nat) (h : Truthful s) : Truthful (Decimal.padRight width s) := by
  rw [Truthful, Decimal.padRight, String.toList_ofList]
  exact truthful_append h (truthful_of_not_mem (blanks _))

theorem not_mem_padded (places : Nat) : 'V' ∉ (Decimal.digits n).leftpad places '0' := by
  intro h
  rcases List.mem_append.1 h with hzero | hdigit
  · exact absurd (List.eq_of_mem_replicate hzero) (by decide)
  · exact Decimal.not_mem_digits ne_digitChar n hdigit

theorem fraction (places num den : Nat) : Truthful (Decimal.fixedText places num den) := by
  refine ite (number _) (append ?_ (ofList (truthful_of_not_mem (not_mem_padded _ _))))
  exact (number _).append (ofList (by decide))

theorem exact (places parts : Nat) : Truthful (Decimal.exactText places parts) := by
  refine (number _).append (ite (ofList (by decide)) (append (ofList (by decide)) (ofList ?_)))
  refine truthful_of_not_mem fun h => not_mem_padded (parts % Nat.pow 10 places) places ?_
  exact List.mem_reverse.1 ((List.dropWhile_sublist _).mem (List.mem_reverse.1 h))

theorem elapsed : Truthful (Statistics.elapsed n) := by
  refine ite ?_ (ite ?_ (ite ?_ ?_))
  · exact (exact 9 n).append (ofList (by decide))
  · exact (exact 6 n).append (ofList (by decide))
  · exact (exact 3 n).append (ofList (by decide))
  · exact (exact 0 n).append (ofList (by decide))

end Numbers

theorem line {label value : String} (hlabel : Truthful label) (hvalue : Truthful value) :
    Truthful (Statistics.line label value) :=
  (ofList (by decide) : Truthful _)
    |>.append (hlabel.padRight 28)
    |>.append (ofList (by decide))
    |>.append (hvalue.padLeft 18)
    |>.append (ofList (by decide))

theorem rateLine {label : String} (hlabel : Truthful label) (count nanoseconds : Nat) :
    Truthful (Statistics.rateLine label count nanoseconds) :=
  (ofList (by decide) : Truthful _)
    |>.append (hlabel.padRight 20)
    |>.append (ofList (by decide))
    |>.append ((number count).padLeft 12)
    |>.append (ofList (by decide))
    |>.append ((number _).padLeft 9)
    |>.append (ofList (by decide))

theorem block (f : Formula) (candidates : Nat) (a : Solution) (n : CallCounts) (m : Measures) :
    Truthful (Statistics.block f candidates a n m) := by
  have hcount {label : String} (h : Truthful label) (k : Nat) :
      Truthful (Statistics.line label (Decimal.text k)) := line h (number k)
  have hfraction {label : String} (h : Truthful label) (places num den : Nat) :
      Truthful (Statistics.line label (Decimal.fixedText places num den)) :=
    line h (fraction places num den)
  unfold Statistics.block
  refine append ?before ?memory
    |>.append (hfraction (ofList (by decide)) _ _ _)
    |>.append (ofList (by decide))
  case before =>
    exact (ofList (by decide) : Truthful _)
      |>.append (hfraction (ofList (by decide)) _ _ _)
      |>.append (hcount (ofList (by decide)) _)
      |>.append (hcount (ofList (by decide)) _)
      |>.append (hcount (ofList (by decide)) _)
      |>.append (hcount (ofList (by decide)) _)
      |>.append (ofList (by decide))
      |>.append (rateLine (ofList (by decide)) _ _)
      |>.append (hcount (ofList (by decide)) _)
      |>.append (hcount (ofList (by decide)) _)
      |>.append (hcount (ofList (by decide)) _)
      |>.append (hcount (ofList (by decide)) _)
  case memory =>
    split
    · exact (hfraction (ofList (by decide)) _ _ _).append (hfraction (ofList (by decide)) _ _ _)
    · exact ofList (by decide)

theorem clause (c : Clause) : Truthful c.text := by
  apply intercalate (ofList (by decide))
  intro word hword
  rcases List.mem_append.1 hword with hliteral | hzero
  · obtain ⟨l, -, rfl⟩ := List.mem_map.1 hliteral
    exact literal l
  · cases List.mem_singleton.1 hzero
    exact ofList (by decide)

theorem formula (f : Formula) : Truthful f.text := by
  have hclauses : ∀ text ∈ f.clauses.map (fun c => c.text ++ "\n"), Truthful text := by
    intro text htext
    obtain ⟨c, -, rfl⟩ := List.mem_map.1 htext
    exact (clause c).append (ofList (by decide))
  exact (ofList (by decide) : Truthful _)
    |>.append (number _)
    |>.append (ofList (by decide))
    |>.append (number _)
    |>.append (ofList (by decide))
    |>.append (join hclauses)

theorem literals {ls : List Literal} {word : Literal → String} (h : ∀ l, Truthful (word l))
    (hs : Truthful s) : Truthful (s.intercalate (ls.map word)) := by
  apply intercalate hs
  intro t ht
  obtain ⟨l, -, rfl⟩ := List.mem_map.1 ht
  exact h l

theorem solution (a : Solution) : Truthful a.text := by
  have hword (l : Literal) : Truthful ("Literal(" ++ l.text ++ ")") :=
    between (by decide) (literal l) (by decide)
  exact (ofList (by decide) : Truthful _)
    |>.append (ite (ofList (by decide)) (ofList (by decide)))
    |>.append (ofList (by decide))
    |>.append (number _)
    |>.append (ofList (by decide))
    |>.append (literals hword (ofList (by decide)))
    |>.append (ofList (by decide))

end Truthful

variable (o : CommonOptions) (f : Formula) (a : Solution)

theorem truthful_formulaText : Truthful (formulaText o f) := by
  have hformula : Truthful ("CNF: " ++ f.text ++ "\n") :=
    .between (by decide) (.formula f) (by decide)
  have hcount {label : List Char} (h : truthful label = true) (n : Nat) :
      Truthful (.ofList label ++ Decimal.text n ++ "\n") := .between h (.number n) (by decide)
  exact .ite (hformula.append ((hcount (by decide) _).append ((hcount (by decide) _).append
    (hcount (by decide) _)))) (.ofList (by decide))

theorem truthful_answerText (time : Nat) : Truthful (answerText o a time) := by
  have hanswer : Truthful ("Solution: " ++ a.text ++ "\n") :=
    .between (by decide) (.solution a) (by decide)
  have htime : Truthful ("Time: " ++ Statistics.elapsed time ++ "\n") :=
    .between (by decide) (.elapsed time) (by decide)
  exact .ite (hanswer.append htime) (.ofList (by decide))

theorem truthful_detailsText (candidates : Nat) (n : CallCounts) (m : Measures) :
    Truthful (detailsText o f candidates a n m) := by
  have hblock := Truthful.block f candidates a n m
  have hdecisions : Truthful ("Decisions: " ++ " ".intercalate (a.decisions.map Literal.text) ++
      "\n") :=
    .between (by decide) (.literals .literal (.ofList (by decide))) (by decide)
  exact .append (.ite hblock (.ofList (by decide))) (.ite hdecisions (.ofList (by decide)))

theorem truthful_endingText : Truthful (endingText a) :=
  .ite (.ofList (by decide)) (.ofList (by decide))

end SatSearch.CommandLine
