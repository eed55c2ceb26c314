import SatSearch.Proofs.TextLines

/-!
# The reader looks no further than it has to

Bytes that consist of whole lines are read as far as their first error or their end mark, and what
stands behind it cannot be told from the result. So nothing behind an end mark matters, whether it
is text or not, and no later line changes an error.
-/

namespace SatSearch.Dimacs

/-- There are no bytes, or the last of them is a line feed. -/
def WholeLines (bytes : List UInt8) : Prop := bytes = [] ∨ bytes.getLast? = some 10

def endMark : List UInt8 := [37, 10]

/-- Pieces in front of other ones end with a line feed each. -/
theorem endLines_append {pieces later : List (List UInt8)} (h : later ≠ []) :
    endLines (pieces ++ later) = pieces.map dropReturn ++ endLines later := by
  induction pieces with
  | nil => rfl
  | cons piece pieces ih =>
    obtain ⟨next, rest, hnext⟩ := List.exists_cons_of_ne_nil
      (l := pieces ++ later) (List.append_ne_nil_of_right_ne_nil pieces h)
    rw [List.cons_append, List.map_cons, List.cons_append, ← ih, hnext]
    rfl

theorem lines_append_cons (bytes rest : List UInt8) :
    lines (bytes ++ 10 :: rest) = (bytes.splitOn 10).map dropReturn ++ lines rest := by
  rw [lines, List.splitOn_append_cons_self, endLines_append (List.splitOn_ne_nil 10 rest), lines]

/-- Bytes behind whole lines make lines of their own. -/
theorem lines_append {bytes : List UInt8} (h : WholeLines bytes) (rest : List UInt8) :
    lines (bytes ++ rest) = lines bytes ++ lines rest := by
  rcases h with rfl | hlast
  · rfl
  · obtain ⟨before, rfl⟩ := List.getLast?_eq_some_iff.1 hlast
    have hnil : lines [] = [] := rfl
    rw [List.append_assoc, List.singleton_append, lines_append_cons, lines_append_cons, hnil,
      List.append_nil]

/-- Later lines are not looked at, or they only add tokens to those of the lines before them. -/
theorem readLines_append (number : Nat) (before later : List (List UInt8)) :
    readLines number (before ++ later) = readLines number before ∨
      ∃ tokens, readLines number before = .ok tokens ∧
        readLines number (before ++ later) =
          (readLines (number + before.length) later).map (tokens ++ ·) := by
  induction before generalizing number with
  | nil =>
    refine .inr ⟨[], rfl, ?_⟩
    cases hlater : readLines number later <;> simp [Except.map, hlater]
  | cons line before ih =>
    have hnumber : number + (line :: before).length = number + 1 + before.length := by
      rw [List.length_cons, Nat.add_assoc, Nat.add_comm 1]
    rw [List.cons_append, readLines, readLines, hnumber]
    cases decode line with
    | error e => exact .inl rfl
    | ok cs =>
      simp only [bind, Except.bind]
      cases LineView.ofChars cs with
      | stop => exact .inl rfl
      | skip => exact ih (number + 1)
      | data words =>
        cases hwords : readWords number words with
        | error e => exact .inl (by simp only [hwords])
        | ok tokens =>
          simp only [hwords]
          rcases ih (number + 1) with hsame | ⟨more, hbefore, hlater⟩
          · exact .inl (by rw [hsame])
          · refine .inr ⟨tokens ++ more, by rw [hbefore]; rfl, ?_⟩
            rw [hlater]
            cases readLines (number + 1 + before.length) later with
            | error e => rfl
            | ok last => simp [Except.map, pure, Except.pure]

theorem readLines_endMark (number : Nat) (rest : List UInt8) :
    readLines number (lines (endMark ++ rest)) = .ok [] := by
  have hline : lines (endMark ++ rest) = [37] :: lines rest := lines_append_cons [37] rest
  have hstop : LineView.ofChars ['%'] = .stop := rfl
  rw [hline, readLines, show decode [37] = .ok ['%'] from decode_utf8 ['%']]
  simp only [bind, Except.bind, hstop]
  rfl

/-- What stands behind an end mark could as well be missing, and the mark itself too. -/
theorem read_append_endMark {bytes : List UInt8} (h : WholeLines bytes) (rest : List UInt8) :
    read (bytes ++ endMark ++ rest) = read bytes := by
  have hlines :
      readLines 1 (lines bytes ++ lines (endMark ++ rest)) = readLines 1 (lines bytes) := by
    rcases readLines_append 1 (lines bytes) (lines (endMark ++ rest)) with
      hsame | ⟨tokens, hok, hadd⟩
    · exact hsame
    · rw [hadd, readLines_endMark, hok, Except.map, List.append_nil]
  rw [List.append_assoc, read, lines_append h, hlines, read]

theorem read_append_of_error {bytes : List UInt8} (h : WholeLines bytes) {e : Error}
    (he : read bytes = .error e) (rest : List UInt8) : read (bytes ++ rest) = .error e := by
  rw [read] at he
  rw [read, lines_append h]
  rcases readLines_append 1 (lines bytes) (lines rest) with hsame | ⟨tokens, hok, -⟩
  · rw [hsame]
    exact he
  · rw [hok] at he
    cases he

/-- Behind whole lines and an end mark, all bytes are alike, and so are all bytes behind whole lines
that are refused. -/
theorem read_ignores_rest {bytes : List UInt8} (h : WholeLines bytes) :
    (∀ x y, read (bytes ++ endMark ++ x) = read (bytes ++ endMark ++ y)) ∧
      ∀ e, read bytes = .error e → ∀ x, read (bytes ++ x) = .error e := by
  constructor
  · intro x y
    rw [read_append_endMark h, read_append_endMark h]
  · intro e he x
    exact read_append_of_error h he x

/-- The byte 255 is no text in UTF-8, and the letter `a` is no integer. Behind an end mark they are
alike, and otherwise the one that comes first is the error. -/
theorem read_ignores_rest_not_utf8 :
    let clause : List UInt8 := [49, 32, 48, 10]
    let letter : List UInt8 := [97, 10]
    let noText : List UInt8 := [255, 10]
    WholeLines clause ∧ WholeLines letter ∧ WholeLines noText ∧
      read (clause ++ endMark ++ letter) = read (clause ++ endMark ++ noText) ∧
      read (letter ++ noText) = .error (.unreadableLiteral 1 "a") ∧
      read (noText ++ letter) = .error (.stream .notUtf8) := by
  intro clause letter noText
  have hclause : WholeLines clause := .inr rfl
  have hletter : WholeLines letter := .inr rfl
  have hnoText : WholeLines noText := .inr rfl
  have hunreadable : read letter = .error (.unreadableLiteral 1 "a") := rfl
  have hnotUtf8 : read noText = .error (.stream .notUtf8) := rfl
  exact ⟨hclause, hletter, hnoText, (read_ignores_rest hclause).1 letter noText,
    (read_ignores_rest hletter).2 _ hunreadable noText,
    (read_ignores_rest hnoText).2 _ hnotUtf8 letter⟩

end SatSearch.Dimacs
