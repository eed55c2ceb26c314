import SatSearch.Dimacs.Writer
import SatSearch.Proofs.DecimalRoundTrip
import SatSearch.Proofs.TextLines

/-!
# Written formulas are read back

The text of a formula consists of comment lines and a header, which the reader skips, and of one line
for each clause. The words of such a line are the literals of the clause and a zero, so the reader
gets all tokens in order and gathers the clauses again, up to the empty ones, whose zeros end nothing.
-/

namespace SatSearch

namespace Text

theorem words_append_cons {word : List Char} {b : Char} (hne : word ≠ [])
    (hword : ∀ c ∈ word, isBlank c = false) (hb : isBlank b = true) (rest : List Char) :
    words (word ++ b :: rest) = word :: words rest := by
  rw [words, List.splitOnP_append_cons_of_forall_mem hword b hb, words]
  simp [hne]

theorem words_of_forall_not_blank {word : List Char} (hne : word ≠ [])
    (hword : ∀ c ∈ word, isBlank c = false) : words word = [word] := by
  rw [words, List.splitOnP_eq_singleton hword]
  simp [hne]

theorem words_intercalate {ws : List (List Char)}
    (h : ∀ w ∈ ws, w ≠ [] ∧ ∀ c ∈ w, isBlank c = false) : words ([' '].intercalate ws) = ws := by
  induction ws with
  | nil => rfl
  | cons w ws ih =>
    obtain ⟨⟨hne, hw⟩, hws⟩ := List.forall_mem_cons.1 h
    cases ws with
    | nil => rw [List.intercalate_singleton, words_of_forall_not_blank hne hw]
    | cons next later =>
      rw [List.intercalate_cons_cons, List.append_assoc, List.singleton_append,
        words_append_cons hne hw (by decide), ih hws]

/-- The blanks between such words are the only ones. -/
theorem eq_space_of_mem_intercalate {ws : List (List Char)} {c : Char}
    (h : ∀ w ∈ ws, ∀ c ∈ w, isBlank c = false) (hc : c ∈ [' '].intercalate ws)
    (hb : isBlank c = true) : c = ' ' := by
  induction ws with
  | nil => cases hc
  | cons w ws ih =>
    obtain ⟨hw, hws⟩ := List.forall_mem_cons.1 h
    have hcw : c ∉ w := fun hcw => by simp [hw c hcw] at hb
    cases ws with
    | nil =>
      rw [List.intercalate_singleton] at hc
      exact absurd hc hcw
    | cons next later =>
      rw [List.intercalate_cons_cons, List.append_assoc, List.mem_append, List.mem_append] at hc
      rcases hc with hc | hc | hc
      · exact absurd hc hcw
      · exact List.mem_singleton.1 hc
      · exact ih hws hc

end Text

namespace Dimacs

namespace Token

def value : Token → Int
  | zero => 0
  | literal l => l.value

def word (t : Token) : List Char := Decimal.signedDigits t.value

theorem ofWord?_word (t : Token) : ofWord? t.word = some t := by
  cases t with
  | zero =>
    rw [ofWord?, word, value, Decimal.signed?_signedDigits (by decide) (by decide)]
    rfl
  | literal l =>
    rw [ofWord?, word, value, Decimal.signed?_signedDigits l.le_value l.value_le, Option.map_some,
      Literal.ofInt?_value]

theorem words_intercalate_word (tokens : List Token) :
    Text.words ([' '].intercalate (tokens.map word)) = tokens.map word := by
  apply Text.words_intercalate
  intro w hw
  obtain ⟨t, -, rfl⟩ := List.mem_map.1 hw
  exact ⟨Decimal.signedDigits_ne_nil _, fun c => Decimal.isBlank_of_mem_signedDigits⟩

/-- A written token does not start a comment, a header or the end of the data. -/
theorem not_mem_word {t : Token} {c : Char} (hc : c = '%' ∨ c = 'p' ∨ c = 'c') : c ∉ t.word := by
  have hdigits : ∀ d < 10, Decimal.digitChar d ≠ '%' ∧ Decimal.digitChar d ≠ 'p' ∧
      Decimal.digitChar d ≠ 'c' := by decide
  intro h
  rcases Decimal.mem_signedDigits h with rfl | ⟨d, hd, rfl⟩
  · simp at hc
  · obtain ⟨hstop, hheader, hcomment⟩ := hdigits d hd
    simp [hstop, hheader, hcomment] at hc

end Token

theorem readWords_map_word (number : Nat) (tokens : List Token) :
    readWords number (tokens.map Token.word) = .ok tokens := by
  induction tokens with
  | nil => rfl
  | cons t tokens ih =>
    rw [readWords] at ih ⊢
    rw [List.map_cons, List.mapM_cons, ih, t.ofWord?_word]
    rfl

theorem LineView.ofChars_intercalate_word (t : Token) (tokens : List Token) :
    ofChars ([' '].intercalate ((t :: tokens).map Token.word)) =
      .data ((t :: tokens).map Token.word) := by
  have hstop : t.word ≠ ['%'] := fun h => Token.not_mem_word (t := t) (.inl rfl) (by simp [h])
  have hheader : t.word ≠ ['p'] :=
    fun h => Token.not_mem_word (t := t) (.inr (.inl rfl)) (by simp [h])
  have hcomment : t.word.head? ≠ some 'c' :=
    fun h => Token.not_mem_word (t := t) (.inr (.inr rfl)) (List.mem_of_mem_head? h)
  rw [ofChars, Token.words_intercalate_word, List.map_cons]
  simp [hstop, hheader, hcomment]

/-- Comment lines and headers are skipped, whatever stands behind their first word. -/
theorem LineView.ofChars_skip {c : Char} (hc : c = 'c' ∨ c = 'p') (rest : List Char) :
    ofChars (c :: ' ' :: rest) = .skip := by
  have hblank : ∀ x ∈ [c], Text.isBlank x = false := by
    rw [List.forall_mem_singleton]
    rcases hc with rfl | rfl <;> decide
  have hwords : Text.words (c :: ' ' :: rest) = [c] :: Text.words rest :=
    Text.words_append_cons (List.cons_ne_nil c []) hblank (by decide) rest
  rw [ofChars, hwords]
  rcases hc with rfl | rfl <;> simp

theorem readLines_skip {line : List Char} (h : LineView.ofChars line = .skip) (number : Nat)
    (rest : List (List UInt8)) :
    readLines number (Text.utf8 line :: rest) = readLines (number + 1) rest := by
  rw [readLines, decode_utf8]
  simp only [bind, Except.bind, h]

theorem readLines_data {line : List Char} {words : List (List Char)} {tokens later : List Token}
    {number : Nat} {rest : List (List UInt8)} (h : LineView.ofChars line = .data words)
    (htokens : readWords number words = .ok tokens)
    (hlater : readLines (number + 1) rest = .ok later) :
    readLines number (Text.utf8 line :: rest) = .ok (tokens ++ later) := by
  rw [readLines, decode_utf8]
  simp only [bind, Except.bind, h, htokens, hlater, pure, Except.pure]

def tokensOf (c : Clause) : List Token := c.map .literal ++ [.zero]

theorem gather_tokensOf (c : Clause) (pending : List Literal) (rest : List Token) :
    gather pending (tokensOf c ++ rest) =
      if pending.reverse ++ c = [] then gather [] rest
      else (pending.reverse ++ c) :: gather [] rest := by
  -- For any pending literals, since each literal of the clause becomes one before its zero is read.
  induction c generalizing pending with
  | nil => cases pending <;> simp [tokensOf, gather]
  | cons l c ih =>
    have hcons := ih (l :: pending)
    simp only [tokensOf, List.map_cons, List.cons_append, gather] at hcons ⊢
    rw [hcons]
    simp

theorem gather_flatMap_tokensOf (clauses : List Clause) :
    gather [] (clauses.flatMap tokensOf) = clauses.filter (· ≠ []) := by
  induction clauses with
  | nil => rfl
  | cons c clauses ih =>
    rw [List.flatMap_cons, gather_tokensOf, ih]
    by_cases hc : c = [] <;> simp [hc]

theorem nil_not_mem_gather (pending : List Literal) (tokens : List Token) :
    [] ∉ gather pending tokens := by
  fun_induction gather pending tokens with
  | case1 pending h => simp
  | case2 pending h => simpa using Ne.symm (by simpa using h)
  | case3 pending rest h ih => exact ih
  | case4 pending rest h ih => simpa [ih] using h
  | case5 pending l rest ih => exact ih

end Dimacs

open Dimacs in
theorem Clause.toList_text (c : Clause) :
    c.text.toList = [' '].intercalate ((tokensOf c).map Token.word) := by
  have hliterals : (c.map Literal.text).map String.toList = (c.map Token.literal).map Token.word := by
    simp only [List.map_map]
    apply List.map_congr_left
    intro l _
    exact String.toList_ofList
  have hzero : Token.word .zero = ['0'] := by
    simp [Token.word, Token.value, Decimal.signedDigits, Decimal.digits, Decimal.digitChar]
  rw [Clause.text, String.toList_intercalate, List.map_append, hliterals, tokensOf, List.map_append,
    List.map_singleton, List.map_singleton, hzero]
  rfl

theorem Clause.eq_space_of_mem_text {c : Clause} {x : Char} (h : x ∈ c.text.toList)
    (hb : Text.isBlank x = true) : x = ' ' := by
  rw [toList_text] at h
  refine Text.eq_space_of_mem_intercalate ?_ h hb
  intro w hw
  obtain ⟨t, -, rfl⟩ := List.mem_map.1 hw
  exact fun x => Decimal.isBlank_of_mem_signedDigits

namespace Formula

def preamble (f : Formula) (comments : List String) : List (List Char) :=
  comments.map (fun comment => 'c' :: ' ' :: comment.toList) ++
    ['p' :: ' ' :: 'c' :: 'n' :: 'f' :: ' ' ::
      (Decimal.digits f.numVars ++ ' ' :: Decimal.digits f.clauses.length)]

def dimacsLines (f : Formula) (comments : List String) : List (List Char) :=
  f.preamble comments ++ f.clauses.map (·.text.toList)

theorem toList_dimacs (f : Formula) (comments : List String) :
    (f.dimacs comments).toList = (f.dimacsLines comments).flatMap (· ++ ['\n']) := by
  simp [dimacs, text, dimacsLines, preamble, Decimal.text, String.toList_join, List.flatMap_map]

theorem not_mem_of_mem_dimacsLines {f : Formula} {comments : List String}
    (h : ∀ comment ∈ comments, '\n' ∉ comment.toList) :
    ∀ line ∈ f.dimacsLines comments, '\n' ∉ line := by
  have hnumber (n : Nat) : '\n' ∉ Decimal.digits n := fun hn =>
    Bool.noConfusion (Decimal.isBlank_of_mem_digits hn)
  intro line hline
  simp only [dimacsLines, preamble, List.mem_append, List.mem_singleton, List.mem_map] at hline
  rcases hline with (⟨comment, hcomment, rfl⟩ | rfl) | ⟨c, -, rfl⟩
  · simpa using h comment hcomment
  · simpa using ⟨hnumber f.numVars, hnumber f.clauses.length⟩
  · intro hc
    simpa using Clause.eq_space_of_mem_text hc (by decide)

end Formula

namespace Dimacs

theorem readLines_append_skip {skipped : List (List Char)}
    (h : ∀ line ∈ skipped, LineView.ofChars line = .skip) (number : Nat)
    (rest : List (List UInt8)) :
    readLines number (skipped.map Text.utf8 ++ rest) =
      readLines (number + skipped.length) rest := by
  induction skipped generalizing number with
  | nil => rfl
  | cons line skipped ih =>
    obtain ⟨hline, hskipped⟩ := List.forall_mem_cons.1 h
    rw [List.map_cons, List.cons_append, readLines_skip hline, ih hskipped, List.length_cons,
      Nat.add_assoc, Nat.add_comm 1]

theorem readLines_clauses (clauses : List Clause) (number : Nat) :
    readLines number (clauses.map fun c => Text.utf8 c.text.toList) =
      .ok (clauses.flatMap tokensOf) := by
  induction clauses generalizing number with
  | nil => rfl
  | cons c clauses ih =>
    have hview : LineView.ofChars c.text.toList = .data ((tokensOf c).map Token.word) := by
      rw [Clause.toList_text]
      cases c with
      | nil => exact LineView.ofChars_intercalate_word _ _
      | cons l c => exact LineView.ofChars_intercalate_word _ _
    rw [List.map_cons, List.flatMap_cons]
    exact readLines_data hview (readWords_map_word number _) (ih (number + 1))

/-- A comment may lose a carriage return at its end, but it stays a comment. -/
theorem LineView.ofChars_preamble (f : Formula) (comments : List String) :
    ∀ line ∈ (f.preamble comments).map Text.dropReturn, ofChars line = .skip := by
  intro line hline
  obtain ⟨whole, hwhole, rfl⟩ := List.mem_map.1 hline
  have hstart : ∃ c rest, (c = 'c' ∨ c = 'p') ∧ whole = c :: ' ' :: rest := by
    simp only [Formula.preamble, List.mem_append, List.mem_singleton, List.mem_map] at hwhole
    rcases hwhole with ⟨comment, -, rfl⟩ | rfl
    · exact ⟨_, _, .inl rfl, rfl⟩
    · exact ⟨_, _, .inr rfl, rfl⟩
  obtain ⟨c, rest, hc, rfl⟩ := hstart
  obtain ⟨rest', hdrop⟩ := Text.dropReturn_cons_cons (d := ' ') (by decide) c rest
  rw [hdrop, ofChars_skip hc]

theorem readLines_dimacsLines (f : Formula) (comments : List String) (number : Nat) :
    readLines number (((f.dimacsLines comments).map Text.dropReturn).map Text.utf8) =
      .ok (f.clauses.flatMap tokensOf) := by
  have hclause (c : Clause) : Text.dropReturn c.text.toList = c.text.toList := by
    apply Text.dropReturn_of_not_mem
    intro hc
    simpa using Clause.eq_space_of_mem_text hc (by decide)
  rw [Formula.dimacsLines, List.map_append, List.map_append,
    readLines_append_skip (LineView.ofChars_preamble f comments)]
  simp only [List.map_map, Function.comp_def, hclause]
  exact readLines_clauses f.clauses _

theorem read_dimacs {f : Formula} {comments : List String}
    (h : ∀ comment ∈ comments, '\n' ∉ comment.toList) :
    read (f.dimacs comments).toUTF8.toList = .ok (.ofClauses (f.clauses.filter (· ≠ []))) := by
  have hlines : lines (f.dimacs comments).toUTF8.toList =
      ((f.dimacsLines comments).map Text.dropReturn).map Text.utf8 := by
    rw [Text.toList_toUTF8, Text.lines_utf8, Formula.toList_dimacs,
      Text.lines_flatMap (Formula.not_mem_of_mem_dimacsLines h)]
  simp only [read, hlines, readLines_dimacsLines, bind, Except.bind, gather_flatMap_tokensOf, pure,
    Except.pure]

end Dimacs

theorem Formula.ofClauses_filter_eq_iff {f : Formula} :
    ofClauses (f.clauses.filter (· ≠ [])) = f ↔
      [] ∉ f.clauses ∧ f.numVars = largestVar f.clauses := by
  have hkeep : f.clauses.filter (· ≠ []) = f.clauses ↔ [] ∉ f.clauses := by
    rw [List.filter_eq_self]
    constructor
    · intro h hnil
      simpa using h [] hnil
    · intro h c hc
      have hne : c ≠ [] := fun he => h (he ▸ hc)
      simpa using hne
  constructor
  · intro h
    have hclauses : f.clauses.filter (· ≠ []) = f.clauses := congrArg clauses h
    rw [hclauses] at h
    exact ⟨hkeep.1 hclauses, (congrArg numVars h).symm⟩
  · rintro ⟨hnil, hvars⟩
    rw [hkeep.2 hnil, ofClauses, ← hvars]

namespace Dimacs

/-- The reader returns no empty clause, and it derives the number of variables. -/
theorem ofClauses_filter_of_read {bytes : List UInt8} {f : Formula} (h : read bytes = .ok f) :
    .ofClauses (f.clauses.filter (· ≠ [])) = f := by
  rw [Formula.ofClauses_filter_eq_iff]
  unfold read at h
  cases htokens : readLines 1 (lines bytes) with
  | error e =>
    rw [htokens] at h
    cases h
  | ok tokens =>
    rw [htokens] at h
    cases h
    exact ⟨nil_not_mem_gather [] tokens, rfl⟩

/-- Reading what was written gives the formula of the clauses that are not empty. This is the formula
itself if it has no others and its number of variables is the largest one, as for every formula that
was read. -/
theorem read_written {f : Formula} {comments : List String}
    (h : ∀ comment ∈ comments, '\n' ∉ comment.toList) :
    let written := (f.dimacs comments).toUTF8.toList
    read written = .ok (.ofClauses (f.clauses.filter (· ≠ []))) ∧
      (read written = .ok f ↔ [] ∉ f.clauses ∧ f.numVars = Formula.largestVar f.clauses) ∧
      ∀ bytes, read bytes = .ok f → read written = .ok f := by
  intro written
  have hread : read written = .ok (.ofClauses (f.clauses.filter (· ≠ []))) := read_dimacs h
  refine ⟨hread, ?_, ?_⟩
  · rw [hread, Except.ok.injEq, Formula.ofClauses_filter_eq_iff]
  · intro bytes hbytes
    rw [hread, ofClauses_filter_of_read hbytes]

/-- The empty clause is lost, and the number of variables is found anew. Once read, the formula stays
as it is. -/
theorem read_written_with_comments :
    let f : Formula := ⟨[[.of (-2147483648), .of 7, .of 7], [], [.of (-1)]], 3⟩
    let g : Formula := .ofClauses [[.of (-2147483648), .of 7, .of 7], [.of (-1)]]
    let comments := ["", "seed 5\r", "% p cnf \u2003"]
    (∀ comment ∈ comments, '\n' ∉ comment.toList) ∧
      read (f.dimacs comments).toUTF8.toList = .ok g ∧
      read (f.dimacs comments).toUTF8.toList ≠ .ok f ∧
      read (g.dimacs comments).toUTF8.toList = .ok g := by
  intro f g comments
  have h : ∀ comment ∈ comments, '\n' ∉ comment.toList := by decide
  obtain ⟨hf, hiff, -⟩ := read_written (f := f) h
  have hg : read (f.dimacs comments).toUTF8.toList = .ok g := hf
  exact ⟨h, hg, fun he => (hiff.1 he).1 (by decide), (read_written (f := g) h).2.2 _ hg⟩

end Dimacs

end SatSearch
