import SatSearch.Proofs.DimacsRoundTrip
import SatSearch.Proofs.NumeralSyntax
import Mathlib.Data.List.Forall2

/-!
# The grammar of DIMACS

The reader goes through the lines and carries a clause that is not finished from one to the next. As
a grammar the format is flat: the words of all data lines, in reading order, stand for integers, and
the clauses are the runs of integers between zeros. The reader gives the formula of this grammar,
and where a word is no integer it names the first such word and its line.
-/

namespace SatSearch

section Collect

variable {ε α β : Type} {f : α → Except ε β}

theorem mapM_cons_of_error {x : α} {e : ε} (hx : f x = .error e) (xs : List α) :
    (x :: xs).mapM f = .error e := by
  simp [List.mapM_cons, hx, bind, Except.bind]

theorem mapM_cons_of_ok {x : α} {y : β} (hx : f x = .ok y) (xs : List α) :
    (x :: xs).mapM f = (xs.mapM f).map (y :: ·) := by
  rw [List.mapM_cons, hx]
  rfl

theorem mapM_eq_ok_iff {xs : List α} {ys : List β} :
    xs.mapM f = .ok ys ↔ List.Forall₂ (fun x y => f x = .ok y) xs ys := by
  induction xs generalizing ys with
  | nil => cases ys <;> simp [pure, Except.pure]
  | cons x xs ih =>
    cases hx : f x with
    | error e => cases ys <;> simp [mapM_cons_of_error hx, hx]
    | ok y =>
      rw [mapM_cons_of_ok hx]
      cases hxs : xs.mapM f with
      | error e => cases ys <;> simp [Except.map, ← ih, hxs]
      | ok zs => cases ys <;> simp [Except.map, ← ih, hxs, hx]

/-- A failure is that of the first element that fails. -/
theorem mapM_eq_error_iff {xs : List α} {e : ε} : xs.mapM f = .error e ↔
    ∃ before x after, xs = before ++ x :: after ∧ (∀ b ∈ before, ∃ y, f b = .ok y) ∧
      f x = .error e := by
  constructor
  · intro h
    induction xs with
    | nil => cases h
    | cons x xs ih =>
      cases hx : f x with
      | error e' =>
        cases (mapM_cons_of_error hx xs).symm.trans h
        exact ⟨[], x, xs, rfl, by simp, hx⟩
      | ok y =>
        rw [mapM_cons_of_ok hx] at h
        cases hxs : xs.mapM f with
        | ok ys => simp [hxs, Except.map] at h
        | error e' =>
          rw [hxs] at h
          cases h
          obtain ⟨before, z, after, rfl, hbefore, hz⟩ := ih hxs
          exact ⟨x :: before, z, after, rfl, List.forall_mem_cons.2 ⟨⟨y, hx⟩, hbefore⟩, hz⟩
  · rintro ⟨before, x, after, rfl, hbefore, hx⟩
    induction before with
    | nil => exact mapM_cons_of_error hx after
    | cons b before ih =>
      obtain ⟨⟨y, hb⟩, hbefore⟩ := List.forall_mem_cons.1 hbefore
      rw [List.cons_append, mapM_cons_of_ok hb, ih hbefore]
      rfl

end Collect

theorem Formula.map_toInts_injective : Function.Injective (List.map Clause.toInts) :=
  List.map_injective_iff.2 (List.map_injective_iff.2 fun _ _ => Literal.ext)

namespace Dimacs

/-- The word is an integer of 32 bits. -/
def Spells (word : List Char) (n : Int) : Prop :=
  Decimal.SignedNumeral word n ∧ -2147483648 ≤ n ∧ n ≤ 2147483647

/-- The line, given by its words, holds data, and not a comment, a header or nothing at all. -/
def isData : List (List Char) → Bool
  | [] => false
  | first :: _ => first ≠ ['p'] && first.head? ≠ some 'c'

/-- The words of the data lines among some lines, each with the number of its line. The first line
has the given number, and a line that starts with the word `%` ends the data. -/
def dataWordsFrom (number : Nat) (lines : List (List Char)) : List (List Char × Nat) :=
  let numbered := (lines.map Text.words).zipIdx number
  let data := (numbered.takeWhile fun line => line.1.head? ≠ some ['%']).filter (isData ·.1)
  data.flatMap fun line => line.1.map (·, line.2)

def dataWords (text : List Char) : List (List Char × Nat) := dataWordsFrom 1 (Text.lines text)

theorem dataWordsFrom_cons (number : Nat) (line : List Char) (lines : List (List Char)) :
    dataWordsFrom number (line :: lines) = match LineView.ofChars line with
      | .stop => []
      | .skip => dataWordsFrom (number + 1) lines
      | .data words => words.map (·, number) ++ dataWordsFrom (number + 1) lines := by
  rw [LineView.ofChars, dataWordsFrom, List.map_cons, List.zipIdx_cons]
  cases Text.words line with
  | nil => simp [dataWordsFrom, isData]
  | cons first rest =>
    by_cases hstop : first = ['%']
    · simp [hstop]
    · by_cases hskip : first = ['p'] ∨ first.head? = some 'c'
      · have hdata : isData (first :: rest) = false := by
          simpa [isData, or_iff_not_imp_left] using hskip
        simp [dataWordsFrom, hstop, hskip, hdata]
      · have hdata : isData (first :: rest) = true := by simpa [isData] using hskip
        simp [dataWordsFrom, hstop, hskip, hdata]

def readWord (word : List Char × Nat) : Except Error Token :=
  match Token.ofWord? word.1 with
  | some token => .ok token
  | none => .error (.unreadableLiteral word.2 (String.ofList word.1))

theorem readWords_eq_mapM (number : Nat) (words : List (List Char)) :
    readWords number words = (words.map (·, number)).mapM readWord := by
  induction words with
  | nil => rfl
  | cons word words ih =>
    rw [readWords] at ih ⊢
    rw [List.mapM_cons, List.map_cons, List.mapM_cons, ih]
    rfl

theorem readLines_eq_mapM (number : Nat) (lines : List (List Char)) :
    readLines number (lines.map Text.utf8) = (dataWordsFrom number lines).mapM readWord := by
  induction lines generalizing number with
  | nil => rfl
  | cons line lines ih =>
    rw [List.map_cons, readLines, decode_utf8, dataWordsFrom_cons]
    simp only [bind, Except.bind]
    cases LineView.ofChars line with
    | stop => rfl
    | skip => exact ih _
    | data words =>
      rw [List.mapM_append, ← readWords_eq_mapM, ← ih]
      rfl

theorem Token.value_injective : Function.Injective value := by
  intro s t h
  cases s with
  | zero =>
    cases t with
    | zero => rfl
    | literal l => exact absurd h.symm l.value_ne_zero
  | literal k =>
    cases t with
    | zero => exact absurd h k.value_ne_zero
    | literal l => exact congrArg literal (Literal.ext h)

namespace Token

def ofInt (n : Int) : Token :=
  match Literal.ofInt? n with
  | some l => .literal l
  | none => .zero

theorem value_ofInt {n : Int} (h : -2147483648 ≤ n ∧ n ≤ 2147483647) : (ofInt n).value = n := by
  unfold ofInt
  cases hn : Literal.ofInt? n with
  | some l => exact Literal.value_of_ofInt? hn
  | none =>
    by_contra hne
    have hrange : n ≠ 0 ∧ -2147483648 ≤ n ∧ n ≤ 2147483647 := ⟨Ne.symm hne, h⟩
    simp [Literal.ofInt?, hrange] at hn

theorem ofWord?_eq_some_iff {word : List Char} {t : Token} :
    ofWord? word = some t ↔ Spells word t.value := by
  have hofInt : ofWord? word = (Decimal.signed? (-2147483648) 2147483647 word).map ofInt := rfl
  rw [Spells, ← Decimal.signed?_eq_some_iff, hofInt, Option.map_eq_some_iff]
  constructor
  · rintro ⟨n, hn, rfl⟩
    rwa [value_ofInt (Decimal.signed?_eq_some_iff.1 hn).2]
  · intro h
    exact ⟨t.value, h, value_injective (value_ofInt (Decimal.signed?_eq_some_iff.1 h).2)⟩

theorem ofWord?_eq_none_iff {word : List Char} : ofWord? word = none ↔ ∀ n, ¬Spells word n := by
  constructor
  · intro h n hn
    have hsome := ofWord?_eq_some_iff.2 ((value_ofInt hn.2).symm ▸ hn)
    cases h.symm.trans hsome
  · intro h
    rw [Option.eq_none_iff_forall_ne_some]
    exact fun t ht => h _ (ofWord?_eq_some_iff.1 ht)

end Token

theorem readWord_eq_ok_iff {word : List Char × Nat} {t : Token} :
    readWord word = .ok t ↔ Spells word.1 t.value := by
  rw [← Token.ofWord?_eq_some_iff, readWord]
  cases Token.ofWord? word.1 <;> simp

theorem readWord_eq_error_iff {word : List Char × Nat} {e : Error} : readWord word = .error e ↔
    (∀ n, ¬Spells word.1 n) ∧ e = .unreadableLiteral word.2 (String.ofList word.1) := by
  rw [← Token.ofWord?_eq_none_iff, readWord]
  cases Token.ofWord? word.1 <;> simp [eq_comm]

theorem exists_readWord_iff {word : List Char × Nat} :
    (∃ t, readWord word = .ok t) ↔ ∃ n, Spells word.1 n := by
  simp only [readWord_eq_ok_iff]
  constructor
  · rintro ⟨t, ht⟩
    exact ⟨_, ht⟩
  · rintro ⟨n, hn⟩
    exact ⟨.ofInt n, (Token.value_ofInt hn.2).symm ▸ hn⟩

theorem append_toInts_nil : (Clause.toInts ([] : List Literal).reverse ++ ·) = id := rfl

/-- The clauses are the runs of integers between zeros. Pending literals start the first of them. -/
theorem toInts_gather (pending : List Literal) (tokens : List Token) :
    (gather pending tokens).map Clause.toInts =
      (((tokens.map Token.value).splitOn 0).modifyHead
        (Clause.toInts pending.reverse ++ ·)).filter (· ≠ []) := by
  have hnil (c : Clause) : c.toInts = [] ↔ c = [] := List.map_eq_nil_iff
  induction tokens generalizing pending with
  | nil => by_cases hp : pending = [] <;> simp [gather, hnil, hp]
  | cons t tokens ih =>
    rw [List.map_cons, List.splitOn_cons_eq_if_modifyHead]
    cases t with
    | zero =>
      have hrest := ih []
      rw [append_toInts_nil, List.modifyHead_id, id_eq] at hrest
      by_cases hp : pending = []
      · simp [gather, Token.value, hp, hrest, Clause.toInts]
      · simp [gather, Token.value, hp, hrest, hnil]
    | literal l =>
      have hl : (Token.literal l).value ≠ 0 := l.value_ne_zero
      rw [gather, ih, if_neg (by simpa using hl), List.modifyHead_modifyHead]
      simp [Clause.toInts, Token.value, Function.comp_def]

def Token.literals : Token → List Literal
  | zero => []
  | literal l => [l]

theorem literalsOf_gather (pending : List Literal) (tokens : List Token) :
    Formula.literalsOf (gather pending tokens) =
      pending.reverse ++ tokens.flatMap Token.literals := by
  induction tokens generalizing pending with
  | nil => by_cases hp : pending = [] <;> simp [gather, Formula.literalsOf, hp]
  | cons t tokens ih =>
    cases t with
    | zero =>
      have hrest := ih []
      by_cases hp : pending = []
      · simp [gather, hp, hrest, Token.literals]
      · simp only [Formula.literalsOf] at hrest ⊢
        simp [gather, hp, hrest, Token.literals]
    | literal l => simp [gather, ih, Token.literals]

theorem largestVar_gather (tokens : List Token) :
    Formula.largestVar (gather [] tokens) =
      ((tokens.map Token.value).map Int.natAbs).foldl max 0 := by
  have hfold (top : Nat) : (tokens.flatMap Token.literals).foldl (fun top l => max top l.var) top =
      ((tokens.map Token.value).map Int.natAbs).foldl max top := by
    induction tokens generalizing top with
    | nil => rfl
    | cons t tokens ih =>
      cases t with
      | zero => simpa [Token.literals, Token.value] using ih top
      | literal l => simpa [Token.literals, Token.value, Literal.var] using ih (max top l.var)
  rw [Formula.largestVar, literalsOf_gather]
  exact hfold 0

theorem toInts_ofClauses_gather (tokens : List Token) :
    (Formula.ofClauses (gather [] tokens)).toInts =
      ((tokens.map Token.value).splitOn 0).filter (· ≠ []) := by
  rw [Formula.toInts, Formula.ofClauses, toInts_gather, append_toInts_nil, List.modifyHead_id,
    id_eq]

theorem read_utf8 (text : String) : read text.toUTF8.toList =
    ((dataWords text.toList).mapM readWord).map fun tokens => .ofClauses (gather [] tokens) := by
  rw [read, Text.toList_toUTF8, Text.lines_utf8, readLines_eq_mapM, dataWords]
  cases (dataWordsFrom 1 (Text.lines text.toList)).mapM readWord with
  | ok tokens => rfl
  | error e => rfl

/-- The integers that words stand for are the values of their tokens. -/
theorem forall₂_spells_iff {words : List (List Char × Nat)} {values : List Int} :
    List.Forall₂ (fun word n => Spells word.1 n) words values ↔
      ∃ tokens, words.mapM readWord = .ok tokens ∧ tokens.map Token.value = values := by
  simp only [mapM_eq_ok_iff, readWord_eq_ok_iff]
  constructor
  · intro h
    induction h with
    | nil => exact ⟨[], .nil, rfl⟩
    | @cons word n words values hn _ ih =>
      obtain ⟨tokens, htokens, rfl⟩ := ih
      have hvalue := Token.value_ofInt hn.2
      refine ⟨.ofInt n :: tokens, .cons (hvalue.symm ▸ hn) htokens, ?_⟩
      rw [List.map_cons, hvalue]
  · rintro ⟨tokens, htokens, rfl⟩
    exact List.forall₂_map_right_iff.2 htokens

/-- A text is read as the formula of the integers in its data lines: the clauses are the runs of
integers between zeros, without the empty ones. The text is refused only for a word of a data line
that is no integer, and the error names the first such word and its line. -/
theorem read_iff_grammar (text : String) :
    let words := dataWords text.toList
    (∀ f, read text.toUTF8.toList = .ok f ↔
      ∃ values, List.Forall₂ (fun word n => Spells word.1 n) words values ∧
        f.toInts = (values.splitOn 0).filter (· ≠ []) ∧
        f.numVars = (values.map Int.natAbs).foldl max 0) ∧
    ∀ e, read text.toUTF8.toList = .error e ↔
      ∃ before word number after, words = before ++ (word, number) :: after ∧
        (∀ earlier ∈ before, ∃ n, Spells earlier.1 n) ∧ (∀ n, ¬Spells word n) ∧
        e = .unreadableLiteral number (String.ofList word) := by
  intro words
  have hread := read_utf8 text
  constructor
  · intro f
    constructor
    · intro h
      cases htokens : words.mapM readWord with
      | error e =>
        rw [hread, htokens] at h
        cases h
      | ok tokens =>
        rw [hread, htokens] at h
        cases h
        exact ⟨_, forall₂_spells_iff.2 ⟨tokens, htokens, rfl⟩, toInts_ofClauses_gather tokens,
          largestVar_gather tokens⟩
    · rintro ⟨values, hvalues, hclauses, hvars⟩
      obtain ⟨tokens, htokens, rfl⟩ := forall₂_spells_iff.1 hvalues
      rw [← toInts_ofClauses_gather] at hclauses
      have hf : Formula.ofClauses (gather [] tokens) = f := by
        obtain ⟨clauses, numVars⟩ := f
        have hsame : clauses = gather [] tokens := Formula.map_toInts_injective hclauses
        rw [hsame, Formula.ofClauses, largestVar_gather, ← hvars]
      rw [hread, htokens, ← hf]
      rfl
  · intro e
    have herror : read text.toUTF8.toList = .error e ↔ words.mapM readWord = .error e := by
      rw [hread]
      cases words.mapM readWord <;> simp [Except.map]
    rw [herror, mapM_eq_error_iff]
    simp only [exists_readWord_iff, readWord_eq_error_iff, Prod.exists]

end Dimacs

end SatSearch
