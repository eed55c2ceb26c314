import SatSearch.Formula
import SatSearch.Text.Blank

/-!
# Reading DIMACS

A text in the DIMACS format is read line by line. Comment lines and the header are skipped, a line
that starts with the word `%` ends the data, and the words of all other lines are integers:
literals, and zeros that end clauses. Clauses may span lines and share lines. A zero without
literals before it ends nothing, and the last clause needs no zero.

A line is looked at only when all lines before it are read, so what stands after the first error or
after the end mark does not matter, not even whether it is text.
-/

namespace SatSearch.Dimacs

/-- What a word of a data line stands for. -/
inductive Token where
  | zero
  | literal (literal : Literal)
deriving DecidableEq, Repr

def Token.ofWord? (word : List Char) : Option Token :=
  (Decimal.signed? (-2147483648) 2147483647 word).map fun n =>
    match Literal.ofInt? n with
    | some l => .literal l
    | none => .zero

/-- What a line contributes. -/
inductive LineView where
  | stop
  | skip
  | data (words : List (List Char))
deriving DecidableEq, Repr

def LineView.ofChars (line : List Char) : LineView :=
  match Text.words line with
  | [] => .skip
  | first :: rest =>
    if first = ['%'] then .stop
    else if first = ['p'] || first.head? = some 'c' then .skip
    else .data (first :: rest)

def dropReturn (line : List UInt8) : List UInt8 :=
  if line.getLast? = some 13 then line.dropLast else line

/-- Ends the pieces between line feeds as lines. What stands behind the last line feed is a line
only if it is not empty, and a carriage return there belongs to it. -/
def endLines : List (List UInt8) → List (List UInt8)
  | [] => []
  | [last] => if last.isEmpty then [] else [last]
  | line :: rest => dropReturn line :: endLines rest

def lines (bytes : List UInt8) : List (List UInt8) := endLines (bytes.splitOn 10)

/-- The characters that a line encodes in UTF-8. -/
def decode (line : List UInt8) : Except Error (List Char) :=
  match String.fromUTF8? ⟨line.toArray⟩ with
  | some s => .ok s.toList
  | none => .error (.stream .notUtf8)

def readWords (number : Nat) (words : List (List Char)) : Except Error (List Token) :=
  words.mapM fun word => match Token.ofWord? word with
    | some token => .ok token
    | none => .error (.unreadableLiteral number (String.ofList word))

/-- The tokens of some lines, the first of which has the given number. -/
def readLines (number : Nat) : List (List UInt8) → Except Error (List Token)
  | [] => .ok []
  | line :: rest => do
    match LineView.ofChars (← decode line) with
    | .stop => return []
    | .skip => readLines (number + 1) rest
    | .data words => return (← readWords number words) ++ (← readLines (number + 1) rest)

/-- Gathers the literals between zeros into clauses, leaving out empty ones. `pending` holds the
literals of the clause that is being read, the latest first. -/
def gather (pending : List Literal) : List Token → List Clause
  | [] => if pending.isEmpty then [] else [pending.reverse]
  | .zero :: rest =>
    if pending.isEmpty then gather [] rest else pending.reverse :: gather [] rest
  | .literal l :: rest => gather (l :: pending) rest

def read (bytes : List UInt8) : Except Error Formula := do
  let tokens ← readLines 1 (lines bytes)
  return .ofClauses (gather [] tokens)

/-- Puts a line feed wherever a backslash is followed by the letter n. -/
def expandLineFeeds : List Char → List Char
  | '\\' :: 'n' :: rest => '\n' :: expandLineFeeds rest
  | c :: rest => c :: expandLineFeeds rest
  | [] => []

/-- Reads a formula from text in which line ends may be spelled as a backslash and the letter n. -/
def readText (text : String) : Except Error Formula :=
  read (String.ofList (expandLineFeeds text.toList)).toUTF8.toList

end SatSearch.Dimacs
