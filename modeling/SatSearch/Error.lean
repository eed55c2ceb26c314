/-!
# Errors and faults

An `Error` is an answer: it says what is wrong with a request, or which budget ran out. A `Fault` is
a misuse of an operation outside the domain on which it is defined, such as the literal of variable
0, an index past the end, or a count that leaves the 64 bits in which sizes are kept. A `Failure` is
either of the two.
-/

namespace SatSearch

inductive StreamError where
  | notFound
  | isDirectory
  | notDirectory
  | nameTooLong
  | notUtf8
  | full
deriving DecidableEq, Repr

def StreamError.message : StreamError → String
  | notFound => "No such file or directory (os error 2)"
  | isDirectory => "Is a directory (os error 21)"
  | notDirectory => "Not a directory (os error 20)"
  | nameTooLong => "File name too long (os error 36)"
  | notUtf8 => "stream did not contain valid UTF-8"
  | full => "failed to write whole buffer"

/-- What is wrong with a request, or which budget ran out. -/
inductive Error where
  | zeroLiteral (clause : Nat)
  | invalidVariable (var : Nat)
  | missingCandidate (var : Nat)
  | stepLimit (limit : Nat)
  | timeout (steps : Nat)
  | tooFewVariables (count : Nat)
  | invalidRange (text : String)
  | unreadableLiteral (line : Nat) (word : String)
  | stream (cause : StreamError)
deriving DecidableEq, Repr

def Error.message : Error → String
  | zeroLiteral clause => s!"clause {clause} contains the literal 0"
  | invalidVariable var => s!"{var} is not a valid variable, variables range over 1..=2147483647"
  | missingCandidate var => s!"variable {var} occurs in the formula but is not a candidate"
  | stepLimit limit => s!"step limit of {limit} exceeded"
  | timeout steps => s!"deadline exceeded after {steps} steps"
  | tooFewVariables count => s!"a 3-SAT instance needs at least 3 variables, got {count}"
  | invalidRange text =>
    s!"invalid range '{text}', expected start:end[:step] with start <= end and step > 0"
  | unreadableLiteral line word => s!"line {line}: failed to parse literal '{word}'"
  | stream cause => s!"I/O error: {cause.message}"

/-- A use of an operation outside its domain. -/
inductive Fault where
  | zeroVariable
  | variableOverflow
  | outOfBounds (length index : Nat)
  | addOverflow
  | exhausted
deriving DecidableEq, Repr

def Fault.message : Fault → String
  | zeroVariable => "variable 0 has no literal"
  | variableOverflow => "literal variable overflowed"
  | outOfBounds length index =>
    s!"index out of bounds: the len is {length} but the index is {index}"
  | addOverflow => "attempt to add with overflow"
  | exhausted => "no acceptable number in the whole period"

inductive Failure where
  | error (error : Error)
  | fault (fault : Fault)
deriving DecidableEq, Repr

def Failure.message : Failure → String
  | error e => e.message
  | fault f => f.message

/-- The largest size, step count or total: the largest number of 64 bits. -/
def maxCount : Nat := 18446744073709551615

/-- The sum of two counts, as far as it is one. -/
def addCounts (a b : Nat) : Except Fault Nat :=
  if a + b ≤ maxCount then .ok (a + b) else .error .addOverflow

theorem addCounts_eq_ok_iff {a b c : Nat} :
    addCounts a b = .ok c ↔ a + b ≤ maxCount ∧ c = a + b := by
  unfold addCounts
  split <;> grind

end SatSearch
