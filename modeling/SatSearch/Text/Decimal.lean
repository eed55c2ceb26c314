/-!
# Decimal integers

Decimal writing of natural numbers and integers, and the reading of integers from text.

A written number has no leading zero and no plus sign. A text that is read may have one sign and
any number of leading zeros, but consists of ASCII digits otherwise; the reader is given the range
of the values that it may return.
-/

namespace SatSearch.Decimal

def digitChar (d : Nat) : Char := Char.ofNat (48 + d)

/-- The decimal digits of a number, the most significant first. -/
def digits (n : Nat) : List Char :=
  if n < 10 then [digitChar n] else digits (n / 10) ++ [digitChar (n % 10)]

def signedDigits (n : Int) : List Char :=
  if n < 0 then '-' :: digits n.natAbs else digits n.natAbs

def text (n : Nat) : String := String.ofList (digits n)

def signedText (n : Int) : String := String.ofList (signedDigits n)

def digitValue? (c : Char) : Option Nat :=
  if '0' ≤ c ∧ c ≤ '9' then some (c.toNat - 48) else none

/-- Continues a number by further digits; any other character makes the whole text unreadable. -/
def readDigits (value : Nat) : List Char → Option Nat
  | [] => some value
  | c :: cs => match digitValue? c with
    | some d => readDigits (10 * value + d) cs
    | none => none

def natural? : List Char → Option Nat
  | [] => none
  | c :: cs => readDigits 0 (c :: cs)

/-- The characters after one plus sign, if there is one in front. -/
def dropPlus : List Char → List Char
  | '+' :: cs => cs
  | cs => cs

def unsigned? (greatest : Nat) (cs : List Char) : Option Nat :=
  (natural? (dropPlus cs)).filter (· ≤ greatest)

/-- Reads an integer between `least` and `greatest`, with an optional sign. -/
def signed? (least greatest : Int) (cs : List Char) : Option Int :=
  let value := match cs with
    | '-' :: ds => (natural? ds).map fun n => -(n : Int)
    | _ => (natural? (dropPlus cs)).map fun n => (n : Int)
  value.filter fun n => least ≤ n && n ≤ greatest

@[simp] theorem readDigits_nil (value : Nat) : readDigits value [] = some value := rfl

@[simp] theorem natural?_nil : natural? [] = none := rfl

end SatSearch.Decimal
