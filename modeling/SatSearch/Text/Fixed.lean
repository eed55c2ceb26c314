import SatSearch.Text.Decimal

/-!
# Numbers with decimal places

Fractions are rounded to a number of places, a half going to the even neighbour. A finite
floating-point number is a fraction, and is written as that exact fraction is. A number of parts of a
unit, of which a power of ten make up the unit, is written exactly, with no more places than it takes.
-/

namespace SatSearch.Decimal

/-- The integer nearest to a fraction; of two, the even one. -/
def roundDiv (num den : Nat) : Nat :=
  let quotient := num / den
  let double := 2 * (num % den)
  if double < den then quotient
  else if den < double then quotient + 1
  else quotient + quotient % 2

def fixedText (places num den : Nat) : String :=
  let unit := Nat.pow 10 places
  let scaled := roundDiv (num * unit) den
  let whole := text (scaled / unit)
  if places = 0 then whole
  else whole ++ "." ++ String.ofList ((digits (scaled % unit)).leftpad places '0')

/-- So many parts in units of `10 ^ places` parts. -/
def exactText (places parts : Nat) : String :=
  let unit := Nat.pow 10 places
  let padded := (digits (parts % unit)).leftpad places '0'
  let decimals := (padded.reverse.dropWhile (· = '0')).reverse
  text (parts / unit) ++ if decimals.isEmpty then "" else "." ++ String.ofList decimals

/-- The magnitude of a finite floating-point number as a fraction: its significand, which has 52
bits after the leading one, doubled or halved as often as its exponent says. -/
def fraction (x : Float) : Nat × Nat :=
  let bits := x.toBits.toNat % (1 <<< 63)
  let exponent := bits >>> 52
  let significand := if exponent = 0 then bits else (1 <<< 52) + bits % (1 <<< 52)
  let shift := max exponent 1
  if 1075 ≤ shift then (significand <<< (shift - 1075), 1)
  else (significand, 1 <<< (1075 - shift))

def floatText (places : Nat) (x : Float) : String :=
  fixedText places (fraction x).1 (fraction x).2

def padLeft (width : Nat) (s : String) : String := String.ofList (s.toList.leftpad width ' ')

def padRight (width : Nat) (s : String) : String := String.ofList (s.toList.rightpad width ' ')

end SatSearch.Decimal
