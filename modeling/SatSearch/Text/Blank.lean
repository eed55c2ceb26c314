/-!
# White space

The characters of the Unicode property `White_Space`, and the two ways in which text is cut at them:
into words, and at both of its ends.
-/

namespace SatSearch.Text

/-- Membership in the Unicode property `White_Space`, which holds of 25 characters. -/
def isBlank (c : Char) : Bool :=
  let n := c.toNat
  (0x0009 ≤ n && n ≤ 0x000D) || n = 0x0020 || n = 0x0085 || n = 0x00A0 || n = 0x1680 ||
    (0x2000 ≤ n && n ≤ 0x200A) || n = 0x2028 || n = 0x2029 || n = 0x202F || n = 0x205F ||
    n = 0x3000

/-- The maximal runs of characters that are not white space, in order. -/
def words (cs : List Char) : List (List Char) :=
  (cs.splitOnP isBlank).filter fun word => !word.isEmpty

def trim (cs : List Char) : List Char :=
  ((cs.dropWhile isBlank).reverse.dropWhile isBlank).reverse

end SatSearch.Text
