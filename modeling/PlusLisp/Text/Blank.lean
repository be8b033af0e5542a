/-!
Blank characters: the spaces, tabs, line breaks and separators that may stand between tokens.
-/

namespace PlusLisp.Text

/-- Holds of the blank characters of all scripts, the four information separators and the next
line character among them. -/
def isBlank (c : Char) : Bool :=
  let n := c.toNat
  (0x09 ≤ n && n ≤ 0x0d) || (0x1c ≤ n && n ≤ 0x20) || n == 0x85 || n == 0xa0 || n == 0x1680 ||
    (0x2000 ≤ n && n ≤ 0x200a) || n == 0x2028 || n == 0x2029 || n == 0x202f || n == 0x205f ||
    n == 0x3000

end PlusLisp.Text
